import LinuxProgramming.ProcessTree

/-! The linked list of `pstree.c` in memory, and the two loops that go along it. The first
insertion links its node to itself; the second one repairs that. With one process no loop over
the list ever comes to its end, with any other number the list is the sequence on which
`ProcessTree` builds. -/
namespace ProcessList

open CharStrings FallibleLoops ProcessTree

/-- A node in memory. Pointers are numbers: the nodes are counted as they are allocated. -/
structure ListNode where
  process : Process
  next : Option ℕ

structure ProcessLl where
  nodes : List ListNode
  start : Option ℕ
  head : Option ℕ

def noProcesses : ProcessLl := ⟨[], none, none⟩

/-- `strcpy` writes past `name[128]` unless the name and its terminator fit. -/
def createAndInsertProcessNodeLl (granted : Bool) (s : ProcessLl) (p : Process) :
    Except Failure ProcessLl :=
  if granted = false then .error .malloc
  else if 128 ≤ p.name.bytes.length then .error .outOfBounds
  else
    let res := s.nodes.length
    let nodes := s.nodes ++ [⟨p, none⟩]
    let start := if s.start = none then some res else s.start
    let head := if s.start = none then start else s.head
    match head with
    | none => .error .outOfBounds
    | some last => .ok
      { nodes := nodes.modify last fun node => { node with next := some res }
        start := start
        head := some res }

/-- The calls of a scan of `/proc`. One that finds no memory ends the program. -/
def insertAll (ps : List Process) : Except Failure ProcessLl :=
  ps.foldlM (createAndInsertProcessNodeLl true) noProcesses

def nextOf (s : ProcessLl) (i : ℕ) : Option ℕ := (s.nodes[i]?).bind ListNode.next

/-- `for (i = start; i != NULL; i = i->next)`: the body changes `acc`, or leaves the loop with a
result, or never comes to an end itself. No result means more rounds than the bound. -/
def follow (s : ProcessLl) (body : σ → ℕ → Option (Except ρ σ)) :
    ℕ → Option ℕ → σ → Option (Except ρ σ)
  | 0, _, _ => none
  | _ + 1, none, acc => some (.ok acc)
  | rounds + 1, some i, acc =>
    match body acc i with
    | none => none
    | some (.error r) => some (.error r)
    | some (.ok acc) => follow s body rounds (nextOf s i) acc

def visits (s : ProcessLl) (rounds : ℕ) : Option (Except Empty (List ℕ)) :=
  follow s (fun acc i => some (.ok (acc ++ [i]))) rounds s.start []

def pidOf (s : ProcessLl) (i : ℕ) : Option Pid := (s.nodes[i]?).map fun node => node.process.pid

/-- The loop is left with the node, or runs out of nodes. -/
def findNodeInLl (s : ProcessLl) (pid : Pid) (rounds : ℕ) : Option (Except ℕ Unit) :=
  follow s (fun _ i => some (if pidOf s i = some pid then .error i else .ok ())) rounds s.start ()

def processes (s : ProcessLl) (i : Fin s.nodes.length) : Process := (s.nodes.get i).process

def attachNode (s : ProcessLl) (rounds : ℕ) (tree : Tree s.nodes.length) (i : ℕ) :
    Option (Except Failure (Tree s.nodes.length)) :=
  if hi : i < s.nodes.length then
    if (processes s ⟨i, hi⟩).ppid = 0 then some (adopt tree .ghost ⟨i, hi⟩)
    else match findNodeInLl s (processes s ⟨i, hi⟩).ppid rounds with
      | none => none
      | some (.ok _) => some (.error .findNodeInLl)
      | some (.error j) =>
        if hj : j < s.nodes.length then some (adopt tree (.process ⟨j, hj⟩) ⟨i, hi⟩)
        else some (.error .outOfBounds)
  else some (.error .outOfBounds)

def createTree (s : ProcessLl) (granted : Bool) (rounds : ℕ) :
    Option (Except Failure (Tree s.nodes.length)) :=
  if granted then follow s (attachNode s rounds) rounds s.start (emptyTree s.nodes.length)
  else some (.error .malloc)

theorem follow_mono {s : ProcessLl} {body body' : σ → ℕ → Option (Except ρ σ)}
    (hbody : ∀ acc i r, body acc i = some r → body' acc i = some r) {rounds rounds' : ℕ}
    (hle : rounds ≤ rounds') {p : Option ℕ} {acc : σ} {r : Except ρ σ}
    (h : follow s body rounds p acc = some r) : follow s body' rounds' p acc = some r := by
  induction rounds generalizing rounds' p acc with
  | zero => cases h
  | succ rounds ih =>
    obtain ⟨rounds', rfl⟩ : ∃ k, rounds' = k + 1 := ⟨rounds' - 1, by omega⟩
    cases p with
    | none => exact h
    | some i =>
      rw [follow] at h ⊢
      cases hb : body acc i with
      | none => rw [hb] at h; cases h
      | some e =>
        rw [hb] at h
        rw [hbody acc i e hb]
        cases e with
        | error e => exact h
        | ok acc' => exact ih (by omega) h

theorem attachNode_mono {s : ProcessLl} {rounds rounds' : ℕ} (hle : rounds ≤ rounds')
    {tree : Tree s.nodes.length} {i : ℕ} {r : Except Failure (Tree s.nodes.length)}
    (h : attachNode s rounds tree i = some r) : attachNode s rounds' tree i = some r := by
  by_cases hi : i < s.nodes.length
  · simp only [attachNode, dif_pos hi] at h ⊢
    split at h
    · next hz => rwa [if_pos hz]
    · next hz =>
      rw [if_neg hz]
      cases hf : findNodeInLl s (processes s ⟨i, hi⟩).ppid rounds with
      | none => rw [hf] at h; cases h
      | some e =>
        have hmore : findNodeInLl s (processes s ⟨i, hi⟩).ppid rounds' = some e :=
          follow_mono (fun _ _ _ h => h) hle hf
        rw [hf] at h
        rw [hmore]
        exact h
  · simp only [attachNode, dif_neg hi] at h ⊢
    exact h

theorem createTree_mono {s : ProcessLl} {granted : Bool} {rounds rounds' : ℕ}
    (hle : rounds ≤ rounds') {r : Except Failure (Tree s.nodes.length)}
    (h : createTree s granted rounds = some r) : createTree s granted rounds' = some r := by
  cases granted with
  | false => exact h
  | true => exact follow_mono (fun _ _ _ => attachNode_mono hle) hle h

section Chain

def place (s : ProcessLl) (i : ℕ) : Option ℕ := if i < s.nodes.length then some i else none

/-- Every node is linked to the one made after it. -/
structure Chained (s : ProcessLl) : Prop where
  start : s.start = place s 0
  next : ∀ i < s.nodes.length, nextOf s i = place s (i + 1)

variable {s : ProcessLl} {σ ρ : Type}

/-- Along the chain a loop is a fold over the numbers of the nodes. -/
theorem Chained.follow (hs : Chained s) {body : σ → ℕ → Option (Except ρ σ)}
    {step : σ → ℕ → Except ρ σ}
    (hbody : ∀ acc i, i < s.nodes.length → body acc i = some (step acc i)) :
    ∀ rounds i acc, s.nodes.length - i < rounds → follow s body rounds (place s i) acc =
      some ((List.range' i (s.nodes.length - i)).foldlM step acc) := by
  intro rounds
  induction rounds with
  | zero => intro i acc hr; omega
  | succ rounds ih =>
    intro i acc hr
    by_cases hi : i < s.nodes.length
    · have hlen : s.nodes.length - i = s.nodes.length - (i + 1) + 1 := by omega
      rw [place, if_pos hi, ProcessList.follow, hbody acc i hi, hlen, List.range'_succ,
        List.foldlM_cons]
      cases step acc i with
      | error r => rfl
      | ok acc' =>
        change ProcessList.follow s body rounds (nextOf s i) acc' = _
        rw [hs.next i hi]
        exact ih (i + 1) acc' (by omega)
    · have hlen : s.nodes.length - i = 0 := by omega
      rw [place, if_neg hi, hlen]
      rfl

theorem Chained.follow_start (hs : Chained s) {body : σ → ℕ → Option (Except ρ σ)}
    {step : σ → ℕ → Except ρ σ}
    (hbody : ∀ acc i, i < s.nodes.length → body acc i = some (step acc i)) (acc : σ)
    {rounds : ℕ} (hr : s.nodes.length < rounds) : ProcessList.follow s body rounds s.start acc =
      some ((List.range s.nodes.length).foldlM step acc) := by
  rw [hs.start, hs.follow hbody rounds 0 acc (by omega), Nat.sub_zero, List.range_eq_range']

theorem Chained.visits (hs : Chained s) {rounds : ℕ} (hr : s.nodes.length < rounds) :
    visits s rounds = some (.ok (List.range s.nodes.length)) := by
  rw [ProcessList.visits, hs.follow_start (fun _ _ _ => rfl) [] hr]
  have hloop : ∃ met, (List.range s.nodes.length).foldlM
      (fun acc i => (.ok (acc ++ [i]) : Except Empty (List ℕ))) [] = .ok met ∧
        met = List.range s.nodes.length := by
    refine foldlM_succeeds (P := fun done met => met = done) rfl ?_
    intro done i _ met _ hmet
    exact ⟨met ++ [i], rfl, by rw [hmet]⟩
  obtain ⟨met, hrun, rfl⟩ := hloop
  exact congrArg some hrun

theorem foldlM_find (hit : ℕ → Prop) [DecidablePred hit] (l : List ℕ) :
    l.foldlM (fun _ i => if hit i then .error i else .ok ()) () =
      match l.find? (fun i => hit i) with
      | some i => (.error i : Except ℕ Unit)
      | none => .ok () := by
  induction l with
  | nil => rfl
  | cons i l ih =>
    rw [List.foldlM_cons, List.find?_cons]
    by_cases hi : hit i
    · simp only [if_pos hi, decide_eq_true hi]
      rfl
    · simp only [if_neg hi, decide_eq_false hi]
      exact ih

theorem range_eq_map (n : ℕ) : List.range n = (List.finRange n).map Fin.val := by simp

theorem Chained.findNodeInLl (hs : Chained s) (pid : Pid) {rounds : ℕ}
    (hr : s.nodes.length < rounds) : findNodeInLl s pid rounds =
      some (match ProcessTree.findNodeInLl (processes s) pid with
        | some j => .error j.val
        | none => .ok ()) := by
  rw [ProcessList.findNodeInLl, hs.follow_start (fun _ _ _ => rfl) () hr, foldlM_find,
    range_eq_map, List.find?_map, ProcessTree.findNodeInLl]
  have hpid : (fun i => decide (pidOf s i = some pid)) ∘ Fin.val =
      fun i : Fin s.nodes.length => decide ((processes s i).pid = pid) := by
    funext i
    exact decide_eq_decide.mpr (by simp [pidOf, processes])
  rw [hpid]
  cases (List.finRange s.nodes.length).find? _ <;> rfl

theorem Chained.createTree (hs : Chained s) (granted : Bool) {rounds : ℕ}
    (hr : s.nodes.length < rounds) :
    createTree s granted rounds = some (ProcessTree.createTree (processes s) granted) := by
  cases granted with
  | false => rfl
  | true =>
    let step (tree : Tree s.nodes.length) (i : ℕ) : Except Failure (Tree s.nodes.length) :=
      if hi : i < s.nodes.length then attach (processes s) tree ⟨i, hi⟩ else .error .outOfBounds
    have hbody : ∀ tree i, i < s.nodes.length →
        attachNode s rounds tree i = some (step tree i) := by
      intro tree i hi
      simp only [attachNode, step, dif_pos hi, attach, hs.findNodeInLl _ hr]
      split
      · rfl
      · cases ProcessTree.findNodeInLl (processes s) (processes s ⟨i, hi⟩).ppid with
        | none => rfl
        | some j => simp
    change ProcessList.follow s (attachNode s rounds) rounds s.start _ = _
    rw [hs.follow_start hbody _ hr, range_eq_map, List.foldlM_map]
    simp only [step, Fin.is_lt, dite_true, Fin.eta]
    rfl

end Chain

section Insert

structure Inserted (ps : List Process) (s : ProcessLl) : Prop where
  created : s.nodes.map ListNode.process = ps
  start : s.start = place s 0
  head : s.head = if s.nodes.length = 0 then none else some (s.nodes.length - 1)
  next : ∀ i < s.nodes.length,
    nextOf s i = if s.nodes.length = 1 then some 0 else place s (i + 1)

variable {ps : List Process} {s t : ProcessLl} {p : Process}

theorem noProcesses_inserted : Inserted [] noProcesses :=
  ⟨rfl, rfl, rfl, nofun⟩

theorem Inserted.chained (h : Inserted ps s) (hlen : ps.length ≠ 1) : Chained s := by
  have hn : s.nodes.length ≠ 1 := by
    rw [← h.created, List.length_map] at hlen
    exact hlen
  exact ⟨h.start, fun i hi => (h.next i hi).trans (if_neg hn)⟩

/-- The first call goes through the branch that makes the node its own predecessor. -/
theorem Inserted.first (h : Inserted ps s) (hz : s.nodes.length = 0)
    (hp : p.name.bytes.length < 128) :
    ∃ t, createAndInsertProcessNodeLl true s p = .ok t ∧ Inserted (ps ++ [p]) t := by
  have hnil : s.nodes = [] := List.length_eq_zero_iff.mp hz
  have hstart : s.start = none := by rw [h.start, place, hz, if_neg (Nat.lt_irrefl 0)]
  have hps : ps = [] := by rw [← h.created, hnil]; rfl
  refine ⟨⟨[⟨p, some 0⟩], some 0, some 0⟩, ?_, ?_⟩
  · simp [createAndInsertProcessNodeLl, Nat.not_le.mpr hp, hstart, hnil]
  · subst hps
    refine ⟨rfl, rfl, rfl, ?_⟩
    intro i hi
    obtain rfl : i = 0 := Nat.lt_one_iff.mp hi
    rfl

theorem map_modify {α β : Type} {g : α → β} {f : α → α} (hf : ∀ a, g (f a) = g a) (l : List α)
    (i : ℕ) : (l.modify i f).map g = l.map g := by
  apply List.ext_getElem?
  intro j
  rw [List.getElem?_map, List.getElem?_modify, List.getElem?_map]
  cases l[j]? with
  | none => rfl
  | some a =>
    change some (g (if i = j then f a else a)) = some (g a)
    split
    · rw [hf]
    · rfl

def extended (s : ProcessLl) (p : Process) : List ListNode :=
  (s.nodes ++ [ListNode.mk p none]).modify (s.nodes.length - 1) fun node =>
    { node with next := some s.nodes.length }

theorem extended_processes (s : ProcessLl) (p : Process) :
    (extended s p).map ListNode.process = s.nodes.map ListNode.process ++ [p] := by
  refine (map_modify (g := ListNode.process) ?_ _ _).trans List.map_append
  intro node
  rfl

theorem getElem?_extended (hpos : s.nodes.length ≠ 0) (i : ℕ) : (extended s p)[i]? =
    if i + 1 = s.nodes.length then
      (s.nodes[i]?).map fun node => { node with next := some s.nodes.length }
    else if i = s.nodes.length then some ⟨p, none⟩ else s.nodes[i]? := by
  rw [extended, List.getElem?_modify, List.getElem?_append]
  rcases Nat.lt_trichotomy i s.nodes.length with hlt | rfl | hgt
  · rw [if_pos hlt, if_neg (Nat.ne_of_lt hlt), List.getElem?_eq_getElem hlt]
    by_cases hlast : i + 1 = s.nodes.length
    · have hi : s.nodes.length - 1 = i := by omega
      simp only [hi, if_pos hlast]
      simp
    · have hi : s.nodes.length - 1 ≠ i := by omega
      simp [hi, hlast]
  · have hi : s.nodes.length - 1 ≠ s.nodes.length := by omega
    simp [hi]
  · have hnone : s.nodes[i]? = none := List.getElem?_eq_none (Nat.le_of_lt hgt)
    have hone : i - s.nodes.length ≠ 0 := by omega
    have hlast : ¬ i + 1 = s.nodes.length := by omega
    simp [Nat.not_lt.mpr (Nat.le_of_lt hgt), hone, hlast, Nat.ne_of_gt hgt]

theorem Inserted.later (h : Inserted ps s) (hpos : s.nodes.length ≠ 0)
    (hp : p.name.bytes.length < 128) :
    ∃ t, createAndInsertProcessNodeLl true s p = .ok t ∧ Inserted (ps ++ [p]) t := by
  have hstart : s.start = some 0 := by rw [h.start, place, if_pos (Nat.pos_of_ne_zero hpos)]
  have hhead := h.head
  rw [if_neg hpos] at hhead
  have hlen : (extended s p).length = s.nodes.length + 1 := by simp [extended]
  refine ⟨⟨extended s p, some 0, some s.nodes.length⟩, ?_, ?_, ?_, ?_, ?_⟩
  · simp [createAndInsertProcessNodeLl, Nat.not_le.mpr hp, hstart, hhead, extended]
  · rw [← h.created]
    exact extended_processes s p
  · simp [place, hlen]
  · simp [hlen]
  · intro i hi
    simp only [hlen] at hi
    have htwo : s.nodes.length + 1 ≠ 1 := by omega
    simp only [nextOf, place, hlen, getElem?_extended hpos, if_neg htwo]
    by_cases hlast : i + 1 = s.nodes.length
    · rw [if_pos hlast, List.getElem?_eq_getElem (by omega), if_pos (by omega), hlast]
      rfl
    · rw [if_neg hlast]
      by_cases hi' : i = s.nodes.length
      · rw [if_pos hi', if_neg (by omega)]
        rfl
      · have hnext := h.next i (by omega)
        rw [if_neg (by omega), place, if_pos (by omega)] at hnext
        rw [if_neg hi', if_pos (by omega)]
        exact hnext

theorem Inserted.insert (h : Inserted ps s) (hp : p.name.bytes.length < 128) :
    ∃ t, createAndInsertProcessNodeLl true s p = .ok t ∧ Inserted (ps ++ [p]) t := by
  by_cases hz : s.nodes.length = 0
  · exact h.first hz hp
  · exact h.later hz hp

theorem insert_ok (h : createAndInsertProcessNodeLl true s p = .ok t) :
    p.name.bytes.length < 128 := by
  by_contra hlong
  simp [createAndInsertProcessNodeLl, Nat.le_of_not_lt hlong] at h

theorem insertAll_succeeds (hfit : ∀ p ∈ ps, p.name.bytes.length < 128) :
    ∃ s, insertAll ps = .ok s ∧ Inserted ps s := by
  refine foldlM_succeeds noProcesses_inserted ?_
  intro done p rest s hwhole hins
  exact hins.insert (hfit p (by simp [hwhole]))

theorem insertAll_inserted (hrun : insertAll ps = .ok s) :
    (∀ p ∈ ps, p.name.bytes.length < 128) ∧ Inserted ps s := by
  refine foldlM_preserves (P := fun done s =>
    (∀ p ∈ done, p.name.bytes.length < 128) ∧ Inserted done s)
    ⟨by simp, noProcesses_inserted⟩ ?_ hrun
  rintro done p s t ⟨hfit, hins⟩ hstep
  have hp := insert_ok hstep
  obtain ⟨t', ht, hnext⟩ := hins.insert hp
  cases hstep.symm.trans ht
  refine ⟨?_, hnext⟩
  intro q hq
  rcases List.mem_append.mp hq with hq | hq
  · exact hfit q hq
  · rw [List.mem_singleton.mp hq]
    exact hp

end Insert

section Results

variable {ps : List Process} {s : ProcessLl}

/-- A list of one node goes round: no loop along it comes to its end. -/
theorem Inserted.circular (h : Inserted ps s) (hone : ps.length = 1) {σ ρ : Type}
    (body : σ → ℕ → Option (Except ρ σ)) (rounds : ℕ) (acc result : σ) :
    follow s body rounds s.start acc ≠ some (.ok result) := by
  have hlen : s.nodes.length = 1 := by
    rw [← hone, ← h.created, List.length_map]
  have hstart : s.start = some 0 := by rw [h.start, place, if_pos (by omega)]
  have hnext : nextOf s 0 = some 0 := by rw [h.next 0 (by omega), if_pos hlen]
  rw [hstart]
  induction rounds generalizing acc with
  | zero => exact nofun
  | succ rounds ih =>
    rw [follow, hnext]
    cases body acc 0 with
    | none => exact nofun
    | some r =>
      cases r with
      | error e => exact nofun
      | ok acc' => exact ih acc'

/-- What following `next` should give after the calls for `ps`: the nodes in order, the first one
with any pid, and an end of the loop of `create_tree`. -/
structure ListsInOrder (ps : List Process) (s : ProcessLl) : Prop where
  created : s.nodes.map ListNode.process = ps
  visits : ∃ rounds, visits s rounds = some (.ok (List.range ps.length))
  finds : ∀ pid, ∃ rounds, findNodeInLl s pid rounds =
    some (match ps.findIdx? (fun p => p.pid = pid) with
      | some i => .error i
      | none => .ok ())
  traversed : ∃ rounds result, createTree s true rounds = some result

theorem findNodeInLl_map (hcreated : s.nodes.map ListNode.process = ps) (pid : Pid) :
    (ProcessTree.findNodeInLl (processes s) pid).map Fin.val =
      ps.findIdx? fun p => p.pid = pid := by
  subst hcreated
  apply Option.ext
  intro i
  rw [Option.map_eq_some_iff, List.findIdx?_eq_some_iff_getElem]
  simp only [findNodeInLl_eq_some, processes, List.getElem_map, decide_eq_true_eq,
    List.length_map]
  constructor
  · rintro ⟨j, ⟨hpid, hfirst⟩, rfl⟩
    exact ⟨j.isLt, hpid, fun k hk => hfirst ⟨k, hk.trans j.isLt⟩ hk⟩
  · rintro ⟨hi, hpid, hfirst⟩
    exact ⟨⟨i, hi⟩, ⟨hpid, fun k hk => hfirst k.val hk⟩, rfl⟩

theorem Inserted.listsInOrder (h : Inserted ps s) (hlen : ps.length ≠ 1) : ListsInOrder ps s := by
  have hs := h.chained hlen
  have hn : s.nodes.length = ps.length := by rw [← h.created, List.length_map]
  refine ⟨h.created, ⟨_, hn ▸ hs.visits (Nat.lt_succ_self _)⟩, ?_,
    ⟨_, _, hs.createTree true (Nat.lt_succ_self _)⟩⟩
  intro pid
  refine ⟨_, (hs.findNodeInLl pid (Nat.lt_succ_self _)).trans ?_⟩
  rw [← findNodeInLl_map h.created]
  cases ProcessTree.findNodeInLl (processes s) pid <;> rfl

/-- One call alone leaves a circle, the next one opens it again. -/
theorem list_in_order_iff (ps : List Process) :
    (∃ s, insertAll ps = .ok s ∧ ListsInOrder ps s) ↔
      ps.length ≠ 1 ∧ ∀ p ∈ ps, p.name.bytes.length < 128 := by
  constructor
  · rintro ⟨s, hrun, hlists⟩
    obtain ⟨hfit, hins⟩ := insertAll_inserted hrun
    refine ⟨fun hone => ?_, hfit⟩
    obtain ⟨rounds, hvisits⟩ := hlists.visits
    exact hins.circular hone _ rounds [] _ hvisits
  · rintro ⟨hlen, hfit⟩
    obtain ⟨s, hrun, hins⟩ := insertAll_succeeds hfit
    exact ⟨s, hrun, hins.listsInOrder hlen⟩

theorem lone_process_circular : ∃ s, insertAll [⟨stringOf (ascii "init"), 1, 0⟩] = .ok s ∧
    ∀ rounds result, visits s rounds ≠ some (.ok result) := by
  refine ⟨⟨[⟨⟨stringOf (ascii "init"), 1, 0⟩, some 0⟩], some 0, some 0⟩, rfl, ?_⟩
  intro rounds result
  have hins : Inserted [⟨stringOf (ascii "init"), 1, 0⟩]
      ⟨[⟨⟨stringOf (ascii "init"), 1, 0⟩, some 0⟩], some 0, some 0⟩ :=
    (insertAll_inserted rfl).2
  exact hins.circular rfl _ rounds [] result

theorem Inserted.createTree_iff (h : Inserted ps s) (hlen : ps.length ≠ 1) (granted : Bool) :
    (∃ rounds tree, createTree s granted rounds = some (.ok tree)) ↔
      ∃ tree, ProcessTree.createTree (processes s) granted = .ok tree := by
  have hs := h.chained hlen
  constructor
  · rintro ⟨rounds, tree, htree⟩
    have hmore := createTree_mono (le_max_left rounds (s.nodes.length + 1)) htree
    rw [hs.createTree granted (Nat.lt_of_succ_le (le_max_right _ _))] at hmore
    exact ⟨tree, Option.some.inj hmore⟩
  · rintro ⟨tree, htree⟩
    exact ⟨_, tree, (hs.createTree granted (Nat.lt_succ_self _)).trans (congrArg some htree)⟩

theorem map_processes (s : ProcessLl) :
    (List.finRange s.nodes.length).map (processes s) = s.nodes.map ListNode.process := by
  have hget := congrArg (List.map ListNode.process) (List.map_get_finRange s.nodes)
  rwa [List.map_map] at hget

theorem forall_processes (hcreated : s.nodes.map ListNode.process = ps) (P : Process → Prop) :
    (∀ i, P (processes s i)) ↔ ∀ p ∈ ps, P p := by
  rw [← hcreated, ← map_processes]
  simp

theorem exists_processes (hcreated : s.nodes.map ListNode.process = ps) (P : Process → Prop) :
    (∃ i, P (processes s i)) ↔ ∃ p ∈ ps, P p := by
  rw [← hcreated, ← map_processes]
  simp

theorem Inserted.finishes_iff (h : Inserted ps s) (hlen : ps.length ≠ 1) (granted : Bool) :
    (∃ rounds tree, createTree s granted rounds = some (.ok tree)) ↔ granted = true ∧
      (∀ p ∈ ps, p.ppid ≠ 0 → ∃ q ∈ ps, q.pid = p.ppid) ∧
      ∀ pid, (ps.countP fun p => p.ppid = pid) ≤ 512 := by
  have hcount : ∀ pid, ((List.finRange s.nodes.length).countP fun i =>
      (processes s i).ppid = pid) = ps.countP fun p => p.ppid = pid := by
    intro pid
    rw [← h.created, ← map_processes, List.countP_map]
    rfl
  have hlisted : (∀ i, (processes s i).ppid ≠ 0 →
      ∃ j, (processes s j).pid = (processes s i).ppid) ↔
        ∀ p ∈ ps, p.ppid ≠ 0 → ∃ q ∈ ps, q.pid = p.ppid := by
    rw [← forall_processes h.created]
    refine forall_congr' fun i => imp_congr_right fun _ => ?_
    exact exists_processes h.created fun q => q.pid = (processes s i).ppid
  simp only [h.createTree_iff hlen, createTree_ok_iff, hcount, hlisted]

/-- When `create_tree` comes to its end without ending the program and without a store past
the end of `childs`. -/
theorem create_tree_finishes_iff (ps : List Process) (granted : Bool) :
    (∃ s, insertAll ps = .ok s ∧ ∃ rounds tree, createTree s granted rounds = some (.ok tree)) ↔
      granted = true ∧ ps.length ≠ 1 ∧ (∀ p ∈ ps, p.name.bytes.length < 128) ∧
        (∀ p ∈ ps, p.ppid ≠ 0 → ∃ q ∈ ps, q.pid = p.ppid) ∧
        ∀ pid, (ps.countP fun p => p.ppid = pid) ≤ 512 := by
  constructor
  · rintro ⟨s, hrun, hfinish⟩
    obtain ⟨hfit, hins⟩ := insertAll_inserted hrun
    by_cases hone : ps.length = 1
    · obtain ⟨rounds, tree, htree⟩ := hfinish
      cases granted with
      | false => cases htree
      | true => exact absurd htree (hins.circular hone _ rounds _ tree)
    · obtain ⟨hgranted, hlisted, hroom⟩ := (hins.finishes_iff hone granted).mp hfinish
      exact ⟨hgranted, hone, hfit, hlisted, hroom⟩
  · rintro ⟨hgranted, hlen, hfit, hlisted, hroom⟩
    obtain ⟨s, hrun, hins⟩ := insertAll_succeeds hfit
    exact ⟨s, hrun, (hins.finishes_iff hlen granted).mpr ⟨hgranted, hlisted, hroom⟩⟩

/-- A shell whose parent was gone when its turn came: `create_tree` ends the program. -/
theorem lost_parent_exits : ∃ s, insertAll [⟨stringOf (ascii "init"), 1, 0⟩,
      ⟨stringOf (ascii "sh"), 9, 8⟩] = .ok s ∧
    createTree s true 3 = some (.error .findNodeInLl) :=
  ⟨_, rfl, rfl⟩

end Results

end ProcessList
