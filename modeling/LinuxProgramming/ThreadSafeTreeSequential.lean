import LinuxProgramming.ThreadSafeTreeSearch

/-! One thread building a tree with `add` and searching it with `lookup` and `getNode`.
`add` compares its key with the node, the searches compare the node with their key; both
follow the same path because the order is that of one search tree. -/
namespace ThreadSafeTreeSequential

open BlockMemory CharStrings SearchGraph ThreadSafeTree ThreadSafeTreeInvariant
open ThreadSafeTreeSearch

variable {V : Type}

/-- Between the calls of a single thread no node but the root can be empty. -/
structure Settled (h : Heap (Node V)) : Prop where
  tree : TreeInvariant h rootAddr
  unlocked : Unlocked h
  filled : ∀ a n, h.read a = some n → n.key = none → a = rootAddr

/-- What a call of `add` leaves behind: nothing new when the key was stored, one more pair
otherwise. -/
def AddOutcome (h : Heap (Node V)) (c : Call V) (h' : Heap (Node V)) : Prop :=
  ((∃ w, Holds h c.key w) ∧ h' = h) ∨
  ((∀ w, ¬ Holds h c.key w) ∧ Settled h' ∧ Persists h h' ∧
    ∀ k v, Holds h' k v ↔ Holds h k v ∨ (k = c.key ∧ v = c.value))

theorem not_holds_of_empty {h : Heap (Node V)} {a : Addr} {k : CString}
    (hi : TreeInvariant h rootAddr) (hp : Leads (graph h) k rootAddr a)
    (hk : (graph h).key a = none) (w : Option V) : ¬ Holds h k w := by
  rintro ⟨b, m, hm, hmk, _⟩
  exact hi.shape.not_stored_of_empty hp hk ((graph_key hm).trans hmk)

theorem not_holds_of_missing {h : Heap (Node V)} {a : Addr} {n : Node V} {k x : CString} {d : Dir}
    (hi : TreeInvariant h rootAddr) (hp : Leads (graph h) k rootAddr a) (hr : h.read a = some n)
    (hk : n.key = some x) (hs : Side d x k) (hc : n.child d = none) (w : Option V) :
    ¬ Holds h k w := by
  rintro ⟨b, m, hm, hmk, _⟩
  exact hi.shape.not_stored_of_missing hp ((graph_key hr).trans hk) hs ((graph_child hr d).trans hc)
    ((graph_key hm).trans hmk)

theorem addFrom_empty {h : Heap (Node V)} {a : Addr} {n : Node V} (hr : h.read a = some n)
    (hu : n.nodeMutex = false) (hk : n.key = none) (fuel : ℕ) (c : Call V) :
    addFrom true (fuel + 1) (some a) (some c.key) c.value h =
      .ok (0, fill h a n c.key c.value) := by
  rcases addSection_cases hr hu c.key c.value with
    ⟨_, he⟩ | ⟨hk', _⟩ | ⟨_, x, _, hk', _⟩ | ⟨_, x, hk', _⟩
  · rw [addFrom, bind_of_ok he]; rfl
  all_goals rw [hk] at hk'; cases hk'

theorem fill_outcome {h : Heap (Node V)} {a : Addr} {n : Node V} {c : Call V}
    (hi : TreeInvariant h rootAddr) (hu : Unlocked h)
    (hf : ∀ b m, h.read b = some m → m.key = none → b = rootAddr ∨ b = a)
    (hr : h.read a = some n) (hk : n.key = none) (hp : Leads (graph h) c.key rootAddr a) :
    Settled (fill h a n c.key c.value) := by
  refine ⟨hi.fill hr hk hp c.value, hu.fill hr c.value, ?_⟩
  intro b m hm hmk
  rw [read_fill hr] at hm
  split at hm
  · cases hm; cases hmk
  · next hb => exact (hf b m hm hmk).resolve_right hb

theorem Settled.filled_outcome {h : Heap (Node V)} {a : Addr} {n : Node V} {c : Call V}
    (hs : Settled h) (hr : h.read a = some n) (hk : n.key = none)
    (hp : Leads (graph h) c.key rootAddr a) : AddOutcome h c (fill h a n c.key c.value) := by
  refine Or.inr ⟨not_holds_of_empty hs.tree hp ((graph_key hr).trans hk), ?_,
    persists_fill hr hk _ _, holds_fill hr hk c.key c.value⟩
  apply fill_outcome hs.tree hs.unlocked _ hr hk hp
  intro b m hm hk
  exact Or.inl (hs.filled b m hm hk)

/-- Induction on the fuel, down the search path of the key. Only the outermost frame can
see the duplicate, so only it can return -1. -/
theorem addFrom_outcome {h : Heap (Node V)} (hs : Settled h) (c : Call V) :
    ∀ (fuel a : ℕ) (n : Node V), h.read a = some n → Leads (graph h) c.key rootAddr a →
      h.fresh < a + fuel → ∃ h', addFrom true fuel (some a) (some c.key) c.value h =
        .ok (if n.key = some c.key then -1 else 0, h') ∧ AddOutcome h c h' := by
  intro fuel
  induction fuel with
  | zero => intro a n hr _ hl; have := Heap.lt_fresh hr; omega
  | succ fuel ih =>
    intro a n hr hp hl
    have ha := Heap.lt_fresh hr
    obtain ⟨fuel, rfl⟩ : ∃ m, fuel = m + 1 := ⟨fuel - 1, by omega⟩
    rcases addSection_cases hr (hs.unlocked a n hr) c.key c.value with
      ⟨hk, he⟩ | ⟨hk, he⟩ | ⟨d, x, b, hk, hside, hb, he⟩ | ⟨d, x, hk, hside, hb, he⟩
    · refine ⟨_, ?_, hs.filled_outcome hr hk hp⟩
      rw [addFrom_empty hr (hs.unlocked a n hr) hk, hk, if_neg (by simp)]
    · refine ⟨h, ?_, Or.inl ⟨⟨n.value, a, n, hr, hk, rfl⟩, rfl⟩⟩
      rw [addFrom, bind_of_ok he, if_pos hk]
      rfl
    · have hne : n.key ≠ some c.key := by
        rw [hk]; rintro hx
        exact not_side_self d c.key (Option.some.inj hx ▸ hside)
      have hlink := (graph_child hr d).trans hb
      obtain ⟨m, hm⟩ := hs.tree.child_live a d b hlink
      have hab := hs.tree.child_later a d b hlink
      obtain ⟨h', hrun, hout⟩ := ih b m hm
        (hp.tail ⟨d, x, (graph_key hr).trans hk, hside, hlink⟩) (by omega)
      refine ⟨h', ?_, hout⟩
      rw [addFrom, bind_of_ok he]
      change (load (some a) >>= _) h = _
      rw [bind_of_ok (load_ok hr), hb, bind_of_ok hrun, if_neg hne]
      rfl
    · have hne : n.key ≠ some c.key := by
        rw [hk]; rintro hx
        exact not_side_self d c.key (Option.some.inj hx ▸ hside)
      -- the new child is empty, so the recursive call fills it
      let h₁ := sprout h a n d
      have hi₁ := hs.tree.sprout hr hk hb
      have hu₁ : Unlocked h₁ := hs.unlocked.sprout hr
      have hr₁ : h₁.read a = some (n.setChild d (some h.fresh)) := by
        rw [read_sprout hr, if_pos rfl]
      have hc₁ : h₁.read h.fresh = some .blank := by
        rw [read_sprout hr, if_neg (Ne.symm (Heap.ne_fresh hr)), if_pos rfl]
      have hlink : (graph h₁).child a d = some h.fresh := by
        rw [graph_child hr₁]; simp
      have hp₁ : Leads (graph h₁) c.key rootAddr h.fresh :=
        ((persists_sprout hr hb).grows.leads hp).tail
          ⟨d, x, by rw [graph_key hr₁]; simpa using hk, hside, hlink⟩
      have hf₁ : ∀ b m, h₁.read b = some m → m.key = none → b = rootAddr ∨ b = h.fresh := by
        intro b m hm hmk
        rw [read_sprout hr] at hm
        split at hm
        · cases hm; rw [key_setChild, hk] at hmk; cases hmk
        · split at hm
          · next hb => exact Or.inr hb
          · exact Or.inl (hs.filled b m hm hmk)
      have hno := not_holds_of_missing hs.tree hp hr hk hside hb
      refine ⟨fill h₁ h.fresh .blank c.key c.value, ?_, Or.inr ⟨hno,
        fill_outcome hi₁ hu₁ hf₁ hc₁ rfl hp₁,
        (persists_sprout hr hb).trans (persists_fill hc₁ rfl _ _), ?_⟩⟩
      · rw [addFrom, bind_of_ok he]
        change (load (some a) >>= _) h₁ = _
        rw [bind_of_ok (load_ok hr₁), child_setChild, if_pos rfl,
          bind_of_ok (addFrom_empty hc₁ rfl rfl fuel c), if_neg hne]
        rfl
      · intro k v
        rw [holds_fill hc₁ rfl, holds_sprout hr hb]

theorem add_outcome {h : Heap (Node V)} (hs : Settled h) (c : Call V) :
    ∃ n h', h.read rootAddr = some n ∧ add true (some rootAddr) (some c.key) c.value h =
      .ok (if n.key = some c.key then -1 else 0, h') ∧ AddOutcome h c h' := by
  obtain ⟨n, hn⟩ := hs.tree.root_live
  obtain ⟨h', hrun, hout⟩ := addFrom_outcome hs c (h.fresh + 2) rootAddr n hn
    Relation.ReflTransGen.refl (by omega)
  exact ⟨n, h', hn, hrun, hout⟩

theorem AddOutcome.settled {h h' : Heap (Node V)} {c : Call V} (hs : Settled h)
    (ho : AddOutcome h c h') : Settled h' := by
  rcases ho with ⟨_, rfl⟩ | ⟨_, hs', _⟩
  · exact hs
  · exact hs'

def addAll : List (Call V) → TreeProgram V Unit
  | [] => return ()
  | c :: calls => do
    let _ ← add true (some rootAddr) (some c.key) c.value
    addAll calls

def firstValue (calls : List (Call V)) (k : CString) : Option (Option V) :=
  (calls.find? fun c => c.key = k).map Call.value

theorem firstValue_isSome (calls : List (Call V)) (k : CString) :
    (∃ v, firstValue calls k = some v) ↔ k ∈ calls.map Call.key := by
  constructor
  · rintro ⟨v, hv⟩
    obtain ⟨c, hc, _⟩ := Option.map_eq_some_iff.mp hv
    have hk : c.key = k := by simpa using List.find?_some hc
    exact hk ▸ List.mem_map_of_mem (List.mem_of_find?_eq_some hc)
  · intro hk
    obtain ⟨c, hc, rfl⟩ := List.mem_map.mp hk
    have hex : (calls.find? fun c' => c'.key = c.key).isSome := by
      rw [List.find?_isSome]
      exact ⟨c, hc, by simp⟩
    obtain ⟨c', hc'⟩ := Option.isSome_iff_exists.mp hex
    exact ⟨c'.value, by simp [firstValue, hc']⟩

theorem firstValue_cons (c : Call V) (calls : List (Call V)) (k : CString) :
    firstValue (c :: calls) k = if c.key = k then some c.value else firstValue calls k := by
  by_cases hk : c.key = k <;> simp [firstValue, hk]

/-- Induction on the calls: a pair is stored when it was there before, or when it belongs
to the first call for a key that was not. -/
theorem addAll_outcome : ∀ (calls : List (Call V)) {h : Heap (Node V)}, Settled h →
    ∃ h', addAll calls h = .ok ((), h') ∧ Settled h' ∧
      ∀ k v, Holds h' k v ↔
        Holds h k v ∨ ((∀ w, ¬ Holds h k w) ∧ firstValue calls k = some v)
  | [], h, hs => ⟨h, rfl, hs, by simp [firstValue]⟩
  | c :: calls, h, hs => by
    obtain ⟨n, h₁, _, hadd, hout⟩ := add_outcome hs c
    obtain ⟨h', hrest, hs', hall⟩ := addAll_outcome calls (hout.settled hs)
    refine ⟨h', by rw [addAll, bind_of_ok hadd, hrest], hs', ?_⟩
    intro k v
    rw [hall k v, firstValue_cons]
    rcases hout with ⟨⟨w, hw⟩, rfl⟩ | ⟨hno, _, _, hnew⟩
    · by_cases hk : c.key = k
      · subst hk
        constructor
        · rintro (hv | ⟨hn, _⟩)
          · exact Or.inl hv
          · exact absurd hw (hn w)
        · rintro (hv | ⟨hn, _⟩)
          · exact Or.inl hv
          · exact absurd hw (hn w)
      · rw [if_neg hk]
    · by_cases hk : c.key = k
      · subst hk
        rw [if_pos rfl]
        constructor
        · rintro (hv | ⟨hn, _⟩)
          · rcases (hnew _ _).mp hv with hv | ⟨_, rfl⟩
            · exact absurd hv (hno v)
            · exact Or.inr ⟨hno, rfl⟩
          · exact absurd ((hnew _ _).mpr (Or.inr ⟨rfl, rfl⟩)) (hn c.value)
        · rintro (hv | ⟨_, hv⟩)
          · exact absurd hv (hno v)
          · exact Or.inl ((hnew _ _).mpr (Or.inr ⟨rfl, (Option.some.inj hv).symm⟩))
      · have hsame : ∀ w, Holds h₁ k w ↔ Holds h k w := by
          intro w
          rw [hnew k w]
          exact or_iff_left (fun h => hk h.1.symm)
        simp only [hsame, if_neg hk]

def Live (h : Heap (Node V)) (a : Addr) : Prop := ∃ n, h.read a = some n

theorem live_lt_fresh {h : Heap (Node V)} {a : ℕ} (ha : Live h a) : a < h.fresh := by
  obtain ⟨n, hn⟩ := ha
  exact Heap.lt_fresh hn

theorem searchable {h : Heap (Node V)} {root : Addr} (hi : TreeInvariant h root) :
    Searchable h (Live h) id where
  live a d c _ hc := hi.child_live a d c hc
  later a d c _ hc := hi.child_later a d c hc
  within _ := live_lt_fresh
  read _ := id

theorem rooted_settled : Settled (rooted : Heap (Node V)) :=
  ⟨rooted_invariant, rooted_unlocked, fun _ _ hr _ => (read_rooted hr).1⟩

theorem not_holds_rooted (k : CString) (w : Option V) : ¬ Holds (rooted : Heap (Node V)) k w := by
  rintro ⟨a, n, hn, hk, _⟩
  rw [(read_rooted hn).2] at hk
  cases hk

theorem built_holds {calls : List (Call V)} {h : Heap (Node V)}
    (hb : addAll calls rooted = .ok ((), h)) :
    Settled h ∧ ∀ k v, Holds h k v ↔ firstValue calls k = some v := by
  obtain ⟨h', hrun, hs, hall⟩ := addAll_outcome calls (rooted_settled (V := V))
  cases hb.symm.trans hrun
  refine ⟨hs, fun k v => ?_⟩
  rw [hall k v]
  exact ⟨fun h => h.elim (fun h => absurd h (not_holds_rooted k v)) And.right,
    fun h => Or.inr ⟨not_holds_rooted k, h⟩⟩

theorem stored_iff_added {calls : List (Call V)} {h : Heap (Node V)}
    (hb : addAll calls rooted = .ok ((), h)) (k : CString) :
    (∃ t, (graph h).key t = some k) ↔ k ∈ calls.map Call.key := by
  rw [← firstValue_isSome]
  constructor
  · intro ⟨t, ht⟩
    obtain ⟨n, hn, hk⟩ := live_of_key ht
    exact ⟨n.value, ((built_holds hb).2 k n.value).mp ⟨t, n, hn, hk, rfl⟩⟩
  · intro ⟨v, hv⟩
    obtain ⟨t, n, hn, hk, _⟩ := ((built_holds hb).2 k v).mpr hv
    exact ⟨t, (graph_key hn).trans hk⟩

def nodes (h : Heap (Node V)) : List Addr := inorder (graph h) h.fresh (some rootAddr)

theorem mem_nodes_iff {h : Heap (Node V)} (hi : TreeInvariant h rootAddr) (a : Addr) :
    a ∈ nodes h ↔ Reach (graph h) rootAddr a :=
  (searchable hi).toRanked.mem_inorder hi.root_live (Nat.le_add_left _ _)

/-- The whole tree after any sequence of calls: its order, its contents, its shape, and
what the two searches find in it. -/
theorem sequential_adds_correct (calls : List (Call V)) : ∃ h, addAll calls rooted = .ok ((), h) ∧
    -- the keys in symmetric order, over all reachable nodes
    (∀ a, a ∈ nodes h ↔ Reach (graph h) rootAddr a) ∧
    ((nodes h).filterMap (graph h).key).Pairwise (fun x y => strcmp x y < 0) ∧
    -- the first call for a key decides its value, a later one changes nothing
    (∀ k v, (∃ a n, Reach (graph h) rootAddr a ∧ h.read a = some n ∧ n.key = some k ∧
      n.value = v) ↔ firstValue calls k = some v) ∧
    (∀ c : Call V, c.key ∈ calls.map Call.key →
      ∃ r, add true (some rootAddr) (some c.key) c.value h = .ok (r, h)) ∧
    (∀ a n, Reach (graph h) rootAddr a → h.read a = some n → n.key = none → a = rootAddr) ∧
    -- both searches agree with what was added
    (∀ k value, ∃ b, lookup (some rootAddr) (some k) value h = .ok ((b, value), h) ∧
      (b = true ↔ k ∈ calls.map Call.key)) ∧
    (∀ k self, (k ∈ calls.map Call.key → ∃ t n,
        getNode (some rootAddr) (some k) self h = .ok ((0, some t), h) ∧
        Reach (graph h) rootAddr t ∧ h.read t = some n ∧ n.key = some k) ∧
      (k ∉ calls.map Call.key →
        getNode (some rootAddr) (some k) self h = .ok ((-1, self), h))) := by
  obtain ⟨h, hrun, _⟩ := addAll_outcome calls (rooted_settled (V := V))
  obtain ⟨hs, hholds⟩ := built_holds hrun
  have hshape := hs.tree.shape
  have hroot : Live h rootAddr := hs.tree.root_live
  refine ⟨h, hrun, mem_nodes_iff hs.tree, ?_, ?_, ?_, fun a n _ => hs.filled a n, ?_, ?_⟩
  · have hsorted := inorderKeys_sorted hshape h.fresh (some rootAddr)
      (fun a ha => by cases ha; exact Relation.ReflTransGen.refl)
    exact hsorted.imp (fun hlt => strcmp_neg_iff.mpr hlt)
  · intro k v
    rw [← hholds k v]
    constructor
    · intro ⟨a, n, _, hn, hk, hv⟩
      exact ⟨a, n, hn, hk, hv⟩
    · intro ⟨a, n, hn, hk, hv⟩
      exact ⟨a, n, hshape.stored_reachable ((graph_key hn).trans hk), hn, hk, hv⟩
  · intro c hc
    obtain ⟨v, hv⟩ := (firstValue_isSome calls c.key).mpr hc
    obtain ⟨n, h', _, hadd, hout⟩ := add_outcome hs c
    rcases hout with ⟨_, rfl⟩ | ⟨hno, _⟩
    · exact ⟨_, hadd⟩
    · exact absurd ((hholds c.key v).mpr hv) (hno v)
  · intro k value
    rcases lookup_result (k := k) (searchable hs.tree) value hroot with ⟨t, _, ht, hl⟩ | ⟨hno, hl⟩
    · exact ⟨true, hl, fun _ => (stored_iff_added hrun k).mp ⟨t, ht⟩, fun _ => rfl⟩
    · refine ⟨false, hl, by simp, fun hk => ?_⟩
      obtain ⟨t, ht⟩ := (stored_iff_added hrun k).mpr hk
      exact absurd ht (hno t (hshape.stored_on_path t k ht))
  · intro k self
    rcases getNode_result (k := k) (searchable hs.tree) self hroot with ⟨t, hp, ht, hl⟩ | ⟨hno, hl⟩
    · obtain ⟨n, hn, hk⟩ := live_of_key ht
      exact ⟨fun _ => ⟨t, n, hl, leads_reach hp, hn, hk⟩,
        fun hk => absurd ((stored_iff_added hrun k).mp ⟨t, ht⟩) hk⟩
    · refine ⟨fun hk => ?_, fun _ => hl⟩
      obtain ⟨t, ht⟩ := (stored_iff_added hrun k).mpr hk
      exact absurd ht (hno t (hshape.stored_on_path t k ht))

section Results

def InTree (h : Heap (Node V)) (k : CString) : Prop :=
  ∃ a, Reach (graph h) rootAddr a ∧ (graph h).key a = some k

def ReportsDuplicate (h : Heap (Node V)) (c : Call V) : Prop :=
  ∃ r h', add true (some rootAddr) (some c.key) c.value h = .ok (r, h') ∧
    (¬ InTree h c.key → r = 0) ∧ (InTree h c.key → r = -1)

theorem reportsDuplicate_iff {h : Heap (Node V)} (hs : Settled h) (c : Call V) :
    ReportsDuplicate h c ↔ ¬ InTree h c.key ∨ (graph h).key rootAddr = some c.key := by
  obtain ⟨n, h', hn, hadd, _⟩ := add_outcome hs c
  have hroot : (graph h).key rootAddr = n.key := graph_key hn
  rw [hroot]
  constructor
  · rintro ⟨r, h'', hr, -, hdup⟩
    cases hadd.symm.trans hr
    by_cases hin : InTree h c.key
    · right
      by_contra hkey
      simpa [hkey] using hdup hin
    · exact .inl hin
  · intro hcond
    refine ⟨_, h', hadd, fun hnot => ?_, fun hin => ?_⟩
    · apply if_neg
      intro hkey
      exact hnot ⟨rootAddr, .refl, hroot.trans hkey⟩
    · exact if_pos (hcond.resolve_left (not_not_intro hin))

/-- The result of a deeper call is dropped, so of the keys that are in the tree only that of the
root is reported. -/
theorem add_reports_duplicate_iff (calls : List (Call V)) (c : Call V) :
    ∃ h, addAll calls rooted = .ok ((), h) ∧
      (ReportsDuplicate h c ↔ ¬ InTree h c.key ∨ (graph h).key rootAddr = some c.key) := by
  obtain ⟨h, hrun, hs, _⟩ := addAll_outcome calls (rooted_settled (V := V))
  exact ⟨h, hrun, reportsDuplicate_iff hs c⟩

def rootCall : Call ℕ := ⟨⟨ascii "m", by decide⟩, some 1⟩

def leftCall : Call ℕ := ⟨⟨ascii "c", by decide⟩, some 2⟩

/-- The second key added once more: it is at the left of the root, and the call returns 0. -/
theorem deep_duplicate_unreported : ∃ h h', addAll [rootCall, leftCall] rooted = .ok ((), h) ∧
    InTree h leftCall.key ∧
    add true (some rootAddr) (some leftCall.key) leftCall.value h = .ok (0, h') :=
  ⟨_, _, rfl, ⟨1, .single ⟨.left, rfl⟩, rfl⟩, rfl⟩

def DeliversValue (calls : List (Call V)) (h : Heap (Node V)) (k : CString) (v : Option V) :
    Prop :=
  ∃ b v', lookup (some rootAddr) (some k) v h = .ok ((b, v'), h) ∧
    (b = true → firstValue calls k = some v') ∧ (b = false → v' = v)

/-- `value = &root->value` moves the parameter and not what it points to, so the variable is
right only if it was right before. -/
theorem lookup_delivers_iff (calls : List (Call V)) (k : CString) (v : Option V) :
    ∃ h, addAll calls rooted = .ok ((), h) ∧
      (DeliversValue calls h k v ↔ k ∉ calls.map Call.key ∨ firstValue calls k = some v) := by
  obtain ⟨h, hrun, _⟩ := addAll_outcome calls (rooted_settled (V := V))
  refine ⟨h, hrun, ?_⟩
  have hs := (built_holds hrun).1
  have hsearch := lookup_result (k := k) (searchable hs.tree) v hs.tree.root_live
  rcases hsearch with ⟨t, _, ht, hl⟩ | ⟨hno, hl⟩
  · have hadded := (stored_iff_added hrun k).mp ⟨t, ht⟩
    constructor
    · rintro ⟨b, v', hl', htrue, -⟩
      cases hl.symm.trans hl'
      exact .inr (htrue rfl)
    · intro hcond
      exact ⟨true, v, hl, fun _ => hcond.resolve_left (not_not_intro hadded), nofun⟩
  · have hfresh : k ∉ calls.map Call.key := by
      intro hk
      obtain ⟨t, ht⟩ := (stored_iff_added hrun k).mpr hk
      exact hno t (hs.tree.shape.stored_on_path t k ht) ht
    exact ⟨fun _ => .inl hfresh, fun _ => ⟨false, v, hl, nofun, fun _ => rfl⟩⟩

/-- A single pair is added and looked up again: `true`, and the variable is still NULL. -/
theorem lookup_leaves_variable : ∃ h, addAll [rootCall] rooted = .ok ((), h) ∧
    firstValue [rootCall] rootCall.key = some (some 1) ∧
    lookup (some rootAddr) (some rootCall.key) none h = .ok ((true, none), h) :=
  ⟨_, rfl, rfl, rfl⟩

end Results

end ThreadSafeTreeSequential
