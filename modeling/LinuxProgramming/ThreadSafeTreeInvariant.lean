import LinuxProgramming.ThreadSafeTree

/-! What a heap of tree nodes looks like between two critical sections, and what one
critical section of `add` does to it. Every result about `add`, sequential or concurrent,
starts from `addSection_cases`. -/
namespace ThreadSafeTreeInvariant

open BlockMemory CharStrings SearchGraph ThreadSafeTree

variable {V : Type}

def graph (h : Heap (Node V)) : LinkGraph Addr CString where
  key a := (h.read a).bind Node.key
  child a d := (h.read a).bind fun n => n.child d

theorem graph_key {h : Heap (Node V)} {a : Addr} {n : Node V} (hr : h.read a = some n) :
    (graph h).key a = n.key := by simp [graph, hr]

theorem graph_child {h : Heap (Node V)} {a : Addr} {n : Node V} (hr : h.read a = some n)
    (d : Dir) : (graph h).child a d = n.child d := by simp [graph, hr]

theorem live_of_key {h : Heap (Node V)} {a : Addr} {k : CString}
    (hk : (graph h).key a = some k) : ∃ n, h.read a = some n ∧ n.key = some k := by
  simpa [graph, Option.bind_eq_some_iff] using hk

theorem live_of_child {h : Heap (Node V)} {a c : Addr} {d : Dir}
    (hc : (graph h).child a d = some c) : ∃ n, h.read a = some n ∧ n.child d = some c := by
  simpa [graph, Option.bind_eq_some_iff] using hc

@[simp] theorem child_setChild (n : Node V) (d e : Dir) (p : Option Addr) :
    (n.setChild d p).child e = if e = d then p else n.child e := by
  cases d <;> cases e <;> simp [Node.setChild, Node.child]

@[simp] theorem key_setChild (n : Node V) (d : Dir) (p : Option Addr) :
    (n.setChild d p).key = n.key := by cases d <;> rfl

@[simp] theorem value_setChild (n : Node V) (d : Dir) (p : Option Addr) :
    (n.setChild d p).value = n.value := by cases d <;> rfl

@[simp] theorem mutex_setChild (n : Node V) (d : Dir) (p : Option Addr) :
    (n.setChild d p).nodeMutex = n.nodeMutex := by cases d <;> rfl

@[simp] theorem child_blank (d : Dir) : (Node.blank : Node V).child d = none := by
  cases d <;> rfl

/-- Links point to live nodes made later, and everything stored can be found. -/
structure TreeInvariant (h : Heap (Node V)) (root : Addr) : Prop where
  root_live : ∃ n, h.read root = some n
  child_live : ∀ a d c, (graph h).child a d = some c → ∃ m, h.read c = some m
  child_later : ∀ (a : ℕ) (d : Dir) (c : ℕ), (graph h).child a d = some c → a < c
  shape : SearchShape (graph h) root

def Unlocked (h : Heap (Node V)) : Prop := ∀ a n, h.read a = some n → n.nodeMutex = false

def fill (h : Heap (Node V)) (a : Addr) (n : Node V) (key : CString) (value : Option V) :
    Heap (Node V) := h.write a { n with key := some key, value := value }

def sprout (h : Heap (Node V)) (a : Addr) (n : Node V) (d : Dir) : Heap (Node V) :=
  (h.alloc .blank).write a (n.setChild d (some h.fresh))

theorem read_fill {h : Heap (Node V)} {a : Addr} {n : Node V} (hr : h.read a = some n)
    (key : CString) (value : Option V) (b : Addr) :
    (fill h a n key value).read b =
      if b = a then some { n with key := some key, value := value } else h.read b :=
  Heap.read_write hr _ b

theorem read_sprout {h : Heap (Node V)} {a : Addr} {n : Node V} (hr : h.read a = some n)
    (d : Dir) (b : Addr) : (sprout h a n d).read b =
      if b = a then some (n.setChild d (some h.fresh))
      else if b = h.fresh then some .blank else h.read b := by
  have ha : (h.alloc .blank).read a = some n := by
    rw [Heap.read_alloc, if_neg (Heap.ne_fresh hr), hr]
  rw [sprout, Heap.read_write ha, Heap.read_alloc]

theorem graph_fill {h : Heap (Node V)} {a : Addr} {n : Node V} (hr : h.read a = some n)
    (key : CString) (value : Option V) :
    graph (fill h a n key value) = (graph h).setKey a key := by
  have hk : (graph (fill h a n key value)).key = Function.update (graph h).key a (some key) := by
    funext b
    by_cases hb : b = a
    · subst b; simp [graph, read_fill hr]
    · simp [graph, read_fill hr, hb]
  have hc : (graph (fill h a n key value)).child = (graph h).child := by
    funext b d
    by_cases hb : b = a
    · subst b; cases d <;> simp [graph, read_fill hr, hr, Node.child]
    · simp [graph, read_fill hr, hb]
  unfold LinkGraph.setKey
  rw [← hk, ← hc]

theorem graph_sprout {h : Heap (Node V)} {a : Addr} {n : Node V} (hr : h.read a = some n)
    (d : Dir) : graph (sprout h a n d) = (graph h).setChild a d h.fresh := by
  have hne := Heap.ne_fresh hr
  have hk : (graph (sprout h a n d)).key = (graph h).key := by
    funext b
    by_cases hb : b = a
    · subst b; simp [graph, read_sprout hr, hr]
    · by_cases hf : b = h.fresh
      · subst b; simp [graph, read_sprout hr, hb, Node.blank]
      · simp [graph, read_sprout hr, hb, hf]
  have hc : (graph (sprout h a n d)).child =
      fun b e => if b = a ∧ e = d then some h.fresh else (graph h).child b e := by
    funext b e
    by_cases hb : b = a
    · subst b
      by_cases he : e = d <;> simp [graph, read_sprout hr, hr, he]
    · by_cases hf : b = h.fresh
      · subst b; simp [graph, read_sprout hr, hb]
      · simp [graph, read_sprout hr, hb, hf]
  unfold LinkGraph.setChild
  rw [← hk, ← hc]

theorem graph_touch {h : Heap (Node V)} {a : Addr} {n m : Node V} (hr : h.read a = some n)
    (hk : m.key = n.key) (hc : ∀ d, m.child d = n.child d) : graph (h.write a m) = graph h := by
  simp only [graph, LinkGraph.mk.injEq]
  constructor
  · funext b
    by_cases hb : b = a
    · subst b; simp [Heap.read_write hr, hr, hk]
    · simp [Heap.read_write hr, hb]
  · funext b d
    by_cases hb : b = a
    · subst b; simp [Heap.read_write hr, hr, hc]
    · simp [Heap.read_write hr, hb]

theorem graph_mutex {h : Heap (Node V)} {a : Addr} {n : Node V} (hr : h.read a = some n)
    (b : Bool) : graph (h.write a { n with nodeMutex := b }) = graph h :=
  graph_touch hr rfl fun d => by cases d <;> rfl

theorem lock_ok {h : Heap (Node V)} {a : Addr} {n : Node V} (hr : h.read a = some n)
    (hu : n.nodeMutex = false) :
    pthreadMutexLock (some a) h = .ok ((), h.write a { n with nodeMutex := true }) := by
  rw [pthreadMutexLock, bind_of_ok (load_ok hr), hu]
  exact store_ok hr _

theorem unlock_ok {h : Heap (Node V)} {a : Addr} {n : Node V} (hr : h.read a = some n) :
    pthreadMutexUnlock (some a) h = .ok ((), h.write a { n with nodeMutex := false }) :=
  store_ok hr _

theorem initializeNode_ok {h : Heap (Node V)} {a : Addr} {n : Node V} (hr : h.read a = some n) :
    initializeNode (some a) h = .ok (0, h.write a .blank) := by
  have self : ∀ x : Node V, (h.write a x).read a = some x := Heap.read_write_self hr
  unfold initializeNode
  rw [pthreadMutexInit, bind_of_ok (store_ok hr _), bind_of_ok (lock_ok (self _) rfl),
    Heap.write_write, bind_of_ok (store_ok (self _) _), Heap.write_write,
    bind_of_ok (store_ok (self _) _), Heap.write_write,
    bind_of_ok (store_ok (self _) _), Heap.write_write,
    bind_of_ok (store_ok (self _) _), Heap.write_write,
    bind_of_ok (unlock_ok (self _)), Heap.write_write]
  rfl

theorem addBelow_child {h : Heap (Node V)} {a c : Addr} {n : Node V} {d : Dir} (callocOk : Bool)
    (hr : h.read a = some n) (hu : n.nodeMutex = false) (hc : n.child d = some c) :
    addBelow callocOk a d (h.write a { n with nodeMutex := true }) = .ok (.descend d, h) := by
  have self : ∀ x : Node V, (h.write a x).read a = some x := Heap.read_write_self hr
  have hc' : ({ n with nodeMutex := true } : Node V).child d = some c := by
    cases d <;> exact hc
  have hn : ({ n with nodeMutex := false } : Node V) = n := by rw [← hu]
  rw [addBelow, bind_of_ok (load_ok (self _)), hc', if_neg (by simp),
    bind_of_ok (unlock_ok (self _)), Heap.write_write]
  change Except.ok (Section.descend d, h.write a { n with nodeMutex := false }) = _
  rw [hn, Heap.write_same hr]

/-- The new child is published before it is set up; both happen under the lock. -/
theorem addBelow_sprout {h : Heap (Node V)} {a : Addr} {n : Node V} {d : Dir}
    (hr : h.read a = some n) (hu : n.nodeMutex = false) (hc : n.child d = none) :
    addBelow true a d (h.write a { n with nodeMutex := true }) =
      .ok (.descend d, sprout h a n d) := by
  let locked : Node V := { n with nodeMutex := true }
  let h₁ := h.write a locked
  let h₂ := h₁.alloc .blank
  have hne := Heap.ne_fresh hr
  have r₁ : h₁.read a = some locked := Heap.read_write_self hr _
  have f₁ : h₁.fresh = h.fresh := Heap.fresh_write _ _ _
  have r₂ : h₂.read a = some locked := by rw [Heap.read_alloc, f₁, if_neg hne, r₁]
  let h₃ := h₂.write a (locked.setChild d (some h.fresh))
  have r₃ : h₃.read a = some (locked.setChild d (some h.fresh)) := Heap.read_write_self r₂ _
  have c₃ : h₃.read h.fresh = some .blank := by
    rw [Heap.read_write r₂, if_neg (Ne.symm hne), Heap.read_alloc, f₁, if_pos rfl]
  have hc' : locked.child d = none := by cases d <;> exact hc
  have hset : ({ locked.setChild d (some h.fresh) with nodeMutex := false } : Node V) =
      n.setChild d (some h.fresh) := by
    cases d <;> simp [locked, Node.setChild, ← hu]
  have hcalloc : calloc h₁ = .ok (h.fresh, h₂) := by rw [calloc, f₁]
  have hfinal : h₃.write a (n.setChild d (some h.fresh)) = sprout h a n d := by
    simp only [h₃, h₂, h₁, Heap.write_write, sprout]
    rw [Heap.write_alloc hr, Heap.write_write]
  rw [addBelow, bind_of_ok (load_ok r₁), if_pos hc', if_pos rfl, bind_of_ok hcalloc,
    bind_of_ok (store_ok r₂ _), bind_of_ok (initializeNode_ok c₃), Heap.write_same c₃,
    bind_of_ok (unlock_ok r₃), hset, hfinal]
  rfl

theorem addBelow_failed {h : Heap (Node V)} {a : Addr} {n : Node V} {d : Dir}
    (hr : h.read a = some n) (hc : n.child d = none) :
    addBelow false a d (h.write a { n with nodeMutex := true }) =
      .ok (.ret (-1), h.write a { n with nodeMutex := true }) := by
  let locked : Node V := { n with nodeMutex := true }
  have self : (h.write a locked).read a = some locked := Heap.read_write_self hr _
  have hc' : locked.child d = none := by cases d <;> exact hc
  have hsame : locked.setChild d none = locked := by
    cases d with
    | left => exact congrArg (fun p => { locked with left := p }) hc'.symm
    | right => exact congrArg (fun p => { locked with right := p }) hc'.symm
  rw [addBelow, bind_of_ok (load_ok self), if_pos hc']
  simp only [Bool.false_eq_true, if_false]
  rw [bind_of_ok (store_ok self _), hsame, Heap.write_write]
  rfl

/-- The branches of a critical section of `add` on a free node. The result of `calloc`
matters in the last one only. -/
theorem addSection_branches {h : Heap (Node V)} {a : Addr} {n : Node V} (callocOk : Bool)
    (hr : h.read a = some n) (hu : n.nodeMutex = false) (key : CString) (value : Option V) :
    (n.key = none ∧ addSection callocOk a key value h = .ok (.ret 0, fill h a n key value)) ∨
    (n.key = some key ∧ addSection callocOk a key value h = .ok (.ret (-1), h)) ∨
    (∃ d x c, n.key = some x ∧ Side d x key ∧ n.child d = some c ∧
      addSection callocOk a key value h = .ok (.descend d, h)) ∨
    (∃ d x, n.key = some x ∧ Side d x key ∧ n.child d = none ∧
      addSection callocOk a key value h =
        addBelow callocOk a d (h.write a { n with nodeMutex := true })) := by
  have self : ∀ x : Node V, (h.write a x).read a = some x := Heap.read_write_self hr
  have start : ∀ f : Node V → TreeProgram V Section,
      (pthreadMutexLock (some a) >>= fun _ => load (some a) >>= f) h =
        f { n with nodeMutex := true } (h.write a { n with nodeMutex := true }) := by
    intro f
    rw [bind_of_ok (lock_ok hr hu), bind_of_ok (load_ok (self _))]
  have below : ∀ d x, n.key = some x → Side d x key →
      addSection callocOk a key value h =
        addBelow callocOk a d (h.write a { n with nodeMutex := true }) →
      (∃ d x c, n.key = some x ∧ Side d x key ∧ n.child d = some c ∧
        addSection callocOk a key value h = .ok (.descend d, h)) ∨
      (∃ d x, n.key = some x ∧ Side d x key ∧ n.child d = none ∧
        addSection callocOk a key value h =
          addBelow callocOk a d (h.write a { n with nodeMutex := true })) := by
    intro d x hx hs he
    cases hc : n.child d with
    | none => exact Or.inr ⟨d, x, hx, hs, hc, he⟩
    | some c => exact Or.inl ⟨d, x, c, hx, hs, hc, he.trans (addBelow_child callocOk hr hu hc)⟩
  cases hk : n.key with
  | none =>
    refine Or.inl ⟨rfl, ?_⟩
    rw [addSection, start]
    simp only [hk]
    rw [bind_of_ok (store_ok (self _) _), Heap.write_write, bind_of_ok (store_ok (self _) _),
      Heap.write_write, bind_of_ok (unlock_ok (self _)), Heap.write_write]
    simp only [fill, ← hu]
    rfl
  | some x =>
    rcases lt_trichotomy key x with hlt | heq | hgt
    · refine Or.inr (Or.inr ?_)
      rw [← hk]
      apply below .left x hk hlt
      rw [addSection, start]
      simp only [hk, strcmp_neg_iff, if_pos hlt]
    · subst heq
      have hn : (⟨some key, n.value, n.left, n.right, false⟩ : Node V) = n := by rw [← hk, ← hu]
      refine Or.inr (Or.inl ⟨rfl, ?_⟩)
      rw [addSection, start]
      simp only [hk, strcmp_neg_iff, strcmp_pos_iff, lt_irrefl, if_false]
      rw [bind_of_ok (unlock_ok (self _)), Heap.write_write]
      change Except.ok (Section.ret (-1), h.write a ⟨some key, n.value, n.left, n.right, false⟩) = _
      rw [hn, Heap.write_same hr]
    · refine Or.inr (Or.inr ?_)
      rw [← hk]
      apply below .right x hk hgt
      rw [addSection, start]
      simp only [hk, strcmp_neg_iff, strcmp_pos_iff, if_neg (lt_asymm hgt), if_pos hgt]

theorem addSection_cases {h : Heap (Node V)} {a : Addr} {n : Node V} (hr : h.read a = some n)
    (hu : n.nodeMutex = false) (key : CString) (value : Option V) :
    (n.key = none ∧ addSection true a key value h = .ok (.ret 0, fill h a n key value)) ∨
    (n.key = some key ∧ addSection true a key value h = .ok (.ret (-1), h)) ∨
    (∃ d x c, n.key = some x ∧ Side d x key ∧ n.child d = some c ∧
      addSection true a key value h = .ok (.descend d, h)) ∨
    (∃ d x, n.key = some x ∧ Side d x key ∧ n.child d = none ∧
      addSection true a key value h = .ok (.descend d, sprout h a n d)) := by
  apply (addSection_branches true hr hu key value).imp_right
  apply Or.imp_right
  apply Or.imp_right
  rintro ⟨d, x, hk, hs, hc, he⟩
  exact ⟨d, x, hk, hs, hc, he.trans (addBelow_sprout hr hu hc)⟩

section Preservation

variable {h : Heap (Node V)} {root a : Addr} {n m : Node V} {key : CString} {d : Dir}

theorem TreeInvariant.live (hi : TreeInvariant h root) (ha : Reach (graph h) root a) :
    ∃ n, h.read a = some n := by
  rcases Relation.ReflTransGen.cases_tail ha with rfl | ⟨b, _, d, hd⟩
  · exact hi.root_live
  · exact hi.child_live b d a hd

theorem TreeInvariant.touch (hi : TreeInvariant h root) (hr : h.read a = some n)
    (hk : m.key = n.key) (hc : ∀ d, m.child d = n.child d) :
    TreeInvariant (h.write a m) root := by
  have same := graph_touch hr hk hc
  refine ⟨Heap.live_write hr m hi.root_live, ?_, ?_, ?_⟩
  · intro b e c hb
    rw [same] at hb
    exact Heap.live_write hr m (hi.child_live b e c hb)
  · intro b e c hb
    rw [same] at hb
    exact hi.child_later b e c hb
  · rw [same]
    exact hi.shape

theorem TreeInvariant.mutex (hi : TreeInvariant h root) (hr : h.read a = some n) (b : Bool) :
    TreeInvariant (h.write a { n with nodeMutex := b }) root :=
  hi.touch hr rfl fun d => by cases d <;> rfl

theorem TreeInvariant.fill (hi : TreeInvariant h root) (hr : h.read a = some n)
    (hk : n.key = none) (hp : Leads (graph h) key root a) (value : Option V) :
    TreeInvariant (fill h a n key value) root := by
  refine ⟨Heap.live_write hr _ hi.root_live, ?_, ?_, ?_⟩
  · intro b e c hc
    rw [graph_fill hr] at hc
    exact Heap.live_write hr _ (hi.child_live b e c hc)
  · intro b e c hc
    rw [graph_fill hr] at hc
    exact hi.child_later b e c hc
  · rw [graph_fill hr]
    exact hi.shape.setKey ((graph_key hr).trans hk) hp

theorem live_sprout (hr : h.read a = some n) {b : Addr} (hb : ∃ m, h.read b = some m) :
    ∃ m, (sprout h a n d).read b = some m := by
  have ha : (h.alloc .blank).read a = some n := by
    rw [Heap.read_alloc, if_neg (Heap.ne_fresh hr), hr]
  exact Heap.live_write ha _ (Heap.live_alloc _ hb)

theorem TreeInvariant.sprout (hi : TreeInvariant h root) (hr : h.read a = some n)
    {x : CString} (hk : n.key = some x) (hc : n.child d = none) :
    TreeInvariant (sprout h a n d) root := by
  have born : ∃ m, (ThreadSafeTreeInvariant.sprout h a n d).read h.fresh = some m := by
    rw [read_sprout hr, if_neg (Ne.symm (Heap.ne_fresh hr)), if_pos rfl]
    exact ⟨_, rfl⟩
  have orphan : ∀ b e, (graph h).child b e ≠ some h.fresh := by
    intro b e hb
    obtain ⟨m, hm⟩ := hi.child_live b e _ hb
    exact Heap.ne_fresh hm rfl
  obtain ⟨rn, hrn⟩ := hi.root_live
  refine ⟨live_sprout hr hi.root_live, ?_, ?_, ?_⟩
  · intro b e c hb
    rw [graph_sprout hr, LinkGraph.setChild_child] at hb
    split at hb
    · cases hb; exact born
    · exact live_sprout hr (hi.child_live b e c hb)
  · intro b e c hb
    rw [graph_sprout hr, LinkGraph.setChild_child] at hb
    split at hb
    · next hbe => cases hb; rw [hbe.1]; exact Heap.lt_fresh hr
    · exact hi.child_later b e c hb
  · rw [graph_sprout hr]
    exact hi.shape.setChild ((graph_key hr).trans hk) ((graph_child hr d).trans hc)
      (Ne.symm (Heap.ne_fresh hrn)) orphan

theorem Unlocked.fill (hu : Unlocked h) (hr : h.read a = some n) (value : Option V) :
    Unlocked (fill h a n key value) := by
  intro b m hm
  rw [read_fill hr] at hm
  split at hm
  · cases hm; exact hu a n hr
  · exact hu b m hm

theorem Unlocked.sprout (hu : Unlocked h) (hr : h.read a = some n) :
    Unlocked (sprout h a n d) := by
  intro b m hm
  rw [read_sprout hr] at hm
  split at hm
  · cases hm; simpa using hu a n hr
  · split at hm
    · cases hm; rfl
    · exact hu b m hm

end Preservation

/-- The order of the tree in the words of the source: by `strcmp`, over whole subtrees. -/
def StrcmpOrdered (h : Heap (Node V)) (root : Addr) : Prop :=
  ∀ a n k, Reach (graph h) root a → h.read a = some n → n.key = some k →
    (∀ l b m x, n.left = some l → Reach (graph h) l b → h.read b = some m → m.key = some x →
      0 < strcmp k x) ∧
    (∀ r b m x, n.right = some r → Reach (graph h) r b → h.read b = some m → m.key = some x →
      strcmp k x < 0)

theorem strcmpOrdered_iff {h : Heap (Node V)} {root : Addr} :
    StrcmpOrdered h root ↔ Ordered (graph h) root := by
  constructor
  · intro ho a k d c b x ha hk hc hb hx
    obtain ⟨n, hn, hk'⟩ := live_of_key hk
    obtain ⟨m, hm, hx'⟩ := live_of_key hx
    rw [graph_child hn] at hc
    cases d with
    | left => exact strcmp_pos_iff.mp ((ho a n k ha hn hk').1 c b m x hc hb hm hx')
    | right => exact strcmp_neg_iff.mp ((ho a n k ha hn hk').2 c b m x hc hb hm hx')
  · intro ho a n k ha hn hk
    have hk' := (graph_key hn).trans hk
    constructor
    · intro l b m x hl hb hm hx
      exact strcmp_pos_iff.mpr (ho a k .left l b x ha hk' ((graph_child hn .left).trans hl)
        hb ((graph_key hm).trans hx))
    · intro r b m x hl hb hm hx
      exact strcmp_neg_iff.mpr (ho a k .right r b x ha hk' ((graph_child hn .right).trans hl)
        hb ((graph_key hm).trans hx))

/-- Stored pairs and child links are the same in the later heap. -/
structure Persists (h h' : Heap (Node V)) : Prop where
  stored : ∀ a n k, h.read a = some n → n.key = some k →
    ∃ n', h'.read a = some n' ∧ n'.key = some k ∧ n'.value = n.value
  link : ∀ a n d c, h.read a = some n → n.child d = some c →
    ∃ n', h'.read a = some n' ∧ n'.child d = some c

theorem Persists.refl (h : Heap (Node V)) : Persists h h :=
  ⟨fun _ n _ hr hk => ⟨n, hr, hk, rfl⟩, fun _ n _ _ hr hc => ⟨n, hr, hc⟩⟩

theorem Persists.trans {h₁ h₂ h₃ : Heap (Node V)} (p : Persists h₁ h₂) (q : Persists h₂ h₃) :
    Persists h₁ h₃ := by
  constructor
  · intro a n k hr hk
    obtain ⟨n₂, hr₂, hk₂, hv₂⟩ := p.stored a n k hr hk
    obtain ⟨n₃, hr₃, hk₃, hv₃⟩ := q.stored a n₂ k hr₂ hk₂
    exact ⟨n₃, hr₃, hk₃, hv₃.trans hv₂⟩
  · intro a n d c hr hc
    obtain ⟨n₂, hr₂, hc₂⟩ := p.link a n d c hr hc
    exact q.link a n₂ d c hr₂ hc₂

theorem Persists.grows {h h' : Heap (Node V)} (p : Persists h h') : Grows (graph h) (graph h') := by
  constructor
  · intro a k hk
    obtain ⟨n, hr, hn⟩ := live_of_key hk
    obtain ⟨n', hr', hk', _⟩ := p.stored a n k hr hn
    exact (graph_key hr').trans hk'
  · intro a d c hc
    obtain ⟨n, hr, hn⟩ := live_of_child hc
    obtain ⟨n', hr', hc'⟩ := p.link a n d c hr hn
    exact (graph_child hr' d).trans hc'

theorem persists_fill {h : Heap (Node V)} {a : Addr} {n : Node V} (hr : h.read a = some n)
    (hk : n.key = none) (key : CString) (value : Option V) : Persists h (fill h a n key value) := by
  constructor
  · intro b m k hm hmk
    have hb : b ≠ a := by
      rintro rfl
      cases hr.symm.trans hm
      rw [hk] at hmk; cases hmk
    exact ⟨m, by rw [read_fill hr, if_neg hb, hm], hmk, rfl⟩
  · intro b m d c hm hc
    by_cases hb : b = a
    · subst b
      cases hr.symm.trans hm
      exact ⟨_, by rw [read_fill hr, if_pos rfl], by cases d <;> exact hc⟩
    · exact ⟨m, by rw [read_fill hr, if_neg hb, hm], hc⟩

theorem persists_sprout {h : Heap (Node V)} {a : Addr} {n : Node V} {d : Dir}
    (hr : h.read a = some n) (hc : n.child d = none) : Persists h (sprout h a n d) := by
  have keep : ∀ b m, h.read b = some m → b ≠ a → (sprout h a n d).read b = some m := by
    intro b m hm hb
    rw [read_sprout hr, if_neg hb, if_neg (Heap.ne_fresh hm), hm]
  have here : (sprout h a n d).read a = some (n.setChild d (some h.fresh)) := by
    rw [read_sprout hr, if_pos rfl]
  constructor
  · intro b m k hm hmk
    by_cases hb : b = a
    · subst b
      cases hr.symm.trans hm
      exact ⟨_, here, by simpa using hmk, by simp⟩
    · exact ⟨m, keep b m hm hb, hmk, rfl⟩
  · intro b m e c hm hmc
    by_cases hb : b = a
    · subst b
      cases hr.symm.trans hm
      have he : e ≠ d := by rintro rfl; rw [hc] at hmc; cases hmc
      exact ⟨_, here, by simpa [he] using hmc⟩
    · exact ⟨m, keep b m hm hb, hmc⟩

def Holds (h : Heap (Node V)) (key : CString) (value : Option V) : Prop :=
  ∃ a n, h.read a = some n ∧ n.key = some key ∧ n.value = value

theorem holds_fill {h : Heap (Node V)} {a : Addr} {n : Node V} (hr : h.read a = some n)
    (hk : n.key = none) (key : CString) (value : Option V) (k : CString) (v : Option V) :
    Holds (fill h a n key value) k v ↔ Holds h k v ∨ (k = key ∧ v = value) := by
  constructor
  · rintro ⟨b, m, hm, hmk, hmv⟩
    rw [read_fill hr] at hm
    split at hm
    · cases hm
      exact Or.inr ⟨(Option.some.inj hmk).symm, hmv.symm⟩
    · exact Or.inl ⟨b, m, hm, hmk, hmv⟩
  · rintro (⟨b, m, hm, hmk, hmv⟩ | ⟨rfl, rfl⟩)
    · obtain ⟨m', hm', hk', hv'⟩ := (persists_fill hr hk key value).stored b m k hm hmk
      exact ⟨b, m', hm', hk', hv'.trans hmv⟩
    · exact ⟨a, _, by rw [read_fill hr, if_pos rfl], rfl, rfl⟩

theorem holds_sprout {h : Heap (Node V)} {a : Addr} {n : Node V} {d : Dir}
    (hr : h.read a = some n) (hc : n.child d = none) (k : CString) (v : Option V) :
    Holds (sprout h a n d) k v ↔ Holds h k v := by
  constructor
  · rintro ⟨b, m, hm, hmk, hmv⟩
    rw [read_sprout hr] at hm
    split at hm
    · cases hm
      exact ⟨a, n, hr, by simpa using hmk, by simpa using hmv⟩
    · split at hm
      · cases hm; cases hmk
      · exact ⟨b, m, hm, hmk, hmv⟩
  · rintro ⟨b, m, hm, hmk, hmv⟩
    obtain ⟨m', hm', hk', hv'⟩ := (persists_sprout hr hc).stored b m k hm hmk
    exact ⟨b, m', hm', hk', hv'.trans hmv⟩

def rootAddr : Addr := 0

def rooted : Heap (Node V) := ⟨[some .blank]⟩

theorem read_rooted {a : Addr} {n : Node V} (hr : (rooted : Heap (Node V)).read a = some n) :
    a = rootAddr ∧ n = .blank := by
  cases a with
  | zero => exact ⟨rfl, (Option.some.inj hr).symm⟩
  | succ a => simp [rooted, Heap.read] at hr

theorem rooted_invariant : TreeInvariant (rooted : Heap (Node V)) rootAddr := by
  have nokey : ∀ a k, (graph (rooted : Heap (Node V))).key a ≠ some k := by
    intro a k hk
    obtain ⟨n, hr, hn⟩ := live_of_key hk
    rw [(read_rooted hr).2] at hn
    cases hn
  have nochild : ∀ a d, (graph (rooted : Heap (Node V))).child a d = none := by
    intro a d
    cases hc : (graph (rooted : Heap (Node V))).child a d with
    | none => rfl
    | some c =>
      obtain ⟨n, hr, hn⟩ := live_of_child hc
      rw [(read_rooted hr).2, child_blank] at hn
      cases hn
  refine ⟨⟨_, rfl⟩, ?_, ?_, ?_, ?_, ?_, ?_⟩
  · intro a d c hc; rw [nochild] at hc; cases hc
  · intro a d c hc; rw [nochild] at hc; cases hc
  · intro a d hc; rw [nochild] at hc; cases hc
  · intro a b c d e hc; rw [nochild] at hc; cases hc
  · intro a k hk; exact absurd hk (nokey a k)
  · intro a d _; exact nochild a d

theorem rooted_unlocked : Unlocked (rooted : Heap (Node V)) := by
  intro a n hr
  rw [(read_rooted hr).2]
  rfl

end ThreadSafeTreeInvariant
