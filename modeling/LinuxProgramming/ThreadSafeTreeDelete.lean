import LinuxProgramming.ThreadSafeTreeSequential

/-! `delete` on a tree built by `add`. It is right on one kind of key only: a leaf below the
root on the same side of its parent as of the root. Everywhere else it leaves a released
node linked into the tree. -/
namespace ThreadSafeTreeDelete

open BlockMemory CharStrings SearchGraph ThreadSafeTree ThreadSafeTreeInvariant
open ThreadSafeTreeSearch ThreadSafeTreeSequential

variable {V : Type}

theorem getParent_found {h : Heap (Node V)} {s : Addr} {k : CString}
    (hi : TreeInvariant h rootAddr) (hk : (graph h).key s = some k) (parent : Option Addr) :
    (rootAddr = s ∧ getParent (some rootAddr) (some k) parent h = .ok ((0, parent), h)) ∨
    ∃ p d, Reach (graph h) rootAddr p ∧ (graph h).child p d = some s ∧
      getParent (some rootAddr) (some k) parent h = .ok ((0, some p), h) :=
  getParent_stored (searchable hi) hk (hi.shape.stored_on_path s k hk) hi.root_live parent

theorem getNode_stored {h : Heap (Node V)} {s : Addr} {k : CString}
    (hi : TreeInvariant h rootAddr) (hk : (graph h).key s = some k) (self : Option Addr) :
    getNode (some rootAddr) (some k) self h = .ok ((0, some s), h) := by
  rcases getNode_result (k := k) (searchable hi) self hi.root_live with ⟨t, _, ht, hrun⟩ | ⟨hno, _⟩
  · rw [hi.shape.stored_once hk ht]; exact hrun
  · exact absurd hk (hno s (hi.shape.stored_on_path s k hk))

theorem delete_eq {h : Heap (Node V)} {s : Addr} {k : CString} {parent found : Option Addr}
    (hi : TreeInvariant h rootAddr) (hk : (graph h).key s = some k) (self : Option Addr)
    (hp : getParent (some rootAddr) (some k) parent h = .ok ((0, found), h)) :
    delete (some rootAddr) (some k) parent self h =
      deleteFound (some rootAddr) (some k) found (some s) h := by
  rw [delete, bind_of_ok hp]
  change (getNode (some rootAddr) (some k) self >>= _) h = _
  rw [bind_of_ok (getNode_stored hi hk self)]
  rfl

theorem takeOver_read {h : Heap (Node V)} {s m : Addr} {ns nm : Node V}
    (hs : h.read s = some ns) (hu : ns.nodeMutex = false) (hm : h.read m = some nm)
    (hne : s ≠ m) : ∃ h', takeOver (some s) (some m) h = .ok (0, h') ∧
      ∀ b, h'.read b = if b = s then some ⟨nm.key, nm.value, ns.left, ns.right, false⟩
        else if b = m then none else h.read b := by
  have self : ∀ x : Node V, (h.write s x).read s = some x := Heap.read_write_self hs
  have other : ∀ x : Node V, (h.write s x).read m = some nm := by
    intro x; rw [Heap.read_write hs, if_neg (Ne.symm hne), hm]
  have freed : ∀ x : Node V, ((h.write s x).release m).read s = some x := by
    intro x; rw [Heap.read_release, if_neg hne, self]
  refine ⟨((h.write s ⟨nm.key, nm.value, ns.left, ns.right, true⟩).release m).write s
    ⟨nm.key, nm.value, ns.left, ns.right, false⟩, ?_, ?_⟩
  · rw [takeOver, bind_of_ok (lock_ok hs hu), bind_of_ok (load_ok (other _)),
      bind_of_ok (store_ok (self _) _), Heap.write_write, bind_of_ok (load_ok (other _)),
      bind_of_ok (store_ok (self _) _), Heap.write_write, bind_of_ok (free_ok (other _)),
      bind_of_ok (unlock_ok (freed _))]
    rfl
  · intro b
    rw [Heap.read_write (freed _), Heap.read_release, Heap.read_write hs]
    by_cases hb : b = s <;> simp [hb]

/-- The side that `delete` unlinks: decided by the key of the root. -/
def unlinkedSide (rootKey key : CString) : Dir := if 0 < strcmp rootKey key then .left else .right

theorem unlinkLeaf_read {h : Heap (Node V)} {root p s : Addr} {nr np ns : Node V}
    {r k : CString} (hroot : h.read root = some nr) (hr : nr.key = some r)
    (hp : h.read p = some np) (hs : h.read s = some ns) (hne : p ≠ s) :
    ∃ h', unlinkLeaf (some root) (some k) (some p) (some s) h = .ok (0, h') ∧
      ∀ b, h'.read b =
        if b = p then some { np.setChild (unlinkedSide r k) none with nodeMutex := false }
        else if b = s then none else h.read b := by
  let cut : Node V := np.setChild (unlinkedSide r k) none
  have self : (h.write p cut).read p = some cut := Heap.read_write_self hp _
  have other : (h.write p cut).read s = some ns := by
    rw [Heap.read_write hp, if_neg (Ne.symm hne), hs]
  have freed : ((h.write p cut).release s).read p = some cut := by
    rw [Heap.read_release, if_neg hne, self]
  refine ⟨((h.write p cut).release s).write p { cut with nodeMutex := false }, ?_, ?_⟩
  · have hcmp : strcmpPtr nr.key (some k) h = .ok (strcmp r k, h) := by rw [hr]; rfl
    rw [unlinkLeaf, bind_of_ok (load_ok hroot), bind_of_ok hcmp]
    have tail : (do free (some s); pthreadMutexUnlock (some p); return 0 : TreeProgram V Int)
        (h.write p cut) =
          .ok (0, ((h.write p cut).release s).write p { cut with nodeMutex := false }) := by
      rw [bind_of_ok (free_ok other), bind_of_ok (unlock_ok freed)]
      rfl
    by_cases hc : 0 < strcmp r k
    · have hcut : np.setChild .left none = cut := by simp [cut, unlinkedSide, hc]
      rw [if_pos hc, bind_of_ok (store_ok hp _), hcut]
      exact tail
    · have hcut : np.setChild .right none = cut := by simp only [cut, unlinkedSide, if_neg hc]
      rw [if_neg hc, bind_of_ok (store_ok hp _), hcut]
      exact tail
  · intro b
    rw [Heap.read_write freed, Heap.read_release, Heap.read_write hp]
    by_cases hb : b = p <;> simp [hb, cut]

theorem unlinkLeaf_self {h : Heap (Node V)} {root s : Addr} {nr ns : Node V} {r k : CString}
    (hroot : h.read root = some nr) (hr : nr.key = some r) (hs : h.read s = some ns) :
    unlinkLeaf (some root) (some k) (some s) (some s) h = .error .invalidPointer := by
  have hcmp : strcmpPtr nr.key (some k) h = .ok (strcmp r k, h) := by rw [hr]; rfl
  have tail : ∀ x : Node V, (do free (some s); pthreadMutexUnlock (some s); return 0 :
      TreeProgram V Int) (h.write s x) = .error .invalidPointer := by
    intro x
    have gone : ((h.write s x).release s).read s = none := by rw [Heap.read_release, if_pos rfl]
    have hunlock : pthreadMutexUnlock (some s) ((h.write s x).release s) =
        .error .invalidPointer := by simp [pthreadMutexUnlock, store, gone]
    rw [bind_of_ok (free_ok (Heap.read_write_self hs x)), bind_of_error hunlock]
  rw [unlinkLeaf, bind_of_ok (load_ok hroot), bind_of_ok hcmp]
  by_cases hc : 0 < strcmp r k
  · rw [if_pos hc, bind_of_ok (store_ok hs _)]; exact tail _
  · rw [if_neg hc, bind_of_ok (store_ok hs _)]; exact tail _

theorem replaceInner_eq {h : Heap (Node V)} {s : Addr} {n : Node V}
    (hi : TreeInvariant h rootAddr) (hf : ∀ a m, h.read a = some m → m.key = none → a = rootAddr)
    (hn : h.read s = some n) (hc : ¬ (n.left = none ∧ n.right = none)) :
    ∃ m c d, replaceInner (some s) n h = takeOver (some s) (some m) h ∧
      (graph h).child s d = some c ∧ Reach (graph h) c m ∧ Live h m := by
  have child : ∀ d c, n.child d = some c → ∃ nc, h.read c = some nc ∧ nc.key ≠ none := by
    intro d c hc
    have hlink := (graph_child hn d).trans hc
    obtain ⟨nc, hnc⟩ := hi.child_live s d c hlink
    refine ⟨nc, hnc, fun hz => ?_⟩
    have hroot := hf c nc hnc hz
    exact hi.shape.root_parentless s d (hroot ▸ hlink)
  by_cases hl : n.left = none
  · obtain ⟨c, hr⟩ := Option.ne_none_iff_exists'.mp (fun hr => hc ⟨hl, hr⟩)
    obtain ⟨nc, hnc, hk⟩ := child .right c hr
    obtain ⟨m, hrun, hchain, _, hm⟩ :=
      getFurthest_result (searchable hi) .left none ⟨nc, hnc⟩ hnc hk
    refine ⟨m, c, .right, ?_, (graph_child hn .right).trans hr, hchain.reach, hm⟩
    rw [replaceInner, if_neg (not_not.mpr hl), hr, getMin, bind_of_ok hrun]
    rfl
  · obtain ⟨c, hl'⟩ := Option.ne_none_iff_exists'.mp hl
    obtain ⟨nc, hnc, hk⟩ := child .left c hl'
    obtain ⟨m, hrun, hchain, _, hm⟩ :=
      getFurthest_result (searchable hi) .right none ⟨nc, hnc⟩ hnc hk
    refine ⟨m, c, .left, ?_, (graph_child hn .left).trans hl', hchain.reach, hm⟩
    rw [replaceInner, if_pos hl, hl', getMax, bind_of_ok hrun]
    rfl

theorem deleteFound_locked {h h' : Heap (Node V)} {root : Addr} {k : CString}
    {parent self : Option Addr} {r : Int} (hu : Unlocked h)
    (hrun : deleteFound (some root) (some k) parent self h = .ok (r, h')) :
    ∃ p np, parent = some p ∧ h.read p = some np ∧
      (do let n ← load self
          if n.left = none ∧ n.right = none then unlinkLeaf (some root) (some k) parent self
          else replaceInner self n : TreeProgram V Int)
        (h.write p { np with nodeMutex := true }) = .ok (r, h') := by
  obtain ⟨_, h₁, hlock, hrest⟩ := bind_eq_ok.mp hrun
  have hload : ∃ p np, parent = some p ∧ h.read p = some np := by
    obtain ⟨np, _, hload, _⟩ := bind_eq_ok.mp hlock
    cases parent with
    | none => cases hload
    | some p =>
      cases hp : h.read p with
      | none => simp [load, hp] at hload
      | some np => exact ⟨p, np, rfl, hp⟩
  obtain ⟨p, np, rfl, hp⟩ := hload
  rw [lock_ok hp (hu p np hp)] at hlock
  cases hlock
  exact ⟨p, np, rfl, hp, hrest⟩

/-- What is left of an inner node's turn: the parent stays locked, and the neighbour below
the node is released. -/
theorem deleteFound_inner {h h' : Heap (Node V)} {s : Addr} {ns : Node V} {k : CString}
    {parent : Option Addr} {r : Int} (hs : Settled h) (hn : h.read s = some ns)
    (hc : ¬ (ns.left = none ∧ ns.right = none))
    (hrun : deleteFound (some rootAddr) (some k) parent (some s) h = .ok (r, h')) :
    ∃ (p : Addr) (np : Node V) (m : Addr) (nm : Node V) (c : Addr) (d : Dir),
      parent = some p ∧ h.read p = some np ∧ s ≠ m ∧
      (graph h).child s d = some c ∧ Reach (graph h) c m ∧
      ∀ b, h'.read b = if b = s then some ⟨nm.key, nm.value, ns.left, ns.right, false⟩
        else if b = m then none else (h.write p { np with nodeMutex := true }).read b := by
  obtain ⟨p, np, rfl, hp, hrest⟩ := deleteFound_locked hs.unlocked hrun
  let h₁ := h.write p { np with nodeMutex := true }
  have hi₁ : TreeInvariant h₁ rootAddr := hs.tree.mutex hp true
  have hg₁ : graph h₁ = graph h := graph_mutex hp true
  have hf₁ : ∀ a m, h₁.read a = some m → m.key = none → a = rootAddr := by
    intro a m hm hk
    rw [Heap.read_write hp] at hm
    split at hm
    · next ha => cases hm; rw [ha]; exact hs.filled p np hp hk
    · exact hs.filled a m hm hk
  by_cases hps : p = s
  · -- the junk parent is the node itself: locking it again blocks for ever
    subst hps
    cases hn.symm.trans hp
    have self : h₁.read p = some { ns with nodeMutex := true } := Heap.read_write_self hp _
    obtain ⟨m, c, d, heq, _⟩ := replaceInner_eq hi₁ hf₁ self hc
    have hdead : pthreadMutexLock (some p) h₁ = .error .deadlock := by
      rw [pthreadMutexLock, bind_of_ok (load_ok self)]
      rfl
    rw [bind_of_ok (load_ok self), if_neg hc, heq, takeOver, bind_of_error hdead] at hrest
    cases hrest
  · have self : h₁.read s = some ns := by
      rw [Heap.read_write hp, if_neg (Ne.symm hps), hn]
    obtain ⟨m, c, d, heq, hlink, hcm, nm, hm⟩ := replaceInner_eq hi₁ hf₁ self hc
    have hsm : s ≠ m := by
      have hlt := hi₁.child_later s d c hlink
      have hle := reach_rank_le id hi₁.child_later hcm
      exact Nat.ne_of_lt (Nat.lt_of_lt_of_le hlt hle)
    obtain ⟨h₂, hrun₂, hread⟩ := takeOver_read self (hs.unlocked s ns hn) hm hsm
    rw [bind_of_ok (load_ok self), if_neg hc, heq, hrun₂] at hrest
    cases hrest
    exact ⟨p, np, m, nm, c, d, rfl, hp, hsm, hg₁ ▸ hlink, hg₁ ▸ hcm, hread⟩

theorem inner_leaves_freed {h h' : Heap (Node V)} {s : Addr} {ns : Node V} {k : CString}
    {parent : Option Addr} {r : Int} (hs : Settled h) (hn : h.read s = some ns)
    (hreach : Reach (graph h) rootAddr s) (hc : ¬ (ns.left = none ∧ ns.right = none))
    (hrun : deleteFound (some rootAddr) (some k) parent (some s) h = .ok (r, h')) :
    ∃ m, Reach (graph h') rootAddr m ∧ h'.read m = none := by
  obtain ⟨p, np, m, nm, c, d, _, hp, hsm, hlink, hcm, hread⟩ := deleteFound_inner hs hn hc hrun
  refine ⟨m, ?_, by rw [hread, if_neg (Ne.symm hsm), if_pos rfl]⟩
  apply reach_kept ((hreach.tail ⟨d, hlink⟩).trans hcm)
  intro b e x hb hxm
  have hbm : b ≠ m := by
    have hlt := hs.tree.child_later b e x hb
    have hle := reach_rank_le id hs.tree.child_later hxm
    exact Nat.ne_of_lt (Nat.lt_of_lt_of_le hlt hle)
  by_cases hbs : b = s
  · subst hbs
    rw [graph_child hn] at hb
    rw [graph_child (by rw [hread, if_pos rfl])]
    cases e <;> exact hb
  · have hb₁ := (congrArg (fun g => g.child b e) (graph_mutex hp true)).trans hb
    obtain ⟨nb, hnb, hbx⟩ := live_of_child hb₁
    rw [graph_child (by rw [hread, if_neg hbs, if_neg hbm, hnb])]
    exact hbx

/-- A leaf is released and one link of its parent is cleared, on the side that the root
chooses. -/
theorem deleteFound_leaf {h : Heap (Node V)} {p s : Addr} {np ns : Node V} {r k : CString}
    (hs : Settled h) (hr : (graph h).key rootAddr = some r) (hp : h.read p = some np)
    (hn : h.read s = some ns) (leaf : ns.left = none ∧ ns.right = none) (hne : p ≠ s) :
    ∃ h', deleteFound (some rootAddr) (some k) (some p) (some s) h = .ok (0, h') ∧
      ∀ b, h'.read b = if b = p then some (np.setChild (unlinkedSide r k) none)
        else if b = s then none else h.read b := by
  have hu := hs.unlocked p np hp
  let h₁ := h.write p { np with nodeMutex := true }
  have hroot : ∃ nr, h₁.read rootAddr = some nr ∧ nr.key = some r :=
    live_of_key ((congrArg (fun g => g.key rootAddr) (graph_mutex hp true)).trans hr)
  obtain ⟨nr, hnr, hkr⟩ := hroot
  have self : h₁.read s = some ns := by rw [Heap.read_write hp, if_neg (Ne.symm hne), hn]
  obtain ⟨h', hrun, hread⟩ := unlinkLeaf_read (k := k) hnr hkr (Heap.read_write_self hp _) self hne
  refine ⟨h', ?_, ?_⟩
  · rw [deleteFound, bind_of_ok (lock_ok hp hu), bind_of_ok (load_ok self), if_pos leaf]
    exact hrun
  · intro b
    rw [hread b, Heap.read_write hp]
    by_cases hb : b = p
    · subst hb
      cases hside : unlinkedSide r k <;> simp [Node.setChild, ← hu]
    · simp [hb]

theorem unlinkedSide_eq_iff {r k : CString} (hne : r ≠ k) (d : Dir) :
    unlinkedSide r k = d ↔ Side d r k := by
  have hside : Side (unlinkedSide r k) r k := by
    unfold unlinkedSide
    by_cases hlt : k < r
    · rw [if_pos (strcmp_pos_iff.mpr hlt)]; exact hlt
    · rw [if_neg (fun h => hlt (strcmp_pos_iff.mp h))]
      exact lt_of_le_of_ne (not_lt.mp hlt) hne
  exact ⟨fun h => h ▸ hside, fun h => side_unique hside h⟩

def Stored (h : Heap (Node V)) (k : CString) (v : Option V) : Prop :=
  ∃ a n, Reach (graph h) rootAddr a ∧ h.read a = some n ∧ n.key = some k ∧ n.value = v

structure Removed (h : Heap (Node V)) (k : CString) (h' : Heap (Node V)) : Prop where
  no_freed : ∀ a, Reach (graph h') rootAddr a → Live h' a
  ordered : StrcmpOrdered h' rootAddr
  pairs : ∀ x v, Stored h' x v ↔ Stored h x v ∧ x ≠ k
  once : ∀ a b x, Reach (graph h') rootAddr a → Reach (graph h') rootAddr b →
    (graph h').key a = some x → (graph h').key b = some x → a = b
  found : ∀ x value, ∃ b, lookup (some rootAddr) (some x) value h' = .ok ((b, value), h') ∧
    (b = true ↔ (∃ v, Stored h x v) ∧ x ≠ k)

/-- `delete` returns 0 and takes out exactly the key. -/
def DeleteWorks (h : Heap (Node V)) (k : CString) (parent self : Option Addr) : Prop :=
  ∃ h', delete (some rootAddr) (some k) parent self h = .ok (0, h') ∧ Removed h k h'

/-- The key is held by a leaf that hangs below its parent on the same side as it lies of
the key of the root. -/
def SameSideLeaf (h : Heap (Node V)) (k : CString) : Prop :=
  ∃ p s d r, (graph h).child p d = some s ∧ (graph h).key s = some k ∧
    (∀ e, (graph h).child s e = none) ∧ (graph h).key rootAddr = some r ∧ Side d r k

theorem stored_iff_holds {h : Heap (Node V)} (hi : TreeInvariant h rootAddr) (k : CString)
    (v : Option V) : Stored h k v ↔ Holds h k v := by
  constructor
  · intro ⟨a, n, _, hn, hk, hv⟩
    exact ⟨a, n, hn, hk, hv⟩
  · intro ⟨a, n, hn, hk, hv⟩
    exact ⟨a, n, hi.shape.stored_reachable ((graph_key hn).trans hk), hn, hk, hv⟩

section Unlinked

variable {h h' : Heap (Node V)} {p s : Addr} {np : Node V} {d : Dir} {k : CString}
  (hi : TreeInvariant h rootAddr) (hl : (graph h).child p d = some s)
  (hk : (graph h).key s = some k) (leaf : ∀ e, (graph h).child s e = none)
  (hp : h.read p = some np)
  (hread : ∀ b, h'.read b = if b = p then some (np.setChild d none)
    else if b = s then none else h.read b)

include hi hl in
theorem parent_ne : p ≠ s := Nat.ne_of_lt (hi.child_later p d s hl)

include hi hl leaf hp hread in
theorem graph_unlinked : graph h' = (graph h).prune p d s := by
  have hne := parent_ne hi hl
  have hkey : (graph h').key = Function.update (graph h).key s none := by
    funext b
    by_cases hb : b = p
    · subst hb; simp [graph, hread, hp, hne]
    · by_cases hbs : b = s
      · subst hbs; simp [graph, hread, hb]
      · simp [graph, hread, hb, hbs]
  have hchild : (graph h').child =
      fun b e => if b = p ∧ e = d then none else (graph h).child b e := by
    funext b e
    by_cases hb : b = p
    · subst hb; simp [graph, hread, hp]
    · by_cases hbs : b = s
      · subst hbs
        simp only [hb, false_and, if_false, leaf e]
        simp [graph, hread, hb]
      · simp [graph, hread, hb, hbs]
  unfold LinkGraph.prune
  rw [← hkey, ← hchild]

include hi hl leaf hp hread in
theorem unlinked_invariant : TreeInvariant h' rootAddr := by
  have hg := graph_unlinked hi hl leaf hp hread
  have live : ∀ c, c ≠ s → Live h c → Live h' c := by
    intro c hc ⟨n, hn⟩
    by_cases hcp : c = p
    · exact ⟨_, by rw [hread, if_pos hcp]⟩
    · exact ⟨n, by rw [hread, if_neg hcp, if_neg hc, hn]⟩
  have sub : ∀ b e c, (graph h').child b e = some c → (graph h).child b e = some c ∧ c ≠ s := by
    intro b e c hc
    rw [hg] at hc
    exact hi.shape.prune_child hl hc
  refine ⟨?_, ?_, ?_, ?_⟩
  · apply live rootAddr _ hi.root_live
    intro hroot
    exact hi.shape.root_parentless p d (hroot ▸ hl)
  · intro b e c hc
    obtain ⟨hc, hcs⟩ := sub b e c hc
    exact live c hcs (hi.child_live b e c hc)
  · intro b e c hc
    exact hi.child_later b e c (sub b e c hc).1
  · rw [hg]
    exact hi.shape.prune hl leaf

include hi hl hk hp hread in
theorem holds_unlinked (x : CString) (v : Option V) :
    Holds h' x v ↔ Holds h x v ∧ x ≠ k := by
  have hne := parent_ne hi hl
  constructor
  · intro ⟨b, m, hm, hx, hv⟩
    have other : ∀ n, b ≠ s → h.read b = some n → n.key = some x → x ≠ k := by
      intro n hb hn hnx hxk
      exact hb (hi.shape.stored_once ((graph_key hn).trans hnx) (hxk ▸ hk))
    rw [hread] at hm
    split at hm
    · next hb =>
      subst hb
      cases hm
      rw [key_setChild] at hx
      rw [value_setChild] at hv
      exact ⟨⟨b, np, hp, hx, hv⟩, other np hne hp hx⟩
    · split at hm
      · cases hm
      · next hbs => exact ⟨⟨b, m, hm, hx, hv⟩, other m hbs hm hx⟩
  · intro ⟨⟨b, m, hm, hx, hv⟩, hxk⟩
    have hbs : b ≠ s := by
      intro hb
      rw [hb] at hm
      exact hxk (Option.some.inj (hx.symm.trans ((graph_key hm).symm.trans hk)))
    by_cases hb : b = p
    · subst hb
      cases hp.symm.trans hm
      exact ⟨b, np.setChild d none, by rw [hread, if_pos rfl], by rw [key_setChild, hx],
        by rw [value_setChild, hv]⟩
    · exact ⟨b, m, by rw [hread, if_neg hb, if_neg hbs, hm], hx, hv⟩

include hi hl hk leaf hp hread in
theorem removed_unlinked : Removed h k h' := by
  have hi' := unlinked_invariant hi hl leaf hp hread
  have hpairs : ∀ x v, Stored h' x v ↔ Stored h x v ∧ x ≠ k := by
    intro x v
    rw [stored_iff_holds hi', stored_iff_holds hi]
    exact holds_unlinked hi hl hk hp hread x v
  refine ⟨fun a => hi'.live, strcmpOrdered_iff.mpr hi'.shape.ordered, hpairs,
    fun a b x _ _ => hi'.shape.stored_once, ?_⟩
  intro x value
  have hsearch := lookup_result (k := x) (searchable hi') value hi'.root_live
  rcases hsearch with ⟨t, hpath, ht, hrun⟩ | ⟨hno, hrun⟩
  · refine ⟨true, hrun, fun _ => ?_, fun _ => rfl⟩
    obtain ⟨n, hn, hx⟩ := live_of_key ht
    have hst := (hpairs x n.value).mp ⟨t, n, leads_reach hpath, hn, hx, rfl⟩
    exact ⟨⟨n.value, hst.1⟩, hst.2⟩
  · refine ⟨false, hrun, by simp, ?_⟩
    intro ⟨⟨v, hv⟩, hx⟩
    obtain ⟨t, n, _, hn, hnx, _⟩ := (hpairs x v).mpr ⟨hv, hx⟩
    have ht := (graph_key hn).trans hnx
    exact absurd ht (hno t (hi'.shape.stored_on_path t x ht))

end Unlinked

section Converse

variable {h h' : Heap (Node V)} {p s : Addr} {np : Node V} {d e : Dir} {k : CString}

theorem wrong_side_reachable (hi : TreeInvariant h rootAddr) (hl : (graph h).child p d = some s)
    (hk : (graph h).key s = some k) (leaf : ∀ e, (graph h).child s e = none)
    (hp : h.read p = some np) (hde : e ≠ d)
    (hread : ∀ b, h'.read b = if b = p then some (np.setChild e none)
      else if b = s then none else h.read b) : Reach (graph h') rootAddr s := by
  apply reach_kept (hi.shape.stored_reachable hk)
  intro b f c hc hcs
  by_cases hb : b = p
  · -- the only way from the parent to the leaf is its direct link
    subst hb
    have hfd : f = d := by
      rcases Relation.ReflTransGen.cases_tail hcs with rfl | ⟨q, hcq, g, hq⟩
      · exact (hi.shape.parent_unique b b s f d hc hl).2
      · obtain ⟨rfl, _⟩ := hi.shape.parent_unique q b s g d hq hl
        have hlt := hi.child_later q f c hc
        have hle := reach_rank_le id hi.child_later hcq
        exact absurd hlt (Nat.not_lt.mpr hle)
    subst hfd
    rw [graph_child hp] at hc
    rw [graph_child (by rw [hread, if_pos rfl]), child_setChild, if_neg (Ne.symm hde)]
    exact hc
  · have hbs : b ≠ s := by
      intro hbs
      rw [hbs, leaf f] at hc
      cases hc
    obtain ⟨n, hn, hnc⟩ := live_of_child hc
    rw [graph_child (by rw [hread, if_neg hb, if_neg hbs, hn])]
    exact hnc

theorem root_leaf_fails {ns : Node V} {parent : Option Addr} {r : Int} (hs : Settled h)
    (hk : (graph h).key rootAddr = some k) (hn : h.read rootAddr = some ns)
    (leaf : ns.left = none ∧ ns.right = none)
    (hrun : deleteFound (some rootAddr) (some k) parent (some rootAddr) h = .ok (r, h')) :
    h'.read rootAddr = none := by
  obtain ⟨p, np, rfl, hp, hrest⟩ := deleteFound_locked hs.unlocked hrun
  by_cases hne : p = rootAddr
  · subst hne
    cases hn.symm.trans hp
    have self := Heap.read_write_self hp { ns with nodeMutex := true }
    rw [graph_key hp] at hk
    rw [bind_of_ok (load_ok self), if_pos leaf, unlinkLeaf_self self hk self] at hrest
    cases hrest
  · obtain ⟨h₂, hrun₂, hread⟩ := deleteFound_leaf (k := k) hs hk hp hn leaf hne
    cases hrun.symm.trans hrun₂
    rw [hread, if_neg (Ne.symm hne), if_pos rfl]

theorem root_key {d : Dir} (hi : TreeInvariant h rootAddr) (hl : (graph h).child p d = some s)
    (hk : (graph h).key s = some k) : ∃ r, (graph h).key rootAddr = some r ∧ r ≠ k := by
  have hroot : rootAddr ≠ s := fun hroot => hi.shape.root_parentless p d (hroot ▸ hl)
  cases hr : (graph h).key rootAddr with
  | none =>
    exact absurd (leads_from_empty (hi.shape.stored_on_path s k hk) hr).symm hroot
  | some r =>
    refine ⟨r, rfl, ?_⟩
    intro hrk
    exact hroot (hi.shape.stored_once hr (hrk ▸ hk))

theorem childless_iff {n : Node V} (hn : h.read s = some n) :
    (∀ e, (graph h).child s e = none) ↔ n.left = none ∧ n.right = none := by
  simp only [graph_child hn]
  exact ⟨fun leaf => ⟨leaf .left, leaf .right⟩, fun leaf e => by cases e; exacts [leaf.1, leaf.2]⟩

theorem sameSideLeaf_of_works {parent self : Option Addr} (hs : Settled h)
    (hk : (graph h).key s = some k) (hw : DeleteWorks h k parent self) : SameSideLeaf h k := by
  have hi := hs.tree
  obtain ⟨h', hrun, hdel⟩ := hw
  obtain ⟨ns, hn, _⟩ := live_of_key hk
  have dead : ∀ m, Reach (graph h') rootAddr m → h'.read m = none → False := by
    intro m hm hnone
    obtain ⟨n, hn⟩ := hdel.no_freed m hm
    rw [hnone] at hn
    cases hn
  have inner : ∀ found, deleteFound (some rootAddr) (some k) found (some s) h = .ok (0, h') →
      ns.left = none ∧ ns.right = none := by
    intro found hfound
    by_contra hc
    obtain ⟨m, hm, hnone⟩ :=
      inner_leaves_freed hs hn (hi.shape.stored_reachable hk) hc hfound
    exact dead m hm hnone
  rcases getParent_found hi hk parent with ⟨rfl, hp⟩ | ⟨p, d, _, hl, hp⟩
  · rw [delete_eq hi hk self hp] at hrun
    have hnone := root_leaf_fails hs hk hn (inner _ hrun) hrun
    exact absurd hnone (fun hnone => dead rootAddr Relation.ReflTransGen.refl hnone)
  · rw [delete_eq hi hk self hp] at hrun
    have leaf := inner _ hrun
    obtain ⟨np, hnp, _⟩ := live_of_child hl
    obtain ⟨r, hr, hrk⟩ := root_key hi hl hk
    obtain ⟨h₂, hrun₂, hread⟩ := deleteFound_leaf hs hr hnp hn leaf (parent_ne hi hl)
    cases hrun.symm.trans hrun₂
    have childless := (childless_iff hn).mpr leaf
    refine ⟨p, s, d, r, hl, hk, childless, hr, (unlinkedSide_eq_iff hrk d).mp ?_⟩
    by_contra hside
    have hnone : h'.read s = none := by
      rw [hread, if_neg (Ne.symm (parent_ne hi hl)), if_pos rfl]
    exact dead s (wrong_side_reachable hi hl hk childless hnp hside hread) hnone

end Converse

theorem delete_sameSideLeaf {h : Heap (Node V)} {k : CString} (hs : Settled h)
    (hleaf : SameSideLeaf h k) (parent self : Option Addr) :
    ∃ h' p s d np, delete (some rootAddr) (some k) parent self h = .ok (0, h') ∧
      (graph h).child p d = some s ∧ (graph h).key s = some k ∧
      (∀ e, (graph h).child s e = none) ∧ h.read p = some np ∧
      ∀ b, h'.read b = if b = p then some (np.setChild d none)
        else if b = s then none else h.read b := by
  have hi := hs.tree
  obtain ⟨p, s, d, r, hl, hk, childless, hr, hside⟩ := hleaf
  obtain ⟨ns, hn, _⟩ := live_of_key hk
  obtain ⟨np, hnp, _⟩ := live_of_child hl
  have hfound : getParent (some rootAddr) (some k) parent h = .ok ((0, some p), h) := by
    rcases getParent_found hi hk parent with ⟨hroot, _⟩ | ⟨q, e, _, hq, hrun⟩
    · exact absurd (hroot ▸ hl) (hi.shape.root_parentless p d)
    · obtain ⟨rfl, _⟩ := hi.shape.parent_unique q p s e d hq hl
      exact hrun
  obtain ⟨h', hrun, hread⟩ :=
    deleteFound_leaf (k := k) hs hr hnp hn ((childless_iff hn).mp childless) (parent_ne hi hl)
  have hrk : r ≠ k := by
    intro hrk
    subst hrk
    exact not_side_self d r hside
  rw [(unlinkedSide_eq_iff hrk d).mpr hside] at hread
  exact ⟨h', p, s, d, np, (delete_eq hi hk self hfound).trans hrun, hl, hk, childless, hnp, hread⟩

theorem works_of_sameSideLeaf {h : Heap (Node V)} {k : CString} (hs : Settled h)
    (hleaf : SameSideLeaf h k) (parent self : Option Addr) : DeleteWorks h k parent self := by
  obtain ⟨h', p, s, d, np, hrun, hl, hk, childless, hnp, hread⟩ :=
    delete_sameSideLeaf hs hleaf parent self
  exact ⟨h', hrun, removed_unlinked hs.tree hl hk childless hnp hread⟩

/-- On every tree that `add` can build, and whatever the uninitialized locals hold, `delete`
of a stored key does its job for a leaf on the side the root chooses and for no other key. -/
theorem delete_works_iff (calls : List (Call V)) (h : Heap (Node V))
    (hb : addAll calls rooted = .ok ((), h)) (k : CString) (hk : k ∈ calls.map Call.key)
    (parent self : Option Addr) : DeleteWorks h k parent self ↔ SameSideLeaf h k := by
  have hs := (built_holds hb).1
  obtain ⟨s, hs'⟩ := (stored_iff_added hb k).mpr hk
  constructor
  · exact sameSideLeaf_of_works hs hs'
  · intro hleaf
    exact works_of_sameSideLeaf hs hleaf parent self

section Runs

def keyM : CString := ⟨[109], by decide⟩

def keyF : CString := ⟨[102], by decide⟩

def keyH : CString := ⟨[104], by decide⟩

/-- The last key is to the right of its parent but to the left of the root. -/
def zigzag : List (Call ℕ) := [⟨keyM, some 1⟩, ⟨keyF, some 2⟩, ⟨keyH, some 3⟩]

def zigzagTree : Heap (Node ℕ) :=
  ⟨[some ⟨keyM, some 1, some 1, none, false⟩, some ⟨keyF, some 2, none, some 2, false⟩,
    some ⟨keyH, some 3, none, none, false⟩]⟩

theorem zigzag_left_child_deletable : ∃ h : Heap (Node ℕ),
    addAll (zigzag.take 2) rooted = .ok ((), h) ∧ keyF ∈ (zigzag.take 2).map Call.key ∧
      DeleteWorks h keyF none none := by
  refine ⟨_, rfl, by decide, (delete_works_iff (zigzag.take 2) _ rfl keyF (by decide) none none).mpr
    ⟨rootAddr, 1, .left, keyM, rfl, rfl, ?_, rfl, ?_⟩⟩
  · intro e
    cases e <;> rfl
  · exact strcmp_pos_iff.mp (by decide)

/-- `delete` clears the wrong link of the parent, releases the leaf and reports success:
the released node can still be reached, so the key is not gone from the tree. -/
theorem zigzag_leaf_left_dangling :
    addAll zigzag rooted = .ok ((), zigzagTree) ∧ keyH ∈ zigzag.map Call.key ∧
    ∀ parent self, (∃ h', delete (some rootAddr) (some keyH) parent self zigzagTree = .ok (0, h') ∧
      Reach (graph h') rootAddr 2 ∧ h'.read 2 = none) ∧
      ¬ DeleteWorks zigzagTree keyH parent self := by
  refine ⟨rfl, by decide, ?_⟩
  intro parent self
  have hdangling : ∃ h', delete (some rootAddr) (some keyH) parent self zigzagTree = .ok (0, h') ∧
      Reach (graph h') rootAddr 2 ∧ h'.read 2 = none := by
    refine ⟨_, rfl, ?_, rfl⟩
    exact Relation.ReflTransGen.tail (Relation.ReflTransGen.single ⟨.left, rfl⟩) ⟨.right, rfl⟩
  refine ⟨hdangling, ?_⟩
  intro hw
  obtain ⟨h', hrun, hreach, hnone⟩ := hdangling
  obtain ⟨h₂, hrun₂, hdel⟩ := hw
  cases hrun.symm.trans hrun₂
  obtain ⟨n, hn⟩ := hdel.no_freed 2 hreach
  rw [hnone] at hn
  cases hn

end Runs

end ThreadSafeTreeDelete
