import LinuxProgramming.SearchTrees
import LinuxProgramming.ThreadSafeTreeInvariant

/-! The searches of the tree, on any heap whose links come to an end: what `add` has built, or
any tree ordered by `strcmp`, wherever its nodes are. -/
namespace ThreadSafeTreeSearch

open BlockMemory CharStrings SearchGraph SearchTrees ThreadSafeTree ThreadSafeTreeInvariant

variable {V : Type}

/-- The live nodes can be read, and no walk down from one is longer than the heap. -/
structure Searchable (h : Heap (Node V)) (Live : Addr → Prop) (rank : Addr → ℕ) : Prop
    extends Ranked (graph h) Live rank h.fresh where
  read : ∀ a, Live a → ∃ n, h.read a = some n

section Search

variable {h : Heap (Node V)} {Live : Addr → Prop} {rank : Addr → ℕ} {a s : Addr} {k : CString}

theorem comparisons_side {α : Type} {d : Dir} {x : CString} (hs : Side d x k) (l r e : α) :
    (if 0 < strcmp x k then l else if strcmp x k < 0 then r else e) =
      match d with
      | .left => l
      | .right => r := by
  simp only [strcmp_pos_iff, strcmp_neg_iff]
  cases d with
  | left => exact if_pos hs
  | right =>
    have hlt : x < k := hs
    rw [if_neg (lt_asymm hlt), if_pos hlt]

theorem comparisons_equal {α : Type} (k : CString) (l r e : α) :
    (if 0 < strcmp k k then l else if strcmp k k < 0 then r else e) = e := by
  simp only [strcmp_pos_iff, strcmp_neg_iff, lt_irrefl, if_false]

theorem lookupFrom_side (fuel : ℕ) (value : Option V) {d : Dir} {x : CString}
    (hk : (graph h).key a = some x) (hs : Side d x k) :
    lookupFrom (fuel + 1) (some a) (some k) value h =
      lookupFrom fuel ((graph h).child a d) (some k) value h := by
  obtain ⟨n, hn, hx⟩ := live_of_key hk
  rw [lookupFrom, bind_of_ok (load_ok hn), graph_child hn, hx]
  refine (congrFun (comparisons_side hs _ _ _) h).trans ?_
  cases d <;> rfl

theorem getNodeFrom_side (fuel : ℕ) (self : Option Addr) {d : Dir} {x : CString}
    (hk : (graph h).key a = some x) (hs : Side d x k) :
    getNodeFrom (fuel + 1) (some a) (some k) self h =
      getNodeFrom fuel ((graph h).child a d) (some k) self h := by
  obtain ⟨n, hn, hx⟩ := live_of_key hk
  rw [getNodeFrom, bind_of_ok (load_ok hn), graph_child hn, hx]
  refine (congrFun (comparisons_side hs _ _ _) h).trans ?_
  cases d <;> rfl

theorem getParentFrom_side (fuel : ℕ) (parent : Option Addr) {d : Dir} {x : CString}
    (hk : (graph h).key a = some x) (hs : Side d x k) :
    getParentFrom (fuel + 1) (some a) (some k) parent h =
      getParentFrom fuel ((graph h).child a d) (some k)
        (if (graph h).child a d = none then parent else some a) h := by
  obtain ⟨n, hn, hx⟩ := live_of_key hk
  rw [getParentFrom, bind_of_ok (load_ok hn), graph_child hn, hx]
  refine (congrFun (comparisons_side hs _ _ _) h).trans ?_
  cases d <;> rfl

theorem lookupFrom_hit (fuel : ℕ) (value : Option V) (hk : (graph h).key a = some k) :
    lookupFrom (fuel + 1) (some a) (some k) value h = .ok ((true, value), h) := by
  obtain ⟨n, hn, hk⟩ := live_of_key hk
  rw [lookupFrom, bind_of_ok (load_ok hn), hk]
  exact congrFun (comparisons_equal k _ _ _) h

theorem getNodeFrom_hit (fuel : ℕ) (self : Option Addr) (hk : (graph h).key a = some k) :
    getNodeFrom (fuel + 1) (some a) (some k) self h = .ok ((0, some a), h) := by
  obtain ⟨n, hn, hk⟩ := live_of_key hk
  rw [getNodeFrom, bind_of_ok (load_ok hn), hk]
  exact congrFun (comparisons_equal k _ _ _) h

theorem getParentFrom_hit (fuel : ℕ) (parent : Option Addr) (hk : (graph h).key a = some k) :
    getParentFrom (fuel + 1) (some a) (some k) parent h = .ok ((0, parent), h) := by
  obtain ⟨n, hn, hk⟩ := live_of_key hk
  rw [getParentFrom, bind_of_ok (load_ok hn), hk]
  exact congrFun (comparisons_equal k _ _ _) h

theorem lookup_result (hs : Searchable h Live rank) (value : Option V) (ha : Live a) :
    (∃ t, Leads (graph h) k a t ∧ (graph h).key t = some k ∧
      lookup (some a) (some k) value h = .ok ((true, value), h)) ∨
    ((∀ t, Leads (graph h) k a t → (graph h).key t ≠ some k) ∧
      lookup (some a) (some k) value h = .ok ((false, value), h)) := by
  refine search_result hs.toRanked (fun fuel p => lookupFrom fuel p (some k) value h)
    (fun _ => .ok ((true, value), h)) (.ok ((false, value), h)) (fun _ => rfl) ?_
    (fun n _ _ hk => lookupFrom_hit n value hk)
    (fun n b d x _ hk hs => lookupFrom_side n value hk hs) (h.fresh + 2) a ha (by omega)
  intro n b hb hk
  obtain ⟨m, hm⟩ := hs.read b hb
  rw [graph_key hm] at hk
  rw [lookupFrom, bind_of_ok (load_ok hm), hk]
  rfl

theorem getNode_result (hs : Searchable h Live rank) (self : Option Addr) (ha : Live a) :
    (∃ t, Leads (graph h) k a t ∧ (graph h).key t = some k ∧
      getNode (some a) (some k) self h = .ok ((0, some t), h)) ∨
    ((∀ t, Leads (graph h) k a t → (graph h).key t ≠ some k) ∧
      getNode (some a) (some k) self h = .ok ((-1, self), h)) := by
  refine search_result hs.toRanked (fun fuel p => getNodeFrom fuel p (some k) self h)
    (fun t => .ok ((0, some t), h)) (.ok ((-1, self), h)) (fun _ => rfl) ?_
    (fun n _ _ hk => getNodeFrom_hit n self hk)
    (fun n b d x _ hk hs => getNodeFrom_side n self hk hs) (h.fresh + 2) a ha (by omega)
  intro n b hb hk
  obtain ⟨m, hm⟩ := hs.read b hb
  rw [graph_key hm] at hk
  rw [getNodeFrom, bind_of_ok (load_ok hm), hk]
  rfl

theorem getParentFrom_stored (hs : Searchable h Live rank) (hk : (graph h).key s = some k) :
    ∀ (fuel : ℕ) (a : Addr) (parent : Option Addr), Leads (graph h) k a s → Live a →
      h.fresh < rank a + fuel →
      (a = s ∧ getParentFrom fuel (some a) (some k) parent h = .ok ((0, parent), h)) ∨
      ∃ p d, Reach (graph h) a p ∧ (graph h).child p d = some s ∧
        getParentFrom fuel (some a) (some k) parent h = .ok ((0, some p), h) := by
  intro fuel
  induction fuel with
  | zero => intro a _ _ ha hl; have := hs.within a ha; omega
  | succ fuel ih =>
    intro a parent hp ha hl
    rcases Relation.ReflTransGen.cases_head hp with rfl | ⟨c, ⟨d, x, hx, hside, hc⟩, hcs⟩
    · exact .inl ⟨rfl, getParentFrom_hit fuel parent hk⟩
    · have hac := hs.later a d c ha hc
      rw [getParentFrom_side fuel parent hx hside, hc, if_neg (by simp)]
      rcases ih c (some a) hcs (hs.live a d c ha hc) (by omega) with
        ⟨rfl, hrun⟩ | ⟨p, e, hcp, hps, hrun⟩
      · exact .inr ⟨a, d, .refl, hc, hrun⟩
      · exact .inr ⟨p, e, hcp.head ⟨d, hc⟩, hps, hrun⟩

theorem getParent_stored (hs : Searchable h Live rank) (hk : (graph h).key s = some k)
    (hp : Leads (graph h) k a s) (ha : Live a) (parent : Option Addr) :
    (a = s ∧ getParent (some a) (some k) parent h = .ok ((0, parent), h)) ∨
    ∃ p d, Reach (graph h) a p ∧ (graph h).child p d = some s ∧
      getParent (some a) (some k) parent h = .ok ((0, some p), h) :=
  getParentFrom_stored hs hk (h.fresh + 2) a parent hp ha (by omega)

/-- The two searches go down in step; they differ in what they hand back only. -/
theorem getParentFrom_code (k : CString) (self : Option Addr) :
    ∀ (fuel : ℕ) (p parent : Option Addr),
      (getParentFrom fuel p (some k) parent h).map (fun r => (r.1.1, r.2)) =
        (getNodeFrom fuel p (some k) self h).map (fun r => (r.1.1, r.2)) := by
  intro fuel
  induction fuel with
  | zero => intro p parent; rfl
  | succ fuel ih =>
    intro p parent
    cases p with
    | none => rfl
    | some a =>
      cases hn : h.read a with
      | none =>
        have hl : load (some a) h = .error .invalidPointer := by simp [load, hn]
        rw [getParentFrom, getNodeFrom, bind_of_error hl, bind_of_error hl]
      | some n =>
        cases hx : n.key with
        | none =>
          rw [getParentFrom, getNodeFrom, bind_of_ok (load_ok hn), bind_of_ok (load_ok hn), hx]
          rfl
        | some x =>
          have hk := (graph_key hn).trans hx
          rcases lt_trichotomy x k with hlt | rfl | hlt
          · rw [getParentFrom_side fuel parent hk (show Side .right x k from hlt),
              getNodeFrom_side fuel self hk (show Side .right x k from hlt)]
            exact ih _ _
          · rw [getParentFrom_hit fuel parent hk, getNodeFrom_hit fuel self hk]
            rfl
          · rw [getParentFrom_side fuel parent hk (show Side .left x k from hlt),
              getNodeFrom_side fuel self hk (show Side .left x k from hlt)]
            exact ih _ _

theorem getParent_missing {p self : Option Addr} (parent : Option Addr)
    (hrun : getNode p (some k) self h = .ok ((-1, self), h)) :
    ∃ found, getParent p (some k) parent h = .ok ((-1, found), h) := by
  have hcode := getParentFrom_code (h := h) k self (h.fresh + 2) p parent
  have hnode : getNodeFrom (h.fresh + 2) p (some k) self h = .ok ((-1, self), h) := hrun
  rw [hnode] at hcode
  cases hparent : getParentFrom (h.fresh + 2) p (some k) parent h with
  | error e => rw [hparent] at hcode; cases hcode
  | ok r =>
    obtain ⟨⟨code, found⟩, h'⟩ := r
    rw [hparent] at hcode
    cases hcode
    exact ⟨found, hparent⟩

theorem furthest_result (hs : Searchable h Live rank) (d : Dir) :
    ∀ (fuel : ℕ) (a : Addr), Live a → h.fresh < rank a + fuel →
      ∃ m, furthest d fuel a h = .ok (m, h) ∧ Chain (graph h) d a m ∧
        (graph h).child m d = none ∧ Live m := by
  intro fuel
  induction fuel with
  | zero => intro a ha hl; have := hs.within a ha; omega
  | succ fuel ih =>
    intro a ha hl
    obtain ⟨n, hn⟩ := hs.read a ha
    cases hc : n.child d with
    | none =>
      refine ⟨a, ?_, .refl, (graph_child hn d).trans hc, ha⟩
      rw [furthest, bind_of_ok (load_ok hn), hc]
      rfl
    | some c =>
      have hlink := (graph_child hn d).trans hc
      have hac := hs.later a d c ha hlink
      obtain ⟨m, hrun, hchain, hend, hm⟩ := ih c (hs.live a d c ha hlink) (by omega)
      refine ⟨m, ?_, hchain.head hlink, hend, hm⟩
      rw [furthest, bind_of_ok (load_ok hn), hc]
      exact hrun

theorem getFurthest_result {n : Node V} (hs : Searchable h Live rank) (d : Dir)
    (res : Option Addr) (ha : Live a) (hn : h.read a = some n) (hk : n.key ≠ none) :
    ∃ m, getFurthest d (some a) res h = .ok ((0, some m), h) ∧ Chain (graph h) d a m ∧
      (graph h).child m d = none ∧ Live m := by
  obtain ⟨m, hrun, hchain⟩ := furthest_result hs d (h.fresh + 2) a ha (by omega)
  refine ⟨m, ?_, hchain⟩
  have hdepth : depth h = .ok (h.fresh + 2, h) := rfl
  rw [getFurthest, bind_of_ok (load_ok hn), if_neg hk, bind_of_ok hdepth, bind_of_ok hrun]
  rfl

end Search

/-- Any tree in the heap that is ordered by `strcmp` and in which only nodes without children
may be empty. There may be other blocks, and nothing is said of addresses. -/
structure StrcmpTree (h : Heap (Node V)) (root : Addr) : Prop where
  live : ∀ a, Reach (graph h) root a → ∃ n, h.read a = some n
  ordered : StrcmpOrdered h root
  inner_filled : ∀ a n d c, Reach (graph h) root a → h.read a = some n → n.child d = some c →
    n.key ≠ none

/-- No node is empty, but for a root to which nothing was added yet. -/
def Filled (h : Heap (Node V)) (root : Addr) : Prop :=
  ∀ a n, Reach (graph h) root a → h.read a = some n → n.key = none → a = root

def StoredAt (h : Heap (Node V)) (root s : Addr) (k : CString) : Prop :=
  Reach (graph h) root s ∧ ∃ n, h.read s = some n ∧ n.key = some k

def nodesFrom (h : Heap (Node V)) (root : Addr) : List Addr :=
  inorder (graph h) h.fresh (some root)

section Trees

variable {h : Heap (Node V)} {root s : Addr} {k : CString}

theorem storedAt_iff : StoredAt h root s k ↔ Reach (graph h) root s ∧ (graph h).key s = some k := by
  constructor
  · intro ⟨hs, n, hn, hk⟩
    exact ⟨hs, (graph_key hn).trans hk⟩
  · intro ⟨hs, hk⟩
    exact ⟨hs, live_of_key hk⟩

theorem StrcmpTree.orderedTree (ht : StrcmpTree h root) : OrderedTree (graph h) root := by
  refine ⟨strcmpOrdered_iff.mp ht.ordered, ?_⟩
  intro a d c ha hc
  obtain ⟨n, hn, hc'⟩ := live_of_child hc
  rw [graph_key hn]
  exact Option.ne_none_iff_exists'.mp (ht.inner_filled a n d c ha hn hc')

theorem StrcmpTree.searchable (ht : StrcmpTree h root) :
    ∃ rank, Searchable h (Reach (graph h) root) rank := by
  have hall : ∀ a, Reach (graph h) root a → a ∈ Finset.range h.fresh := by
    intro a ha
    obtain ⟨n, hn⟩ := ht.live a ha
    exact Finset.mem_range.mpr (Heap.lt_fresh hn)
  obtain ⟨rank, hr⟩ := ht.orderedTree.exists_ranked _ hall
  rw [Finset.card_range] at hr
  exact ⟨rank, { toRanked := hr, read := ht.live }⟩

theorem StrcmpTree.getNode_stored (ht : StrcmpTree h root) (hs : Reach (graph h) root s)
    (hk : (graph h).key s = some k) (self : Option Addr) :
    getNode (some root) (some k) self h = .ok ((0, some s), h) := by
  obtain ⟨rank, hsearch⟩ := ht.searchable
  rcases getNode_result (k := k) hsearch self .refl with ⟨t, hp, hkt, hrun⟩ | ⟨hno, _⟩
  · rw [ht.orderedTree.stored_once hs (leads_reach hp) hk hkt]
    exact hrun
  · exact absurd hk (hno s (ht.orderedTree.stored_on_path hs hk))

theorem StrcmpTree.getNode_missing (ht : StrcmpTree h root) (hno : ∀ s, ¬ StoredAt h root s k)
    (self : Option Addr) : getNode (some root) (some k) self h = .ok ((-1, self), h) := by
  obtain ⟨rank, hsearch⟩ := ht.searchable
  rcases getNode_result (k := k) hsearch self .refl with ⟨t, hp, hkt, _⟩ | ⟨_, hrun⟩
  · exact absurd (storedAt_iff.mpr ⟨leads_reach hp, hkt⟩) (hno t)
  · exact hrun

theorem StrcmpTree.parent_of_child {p : Addr} {d : Dir} (ht : StrcmpTree h root)
    (hk : (graph h).key s = some k) (hp : Reach (graph h) root p)
    (hc : (graph h).child p d = some s) : ∃ n x, h.read p = some n ∧ n.key = some x ∧
      (n.left = some s ∨ n.right = some s) ∧
      (∀ q m, Reach (graph h) root q → h.read q = some m →
        m.left = some s ∨ m.right = some s → q = p) ∧
      (n.left = some s ↔ 0 < strcmp x k) := by
  obtain ⟨n, hn, hns⟩ := live_of_child hc
  obtain ⟨x, hx⟩ := Option.ne_none_iff_exists'.mp (ht.inner_filled p n d s hp hn hns)
  have unique : ∀ q m e, Reach (graph h) root q → h.read q = some m → m.child e = some s →
      q = p ∧ e = d := fun q m e hq hm he =>
    ht.orderedTree.parent_unique hk hq hp ((graph_child hm e).trans he) hc
  have hside := ht.orderedTree.ordered p x d s s k hp ((graph_key hn).trans hx) hc .refl hk
  refine ⟨n, x, hn, hx, ?_, ?_, ?_⟩
  · cases d with
    | left => exact .inl hns
    | right => exact .inr hns
  · rintro q m hq hm (hl | hr)
    · exact (unique q m .left hq hm hl).1
    · exact (unique q m .right hq hm hr).1
  · rw [strcmp_pos_iff]
    constructor
    · intro hl
      have hd := (unique p n .left hp hn hl).2
      subst hd
      exact hside
    · intro hlt
      have hd : d = .left := side_unique hside (show Side .left x k from hlt)
      subst hd
      exact hns

/-- On every such tree the two searches find the same key, and together they find where it
hangs; a key that is not there leaves everything as it was. -/
theorem getParent_getNode_agree (ht : StrcmpTree h root) (k : CString)
    (parent self : Option Addr) :
    (∀ s, StoredAt h root s k →
      getNode (some root) (some k) self h = .ok ((0, some s), h) ∧
      ∃ found, getParent (some root) (some k) parent h = .ok ((0, found), h) ∧
        (s ≠ root → ∃ p n x, found = some p ∧ Reach (graph h) root p ∧
          h.read p = some n ∧ n.key = some x ∧ (n.left = some s ∨ n.right = some s) ∧
          (∀ q m, Reach (graph h) root q → h.read q = some m →
            m.left = some s ∨ m.right = some s → q = p) ∧
          (n.left = some s ↔ 0 < strcmp x k))) ∧
    ((∀ s, ¬ StoredAt h root s k) →
      getNode (some root) (some k) self h = .ok ((-1, self), h) ∧
      (∃ found, getParent (some root) (some k) parent h = .ok ((-1, found), h)) ∧
      delete (some root) (some k) parent self h = .ok (-1, h)) := by
  constructor
  · intro s hstored
    obtain ⟨hs, hk⟩ := storedAt_iff.mp hstored
    refine ⟨ht.getNode_stored hs hk self, ?_⟩
    obtain ⟨rank, hsearch⟩ := ht.searchable
    rcases getParent_stored hsearch hk (ht.orderedTree.stored_on_path hs hk) .refl parent with
      ⟨hroot, hrun⟩ | ⟨p, d, hp, hc, hrun⟩
    · exact ⟨parent, hrun, fun hne => absurd hroot.symm hne⟩
    · obtain ⟨n, x, hparent⟩ := ht.parent_of_child hk hp hc
      exact ⟨some p, hrun, fun _ => ⟨p, n, x, rfl, hp, hparent⟩⟩
  · intro hno
    have hnode := ht.getNode_missing hno self
    obtain ⟨found, hparent⟩ := getParent_missing parent hnode
    refine ⟨hnode, ⟨found, hparent⟩, ?_⟩
    rw [delete, bind_of_ok hparent]
    rfl

end Trees

section Example

def parentKey : CString := ⟨ascii "root", by decide⟩

def childKey : CString := ⟨ascii "child", by decide⟩

/-- A tree of two nodes with the child at the lower address, which `add` never builds. -/
def childFirst : Heap (Node ℕ) :=
  ⟨[some ⟨some childKey, some 2, none, none, false⟩,
    some ⟨some parentKey, some 1, some 0, none, false⟩]⟩

theorem childFirst_link {a b : Addr} (h : Link (graph childFirst) a b) : a = 1 ∧ b = 0 := by
  obtain ⟨d, hd⟩ := h
  obtain ⟨n, hn, hc⟩ := live_of_child hd
  match a with
  | 0 => cases hn; cases d <;> cases hc
  | 1 =>
    cases hn
    cases d with
    | left => cases hc; exact ⟨rfl, rfl⟩
    | right => cases hc
  | a + 2 => simp [childFirst, Heap.read] at hn

theorem childFirst_reach {a b : Addr} (h : Reach (graph childFirst) a b) :
    b = a ∨ a = 1 ∧ b = 0 := by
  induction h with
  | refl => exact .inl rfl
  | tail _ hl ih =>
    obtain ⟨rfl, rfl⟩ := childFirst_link hl
    exact .inr ⟨ih.elim Eq.symm And.left, rfl⟩

theorem childFirst_tree : StrcmpTree childFirst 1 := by
  refine ⟨?_, ?_, ?_⟩
  · intro a ha
    rcases childFirst_reach ha with rfl | ⟨_, rfl⟩
    · exact ⟨_, rfl⟩
    · exact ⟨_, rfl⟩
  · intro a n k ha hn hk
    rcases childFirst_reach ha with rfl | ⟨_, rfl⟩
    · cases hn
      cases hk
      refine ⟨?_, nofun⟩
      intro l b m x hl hb hm hx
      cases hl
      obtain rfl : b = 0 := (childFirst_reach hb).elim id And.right
      cases hm
      cases hx
      decide
    · cases hn
      exact ⟨nofun, nofun⟩
  · intro a n d c ha hn _
    rcases childFirst_reach ha with rfl | ⟨_, rfl⟩ <;> cases hn <;> exact nofun

theorem childFirst_agree : StrcmpTree childFirst 1 ∧
    getNode (some 1) (some childKey) none childFirst = .ok ((0, some 0), childFirst) ∧
    ∃ found, getParent (some 1) (some childKey) none childFirst =
      .ok ((0, found), childFirst) := by
  have hstored : StoredAt childFirst 1 0 childKey :=
    ⟨.single ⟨.left, rfl⟩, _, rfl, rfl⟩
  have hagree := (getParent_getNode_agree childFirst_tree childKey none none).1 0 hstored
  obtain ⟨hnode, found, hparent, _⟩ := hagree
  exact ⟨childFirst_tree, hnode, found, hparent⟩

end Example

end ThreadSafeTreeSearch
