import LinuxProgramming.ThreadSafeTreeSearch

/-! The nodes that `getMax` and `getMin` offer in place of a node with children: its neighbours
in the order of the whole tree. Moving one of them up would keep the tree ordered, if only
`delete` also took it out of where it was. -/
namespace ThreadSafeTreeReplacement

open BlockMemory CharStrings SearchGraph SearchTrees ThreadSafeTree ThreadSafeTreeInvariant
open ThreadSafeTreeSearch

variable {V : Type}

def relink (m : Addr) (c : Option Addr) (n : Node V) : Node V :=
  { n with
    left := if n.left = some m then c else n.left
    right := if n.right = some m then c else n.right }

/-- The pair of `m` put in `s`, and the node of `m` removed; its child on side `d`, the only
one it may have, hangs in its place. -/
def movedUp (h : Heap (Node V)) (s m : Addr) (ns nm : Node V) (d : Dir) : Heap (Node V) :=
  ((h.map (relink m (nm.child d))).write s
    { relink m (nm.child d) ns with key := nm.key, value := nm.value }).release m

theorem child_relink (m : Addr) (c : Option Addr) (n : Node V) (e : Dir) :
    (relink m c n).child e = if n.child e = some m then c else n.child e := by
  cases e <;> rfl

section Heaps

variable {h : Heap (Node V)} {root s m : Addr} {ns nm : Node V} {d : Dir}

theorem read_movedUp (hs : h.read s = some ns) (b : Addr) :
    (movedUp h s m ns nm d).read b = if b = m then none
      else if b = s then
        some { relink m (nm.child d) ns with key := nm.key, value := nm.value }
      else (h.read b).map (relink m (nm.child d)) := by
  have hs' : (h.map (relink m (nm.child d))).read s = some (relink m (nm.child d) ns) := by
    rw [Heap.read_map, hs]
    rfl
  rw [movedUp, Heap.read_release, Heap.read_write hs', Heap.read_map]

theorem graph_movedUp (hs : h.read s = some ns) (hm : h.read m = some nm) :
    graph (movedUp h s m ns nm d) = moveUp (graph h) s m d := by
  have hkey : (graph (movedUp h s m ns nm d)).key = (moveUp (graph h) s m d).key := by
    funext b
    change ((movedUp h s m ns nm d).read b).bind Node.key =
      if b = m then none else if b = s then (graph h).key m else (graph h).key b
    rw [read_movedUp hs, graph_key hm]
    split
    · rfl
    · split
      · rfl
      · change ((h.read b).map _).bind Node.key = (h.read b).bind Node.key
        cases h.read b <;> rfl
  have hchild : (graph (movedUp h s m ns nm d)).child = (moveUp (graph h) s m d).child := by
    funext b e
    change ((movedUp h s m ns nm d).read b).bind (fun n => n.child e) =
      if b = m then none
      else if (graph h).child b e = some m then (graph h).child m d else (graph h).child b e
    rw [read_movedUp hs, graph_child hm]
    split
    · rfl
    · split
      · next hbs =>
        rw [hbs, graph_child hs, ← child_relink]
        cases e <;> rfl
      · cases hb : h.read b with
        | none => simp [graph, hb]
        | some n =>
          rw [graph_child hb]
          exact child_relink m (nm.child d) n e
  exact congrArg₂ LinkGraph.mk hkey hchild

/-- What `getMax` finds on the left of `s`, and `getMin` on its right. -/
theorem getFurthest_neighbour {c : Addr} (ht : StrcmpTree h root) (hf : Filled h root)
    (hs : Reach (graph h) root s) (hn : h.read s = some ns) (hc : ns.child d = some c)
    (res : Option Addr) : ∃ m nm, getFurthest (other d) (some c) res h = .ok ((0, some m), h) ∧
      h.read m = some nm ∧ nm.child (other d) = none ∧ Neighbour (graph h) root s m d := by
  obtain ⟨rank, hsearch⟩ := ht.searchable
  have hlink : (graph h).child s d = some c := (graph_child hn d).trans hc
  have below : ∀ {b}, Reach (graph h) c b → Reach (graph h) root b :=
    fun hb => (hs.tail ⟨d, hlink⟩).trans hb
  -- below `s` there is no root, so nothing there is empty
  have filled : ∀ {b n}, Reach (graph h) c b → h.read b = some n → n.key ≠ none := by
    intro b n hb hr hk
    have hroot := hf b n (below hb) hr hk
    subst hroot
    exact ht.orderedTree.acyclic hs hlink (hb.trans hs)
  obtain ⟨nc, hnc⟩ := ht.live c (below .refl)
  obtain ⟨m, hrun, hchain, hend, hm⟩ :=
    getFurthest_result hsearch (other d) res (below .refl) hnc (filled .refl hnc)
  obtain ⟨nm, hnm⟩ := ht.live m hm
  refine ⟨m, nm, hrun, hnm, (graph_child hnm _).symm.trans hend, hs, ⟨c, hlink, hchain⟩, hend, ?_⟩
  rw [graph_key hnm]
  exact Option.ne_none_iff_exists'.mp (filled (Chain.reach hchain) hnm)

structure KeepsOrder (h h' : Heap (Node V)) (root : Addr) (ns : Node V) : Prop where
  tree : StrcmpTree h' root
  stored : ∀ k, (∃ a, StoredAt h' root a k) ↔ (∃ a, StoredAt h root a k) ∧ ns.key ≠ some k

theorem movedUp_keepsOrder (ht : StrcmpTree h root) (hs : h.read s = some ns)
    (hm : h.read m = some nm) (hn : Neighbour (graph h) root s m d) :
    KeepsOrder h (movedUp h s m ns nm d) root ns := by
  have hg := graph_movedUp (d := d) hs hm
  have ho := hn.moveUp_ordered ht.orderedTree
  refine ⟨⟨?_, ?_, ?_⟩, ?_⟩
  · intro a ha
    rw [hg] at ha
    rw [read_movedUp hs, if_neg (hn.moveUp_avoids ht.orderedTree ha)]
    split
    · exact ⟨_, rfl⟩
    · obtain ⟨n, hr⟩ := ht.live a (reach_of_moveUp ha)
      exact ⟨_, by rw [hr]; rfl⟩
  · rw [strcmpOrdered_iff, hg]
    exact ho.ordered
  · intro a n e c ha hr hc
    have hc' := (graph_child hr e).trans hc
    rw [hg] at ha hc'
    obtain ⟨k, hk⟩ := ho.inner_filled a e c ha hc'
    rw [← hg, graph_key hr] at hk
    simp [hk]
  · intro k
    have hkey : ns.key = (graph h).key s := (graph_key hs).symm
    simp only [storedAt_iff, hg, hkey]
    exact hn.moveUp_stored ht.orderedTree k

theorem mem_nodesFrom (ht : StrcmpTree h root) (a : Addr) :
    a ∈ nodesFrom h root ↔ Reach (graph h) root a := by
  obtain ⟨rank, hsearch⟩ := ht.searchable
  exact hsearch.toRanked.mem_inorder .refl (Nat.le_add_left _ _)

/-- The two candidates for the place of a node `s` with children, in every tree. -/
theorem replacement_candidates (ht : StrcmpTree h root) (hf : Filled h root)
    (hs : Reach (graph h) root s) (hn : h.read s = some ns) (res : Option Addr) :
    (∀ a, a ∈ nodesFrom h root ↔ Reach (graph h) root a) ∧
    (∀ c, ns.left = some c → ∃ m nm, getMax (some c) res h = .ok ((0, some m), h) ∧
      h.read m = some nm ∧ nm.right = none ∧
      (∃ before after, nodesFrom h root = before ++ m :: s :: after) ∧
      KeepsOrder h (movedUp h s m ns nm .left) root ns) ∧
    (∀ c, ns.right = some c → ∃ m nm, getMin (some c) res h = .ok ((0, some m), h) ∧
      h.read m = some nm ∧ nm.left = none ∧
      (∃ before after, nodesFrom h root = before ++ s :: m :: after) ∧
      KeepsOrder h (movedUp h s m ns nm .right) root ns) := by
  obtain ⟨rank, hsearch⟩ := ht.searchable
  have hbound : h.fresh ≤ rank root + h.fresh := Nat.le_add_left _ _
  refine ⟨mem_nodesFrom ht, ?_, ?_⟩
  · intro c hc
    obtain ⟨m, nm, hrun, hm, hend, hnb⟩ := getFurthest_neighbour (d := .left) ht hf hs hn hc res
    obtain ⟨before, after, hlist⟩ := hnb.inorder hsearch.toRanked hbound
    exact ⟨m, nm, hrun, hm, hend, ⟨before, after, by simpa [nodesFrom] using hlist⟩,
      movedUp_keepsOrder ht hn hm hnb⟩
  · intro c hc
    obtain ⟨m, nm, hrun, hm, hend, hnb⟩ := getFurthest_neighbour (d := .right) ht hf hs hn hc res
    obtain ⟨before, after, hlist⟩ := hnb.inorder hsearch.toRanked hbound
    exact ⟨m, nm, hrun, hm, hend, ⟨before, after, by simpa [nodesFrom] using hlist⟩,
      movedUp_keepsOrder ht hn hm hnb⟩

end Heaps

theorem childFirst_filled : Filled childFirst 1 := by
  intro a n ha hn hk
  rcases childFirst_reach ha with rfl | ⟨_, rfl⟩
  · rfl
  · cases hn
    cases hk

theorem childFirst_candidate : StrcmpTree childFirst 1 ∧ Filled childFirst 1 ∧
    ∃ m nm, getMax (some 0) none childFirst = .ok ((0, some m), childFirst) ∧
      childFirst.read m = some nm ∧ nm.right = none ∧
      ∃ before after, nodesFrom childFirst 1 = before ++ m :: 1 :: after := by
  have hall := replacement_candidates childFirst_tree childFirst_filled .refl rfl none
  obtain ⟨m, nm, hrun, hm, hend, hpos, _⟩ := hall.2.1 0 rfl
  exact ⟨childFirst_tree, childFirst_filled, m, nm, hrun, hm, hend, hpos⟩

end ThreadSafeTreeReplacement
