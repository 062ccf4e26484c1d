import LinuxProgramming.SearchGraph
import Mathlib.Data.Finset.Card

/-! Search trees given by their order alone, however they were made. That no node is its own
ancestor and that a stored key has one parent follow from the order. The neighbour of a node
in symmetric order is at the end of a chain of links, and may take its place. -/
namespace SearchTrees

open SearchGraph

variable {A : Type u} {K : Type v}

def other : Dir → Dir
  | .left => .right
  | .right => .left

theorem other_ne (d : Dir) : other d ≠ d := by cases d <;> simp [other]

theorem eq_of_ne_other {d e : Dir} (h : e ≠ other d) : e = d := by
  cases d <;> cases e <;> first | rfl | exact absurd rfl h

/-- The chain of links on side `d`. -/
def Chain (g : LinkGraph A K) (d : Dir) : A → A → Prop :=
  Relation.ReflTransGen fun a b => g.child a d = some b

theorem Chain.reach {g : LinkGraph A K} {d : Dir} {a b : A} (h : Chain g d a b) : Reach g a b :=
  Relation.ReflTransGen.mono (fun _ _ hc => ⟨d, hc⟩) _ _ h

def endOf (d : Dir) (l : List A) : Option A :=
  match d with
  | .left => l.head?
  | .right => l.getLast?

section Neighbours

variable {g : LinkGraph A K} {Live : A → Prop} {rank : A → ℕ} {bound : ℕ}

/-- What is listed below a node ends with the last node of the chain on that side. -/
theorem inorder_end (hr : Ranked g Live rank bound) {d : Dir} {a m : A} (hc : Chain g d a m)
    (hm : g.child m d = none) : Live a → ∀ n, bound ≤ rank a + n →
      endOf d (inorder g n (some a)) = some m := by
  have hnil : ∀ n, inorder g n none = [] := fun n => by cases n <;> rfl
  induction hc using Relation.ReflTransGen.head_induction_on with
  | refl =>
    intro ha n hn
    have hb := hr.within m ha
    obtain ⟨n, rfl⟩ : ∃ k, n = k + 1 := ⟨n - 1, by omega⟩
    cases d <;> simp [endOf, inorder, hm, hnil]
  | @head a c hl _ ih =>
    intro ha n hn
    have hb := hr.within a ha
    have hac := hr.later a d c ha hl
    obtain ⟨n, rfl⟩ : ∃ k, n = k + 1 := ⟨n - 1, by omega⟩
    have he := ih (hr.live a d c ha hl) n (by omega)
    cases d with
    | left =>
      simp only [endOf] at he ⊢
      rw [inorder, hl, List.head?_append, he]
      rfl
    | right =>
      simp only [endOf] at he ⊢
      rw [inorder, hl, List.getLast?_append, List.getLast?_cons, he]
      rfl

/-- The neighbour of `s` on side `d` in symmetric order. -/
structure Neighbour (g : LinkGraph A K) (root s m : A) (d : Dir) : Prop where
  reach : Reach g root s
  chain : ∃ c, g.child s d = some c ∧ Chain g (other d) c m
  last : g.child m (other d) = none
  filled : ∃ y, g.key m = some y

variable {root s m : A} {d : Dir}

theorem Neighbour.reach_neighbour (hn : Neighbour g root s m d) : Reach g root m := by
  obtain ⟨c, hc, hchain⟩ := hn.chain
  exact (hn.reach.tail ⟨d, hc⟩).trans (Chain.reach hchain)

theorem Neighbour.inorder (hn : Neighbour g root s m d)
    (hr : Ranked g (Reach g root) rank bound) {n : ℕ} (hbound : bound ≤ rank root + n) :
    ∃ before after, inorder g n (some root) =
      before ++ (match d with
        | .left => [m, s]
        | .right => [s, m]) ++ after := by
  obtain ⟨c, hc, hchain⟩ := hn.chain
  obtain ⟨k, before, after, hk, he⟩ := hr.inorder_below hn.reach .refl n hbound
  have hb := hr.within s hn.reach
  have hsc := hr.later s d c hn.reach hc
  obtain ⟨k, rfl⟩ : ∃ i, k = i + 1 := ⟨k - 1, by omega⟩
  have hend := inorder_end hr hchain hn.last (hr.live s d c hn.reach hc) k (by omega)
  cases d with
  | left =>
    obtain ⟨l, hl⟩ := List.getLast?_eq_some_iff.mp hend
    refine ⟨before ++ l, SearchGraph.inorder g k (g.child s .right) ++ after, ?_⟩
    rw [he, SearchGraph.inorder, hc, hl]
    simp
  | right =>
    obtain ⟨l, hl⟩ := List.head?_eq_some_iff.mp hend
    refine ⟨before ++ SearchGraph.inorder g k (g.child s .left), l ++ after, ?_⟩
    rw [he, SearchGraph.inorder, hc, hl]
    simp

end Neighbours

section Replacement

variable {g : LinkGraph A K} {root s m : A} {d : Dir} [DecidableEq A]

/-- `m` gives its key to `s` and goes; its child on side `d` takes its place. -/
def moveUp (g : LinkGraph A K) (s m : A) (d : Dir) : LinkGraph A K where
  key a := if a = m then none else if a = s then g.key m else g.key a
  child a e :=
    if a = m then none else if g.child a e = some m then g.child m d else g.child a e

theorem moveUp_child {a c : A} {e : Dir} (hc : (moveUp g s m d).child a e = some c) :
    a ≠ m ∧ ∃ b, g.child a e = some b ∧ Reach g b c := by
  simp only [moveUp] at hc
  split at hc
  · cases hc
  · next ha =>
    refine ⟨ha, ?_⟩
    split at hc
    · next hm => exact ⟨m, hm, .single ⟨d, hc⟩⟩
    · exact ⟨c, hc, .refl⟩

theorem reach_of_moveUp {a b : A} (h : Reach (moveUp g s m d) a b) : Reach g a b := by
  induction h with
  | refl => exact .refl
  | tail _ hl ih =>
    obtain ⟨e, he⟩ := hl
    obtain ⟨_, c, hc, hcb⟩ := moveUp_child he
    exact (ih.tail ⟨e, hc⟩).trans hcb

theorem moveUp_key {a : A} {k : K} (hk : (moveUp g s m d).key a = some k) :
    a ≠ m ∧ (a = s ∧ g.key m = some k ∨ a ≠ s ∧ g.key a = some k) := by
  simp only [moveUp] at hk
  split at hk
  · cases hk
  · next ha =>
    refine ⟨ha, ?_⟩
    split at hk
    · next hs => exact .inl ⟨hs, hk⟩
    · next hs => exact .inr ⟨hs, hk⟩

end Replacement

variable [LinearOrder K]

theorem side_of_ne {d e : Dir} {k x : K} (he : e ≠ d) (h : Side e k x) : Side d x k := by
  cases d <;> cases e <;> first | exact h | exact absurd rfl he

theorem side_trans {d : Dir} {k x y : K} (h : Side d k x) (h' : Side d x y) : Side d k y := by
  cases d
  · exact lt_trans h' h
  · exact lt_trans h h'

/-- Ordered, and only a node without children may be empty. -/
structure OrderedTree (g : LinkGraph A K) (root : A) : Prop where
  ordered : Ordered g root
  inner_filled : ∀ a d c, Reach g root a → g.child a d = some c → ∃ k, g.key a = some k

namespace OrderedTree

variable {g : LinkGraph A K} {root : A}

theorem acyclic (h : OrderedTree g root) {a c : A} {d : Dir} (ha : Reach g root a)
    (hc : g.child a d = some c) : ¬ Reach g c a := by
  intro hca
  obtain ⟨k, hk⟩ := h.inner_filled a d c ha hc
  exact not_side_self d k (h.ordered a k d c a k ha hk hc hca hk)

theorem leads_above (h : OrderedTree g root) {k : K} {a b s : A} (hk : g.key s = some k)
    (hbs : Reach g b s) (hab : Reach g a b) (ha : Reach g root a) : Leads g k a b := by
  induction hab using Relation.ReflTransGen.head_induction_on with
  | refl => exact Relation.ReflTransGen.refl
  | @head a c hl hcb ih =>
    obtain ⟨d, hc⟩ := hl
    obtain ⟨x, hx⟩ := h.inner_filled a d c ha hc
    have hside := h.ordered a x d c s k ha hx hc (hcb.trans hbs) hk
    exact (ih (ha.tail ⟨d, hc⟩)).head ⟨d, x, hx, hside, hc⟩

theorem stored_on_path (h : OrderedTree g root) {k : K} {s : A} (hs : Reach g root s)
    (hk : g.key s = some k) : Leads g k root s := h.leads_above hk .refl hs .refl

theorem stored_once (h : OrderedTree g root) {k : K} {a b : A} (ha : Reach g root a)
    (hb : Reach g root b) (hka : g.key a = some k) (hkb : g.key b = some k) : a = b :=
  leads_key_unique (h.stored_on_path ha hka) (h.stored_on_path hb hkb) hka hkb

theorem parent_above (h : OrderedTree g root) {k : K} {a b s : A} {d e : Dir}
    (hk : g.key s = some k) (ha : Reach g root a) (hb : Reach g root b)
    (hc : g.child a d = some s) (hc' : g.child b e = some s) (hab : Leads g k a b) : a = b := by
  rcases Relation.ReflTransGen.cases_head hab with rfl | ⟨c, hac, hcb⟩
  · rfl
  · obtain ⟨x, hx⟩ := h.inner_filled a d s ha hc
    have hside := h.ordered a x d s s k ha hx hc .refl hk
    have hcs : c = s := searchStep_unique g k hac ⟨d, x, hx, hside, hc⟩
    have hbs : b = s := leads_stop (hcs ▸ hcb) hk
    exact absurd (hbs ▸ .refl) (h.acyclic hb hc')

theorem parent_unique (h : OrderedTree g root) {k : K} {a b s : A} {d e : Dir}
    (hk : g.key s = some k) (ha : Reach g root a) (hb : Reach g root b)
    (hc : g.child a d = some s) (hc' : g.child b e = some s) : a = b ∧ d = e := by
  have hla := h.leads_above hk (.single ⟨d, hc⟩) ha .refl
  have hlb := h.leads_above hk (.single ⟨e, hc'⟩) hb .refl
  have hab : a = b := by
    rcases leads_total hla hlb with hl | hl
    · exact h.parent_above hk ha hb hc hc' hl
    · exact (h.parent_above hk hb ha hc' hc hl).symm
  subst hab
  obtain ⟨x, hx⟩ := h.inner_filled a d s ha hc
  exact ⟨rfl, side_unique (h.ordered a x d s s k ha hx hc .refl hk)
    (h.ordered a x e s s k ha hx hc' .refl hk)⟩

/-- The number of nodes above a node grows along the links. -/
theorem exists_ranked (h : OrderedTree g root) (nodes : Finset A)
    (hall : ∀ a, Reach g root a → a ∈ nodes) :
    ∃ rank, Ranked g (Reach g root) rank nodes.card := by
  classical
  let above (a : A) : Finset A := nodes.filter fun b => b ≠ a ∧ Reach g root b ∧ Reach g b a
  have not_self : ∀ a, a ∉ above a := fun a ha => (Finset.mem_filter.mp ha).2.1 rfl
  refine ⟨fun a => (above a).card, fun a d c ha hc => ha.tail ⟨d, hc⟩, ?_, ?_⟩
  · intro a d c ha hc
    apply Finset.card_lt_card
    refine (Finset.ssubset_iff_of_subset ?_).mpr ⟨a, ?_, not_self a⟩
    · intro b hb
      obtain ⟨hmem, _, hrb, hba⟩ := Finset.mem_filter.mp hb
      refine Finset.mem_filter.mpr ⟨hmem, ?_, hrb, hba.tail ⟨d, hc⟩⟩
      rintro rfl
      exact h.acyclic ha hc hba
    · refine Finset.mem_filter.mpr ⟨hall a ha, ?_, ha, .single ⟨d, hc⟩⟩
      rintro rfl
      exact h.acyclic ha hc .refl
  · intro a ha
    apply Finset.card_lt_card
    exact (Finset.ssubset_iff_of_subset (Finset.filter_subset _ _)).mpr
      ⟨a, hall a ha, not_self a⟩

/-- At the end of a chain all other keys of the subtree are left behind. -/
theorem chain_extreme (h : OrderedTree g root) {d : Dir} {c m b : A} {x y : K}
    (hchain : Chain g d c m) (hm : g.child m d = none) (hy : g.key m = some y)
    (hc : Reach g root c) (hb : Reach g c b) (hx : g.key b = some x) : b = m ∨ Side d x y := by
  induction hchain using Relation.ReflTransGen.head_induction_on with
  | refl =>
    rcases Relation.ReflTransGen.cases_head hb with rfl | ⟨c, ⟨e, hl⟩, hcb⟩
    · exact .inl rfl
    · have he : e ≠ d := by rintro rfl; rw [hm] at hl; cases hl
      exact .inr (side_of_ne he (h.ordered m y e c b x hc hy hl hcb hx))
  | @head a c hl hchain ih =>
    obtain ⟨k, hk⟩ := h.inner_filled a d c hc hl
    have hky := h.ordered a k d c m y hc hk hl (Chain.reach hchain) hy
    rcases Relation.ReflTransGen.cases_head hb with rfl | ⟨c', ⟨e, hl'⟩, hcb⟩
    · cases hk.symm.trans hx
      exact .inr hky
    · by_cases he : e = d
      · subst he
        cases hl.symm.trans hl'
        exact ih (hc.tail ⟨e, hl⟩) hcb
      · have hxk := side_of_ne he (h.ordered a k e c' b x hc hk hl' hcb hx)
        exact .inr (side_trans hxk hky)

end OrderedTree

namespace Neighbour

variable {g : LinkGraph A K} {root s m : A} {d : Dir}

theorem ne (hn : Neighbour g root s m d) (h : OrderedTree g root) : m ≠ s := by
  obtain ⟨c, hc, hchain⟩ := hn.chain
  rintro rfl
  exact h.acyclic hn.reach hc (Chain.reach hchain)

theorem ne_root (hn : Neighbour g root s m d) (h : OrderedTree g root) : m ≠ root := by
  obtain ⟨c, hc, hchain⟩ := hn.chain
  rintro rfl
  exact h.acyclic hn.reach hc ((Chain.reach hchain).trans hn.reach)

/-- Nothing lies between the two: what is on one side of `s` is on the same side of `m`. -/
theorem side (hn : Neighbour g root s m d) (h : OrderedTree g root) {b c : A} {e : Dir} {x y : K}
    (hc : g.child s e = some c) (hb : Reach g c b) (hbm : b ≠ m) (hx : g.key b = some x)
    (hy : g.key m = some y) : Side e y x := by
  obtain ⟨c', hc', hchain⟩ := hn.chain
  obtain ⟨k, hk⟩ := h.inner_filled s e c hn.reach hc
  by_cases he : e = d
  · subst he
    cases hc.symm.trans hc'
    have hend := h.chain_extreme hchain hn.last hy (hn.reach.tail ⟨e, hc⟩) hb hx
    exact side_of_ne (other_ne e) (hend.resolve_left hbm)
  · have hky := h.ordered s k d c' m y hn.reach hk hc' (Chain.reach hchain) hy
    exact side_trans (side_of_ne (Ne.symm he) hky) (h.ordered s k e c b x hn.reach hk hc hb hx)

variable [DecidableEq A]

theorem moveUp_ordered (hn : Neighbour g root s m d) (h : OrderedTree g root) :
    OrderedTree (moveUp g s m d) root := by
  obtain ⟨y, hy⟩ := hn.filled
  refine ⟨?_, ?_⟩
  · intro a k e c b x ha hk hc hcb hx
    obtain ⟨_, c', hc', hcc⟩ := moveUp_child hc
    have ha' := reach_of_moveUp ha
    have hb' := hcc.trans (reach_of_moveUp hcb)
    obtain ⟨_, ⟨rfl, hk'⟩ | ⟨_, hk'⟩⟩ := moveUp_key hk
    · obtain ⟨hbm, ⟨rfl, _⟩ | ⟨_, hx'⟩⟩ := moveUp_key hx
      · exact absurd hb' (h.acyclic ha' hc')
      · exact hn.side h hc' hb' hbm hx' hk'
    · obtain ⟨_, ⟨rfl, hx'⟩ | ⟨_, hx'⟩⟩ := moveUp_key hx
      · -- the new key of `s` comes from below `s`, so it was already on this side of `a`
        obtain ⟨c₁, hc₁, hchain⟩ := hn.chain
        have hm := (hb'.tail ⟨d, hc₁⟩).trans (Chain.reach hchain)
        exact h.ordered a k e c' m x ha' hk' hc' hm hx'
      · exact h.ordered a k e c' b x ha' hk' hc' hb' hx'
  · intro a e c ha hc
    obtain ⟨ham, c', hc', _⟩ := moveUp_child hc
    obtain ⟨k, hk⟩ := h.inner_filled a e c' (reach_of_moveUp ha) hc'
    by_cases has : a = s
    · exact ⟨y, by simp only [moveUp, if_neg ham, if_pos has, hy]⟩
    · exact ⟨k, by simp only [moveUp, if_neg ham, if_neg has, hk]⟩

theorem reach_moveUp (hn : Neighbour g root s m d) (h : OrderedTree g root) {a : A}
    (ha : Reach g root a) : (a ≠ m → Reach (moveUp g s m d) root a) ∧
      (a = m → ∀ c, g.child m d = some c → Reach (moveUp g s m d) root c) := by
  induction ha with
  | refl => exact ⟨fun _ => .refl, fun hm => absurd hm.symm (hn.ne_root h)⟩
  | @tail b a hb hl ih =>
    obtain ⟨e, he⟩ := hl
    by_cases hbm : b = m
    · subst hbm
      have hed : e = d := eq_of_ne_other fun hed => by
        rw [hed, hn.last] at he; cases he
      subst hed
      refine ⟨fun _ => ih.2 rfl a he, fun ham => ?_⟩
      exact absurd (ham ▸ .refl) (h.acyclic hb he)
    · have hb' := ih.1 hbm
      refine ⟨fun ham => ?_, fun ham c hc => ?_⟩
      · refine hb'.tail ⟨e, ?_⟩
        simp [moveUp, hbm, he, ham]
      · refine hb'.tail ⟨e, ?_⟩
        simp [moveUp, hbm, he, ham, hc]

theorem moveUp_avoids (hn : Neighbour g root s m d) (h : OrderedTree g root) {a : A}
    (ha : Reach (moveUp g s m d) root a) : a ≠ m := by
  rcases Relation.ReflTransGen.cases_tail ha with rfl | ⟨b, hb, e, he⟩
  · exact (hn.ne_root h).symm
  · rintro rfl
    simp only [moveUp] at he
    split at he
    · cases he
    · split at he
      · exact h.acyclic hn.reach_neighbour he .refl
      · next hne => exact hne he

theorem moveUp_stored (hn : Neighbour g root s m d) (h : OrderedTree g root) (k : K) :
    (∃ a, Reach (moveUp g s m d) root a ∧ (moveUp g s m d).key a = some k) ↔
      (∃ a, Reach g root a ∧ g.key a = some k) ∧ g.key s ≠ some k := by
  have hms := hn.ne h
  constructor
  · rintro ⟨a, ha, hk⟩
    have ha' := reach_of_moveUp ha
    obtain ⟨_, ⟨rfl, hk'⟩ | ⟨has, hk'⟩⟩ := moveUp_key hk
    · exact ⟨⟨m, hn.reach_neighbour, hk'⟩,
        fun hs => hms (h.stored_once hn.reach_neighbour hn.reach hk' hs)⟩
    · exact ⟨⟨a, ha', hk'⟩, fun hs => has (h.stored_once ha' hn.reach hk' hs)⟩
  · rintro ⟨⟨a, ha, hk⟩, hs⟩
    have has : a ≠ s := by rintro rfl; exact hs hk
    by_cases ham : a = m
    · refine ⟨s, (hn.reach_moveUp h hn.reach).1 hms.symm, ?_⟩
      simpa [moveUp, hms.symm, ham] using hk
    · exact ⟨a, (hn.reach_moveUp h ha).1 ham, by simpa [moveUp, ham, has] using hk⟩

end Neighbour

end SearchTrees
