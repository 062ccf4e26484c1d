import Mathlib.Logic.Function.Basic
import Mathlib.Logic.Relation
import Mathlib.Order.Lattice

/-! Binary search over linked nodes. A node may still be empty, links may be added while
somebody searches, and no inductive tree is assumed: the search path of a key is a relation
on node identities, and the order of the tree follows from where each key can be found. -/
namespace SearchGraph

inductive Dir where
  | left
  | right
  deriving DecidableEq, Repr

structure LinkGraph (A : Type u) (K : Type v) where
  key : A → Option K
  child : A → Dir → Option A

variable {A : Type u} {K : Type v}

def Link (g : LinkGraph A K) (a b : A) : Prop := ∃ d, g.child a d = some b

def Reach (g : LinkGraph A K) : A → A → Prop := Relation.ReflTransGen (Link g)

section Operations

variable [DecidableEq A]

def LinkGraph.setKey (g : LinkGraph A K) (a : A) (k : K) : LinkGraph A K :=
  { g with key := Function.update g.key a (some k) }

def LinkGraph.setChild (g : LinkGraph A K) (a : A) (d : Dir) (c : A) : LinkGraph A K :=
  { g with child := fun b e => if b = a ∧ e = d then some c else g.child b e }

def LinkGraph.prune (g : LinkGraph A K) (p : A) (d : Dir) (s : A) : LinkGraph A K where
  key := Function.update g.key s none
  child b e := if b = p ∧ e = d then none else g.child b e

theorem LinkGraph.setChild_child (g : LinkGraph A K) (a : A) (d : Dir) (c b : A) (e : Dir) :
    (g.setChild a d c).child b e = if b = a ∧ e = d then some c else g.child b e := rfl

end Operations

/-- Keys and links only ever go from absent to present. -/
structure Grows (g g' : LinkGraph A K) : Prop where
  key : ∀ a k, g.key a = some k → g'.key a = some k
  child : ∀ a d b, g.child a d = some b → g'.child a d = some b

theorem Grows.refl (g : LinkGraph A K) : Grows g g := ⟨fun _ _ h => h, fun _ _ _ h => h⟩

theorem grows_setKey [DecidableEq A] {g : LinkGraph A K} {a : A} (he : g.key a = none) (k : K) :
    Grows g (g.setKey a k) := by
  refine ⟨?_, fun _ _ _ h => h⟩
  intro b x hx
  have hb : b ≠ a := by rintro rfl; rw [he] at hx; cases hx
  simpa [LinkGraph.setKey, hb] using hx

theorem grows_setChild [DecidableEq A] {g : LinkGraph A K} {a : A} {d : Dir}
    (he : g.child a d = none) (c : A) : Grows g (g.setChild a d c) := by
  refine ⟨fun _ _ h => h, ?_⟩
  intro b e x hx
  rw [LinkGraph.setChild_child]
  split
  · next h => obtain ⟨rfl, rfl⟩ := h; rw [he] at hx; cases hx
  · exact hx

/-- The nodes below `p` in symmetric order, down to the given depth. -/
def inorder (g : LinkGraph A K) : ℕ → Option A → List A
  | 0, _ => []
  | _ + 1, none => []
  | n + 1, some a => inorder g n (g.child a .left) ++ a :: inorder g n (g.child a .right)

def inorderKeys (g : LinkGraph A K) (n : ℕ) (p : Option A) : List K :=
  (inorder g n p).filterMap g.key

theorem reach_of_mem_inorder {g : LinkGraph A K} : ∀ {n : ℕ} {p : Option A} {b : A},
    b ∈ inorder g n p → ∃ a, p = some a ∧ Reach g a b
  | 0, _, _, h => by simp [inorder] at h
  | _ + 1, none, _, h => by simp [inorder] at h
  | n + 1, some a, b, h => by
    simp only [inorder, List.mem_append, List.mem_cons] at h
    refine ⟨a, rfl, ?_⟩
    rcases h with h | rfl | h
    · obtain ⟨c, hc, hr⟩ := reach_of_mem_inorder h
      exact Relation.ReflTransGen.head ⟨.left, hc⟩ hr
    · exact Relation.ReflTransGen.refl
    · obtain ⟨c, hc, hr⟩ := reach_of_mem_inorder h
      exact Relation.ReflTransGen.head ⟨.right, hc⟩ hr

theorem reach_rank_le {g : LinkGraph A K} (rank : A → ℕ)
    (later : ∀ a d c, g.child a d = some c → rank a < rank c) {a b : A} (h : Reach g a b) :
    rank a ≤ rank b := by
  induction h with
  | refl => exact Nat.le_refl _
  | tail _ hl ih =>
    obtain ⟨e, he⟩ := hl
    exact Nat.le_trans ih (Nat.le_of_lt (later _ e _ he))

theorem reach_kept {g g' : LinkGraph A K} {a m : A} (h : Reach g a m)
    (kept : ∀ b d c, g.child b d = some c → Reach g c m → g'.child b d = some c) :
    Reach g' a m := by
  induction h using Relation.ReflTransGen.head_induction_on with
  | refl => exact Relation.ReflTransGen.refl
  | head hl hr ih =>
    obtain ⟨d, hd⟩ := hl
    exact Relation.ReflTransGen.head ⟨d, kept _ d _ hd hr⟩ ih

/-- What makes every walk down the links come to an end: live nodes link to live nodes only,
and a bounded rank grows along the links. -/
structure Ranked (g : LinkGraph A K) (Live : A → Prop) (rank : A → ℕ) (bound : ℕ) : Prop where
  live : ∀ a d c, Live a → g.child a d = some c → Live c
  later : ∀ a d c, Live a → g.child a d = some c → rank a < rank c
  within : ∀ a, Live a → rank a < bound

theorem Ranked.inorder_below {g : LinkGraph A K} {Live : A → Prop} {rank : A → ℕ} {bound : ℕ}
    (hr : Ranked g Live rank bound) {a s : A} (h : Reach g a s) : Live a →
    ∀ n, bound ≤ rank a + n → ∃ m before after, bound ≤ rank s + m ∧
      inorder g n (some a) = before ++ inorder g m (some s) ++ after := by
  induction h using Relation.ReflTransGen.head_induction_on with
  | refl => exact fun _ n hn => ⟨n, [], [], hn, by simp⟩
  | @head a c hl _ ih =>
    intro ha n hn
    obtain ⟨d, hd⟩ := hl
    have hac := hr.later a d c ha hd
    have hab := hr.within a ha
    obtain ⟨n, rfl⟩ : ∃ m, n = m + 1 := ⟨n - 1, by omega⟩
    obtain ⟨m, before, after, hm, he⟩ := ih (hr.live a d c ha hd) n (by omega)
    cases d with
    | left =>
      refine ⟨m, before, after ++ a :: inorder g n (g.child a .right), hm, ?_⟩
      rw [inorder, hd, he]
      simp
    | right =>
      refine ⟨m, inorder g n (g.child a .left) ++ a :: before, after, hm, ?_⟩
      rw [inorder, hd, he]
      simp

theorem Ranked.mem_inorder {g : LinkGraph A K} {Live : A → Prop} {rank : A → ℕ} {bound : ℕ}
    (hr : Ranked g Live rank bound) {a b : A} (ha : Live a) {n : ℕ} (hn : bound ≤ rank a + n) :
    b ∈ inorder g n (some a) ↔ Reach g a b := by
  constructor
  · intro hb
    obtain ⟨r, hra, hreach⟩ := reach_of_mem_inorder hb
    cases hra
    exact hreach
  · intro hb
    have hlive : Live b := by
      induction hb with
      | refl => exact ha
      | tail _ hl ih =>
        obtain ⟨d, hd⟩ := hl
        exact hr.live _ d _ ih hd
    obtain ⟨m, before, after, hm, he⟩ := hr.inorder_below hb ha n hn
    have hb' := hr.within b hlive
    obtain ⟨m, rfl⟩ : ∃ k, m = k + 1 := ⟨m - 1, by omega⟩
    simp [he, inorder]

variable [LinearOrder K]

/-- Key `x` belongs on side `d` of a node that holds `k`. -/
def Side (d : Dir) (k x : K) : Prop :=
  match d with
  | .left => x < k
  | .right => k < x

theorem side_unique {d e : Dir} {k x : K} (hd : Side d k x) (he : Side e k x) : d = e := by
  cases d <;> cases e <;> first | rfl | exact absurd hd (lt_asymm he)

theorem not_side_self (d : Dir) (k : K) : ¬ Side d k k := by
  cases d <;> exact lt_irrefl k

def SearchStep (g : LinkGraph A K) (k : K) (a b : A) : Prop :=
  ∃ d x, g.key a = some x ∧ Side d x k ∧ g.child a d = some b

def Leads (g : LinkGraph A K) (k : K) : A → A → Prop := Relation.ReflTransGen (SearchStep g k)

theorem searchStep_unique (g : LinkGraph A K) (k : K) : Relator.RightUnique (SearchStep g k) := by
  rintro a b c ⟨d, x, hx, hd, hb⟩ ⟨e, y, hy, he, hc⟩
  have hxy : x = y := Option.some.inj (hx.symm.trans hy)
  subst y
  have hde := side_unique hd he
  subst e
  exact Option.some.inj (hb.symm.trans hc)

theorem searchStep_link {g : LinkGraph A K} {k : K} {a b : A} (h : SearchStep g k a b) :
    Link g a b := by
  obtain ⟨d, _, _, _, hb⟩ := h
  exact ⟨d, hb⟩

theorem leads_reach {g : LinkGraph A K} {k : K} {a b : A} (h : Leads g k a b) : Reach g a b :=
  Relation.ReflTransGen.mono (fun _ _ => searchStep_link) _ _ h

theorem searchStep_key_ne {g : LinkGraph A K} {k : K} {a b : A} (h : SearchStep g k a b) :
    g.key a ≠ some k := by
  rintro hk
  obtain ⟨d, x, hx, hd, _⟩ := h
  have hxk : x = k := Option.some.inj (hx.symm.trans hk)
  subst x
  exact not_side_self d k hd

theorem leads_stop {g : LinkGraph A K} {k : K} {a b : A} (h : Leads g k a b)
    (hk : g.key a = some k) : b = a := by
  rcases Relation.ReflTransGen.cases_head h with rfl | ⟨c, hc, _⟩
  · rfl
  · exact absurd hk (searchStep_key_ne hc)

theorem leads_total {g : LinkGraph A K} {k : K} {r a b : A} (ha : Leads g k r a)
    (hb : Leads g k r b) : Leads g k a b ∨ Leads g k b a :=
  Relation.ReflTransGen.total_of_right_unique (searchStep_unique g k) ha hb

theorem leads_key_unique {g : LinkGraph A K} {k : K} {r a b : A} (ha : Leads g k r a)
    (hb : Leads g k r b) (hka : g.key a = some k) (hkb : g.key b = some k) : a = b := by
  rcases leads_total ha hb with h | h
  · exact (leads_stop h hka).symm
  · exact leads_stop h hkb

theorem Grows.searchStep {g g' : LinkGraph A K} (hg : Grows g g') {k : K} {a b : A}
    (h : SearchStep g k a b) : SearchStep g' k a b := by
  obtain ⟨d, x, hx, hd, hb⟩ := h
  exact ⟨d, x, hg.key a x hx, hd, hg.child a d b hb⟩

theorem Grows.leads {g g' : LinkGraph A K} (hg : Grows g g') {k : K} {a b : A}
    (h : Leads g k a b) : Leads g' k a b :=
  Relation.ReflTransGen.mono (fun _ _ => hg.searchStep) _ _ h

/-- Every key is on the proper side of every key above it. -/
def Ordered (g : LinkGraph A K) (root : A) : Prop :=
  ∀ a k d c b x, Reach g root a → g.key a = some k → g.child a d = some c →
    Reach g c b → g.key b = some x → Side d k x

/-- The local facts from which the order follows. Only `stored_on_path` mentions keys:
whatever is stored can be found again from the root. -/
structure SearchShape (g : LinkGraph A K) (root : A) : Prop where
  root_parentless : ∀ a d, g.child a d ≠ some root
  parent_unique : ∀ a b c d e, g.child a d = some c → g.child b e = some c → a = b ∧ d = e
  stored_on_path : ∀ a k, g.key a = some k → Leads g k root a
  empty_childless : ∀ a d, g.key a = none → g.child a d = none

namespace SearchShape

variable {g : LinkGraph A K} {root : A}

theorem leads_parent (h : SearchShape g root) {k : K} {a b : A} {d : Dir}
    (hb : Leads g k root b) (hl : g.child a d = some b) :
    Leads g k root a ∧ ∃ x, g.key a = some x ∧ Side d x k := by
  rcases Relation.ReflTransGen.cases_tail hb with rfl | ⟨p, hp, e, x, hx, hs, hc⟩
  · exact absurd hl (h.root_parentless a d)
  · obtain ⟨rfl, rfl⟩ := h.parent_unique _ _ _ _ _ hl hc
    exact ⟨hp, x, hx, hs⟩

/-- Induction up the links: the search path of a key below `c` goes through `c`. -/
theorem leads_ancestor (h : SearchShape g root) {k : K} {c b : A} (hcb : Reach g c b)
    (hb : Leads g k root b) : Leads g k root c := by
  induction hcb with
  | refl => exact hb
  | tail _ hl ih =>
    obtain ⟨d, hl⟩ := hl
    exact ih (h.leads_parent hb hl).1

theorem ordered (h : SearchShape g root) : Ordered g root := by
  intro a k d c b x _ hk hc hcb hx
  have hpath := h.leads_ancestor hcb (h.stored_on_path b x hx)
  obtain ⟨_, y, hy, hs⟩ := h.leads_parent hpath hc
  have hky : y = k := Option.some.inj (hy.symm.trans hk)
  exact hky ▸ hs

theorem stored_once (h : SearchShape g root) {a b : A} {k : K} (ha : g.key a = some k)
    (hb : g.key b = some k) : a = b :=
  leads_key_unique (h.stored_on_path a k ha) (h.stored_on_path b k hb) ha hb

theorem stored_reachable (h : SearchShape g root) {a : A} {k : K} (ha : g.key a = some k) :
    Reach g root a := leads_reach (h.stored_on_path a k ha)

end SearchShape

theorem leads_from_empty {g : LinkGraph A K} {k : K} {a b : A} (h : Leads g k a b)
    (hk : g.key a = none) : b = a := by
  rcases Relation.ReflTransGen.cases_head h with rfl | ⟨c, ⟨_, x, hx, _⟩, _⟩
  · rfl
  · rw [hk] at hx; cases hx

theorem SearchShape.not_stored_of_empty {g : LinkGraph A K} {root : A} (h : SearchShape g root)
    {k : K} {a b : A} (ha : Leads g k root a) (hk : g.key a = none) : g.key b ≠ some k := by
  intro hb
  have hab : b = a := by
    rcases leads_total ha (h.stored_on_path b k hb) with hl | hl
    · exact leads_from_empty hl hk
    · exact (leads_stop hl hb).symm
  rw [hab, hk] at hb
  cases hb

theorem SearchShape.not_stored_of_missing {g : LinkGraph A K} {root : A} (h : SearchShape g root)
    {k x : K} {a b : A} {d : Dir} (ha : Leads g k root a) (hk : g.key a = some x)
    (hs : Side d x k) (hc : g.child a d = none) : g.key b ≠ some k := by
  intro hb
  have hne : b ≠ a := by
    rintro rfl
    cases hb.symm.trans hk
    exact not_side_self d k hs
  rcases leads_total ha (h.stored_on_path b k hb) with hl | hl
  · rcases Relation.ReflTransGen.cases_head hl with rfl | ⟨c, ⟨e, y, hy, hside, hlink⟩, _⟩
    · exact hne rfl
    · cases hk.symm.trans hy
      rw [side_unique hside hs, hc] at hlink
      cases hlink
  · exact hne (leads_stop hl hb).symm

section Operations

variable [DecidableEq A]

theorem SearchShape.setKey {g : LinkGraph A K} {root a : A} {k : K} (h : SearchShape g root)
    (he : g.key a = none) (hp : Leads g k root a) : SearchShape (g.setKey a k) root := by
  have hg := grows_setKey he k
  refine ⟨h.root_parentless, h.parent_unique, ?_, ?_⟩
  · intro b x hx
    by_cases hb : b = a
    · subst b
      have hxk : k = x := by simpa [LinkGraph.setKey] using hx
      exact hxk ▸ hg.leads hp
    · exact hg.leads (h.stored_on_path b x (by simpa [LinkGraph.setKey, hb] using hx))
  · intro b d hb
    have hne : b ≠ a := by rintro rfl; simp [LinkGraph.setKey] at hb
    exact h.empty_childless b d (by simpa [LinkGraph.setKey, hne] using hb)

/-- Hanging an isolated empty node under a node that holds a key. -/
theorem SearchShape.setChild {g : LinkGraph A K} {root a c : A} {d : Dir} {x : K}
    (h : SearchShape g root) (hk : g.key a = some x) (he : g.child a d = none)
    (hroot : c ≠ root) (horphan : ∀ b e, g.child b e ≠ some c) :
    SearchShape (g.setChild a d c) root := by
  refine ⟨?_, ?_, ?_, ?_⟩
  · intro b e hb
    rw [LinkGraph.setChild_child] at hb
    split at hb
    · exact hroot (Option.some.inj hb)
    · exact h.root_parentless b e hb
  · intro b b' y e e' hb hb'
    rw [LinkGraph.setChild_child] at hb hb'
    split at hb <;> split at hb'
    · next h₁ h₂ => exact ⟨h₁.1.trans h₂.1.symm, h₁.2.trans h₂.2.symm⟩
    · exact absurd (hb'.trans hb.symm) (horphan b' e')
    · exact absurd (hb.trans hb'.symm) (horphan b e)
    · exact h.parent_unique b b' y e e' hb hb'
  · intro b y hy
    exact (grows_setChild he c).leads (h.stored_on_path b y hy)
  · intro b e hb
    have hne : b ≠ a := by
      rintro rfl
      have hb' : g.key b = none := hb
      rw [hk] at hb'; cases hb'
    rw [LinkGraph.setChild_child, if_neg (fun h => hne h.1)]
    exact h.empty_childless b e hb

theorem SearchShape.prune_child {g : LinkGraph A K} {root p s b c : A} {d e : Dir}
    (h : SearchShape g root) (hl : g.child p d = some s)
    (hc : (g.prune p d s).child b e = some c) : g.child b e = some c ∧ c ≠ s := by
  simp only [LinkGraph.prune] at hc
  split at hc
  · cases hc
  · next hbe =>
    refine ⟨hc, ?_⟩
    intro hcs
    subst hcs
    exact hbe (h.parent_unique b p c e d hc hl)

/-- Pruning a leaf: no other search path goes through it. -/
theorem SearchShape.prune {g : LinkGraph A K} {root p s : A} {d : Dir} (h : SearchShape g root)
    (hl : g.child p d = some s) (leaf : ∀ e, g.child s e = none) :
    SearchShape (g.prune p d s) root := by
  have keep : ∀ k b, b ≠ s → Leads g k root b → Leads (g.prune p d s) k root b := by
    intro k b hb hp
    induction hp with
    | refl => exact Relation.ReflTransGen.refl
    | @tail a b _ hab ih =>
      obtain ⟨e, x, hx, hs, hc⟩ := hab
      have ha : a ≠ s := by
        intro has
        rw [has, leaf e] at hc; cases hc
      refine (ih ha).tail ⟨e, x, by simpa [LinkGraph.prune, ha] using hx, hs, ?_⟩
      have hpd : ¬ (a = p ∧ e = d) := by
        rintro ⟨rfl, rfl⟩
        exact hb (Option.some.inj (hc.symm.trans hl))
      simpa [LinkGraph.prune, hpd] using hc
  refine ⟨?_, ?_, ?_, ?_⟩
  · intro a e ha
    exact h.root_parentless a e (h.prune_child hl ha).1
  · intro a b c e f ha hb
    exact h.parent_unique a b c e f (h.prune_child hl ha).1 (h.prune_child hl hb).1
  · intro a k hk
    have ha : a ≠ s := by rintro rfl; simp [LinkGraph.prune] at hk
    exact keep k a ha (h.stored_on_path a k (by simpa [LinkGraph.prune, ha] using hk))
  · intro a e hk
    have hc : g.child a e = none := by
      by_cases ha : a = s
      · rw [ha]; exact leaf e
      · exact h.empty_childless a e (by simpa [LinkGraph.prune, ha] using hk)
    simp [LinkGraph.prune, hc]

end Operations

/-- Any function that goes down as the search relation does finds the node that holds the
key, or reports it missing; the rank bounds how deep it can get. -/
theorem search_result {R : Type w} {g : LinkGraph A K} {k : K} {Live : A → Prop} {rank : A → ℕ}
    {bound : ℕ} (hr : Ranked g Live rank bound) (f : ℕ → Option A → R) (found : A → R)
    (missing : R)
    (null : ∀ n, f (n + 1) none = missing)
    (empty : ∀ n a, Live a → g.key a = none → f (n + 1) (some a) = missing)
    (hit : ∀ n a, Live a → g.key a = some k → f (n + 1) (some a) = found a)
    (side : ∀ n a d x, Live a → g.key a = some x → Side d x k →
      f (n + 1) (some a) = f n (g.child a d)) :
    ∀ n a, Live a → bound < rank a + n →
      (∃ t, Leads g k a t ∧ g.key t = some k ∧ f n (some a) = found t) ∨
      ((∀ t, Leads g k a t → g.key t ≠ some k) ∧ f n (some a) = missing) := by
  intro n
  induction n with
  | zero => intro a ha hn; have := hr.within a ha; omega
  | succ n ih =>
    intro a ha hn
    have hb := hr.within a ha
    cases hk : g.key a with
    | none =>
      refine Or.inr ⟨?_, empty n a ha hk⟩
      intro t ht
      rw [leads_from_empty ht hk, hk]
      exact (Option.some_ne_none k).symm
    | some x =>
      by_cases hx : x = k
      · subst x
        exact Or.inl ⟨a, Relation.ReflTransGen.refl, hk, hit n a ha hk⟩
      · obtain ⟨d, hd⟩ : ∃ d, Side d x k := by
          rcases lt_or_gt_of_ne hx with h | h
          · exact ⟨.right, h⟩
          · exact ⟨.left, h⟩
        have down : ∀ t, Leads g k a t → g.key t = some k →
            ∃ c, g.child a d = some c ∧ Leads g k c t := by
          intro t ht hkt
          rcases Relation.ReflTransGen.cases_head ht with rfl | ⟨c, ⟨e, y, hy, he, hc⟩, hct⟩
          · exact absurd (Option.some.inj (hk.symm.trans hkt)) hx
          · have hxy : x = y := Option.some.inj (hk.symm.trans hy)
            subst y
            exact ⟨c, side_unique he hd ▸ hc, hct⟩
        rw [side n a d x ha hk hd]
        cases hc : g.child a d with
        | none =>
          obtain ⟨m, rfl⟩ : ∃ m, n = m + 1 := ⟨n - 1, by omega⟩
          refine Or.inr ⟨?_, null m⟩
          intro t ht hkt
          obtain ⟨c, hc', _⟩ := down t ht hkt
          rw [hc] at hc'; cases hc'
        | some c =>
          have hlt := hr.later a d c ha hc
          rcases ih c (hr.live a d c ha hc) (by omega) with ⟨t, ht, hkt, hf⟩ | ⟨hno, hf⟩
          · exact Or.inl ⟨t, Relation.ReflTransGen.head ⟨d, x, hk, hd, hc⟩ ht, hkt, hf⟩
          · refine Or.inr ⟨?_, hf⟩
            intro t ht hkt
            obtain ⟨c', hc', hct⟩ := down t ht hkt
            cases hc.symm.trans hc'
            exact hno t hct hkt

/-- Any depth of a search tree lists its keys in increasing order. -/
theorem inorderKeys_sorted {g : LinkGraph A K} {root : A} (hs : SearchShape g root) :
    ∀ (n : ℕ) (p : Option A), (∀ a, p = some a → Reach g root a) →
      (inorderKeys g n p).Pairwise (· < ·)
  | 0, _, _ => by simp [inorderKeys, inorder]
  | _ + 1, none, _ => by simp [inorderKeys, inorder]
  | n + 1, some a, hp => by
    have ha := hp a rfl
    have below : ∀ d x, x ∈ inorderKeys g n (g.child a d) →
        ∀ k, g.key a = some k → Side d k x := by
      intro d x hx k hk
      obtain ⟨b, hb, hbx⟩ := List.mem_filterMap.mp hx
      obtain ⟨c, hc, hcb⟩ := reach_of_mem_inorder hb
      exact hs.ordered a k d c b x ha hk hc hcb hbx
    have sub : ∀ d, (inorderKeys g n (g.child a d)).Pairwise (· < ·) := fun d =>
      inorderKeys_sorted hs n _ (fun c hc => ha.tail ⟨d, hc⟩)
    cases hk : g.key a with
    | none =>
      have he : inorderKeys g (n + 1) (some a) =
          inorderKeys g n (g.child a .left) ++ inorderKeys g n (g.child a .right) := by
        simp [inorderKeys, inorder, hk]
      have hz : inorderKeys g n (none : Option A) = [] := by
        cases n <;> simp [inorderKeys, inorder]
      simp [he, hs.empty_childless a _ hk, hz]
    | some k =>
      have he : inorderKeys g (n + 1) (some a) =
          inorderKeys g n (g.child a .left) ++ k :: inorderKeys g n (g.child a .right) := by
        simp [inorderKeys, inorder, hk]
      rw [he, List.pairwise_append, List.pairwise_cons]
      refine ⟨sub .left, ⟨fun x hx => below .right x hx k hk, sub .right⟩, ?_⟩
      intro x hx y hy
      have hxk : x < k := below .left x hx k hk
      rcases List.mem_cons.mp hy with rfl | hy
      · exact hxk
      · exact lt_trans hxk (below .right y hy k hk)

end SearchGraph
