import Mathlib.Data.Fintype.Card
import Mathlib.Data.List.Nodup
import Mathlib.Dynamics.PeriodicPts.Defs

/-! Forests over a parent map that may also have cycles. A node belongs to the forest when its
chain of parents ends. The listing of the forest follows the lists of children downwards with a
bound on the depth of the calls; over a finite type it ends, because nothing that it reaches
lies on a cycle. -/
namespace ParentForest

variable {α : Type u}

/-- The chain of parents ends, after so many nodes. -/
inductive AtDepth (up : α → Option α) : ℕ → α → Prop where
  | root {x} : up x = none → AtDepth up 1 x
  | child {x p d} : up x = some p → AtDepth up d p → AtDepth up (d + 1) x

inductive Below (up : α → Option α) (x : α) : ℕ → α → Prop where
  | self : Below up x 0 x
  | child {y p k} : up y = some p → Below up x k p → Below up x (k + 1) y

/-- A line of a listing; `last` marks the last of its siblings. -/
structure Entry (α : Type u) where
  depth : ℕ
  last : Bool
  node : α

def each (list : Bool → α → Option (List (Entry α))) : List α → Option (List (Entry α))
  | [] => some []
  | x :: xs => do
    let here ← list xs.isEmpty x
    let there ← each list xs
    some (here ++ there)

def listing (children : α → List α) : ℕ → ℕ → Bool → α → Option (List (Entry α))
  | 0, _, _, _ => none
  | fuel + 1, depth, last, x => do
    let rest ← each (listing children fuel (depth + 1)) (children x)
    some (⟨depth, last, x⟩ :: rest)

/-- The children of every node and, at `none`, the roots, in an order. -/
structure Children (up : α → Option α) (before : α → α → Prop) (offspring : Option α → List α) :
    Prop where
  mem : ∀ p x, x ∈ offspring p ↔ up x = p
  ordered : ∀ p, (offspring p).Pairwise before
  irrefl : ∀ x, ¬ before x x

/-- The line of the parent comes earlier, with only deeper lines in between. -/
def UnderParent (up : α → Option α) (pre : List (Entry α)) (e : Entry α) : Prop :=
  ∃ above f mid, pre = above ++ f :: mid ∧ up e.node = some f.node ∧ e.depth = f.depth + 1 ∧
    ∀ m ∈ mid, f.depth < m.depth

/-- A preorder listing of the whole forest. -/
structure Preorder (up : α → Option α) (before : α → α → Prop) (es : List (Entry α)) : Prop where
  depth : ∀ e ∈ es, AtDepth up e.depth e.node
  complete : ∀ d x, AtDepth up d x → ∃ e ∈ es, e.node = x
  once : (es.map Entry.node).Nodup
  parent : ∀ pre e post, es = pre ++ e :: post → up e.node ≠ none → UnderParent up pre e
  siblings : es.Pairwise fun e f => up e.node = up f.node → before e.node f.node

section Chains

variable {up : α → Option α} {x y z p : α} {d k : ℕ}

theorem AtDepth.pos (h : AtDepth up d x) : 0 < d := by
  cases h <;> exact Nat.succ_pos _

theorem AtDepth.unique (h : AtDepth up d x) (h' : AtDepth up k x) : d = k := by
  induction h generalizing k with
  | root hup =>
    cases h' with
    | root => rfl
    | child hup' => simp [hup] at hup'
  | child hup _ ih =>
    cases h' with
    | root hup' => simp [hup] at hup'
    | child hup' hp =>
      cases Option.some.inj (hup.symm.trans hup')
      exact congrArg (· + 1) (ih hp)

theorem AtDepth.of_parent (h : AtDepth up d x) (hup : up x = some p) :
    ∃ k, d = k + 1 ∧ AtDepth up k p := by
  cases h with
  | root hup' => simp [hup] at hup'
  | @child _ q k hup' hq =>
    cases Option.some.inj (hup.symm.trans hup')
    exact ⟨k, rfl, hq⟩

theorem AtDepth.root_of_one (h : AtDepth up 1 x) : up x = none := by
  cases h with
  | root hup => exact hup
  | child _ hp => exact absurd hp.pos (Nat.lt_irrefl 0)

theorem Below.depth (h : Below up x k y) (hx : AtDepth up d x) : AtDepth up (d + k) y := by
  induction h with
  | self => exact hx
  | child hup _ ih => exact .child hup ih

theorem Below.unique (h : Below up x k y) (h' : Below up z k y) : x = z := by
  induction h with
  | self => cases h'; rfl
  | child hup _ ih =>
    cases h' with
    | child hup' hp =>
      cases Option.some.inj (hup.symm.trans hup')
      exact ih hp

theorem Below.above (h : Below up x k y) (hup : up x = some p) : Below up p (k + 1) y := by
  induction h with
  | self => exact .child hup .self
  | child hup' _ ih => exact .child hup' ih

theorem Below.first_step (h : Below up x (k + 1) y) : ∃ c, up c = some x ∧ Below up c k y := by
  induction k generalizing y with
  | zero =>
    cases h with
    | child hup hp =>
      cases hp
      exact ⟨y, hup, .self⟩
  | succ k ih =>
    cases h with
    | child hup hp =>
      obtain ⟨c, hc, hbelow⟩ := ih hp
      exact ⟨c, hc, .child hup hbelow⟩

theorem AtDepth.from_root (h : AtDepth up d x) : ∃ r k, up r = none ∧ Below up r k x := by
  induction h with
  | @root x hup => exact ⟨x, 0, hup, .self⟩
  | child hup _ ih =>
    obtain ⟨r, k, hr, hbelow⟩ := ih
    exact ⟨r, k + 1, hr, .child hup hbelow⟩

/-- The nodes of a chain that ends are all different, so there are no more than nodes at all. -/
theorem AtDepth.le_card [Fintype α] (h : AtDepth up d x) : d ≤ Fintype.card α := by
  have hchain : ∃ l : List α, l.length = d ∧ l.Nodup ∧ ∀ y ∈ l, ∃ k ≤ d, AtDepth up k y := by
    induction h with
    | @root x hup => exact ⟨[x], rfl, List.nodup_singleton x, by simpa using ⟨1, le_rfl, .root hup⟩⟩
    | @child x p d hup hp ih =>
      obtain ⟨l, hlen, hnodup, hl⟩ := ih
      have hx : AtDepth up (d + 1) x := .child hup hp
      refine ⟨x :: l, congrArg (· + 1) hlen, List.nodup_cons.mpr ⟨?_, hnodup⟩, ?_⟩
      · intro hin
        obtain ⟨k, hk, hdepth⟩ := hl x hin
        have heq := hx.unique hdepth
        omega
      · intro y hy
        rcases List.mem_cons.mp hy with rfl | hy
        · exact ⟨d + 1, le_rfl, hx⟩
        · obtain ⟨k, hk, hdepth⟩ := hl y hy
          exact ⟨k, by omega, hdepth⟩
  obtain ⟨l, hlen, hnodup, _⟩ := hchain
  rw [← hlen]
  exact hnodup.length_le_card

end Chains

section Listing

variable {up : α → Option α} {before : α → α → Prop} {offspring : Option α → List α}
variable {d : ℕ} {x : α} {xs : List α} {es here there : List (Entry α)}

/-- The listing of the trees below some siblings. -/
structure Lists (up : α → Option α) (before : α → α → Prop) (d : ℕ) (xs : List α)
    (es : List (Entry α)) : Prop where
  mem : ∀ e ∈ es, ∃ x ∈ xs, ∃ k, Below up x k e.node ∧ e.depth = d + k
  complete : ∀ x ∈ xs, ∀ k y, Below up x k y → ∃ e ∈ es, e.node = y
  once : (es.map Entry.node).Nodup
  parent : ∀ pre e post, es = pre ++ e :: post → e.depth = d ∨ UnderParent up pre e
  siblings : es.Pairwise fun e f => up e.node = up f.node → before e.node f.node

theorem Lists.nil : Lists up before d [] [] :=
  ⟨by simp, by simp, by simp, by simp, List.Pairwise.nil⟩

theorem UnderParent.append {pre : List (Entry α)} {e : Entry α} (h : UnderParent up pre e)
    (es : List (Entry α)) : UnderParent up (es ++ pre) e := by
  obtain ⟨above, f, mid, rfl, hup, hdepth, hmid⟩ := h
  exact ⟨es ++ above, f, mid, by simp, hup, hdepth, hmid⟩

theorem apart_siblings {x' y z : α} {k k' : ℕ} (hx : AtDepth up d x) (hx' : AtDepth up d x')
    (hne : x ≠ x') (hy : Below up x k y) (hz : Below up x' k' z) (hup : up y = up z) :
    y = x ∧ z = x' := by
  cases hy with
  | self =>
    cases hz with
    | self => exact ⟨rfl, rfl⟩
    | child hz' hp =>
      obtain ⟨j, hj, hjp⟩ := hx.of_parent (hup.trans hz')
      have heq := hjp.unique (hp.depth hx')
      omega
  | child hy' hp =>
    cases hz with
    | self =>
      obtain ⟨j, hj, hjp⟩ := hx'.of_parent (hup.symm.trans hy')
      have heq := hjp.unique (hp.depth hx)
      omega
    | child hz' hq =>
      cases Option.some.inj (hy'.symm.trans (hup.trans hz'))
      have heq := (hp.depth hx).unique (hq.depth hx')
      cases Nat.add_left_cancel heq
      exact absurd (hp.unique hq) hne

theorem Lists.append (hhere : Lists up before d [x] here) (hthere : Lists up before d xs there)
    (hx : AtDepth up d x) (hxs : ∀ y ∈ xs, AtDepth up d y) (hbefore : ∀ y ∈ xs, before x y)
    (hne : x ∉ xs) : Lists up before d (x :: xs) (here ++ there) := by
  have hfrom : ∀ e ∈ here, ∃ k, Below up x k e.node ∧ e.depth = d + k := by
    intro e he
    obtain ⟨y, hy, k, hk⟩ := hhere.mem e he
    cases List.mem_singleton.mp hy
    exact ⟨k, hk⟩
  refine ⟨?_, ?_, ?_, ?_, ?_⟩
  · intro e he
    rcases List.mem_append.mp he with he | he
    · exact ⟨x, List.mem_cons_self, hfrom e he⟩
    · obtain ⟨y, hy, hk⟩ := hthere.mem e he
      exact ⟨y, List.mem_cons_of_mem x hy, hk⟩
  · intro y hy k z hz
    rcases List.mem_cons.mp hy with rfl | hy
    · obtain ⟨e, he, heq⟩ := hhere.complete y (List.mem_singleton_self y) k z hz
      exact ⟨e, List.mem_append_left _ he, heq⟩
    · obtain ⟨e, he, heq⟩ := hthere.complete y hy k z hz
      exact ⟨e, List.mem_append_right _ he, heq⟩
  · rw [List.map_append]
    apply hhere.once.append hthere.once
    intro y hy hy'
    obtain ⟨e, he, rfl⟩ := List.mem_map.mp hy
    obtain ⟨f, hf, heq⟩ := List.mem_map.mp hy'
    obtain ⟨k, hbelow, _⟩ := hfrom e he
    obtain ⟨z, hz, k', hbelow', _⟩ := hthere.mem f hf
    rw [heq] at hbelow'
    -- one node below both at one distance, so the two siblings are one
    have hdepth := (hbelow.depth hx).unique (hbelow'.depth (hxs z hz))
    cases Nat.add_left_cancel hdepth
    cases hbelow.unique hbelow'
    exact hne hz
  · intro pre e post hsplit
    rcases List.append_eq_append_iff.mp hsplit with ⟨mid, hpre, hrest⟩ | ⟨mid, hhere', hrest⟩
    · rw [hpre]
      exact (hthere.parent mid e post hrest).imp_right fun h => h.append here
    · cases mid with
      | nil =>
        have hthere' := hthere.parent [] e post (by simpa using hrest.symm)
        rw [hhere', List.append_nil] at *
        exact hthere'.imp_right fun h => by simpa using h.append pre
      | cons f mid =>
        cases hrest
        exact hhere.parent pre e mid hhere'
  · apply List.pairwise_append.mpr
    refine ⟨hhere.siblings, hthere.siblings, ?_⟩
    intro e he f hf hup
    obtain ⟨k, hbelow, _⟩ := hfrom e he
    obtain ⟨z, hz, k', hbelow', _⟩ := hthere.mem f hf
    have hxz : x ≠ z := fun h => hne (h ▸ hz)
    obtain ⟨h, h'⟩ := apart_siblings hx (hxs z hz) hxz hbelow hbelow' hup
    rw [h, h']
    exact hbefore z hz

theorem Lists.tree (hc : Children up before offspring)
    (h : Lists up before (d + 1) (offspring (some x)) es) (hx : AtDepth up d x) (last : Bool) :
    Lists up before d [x] (⟨d, last, x⟩ :: es) := by
  have hdeep : ∀ e ∈ es, ∃ k, Below up x (k + 1) e.node ∧ e.depth = d + (k + 1) := by
    intro e he
    obtain ⟨c, hcx, k, hbelow, hdepth⟩ := h.mem e he
    exact ⟨k, hbelow.above ((hc.mem _ _).mp hcx), by omega⟩
  refine ⟨?_, ?_, ?_, ?_, ?_⟩
  · intro e he
    rcases List.mem_cons.mp he with rfl | he
    · exact ⟨x, List.mem_singleton_self x, 0, .self, rfl⟩
    · obtain ⟨k, hk⟩ := hdeep e he
      exact ⟨x, List.mem_singleton_self x, k + 1, hk⟩
  · intro y hy k z hz
    cases List.mem_singleton.mp hy
    cases k with
    | zero =>
      cases hz
      exact ⟨_, List.mem_cons_self, rfl⟩
    | succ k =>
      obtain ⟨c, hcx, hbelow⟩ := hz.first_step
      obtain ⟨e, he, heq⟩ := h.complete c ((hc.mem _ _).mpr hcx) k z hbelow
      exact ⟨e, List.mem_cons_of_mem _ he, heq⟩
  · apply List.nodup_cons.mpr
    refine ⟨?_, h.once⟩
    intro hin
    obtain ⟨e, he, heq⟩ := List.mem_map.mp hin
    obtain ⟨k, hbelow, _⟩ := hdeep e he
    rw [heq] at hbelow
    have hdepth := hx.unique (hbelow.depth hx)
    omega
  · intro pre e post hsplit
    cases pre with
    | nil =>
      cases hsplit
      exact Or.inl rfl
    | cons f pre =>
      obtain ⟨rfl, hrest⟩ := List.cons.inj hsplit
      right
      rcases h.parent pre e post hrest with htop | hunder
      · -- a child of `x` itself: everything before it in `es` is deeper than `x`
        have he : e ∈ es := by simp [hrest]
        obtain ⟨c, hcx, k, hbelow, hdepth⟩ := h.mem e he
        have hk : k = 0 := by omega
        subst hk
        refine ⟨[], _, pre, rfl, ?_, htop, ?_⟩
        · cases hbelow
          exact (hc.mem _ _).mp hcx
        · intro m hm
          obtain ⟨j, _, hj⟩ := hdeep m (by simp [hrest, hm])
          simp only [hj]
          omega
      · exact hunder.append [_]
  · apply List.pairwise_cons.mpr
    refine ⟨?_, h.siblings⟩
    intro e he hup
    obtain ⟨k, hbelow, _⟩ := hdeep e he
    cases hbelow with
    | child hup' hp =>
      obtain ⟨j, hj, hjp⟩ := hx.of_parent (hup.trans hup')
      have heq := hjp.unique (hp.depth hx)
      omega

theorem each_lists {list : Bool → α → Option (List (Entry α))}
    (hlist : ∀ last, ∀ x ∈ xs, ∃ es, list last x = some es ∧ Lists up before d [x] es)
    (hxs : ∀ x ∈ xs, AtDepth up d x) (hord : xs.Pairwise before) (hirr : ∀ x, ¬ before x x) :
    ∃ es, each list xs = some es ∧ Lists up before d xs es := by
  induction xs with
  | nil => exact ⟨[], rfl, .nil⟩
  | cons x xs ih =>
    obtain ⟨hbefore, hord⟩ := List.pairwise_cons.mp hord
    obtain ⟨here, hhere, hlists⟩ := hlist xs.isEmpty x List.mem_cons_self
    obtain ⟨there, hthere, hrest⟩ := ih
      (fun last y hy => hlist last y (List.mem_cons_of_mem x hy))
      (fun y hy => hxs y (List.mem_cons_of_mem x hy)) hord
    refine ⟨here ++ there, by simp [each, hhere, hthere], ?_⟩
    apply hlists.append hrest (hxs x List.mem_cons_self)
      (fun y hy => hxs y (List.mem_cons_of_mem x hy)) hbefore
    intro hin
    exact hirr x (hbefore x hin)

theorem listing_lists [Fintype α] (hc : Children up before offspring) {fuel : ℕ}
    (hx : AtDepth up d x) (hfuel : Fintype.card α < fuel + d) (last : Bool) :
    ∃ es, listing (fun p => offspring (some p)) fuel d last x = some es ∧
      Lists up before d [x] es := by
  induction fuel generalizing d x last with
  | zero =>
    have hle := hx.le_card
    omega
  | succ fuel ih =>
    have hdepth : ∀ c ∈ offspring (some x), AtDepth up (d + 1) c := by
      intro c hcx
      exact .child ((hc.mem _ _).mp hcx) hx
    obtain ⟨es, hes, hlists⟩ := each_lists
      (fun last c hcx => ih (hdepth c hcx) (by omega) last) hdepth (hc.ordered _) hc.irrefl
    exact ⟨_, by simp [listing, hes], hlists.tree hc hx last⟩

theorem forest_lists [Fintype α] (hc : Children up before offspring) {fuel : ℕ}
    (hfuel : Fintype.card α ≤ fuel) :
    ∃ es, each (listing (fun p => offspring (some p)) fuel 1) (offspring none) = some es ∧
      Preorder up before es := by
  have hroot : ∀ r ∈ offspring none, AtDepth up 1 r := fun r hr => .root ((hc.mem _ _).mp hr)
  have henough : Fintype.card α < fuel + 1 := Nat.lt_succ_of_le hfuel
  obtain ⟨es, hes, hlists⟩ := each_lists
    (fun last r hr => listing_lists hc (hroot r hr) henough last) hroot (hc.ordered _) hc.irrefl
  have hdepth : ∀ e ∈ es, AtDepth up e.depth e.node := by
    intro e he
    obtain ⟨r, hr, k, hbelow, heq⟩ := hlists.mem e he
    rw [heq]
    exact hbelow.depth (hroot r hr)
  refine ⟨es, hes, hdepth, ?_, hlists.once, ?_, hlists.siblings⟩
  · intro d y hy
    obtain ⟨r, k, hr, hbelow⟩ := hy.from_root
    exact hlists.complete r ((hc.mem _ _).mpr hr) k y hbelow
  · intro pre e post hsplit hup
    rcases hlists.parent pre e post hsplit with htop | hunder
    · have he := hdepth e (by simp [hsplit])
      rw [htop] at he
      exact absurd he.root_of_one hup
    · exact hunder

end Listing

section Fuel

variable {children : α → List α}

theorem each_mono {list list' : Bool → α → Option (List (Entry α))}
    (h : ∀ last x es, list last x = some es → list' last x = some es) {xs : List α}
    {es : List (Entry α)} (hes : each list xs = some es) : each list' xs = some es := by
  induction xs generalizing es with
  | nil => exact hes
  | cons x xs ih =>
    simp only [each, Option.bind_eq_bind, Option.bind_eq_some_iff] at hes ⊢
    obtain ⟨here, hhere, there, hthere, heq⟩ := hes
    exact ⟨here, h _ _ _ hhere, there, ih hthere, heq⟩

theorem listing_mono {fuel d : ℕ} {last : Bool} {x : α} {es : List (Entry α)}
    (h : listing children fuel d last x = some es) :
    listing children (fuel + 1) d last x = some es := by
  induction fuel generalizing d last x es with
  | zero => cases h
  | succ fuel ih =>
    simp only [listing, Option.bind_eq_bind, Option.bind_eq_some_iff] at h
    obtain ⟨rest, hrest, heq⟩ := h
    rw [listing, each_mono (fun _ _ _ => ih) hrest]
    exact heq

theorem each_listing_mono {fuel fuel' d : ℕ} (hle : fuel ≤ fuel') {xs : List α}
    {es : List (Entry α)} (h : each (listing children fuel d) xs = some es) :
    each (listing children fuel' d) xs = some es := by
  induction hle with
  | refl => exact h
  | step _ ih => exact each_mono (fun _ _ _ => listing_mono) ih

end Fuel

end ParentForest
