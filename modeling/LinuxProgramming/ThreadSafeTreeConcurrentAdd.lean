import LinuxProgramming.ThreadSafeTreeInvariant
import LinuxProgramming.TransitionSystems

/-! Any number of threads calling `add` on one tree. A critical section is one step; the
parent is released before the child is locked, so anything may happen in between, and a
fresh child stands empty in the tree until somebody, not necessarily its maker, fills it. -/
namespace ThreadSafeTreeConcurrentAdd

open BlockMemory CharStrings SearchGraph TransitionSystems ThreadSafeTree
open ThreadSafeTreeInvariant

variable {ι V : Type}

inductive Position where
  | idle
  | enter (node : Addr) (nested : Bool)
  | below (node : Addr) (d : Dir)
  deriving DecidableEq, Repr

structure Thread (V : Type) where
  todo : List (Call V)
  position : Position
  returned : List (Call V × Int)
  deriving DecidableEq

structure State (ι V : Type) where
  heap : Heap (Node V)
  threads : ι → Thread V

/-- A nested call drops its result, so only the outermost frame can return -1. -/
def threadStep (h : Heap (Node V)) (t : Thread V) : Option (Heap (Node V) × Thread V) :=
  match t.todo, t.position with
  | [], _ => none
  | _ :: _, .idle => some (h, { t with position := .enter rootAddr false })
  | c :: rest, .enter a nested =>
    match addSection true a c.key c.value h with
    | .ok (.ret r, h') =>
      some (h', ⟨rest, .idle, t.returned ++ [(c, if nested then 0 else r)]⟩)
    | .ok (.descend d, h') => some (h', { t with position := .below a d })
    | .error _ => none
  | _ :: _, .below a d =>
    match (h.read a).bind fun n => n.child d with
    | some b => some (h, { t with position := .enter b true })
    | none => none

def Step [DecidableEq ι] (s : State ι V) (i : ι) (u : State ι V) : Prop :=
  ∃ h t, threadStep s.heap (s.threads i) = some (h, t) ∧
    u = ⟨h, Function.update s.threads i t⟩

def initial (calls : ι → List (Call V)) : State ι V :=
  ⟨rooted, fun i => ⟨calls i, .idle, []⟩⟩

def Finished (t : Thread V) : Prop := t.todo = []

/-- A descending thread is on the search path of its key, and a thread that has released
a node on its way down has a child there to go to. -/
def PositionOk (h : Heap (Node V)) (t : Thread V) : Prop :=
  match t.position with
  | .idle => True
  | .enter a _ => ∃ c rest, t.todo = c :: rest ∧ (∃ n, h.read a = some n) ∧
      Leads (graph h) c.key rootAddr a
  | .below a d => ∃ c rest, t.todo = c :: rest ∧ Leads (graph h) c.key rootAddr a ∧
      ∃ x b, (graph h).key a = some x ∧ Side d x c.key ∧ (graph h).child a d = some b

structure Invariant (calls : ι → List (Call V)) (s : State ι V) : Prop where
  tree : TreeInvariant s.heap rootAddr
  unlocked : Unlocked s.heap
  position : ∀ i, PositionOk s.heap (s.threads i)
  history : ∀ i, (s.threads i).returned.map Prod.fst ++ (s.threads i).todo = calls i
  returned_stored : ∀ i c r, (c, r) ∈ (s.threads i).returned → ∃ v, Holds s.heap c.key v
  origin : ∀ k v, Holds s.heap k v → ∃ i, ⟨k, v⟩ ∈ calls i

structure Advance (h : Heap (Node V)) (t : Thread V) (h' : Heap (Node V)) (t' : Thread V) :
    Prop where
  tree : TreeInvariant h' rootAddr
  unlocked : Unlocked h'
  persists : Persists h h'
  live : ∀ a n, h.read a = some n → ∃ n', h'.read a = some n'
  position : PositionOk h' t'
  history : t'.returned.map Prod.fst ++ t'.todo = t.returned.map Prod.fst ++ t.todo
  returned : ∀ c r, (c, r) ∈ t'.returned → (c, r) ∈ t.returned ∨ ∃ v, Holds h' c.key v
  origin : ∀ k v, Holds h' k v → Holds h k v ∨ ⟨k, v⟩ ∈ t.todo

theorem positionOk_persists {h h' : Heap (Node V)} {t : Thread V} (hp : Persists h h')
    (live : ∀ a n, h.read a = some n → ∃ n', h'.read a = some n') (ht : PositionOk h t) :
    PositionOk h' t := by
  have hg := hp.grows
  unfold PositionOk at ht ⊢
  split at ht
  · trivial
  · obtain ⟨c, rest, hc, ⟨n, hn⟩, hl⟩ := ht
    exact ⟨c, rest, hc, live _ n hn, hg.leads hl⟩
  · obtain ⟨c, rest, hc, hl, x, b, hx, hs, hb⟩ := ht
    exact ⟨c, rest, hc, hg.leads hl, x, b, hg.key _ _ hx, hs, hg.child _ _ _ hb⟩

theorem threadStep_advance {h h' : Heap (Node V)} {t t' : Thread V}
    (hi : TreeInvariant h rootAddr) (hu : Unlocked h) (ht : PositionOk h t)
    (hs : threadStep h t = some (h', t')) : Advance h t h' t' := by
  have same : ∀ {t' : Thread V}, PositionOk h t' →
      t'.returned.map Prod.fst ++ t'.todo = t.returned.map Prod.fst ++ t.todo →
      (∀ c r, (c, r) ∈ t'.returned → (c, r) ∈ t.returned ∨ ∃ v, Holds h c.key v) →
      Advance h t h t' := fun hp hh hr =>
    ⟨hi, hu, .refl h, fun _ n hn => ⟨n, hn⟩, hp, hh, hr, fun _ _ hk => Or.inl hk⟩
  obtain ⟨todo, position, returned⟩ := t
  cases todo with
  | nil => simp [threadStep] at hs
  | cons c rest =>
    cases position with
    | idle =>
      cases hs
      exact same ⟨c, rest, rfl, hi.root_live, Relation.ReflTransGen.refl⟩ rfl
        (fun _ _ h => Or.inl h)
    | below a d =>
      obtain ⟨c', rest', hc, hl, x, b, hx, hside, hb⟩ := ht
      cases hc
      have hb' : ((h.read a).bind fun n => n.child d) = some b := hb
      simp only [threadStep, hb'] at hs
      cases hs
      exact same ⟨c, rest, rfl, hi.child_live a d b hb, hl.tail ⟨d, x, hx, hside, hb⟩⟩ rfl
        (fun _ _ h => Or.inl h)
    | enter a nested =>
      obtain ⟨c', rest', hc, ⟨n, hn⟩, hl⟩ := ht
      cases hc
      -- the four ways a critical section ends
      rcases addSection_cases hn (hu a n hn) c.key c.value with
        ⟨hk, he⟩ | ⟨hk, he⟩ | ⟨d, x, b, hk, hside, hb, he⟩ | ⟨d, x, hk, hside, hb, he⟩
      · simp only [threadStep, he] at hs
        cases hs
        have hv : Holds (fill h a n c.key c.value) c.key c.value :=
          (holds_fill hn hk c.key c.value _ _).mpr (Or.inr ⟨rfl, rfl⟩)
        refine ⟨hi.fill hn hk hl c.value, hu.fill hn c.value, persists_fill hn hk _ _,
          fun b m hm => Heap.live_write hn _ ⟨m, hm⟩, trivial, by simp, ?_, ?_⟩
        · intro c' r hr
          rcases List.mem_append.mp hr with hr | hr
          · exact Or.inl hr
          · obtain ⟨rfl, _⟩ := Prod.mk.inj (List.mem_singleton.mp hr)
            exact Or.inr ⟨_, hv⟩
        · intro k v hkv
          rcases (holds_fill hn hk c.key c.value k v).mp hkv with hkv | ⟨rfl, rfl⟩
          · exact Or.inl hkv
          · exact Or.inr List.mem_cons_self
      · simp only [threadStep, he] at hs
        cases hs
        refine same trivial (by simp) ?_
        intro c' r hr
        rcases List.mem_append.mp hr with hr | hr
        · exact Or.inl hr
        · obtain ⟨rfl, _⟩ := Prod.mk.inj (List.mem_singleton.mp hr)
          exact Or.inr ⟨n.value, a, n, hn, hk, rfl⟩
      · simp only [threadStep, he] at hs
        cases hs
        exact same ⟨c, rest, rfl, hl, x, b, (graph_key hn).trans hk, hside,
          (graph_child hn d).trans hb⟩ rfl (fun _ _ h => Or.inl h)
      · simp only [threadStep, he] at hs
        cases hs
        have hp := persists_sprout hn hb
        refine ⟨hi.sprout hn hk hb, hu.sprout hn, hp, fun b m hm => live_sprout hn ⟨m, hm⟩, ?_, rfl,
          fun _ _ h => Or.inl h, ?_⟩
        · refine ⟨c, rest, rfl, hp.grows.leads hl, x, h.fresh,
            hp.grows.key a x ((graph_key hn).trans hk), hside, ?_⟩
          rw [graph_sprout hn, LinkGraph.setChild_child, if_pos ⟨rfl, rfl⟩]
        · intro k v hkv
          exact Or.inl ((holds_sprout hn hb k v).mp hkv)

theorem initial_invariant (calls : ι → List (Call V)) : Invariant calls (initial calls) := by
  refine ⟨rooted_invariant, rooted_unlocked, fun _ => trivial, fun _ => rfl, ?_, ?_⟩
  · intro i c r hr
    simp [initial] at hr
  · rintro k v ⟨a, n, hn, hk, _⟩
    rw [(read_rooted hn).2] at hk
    cases hk

/-- The keys of the tree are those of the calls, one node each, and a node's value
belongs to one of the calls for its key. -/
def StoresExactly (h : Heap (Node V)) (root : Addr) (calls : ι → List (Call V)) : Prop :=
  (∀ k, (∃ i v, ⟨k, v⟩ ∈ calls i) ↔
    ∃ a, Reach (graph h) root a ∧ (graph h).key a = some k) ∧
  (∀ k a b, (graph h).key a = some k → (graph h).key b = some k → a = b) ∧
  (∀ a n k, Reach (graph h) root a → h.read a = some n → n.key = some k →
    ∃ i, ⟨k, n.value⟩ ∈ calls i)

theorem finished_stores {calls : ι → List (Call V)} {s : State ι V} (hs : Invariant calls s)
    (hf : ∀ i, Finished (s.threads i)) : StoresExactly s.heap rootAddr calls := by
  refine ⟨?_, fun k a b => hs.tree.shape.stored_once, ?_⟩
  · intro k
    constructor
    · rintro ⟨i, v, hm⟩
      have hi : (s.threads i).returned.map Prod.fst = calls i := by
        simpa [show (s.threads i).todo = [] from hf i] using hs.history i
      rw [← hi] at hm
      obtain ⟨⟨c, r⟩, hc, rfl⟩ := List.mem_map.mp hm
      obtain ⟨w, a, n, hn, hk, _⟩ := hs.returned_stored i _ r hc
      have hk' := (graph_key hn).trans hk
      exact ⟨a, hs.tree.shape.stored_reachable hk', hk'⟩
    · rintro ⟨a, _, hk⟩
      obtain ⟨n, hn, hk⟩ := live_of_key hk
      obtain ⟨i, hi⟩ := hs.origin k n.value ⟨a, n, hn, hk, rfl⟩
      exact ⟨i, n.value, hi⟩
  · intro a n k _ hn hk
    exact hs.origin k n.value ⟨a, n, hn, hk, rfl⟩

variable [DecidableEq ι]

theorem step_advance {calls : ι → List (Call V)} {s u : State ι V} {i : ι}
    (hs : Invariant calls s) (st : Step s i u) :
    Advance s.heap (s.threads i) u.heap (u.threads i) := by
  obtain ⟨h, t, ht, rfl⟩ := st
  simpa using threadStep_advance hs.tree hs.unlocked (hs.position i) ht

theorem step_preserves_invariant {calls : ι → List (Call V)} {s u : State ι V} {i : ι}
    (hs : Invariant calls s) (st : Step s i u) : Invariant calls u := by
  have adv := step_advance hs st
  have others : ∀ j, j ≠ i → u.threads j = s.threads j := by
    obtain ⟨h, t, _, rfl⟩ := st
    intro j hj
    exact Function.update_of_ne hj _ _
  have stays : ∀ k v, Holds s.heap k v → Holds u.heap k v := by
    rintro k v ⟨a, n, hn, hk, hv⟩
    obtain ⟨n', hn', hk', hv'⟩ := adv.persists.stored a n k hn hk
    exact ⟨a, n', hn', hk', hv'.trans hv⟩
  refine ⟨adv.tree, adv.unlocked, ?_, ?_, ?_, ?_⟩
  · intro j
    by_cases hj : j = i
    · subst j; exact adv.position
    · rw [others j hj]
      exact positionOk_persists adv.persists adv.live (hs.position j)
  · intro j
    by_cases hj : j = i
    · rw [hj]; exact adv.history.trans (hs.history i)
    · rw [others j hj]; exact hs.history j
  · intro j c r hr
    have old : (c, r) ∈ (s.threads j).returned → ∃ v, Holds u.heap c.key v := fun h =>
      (hs.returned_stored j c r h).imp fun v hv => stays c.key v hv
    by_cases hj : j = i
    · subst j
      exact (adv.returned c r hr).elim old id
    · rw [others j hj] at hr; exact old hr
  · intro k v hkv
    rcases adv.origin k v hkv with h | h
    · exact hs.origin k v h
    · refine ⟨i, ?_⟩
      rw [← hs.history i]
      exact List.mem_append_right _ h

theorem reachable_invariant {calls : ι → List (Call V)} {s : State ι V}
    (hr : Reachable Step (initial calls) s) : Invariant calls s := by
  obtain ⟨_, he⟩ := hr
  exact he.invariant (fun _ _ _ => step_preserves_invariant) (initial_invariant calls)

/-- No thread is ever stuck before its calls are done: no fault, no blocked lock. -/
theorem unfinished_step {calls : ι → List (Call V)} {s : State ι V}
    (hr : Reachable Step (initial calls) s) {i : ι} (hf : ¬ Finished (s.threads i)) :
    ∃ u, Step s i u := by
  have hs := reachable_invariant hr
  have hp := hs.position i
  suffices h : ∃ r, threadStep s.heap (s.threads i) = some r by
    obtain ⟨⟨h, t⟩, ht⟩ := h
    exact ⟨_, h, t, ht, rfl⟩
  generalize s.threads i = t at hp hf
  obtain ⟨todo, position, returned⟩ := t
  cases todo with
  | nil => exact absurd rfl hf
  | cons c rest =>
    cases position with
    | idle => exact ⟨_, rfl⟩
    | below a d =>
      obtain ⟨_, _, _, _, x, b, _, _, hb⟩ := hp
      have hb' : ((s.heap.read a).bind fun n => n.child d) = some b := hb
      simp [threadStep, hb']
    | enter a nested =>
      obtain ⟨_, _, _, ⟨n, hn⟩, _⟩ := hp
      rcases addSection_cases hn (hs.unlocked a n hn) c.key c.value with
        ⟨_, he⟩ | ⟨_, he⟩ | ⟨_, _, _, _, _, _, he⟩ | ⟨_, _, _, _, _, he⟩ <;>
        simp [threadStep, he]

/-- Every interleaving keeps the tree ordered, keeps what is stored, and ends with
exactly the added keys. -/
theorem concurrent_adds_correct (calls : ι → List (Call V)) {s : State ι V}
    (hr : Reachable Step (initial calls) s) :
    StrcmpOrdered s.heap rootAddr ∧
    (∀ u, Reachable Step s u → Persists s.heap u.heap) ∧
    ((∀ i, Finished (s.threads i)) → StoresExactly s.heap rootAddr calls) := by
  have hs := reachable_invariant hr
  refine ⟨strcmpOrdered_iff.mpr hs.tree.shape.ordered, ?_, finished_stores hs⟩
  rintro u ⟨_, hu⟩
  exact hu.related (P := Invariant calls) (R := fun s u => Persists s.heap u.heap)
    (fun _ _ _ => step_preserves_invariant) (fun s => .refl s.heap)
    (fun _ _ _ => Persists.trans) (fun _ _ _ hs st => (step_advance hs st).persists) hs

def next (s : State ι V) (i : ι) : Option (State ι V) :=
  (threadStep s.heap (s.threads i)).map fun r => ⟨r.1, Function.update s.threads i r.2⟩

theorem step_of_next {s u : State ι V} {i : ι} (h : next s i = some u) : Step s i u := by
  obtain ⟨⟨heap, t⟩, ht, rfl⟩ := Option.map_eq_some_iff.mp h
  exact ⟨heap, t, ht, rfl⟩

def twoCallers : Fin 2 → List (Call ℕ)
  | 0 => [⟨⟨[98], by decide⟩, some 1⟩, ⟨⟨[97], by decide⟩, some 2⟩]
  | 1 => [⟨⟨[98], by decide⟩, some 3⟩, ⟨⟨[97], by decide⟩, some 4⟩]

/-- Thread 0 makes the left child, thread 1 overtakes it and fills the child first. -/
def overtaken : Option (State (Fin 2) ℕ) :=
  follow next (initial twoCallers) [0, 0, 1, 1, 0, 0, 1, 1, 1, 1, 0, 0]

theorem overtaken_correct : ∃ s : State (Fin 2) ℕ,
    Reachable Step (initial twoCallers) s ∧ (∀ i, Finished (s.threads i)) ∧
    (StrcmpOrdered s.heap rootAddr ∧
      (∀ u, Reachable Step s u → Persists s.heap u.heap) ∧
      ((∀ i, Finished (s.threads i)) → StoresExactly s.heap rootAddr twoCallers)) := by
  have hrun : overtaken.any (fun s => decide (∀ i, (s.threads i).todo = [])) = true := by decide
  obtain ⟨s, hs, hf⟩ := (Option.any_eq_true _ _).mp hrun
  have hr : Reachable Step (initial twoCallers) s :=
    ⟨_, (follow_execution hs).mono fun _ _ _ => step_of_next⟩
  exact ⟨s, hr, by simpa [Finished] using hf, concurrent_adds_correct twoCallers hr⟩

end ThreadSafeTreeConcurrentAdd
