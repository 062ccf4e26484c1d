import LinuxProgramming.TransitionSystems
import Mathlib.Algebra.Order.Ring.Int
import Mathlib.Tactic.Linarith

/-! The accept loop of `limited_children/is_echo_sv.c` and its `SIGCHLD` handler. The parent
counts its children in `CHILD_COUNT`; the handler takes one off for each child that it reaps.
`CHILD_COUNT++` is a load and a store, and the handler may run between any two steps, so a
decrement between the two is lost. -/
namespace LimitedChildren

open TransitionSystems

def maxChild : ℤ := 10

inductive Pc where
  | test
  | accept
  | fork
  | load
  | store (register : ℤ)
  | left
  | failed
  deriving DecidableEq

/-- `running` and `zombies` are the children that have not terminated, and those that have
but are not reaped. -/
structure Server where
  pc : Pc
  childCount : ℤ
  running : ℕ
  zombies : ℕ
  deriving DecidableEq

def Server.unreaped (s : Server) : ℤ := s.running + s.zombies

def initial : Server := ⟨.test, 0, 0, 0⟩

/-- A step of the parent; `ok` is whether its call succeeds. -/
def parentStep (s : Server) (ok : Bool) : Option Server :=
  match s.pc with
  | .test => some { s with pc := if s.childCount ≠ maxChild then .accept else .left }
  | .accept => some { s with pc := if ok then .fork else .failed }
  | .fork =>
    if ok then some { s with pc := .load, running := s.running + 1 }
    else some { s with pc := .test }
  | .load => some { s with pc := .store s.childCount }
  | .store register => some { s with pc := .test, childCount := register + 1 }
  | .left => none
  | .failed => none

/-- The loop of the handler, around `waitpid` that many times. -/
def grimReaper : ℕ → Server → Option Server
  | 0, s => some s
  | k + 1, s =>
    if 0 < s.zombies then
      grimReaper k { s with zombies := s.zombies - 1, childCount := s.childCount - 1 }
    else none

inductive Event where
  | parent (ok : Bool)
  | terminate
  | grimReaper (reaped : ℕ)
  deriving DecidableEq

def step (s : Server) : Event → Option Server
  | .parent ok => parentStep s ok
  | .terminate =>
    if 0 < s.running then some { s with running := s.running - 1, zombies := s.zombies + 1 }
    else none
  | .grimReaper k => grimReaper k s

def Step (s : Server) (e : Event) (t : Server) : Prop := step s e = some t

section Steps

variable {s t : Server} {e : Event}

theorem grimReaper_some {k : ℕ} (h : grimReaper k s = some t) : k ≤ s.zombies ∧
    t = { s with zombies := s.zombies - k, childCount := s.childCount - k } := by
  induction k generalizing s with
  | zero =>
    cases h
    exact ⟨Nat.zero_le _, by simp⟩
  | succ k ih =>
    rw [grimReaper] at h
    split at h
    · next hpos =>
      obtain ⟨hle, rfl⟩ := ih h
      refine ⟨by simp only at hle; omega, ?_⟩
      simp only [Server.mk.injEq, true_and, Nat.cast_add, Nat.cast_one]
      omega
    · cases h

theorem unreaped_terminate (hrun : 0 < s.running) :
    Server.unreaped { s with running := s.running - 1, zombies := s.zombies + 1 } =
      s.unreaped := by
  simp only [Server.unreaped]
  omega

theorem unreaped_reap {k : ℕ} (hk : k ≤ s.zombies) : Server.unreaped { s with
    zombies := s.zombies - k, childCount := s.childCount - k } = s.unreaped - k := by
  simp only [Server.unreaped]
  omega

inductive Moves (s : Server) : Event → Server → Prop where
  | enter {ok} : s.pc = .test → s.childCount ≠ maxChild →
      Moves s (.parent ok) { s with pc := .accept }
  | leave {ok} : s.pc = .test → s.childCount = maxChild →
      Moves s (.parent ok) { s with pc := .left }
  | accept : s.pc = .accept → Moves s (.parent true) { s with pc := .fork }
  | acceptFails : s.pc = .accept → Moves s (.parent false) { s with pc := .failed }
  | fork : s.pc = .fork →
      Moves s (.parent true) { s with pc := .load, running := s.running + 1 }
  | forkFails : s.pc = .fork → Moves s (.parent false) { s with pc := .test }
  | load {ok} : s.pc = .load → Moves s (.parent ok) { s with pc := .store s.childCount }
  | store {ok r} : s.pc = .store r →
      Moves s (.parent ok) { s with pc := .test, childCount := r + 1 }
  | terminate : 0 < s.running →
      Moves s .terminate { s with running := s.running - 1, zombies := s.zombies + 1 }
  | reap {k} : k ≤ s.zombies → Moves s (.grimReaper k)
      { s with zombies := s.zombies - k, childCount := s.childCount - k }

theorem moves_of_step (h : Step s e t) : Moves s e t := by
  cases e with
  | parent ok =>
    simp only [Step, step, parentStep] at h
    split at h
    · next hpc =>
      cases h
      split
      · next hcount => exact .enter hpc hcount
      · next hcount => exact .leave hpc (not_not.mp hcount)
    · next hpc =>
      cases h
      cases ok with
      | true => exact .accept hpc
      | false => exact .acceptFails hpc
    · next hpc =>
      cases ok with
      | true => cases h; exact .fork hpc
      | false => cases h; exact .forkFails hpc
    · next hpc => cases h; exact .load hpc
    · next r hpc => cases h; exact .store hpc
    · cases h
    · cases h
  | terminate =>
    simp only [Step, step] at h
    split at h
    · next hpos => cases h; exact .terminate hpos
    · cases h
  | grimReaper k =>
    obtain ⟨hle, rfl⟩ := grimReaper_some h
    exact .reap hle

end Steps

section Limit

variable {s t : Server} {e : Event}

/-- The count, or the register once it is loaded, is at least the number of children that are
not reaped, and below the limit once the test has passed. -/
def Limited (s : Server) : Prop :=
  match s.pc with
  | .test | .left => s.unreaped ≤ s.childCount ∧ s.childCount ≤ maxChild
  | .accept | .fork | .failed => s.unreaped ≤ s.childCount ∧ s.childCount < maxChild
  | .load => s.unreaped ≤ s.childCount + 1 ∧ s.childCount < maxChild
  | .store r => s.unreaped ≤ r + 1 ∧ r < maxChild

theorem initial_limited : Limited initial := by
  simp [Limited, initial, Server.unreaped, maxChild]

theorem Limited.terminate (h : Limited s) (hrun : 0 < s.running) :
    Limited { s with running := s.running - 1, zombies := s.zombies + 1 } := by
  simpa only [Limited, unreaped_terminate hrun] using h

/-- The handler takes as much off the count as off the children; a register stays, and the
children become fewer. -/
theorem Limited.reap (h : Limited s) {k : ℕ} (hk : k ≤ s.zombies) :
    Limited { s with zombies := s.zombies - k, childCount := s.childCount - k } := by
  simp only [Limited, unreaped_reap hk] at h ⊢
  split at h <;> exact ⟨by linarith [h.1], by linarith [h.2]⟩

theorem limited_step (h : Limited s) (hm : Moves s e t) : Limited t := by
  cases hm with
  | enter hpc hne =>
    simp only [Limited, hpc] at h
    exact ⟨h.1, lt_of_le_of_ne h.2 hne⟩
  | leave hpc _ =>
    simp only [Limited, hpc] at h
    exact h
  | accept hpc =>
    simp only [Limited, hpc] at h
    exact h
  | acceptFails hpc =>
    simp only [Limited, hpc] at h
    exact h
  | fork hpc =>
    simp only [Limited, hpc, Server.unreaped] at h
    simp only [Limited, Server.unreaped, Nat.cast_add, Nat.cast_one]
    exact ⟨by linarith [h.1], h.2⟩
  | forkFails hpc =>
    simp only [Limited, hpc] at h
    exact ⟨h.1, h.2.le⟩
  | load hpc =>
    simp only [Limited, hpc] at h
    exact h
  | store hpc =>
    simp only [Limited, hpc] at h
    exact ⟨h.1, h.2⟩
  | terminate hrun => exact h.terminate hrun
  | reap hk => exact h.reap hk

theorem reachable_limited (h : Reachable Step initial s) : Limited s := by
  obtain ⟨es, hrun⟩ := h
  apply hrun.invariant _ initial_limited
  intro s e t hs hstep
  exact limited_step hs (moves_of_step hstep)

theorem Limited.unreaped_le (h : Limited s) : s.unreaped ≤ maxChild := by
  unfold Limited at h
  split at h
  all_goals
    obtain ⟨hlow, hhigh⟩ := h
    omega

/-- There are never more children than the limit, and at the test the count is between the
number of children and the limit. -/
theorem children_limited (s : Server) (h : Reachable Step initial s) :
    s.unreaped ≤ maxChild ∧
      (s.pc = .test → s.unreaped ≤ s.childCount ∧ s.childCount ≤ maxChild) := by
  have hlimited := reachable_limited h
  refine ⟨hlimited.unreaped_le, ?_⟩
  intro hpc
  simpa only [Limited, hpc] using hlimited

theorem early_death_limited : ∃ s, Reachable Step initial s ∧ s.childCount = -1 ∧
    s.unreaped ≤ maxChild := by
  have hrun : follow step initial [.parent true, .parent true, .parent true, .terminate,
      .grimReaper 1] = some ⟨.load, -1, 0, 0⟩ := by decide
  have hreach : Reachable Step initial ⟨.load, -1, 0, 0⟩ := ⟨_, follow_execution hrun⟩
  exact ⟨_, hreach, rfl, (children_limited _ hreach).1⟩

end Limit

section Stop

variable {s t : Server} {e : Event}

def Accepting (s : Server) (e : Event) : Prop := s.pc = .accept → e ≠ .parent false

def AcceptingStep (s : Server) (e : Event) (t : Server) : Prop := Step s e t ∧ Accepting s e

/-- No child is reaped between the load and the store, nor after the loop. -/
def Careful (s : Server) (e : Event) : Prop :=
  (s.pc = .left ∨ ∃ r, s.pc = .store r) → ∀ k, e ≠ .grimReaper (k + 1)

def CarefulStep (s : Server) (e : Event) (t : Server) : Prop :=
  Step s e t ∧ Accepting s e ∧ Careful s e

def Premature (s : Server) : Prop := s.unreaped < maxChild ∧ s.pc = .left

def Exact (s : Server) : Prop :=
  match s.pc with
  | .test | .accept | .fork => s.unreaped = s.childCount
  | .load => s.unreaped = s.childCount + 1
  | .store r => s.unreaped = r + 1
  | .left => s.unreaped = maxChild
  | .failed => False

theorem Exact.terminate (h : Exact s) (hrun : 0 < s.running) :
    Exact { s with running := s.running - 1, zombies := s.zombies + 1 } := by
  simpa only [Exact, unreaped_terminate hrun] using h

theorem Exact.reap (h : Exact s) {k : ℕ} (hk : k ≤ s.zombies)
    (hcareful : Careful s (.grimReaper k)) :
    Exact { s with zombies := s.zombies - k, childCount := s.childCount - k } := by
  have hnone : (s.pc = .left ∨ ∃ r, s.pc = .store r) → k = 0 := by
    intro hpc
    cases k with
    | zero => rfl
    | succ k => exact absurd rfl (hcareful hpc k)
  simp only [Exact, unreaped_reap hk] at h ⊢
  split at h
  · linarith
  · linarith
  · linarith
  · linarith
  · next r hpc =>
    cases hnone (Or.inr ⟨r, hpc⟩)
    simpa using h
  · next hpc =>
    cases hnone (Or.inl hpc)
    simpa using h
  · exact h

theorem exact_step (h : Exact s) (hm : Moves s e t) (haccept : Accepting s e)
    (hcareful : Careful s e) : Exact t := by
  cases hm with
  | enter hpc _ =>
    simp only [Exact, hpc] at h
    exact h
  | leave hpc hmax =>
    simp only [Exact, hpc] at h
    exact h.trans hmax
  | accept hpc =>
    simp only [Exact, hpc] at h
    exact h
  | acceptFails hpc => exact absurd rfl (haccept hpc)
  | fork hpc =>
    simp only [Exact, hpc, Server.unreaped] at h
    simp only [Exact, Server.unreaped, Nat.cast_add, Nat.cast_one]
    linarith
  | forkFails hpc =>
    simp only [Exact, hpc] at h
    exact h
  | load hpc =>
    simp only [Exact, hpc] at h
    exact h
  | store hpc =>
    simp only [Exact, hpc] at h
    exact h
  | terminate hrun => exact h.terminate hrun
  | reap hk => exact h.reap hk hcareful

theorem initial_exact : Exact initial := by
  simp [Exact, initial, Server.unreaped]

theorem careful_exact {es : List Event} (h : Exact s) (hrun : Execution CarefulStep s es t) :
    Exact t := by
  apply hrun.invariant _ h
  rintro s e t hs ⟨hstep, haccept, hcareful⟩
  exact exact_step hs (moves_of_step hstep) haccept hcareful

theorem Exact.not_premature (h : Exact s) : ¬ Premature s := by
  rintro ⟨hroom, hpc⟩
  simp only [Exact, hpc] at h
  exact absurd h hroom.ne

theorem parent_succeeds (h : parentStep s true = some t) : CarefulStep s (.parent true) t := by
  refine ⟨h, ?_, ?_⟩
  · intro _ he
    cases he
  · intro _ k he
    cases he

theorem round (hpc : s.pc = .test) (hcount : s.childCount ≠ maxChild) : Reachable CarefulStep s
    ⟨.test, s.childCount + 1, s.running + 1, s.zombies⟩ := by
  have htest : parentStep s true = some { s with pc := .accept } := by
    simp [parentStep, hpc, hcount]
  have hfork : Execution CarefulStep { s with pc := .accept } [.parent true, .parent true]
      { s with pc := .load, running := s.running + 1 } :=
    .head (parent_succeeds rfl) (.single (parent_succeeds rfl))
  have hincrement : Execution CarefulStep { s with pc := .load, running := s.running + 1 }
      [.parent true, .parent true] ⟨.test, s.childCount + 1, s.running + 1, s.zombies⟩ :=
    .head (parent_succeeds rfl) (.single (parent_succeeds rfl))
  exact ⟨_, .head (parent_succeeds htest) (hfork.trans hincrement)⟩

/-- A count that is too large stays so, and goes up to the limit. -/
theorem premature_of_excess (hpc : s.pc = .test) (hexcess : s.unreaped < s.childCount)
    (hle : s.childCount ≤ maxChild) : ∃ t, Reachable CarefulStep s t ∧ Premature t := by
  obtain ⟨n, hn⟩ : ∃ n : ℕ, maxChild - s.childCount = n :=
    ⟨_, (Int.toNat_of_nonneg (sub_nonneg.mpr hle)).symm⟩
  induction n generalizing s with
  | zero =>
    have hmax : s.childCount = maxChild := by omega
    have hleave : parentStep s true = some { s with pc := .left } := by
      simp [parentStep, hpc, hmax]
    exact ⟨_, ⟨_, .single (parent_succeeds hleave)⟩, hmax ▸ hexcess, rfl⟩
  | succ n ih =>
    have hne : s.childCount ≠ maxChild := by omega
    have hnext : Server.unreaped ⟨.test, s.childCount + 1, s.running + 1, s.zombies⟩ <
        s.childCount + 1 := by
      simp only [Server.unreaped] at hexcess ⊢
      omega
    obtain ⟨t, hreach, ht⟩ := ih rfl hnext (by simp only; omega) (by simp only; omega)
    exact ⟨t, (round hpc hne).trans hreach, ht⟩

/-- A child that is reaped between the load and the store, or after the loop, makes the loop
end too early. -/
theorem careless_premature (hs : Reachable Step initial s) (hstep : Step s e t)
    (hcareless : ¬ Careful s e) : ∃ u, Reachable CarefulStep t u ∧ Premature u := by
  simp only [Careful, not_forall, not_not] at hcareless
  obtain ⟨hpc, k, rfl⟩ := hcareless
  have hlimited := reachable_limited hs
  obtain ⟨hk, rfl⟩ := grimReaper_some hstep
  rcases hpc with hpc | ⟨r, hpc⟩
  · refine ⟨_, ⟨[], .refl _⟩, ?_, hpc⟩
    have hle := hlimited.unreaped_le
    simp only [Server.unreaped] at hle ⊢
    omega
  · -- the register keeps the old count, so the store puts the count above the children
    simp only [Limited, hpc] at hlimited
    obtain ⟨hle, hr⟩ := hlimited
    have hstore : parentStep { s with
        zombies := s.zombies - (k + 1), childCount := s.childCount - ((k + 1 : ℕ) : ℤ) } true =
        some ⟨.test, r + 1, s.running, s.zombies - (k + 1)⟩ := by
      simp [parentStep, hpc]
    have hexcess : Server.unreaped ⟨.test, r + 1, s.running, s.zombies - (k + 1)⟩ < r + 1 := by
      simp only [Server.unreaped] at hle ⊢
      omega
    obtain ⟨u, hreach, hu⟩ := premature_of_excess rfl hexcess (by simp only; omega)
    exact ⟨u, Reachable.trans ⟨_, .single (parent_succeeds hstore)⟩ hreach, hu⟩

theorem follow_accepting {es : List Event} (h : follow step s es = some t)
    (hes : .parent false ∉ es) : Execution AcceptingStep s es t := by
  apply follow_guarded h
  rintro e he s _ rfl
  exact hes he

/-- As long as no child is reaped between the load and the store, nor after the loop, the parent
leaves its loop only with all its children there. A step keeps it so for what follows exactly if
it is such a step. -/
theorem careful_iff_no_premature_stop (es : List Event) (s : Server)
    (hrun : Execution CarefulStep initial es s) :
    (s.unreaped < maxChild → s.pc ≠ .left) ∧
    ∀ e t, AcceptingStep s e t →
      (Careful s e ↔
        ∀ u, Reachable CarefulStep t u → u.unreaped < maxChild → u.pc ≠ .left) := by
  have hexact := careful_exact initial_exact hrun
  refine ⟨fun hroom hpc => hexact.not_premature ⟨hroom, hpc⟩, ?_⟩
  rintro e t ⟨hstep, haccept⟩
  constructor
  · rintro hcareful u ⟨fs, hrest⟩ hroom hpc
    have hnext := exact_step hexact (moves_of_step hstep) haccept hcareful
    exact (careful_exact hnext hrest).not_premature ⟨hroom, hpc⟩
  · intro hnever
    by_contra hcareless
    have hreach : Reachable Step initial s := ⟨es, hrun.mono fun _ _ _ h => h.1⟩
    obtain ⟨u, hrest, hroom, hpc⟩ := careless_premature hreach hstep hcareless
    exact hnever u hrest hroom hpc

theorem reaping_before_store_careless : ¬ Careful ⟨.store 0, 0, 0, 1⟩ (.grimReaper 1) ∧
    ∃ u, Reachable CarefulStep ⟨.store 0, -1, 0, 0⟩ u ∧ u.unreaped < maxChild ∧
      u.pc = .left := by
  have hstore : follow step initial [.parent true, .parent true, .parent true, .parent true,
      .terminate] = some ⟨.store 0, 0, 0, 1⟩ := by decide
  have hrun : Execution CarefulStep initial _ ⟨.store 0, 0, 0, 1⟩ :=
    follow_guarded hstore (by simp [Accepting, Careful])
  have hreap : AcceptingStep ⟨.store 0, 0, 0, 1⟩ (.grimReaper 1) ⟨.store 0, -1, 0, 0⟩ :=
    ⟨rfl, fun h => by cases h⟩
  have hcareless : ¬ Careful ⟨.store 0, 0, 0, 1⟩ (.grimReaper 1) :=
    fun h => h (Or.inr ⟨0, rfl⟩) 0 rfl
  have hiff := (careful_iff_no_premature_stop _ _ hrun).2 _ _ hreap
  refine ⟨hcareless, ?_⟩
  by_contra hnone
  exact hcareless (hiff.mpr fun u hu hroom hpc => hnone ⟨u, hu, hroom, hpc⟩)

/-- The first child dies and is reaped while the count is in the register; nine more follow. The
count is then 10 with nine children, and the loop is left. -/
theorem ninth_child_stops : ∃ es, Execution AcceptingStep initial es ⟨.left, 10, 9, 0⟩ ∧
    Server.unreaped ⟨.left, 10, 9, 0⟩ < maxChild := by
  have hrun : follow step initial ([.parent true, .parent true, .parent true, .parent true,
      .terminate, .grimReaper 1, .parent true] ++ List.replicate 46 (.parent true)) =
      some ⟨.left, 10, 9, 0⟩ := by decide +kernel
  exact ⟨_, follow_accepting hrun (by decide +kernel), by decide⟩

end Stop

end LimitedChildren
