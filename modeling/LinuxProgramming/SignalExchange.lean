import LinuxProgramming.Signals
import LinuxProgramming.TransitionSystems

/-! A parent and a child that send each other a signal in turn: `sig_speed_sigsuspend.c` waits
with `sigsuspend`, `sig_speed_sigwaitinfo.c` is the same program with `sigwaitinfo` in its place.
The first one exchanges all signals in every run. The second one waits for the empty set of
signals, so that neither process ever gets beyond its first wait. -/
namespace SignalExchange

open Signals TransitionSystems

def testsig : ℕ := 10

inductive Phase where
  | sending
  | waiting
  | exited (success : Bool)
  deriving DecidableEq

structure Process where
  phase : Phase
  scnt : ℕ
  signals : SignalState ℕ
  deriving DecidableEq

structure State where
  child : Process
  parent : Process
  deriving DecidableEq

def Process.receive (p : Process) : Process := { p with signals := p.signals.send testsig }

def Process.HasExited (p : Process) : Prop := p.phase = .exited true ∨ p.phase = .exited false

instance (p : Process) : Decidable p.HasExited :=
  inferInstanceAs (Decidable (p.phase = .exited true ∨ p.phase = .exited false))

/-- The mask is set before `fork`, and the child starts with nothing pending. -/
def quiet : SignalState ℕ := ⟨∅, {testsig}⟩

def start : State := ⟨⟨.sending, 0, quiet⟩, ⟨.waiting, 0, quiet⟩⟩

section Program

variable (numSigs : ℕ) (wait : SignalState ℕ → Option (SignalState ℕ))

/-- Once the parent is gone, `getppid` is that of `init`, which cannot be sent a signal. -/
def childNext (s : State) : Option State :=
  match s.child.phase with
  | .sending =>
    if s.child.scnt < numSigs then
      if s.parent.HasExited then some { s with child := { s.child with phase := .exited false } }
      else some ⟨{ s.child with phase := .waiting }, s.parent.receive⟩
    else some { s with child := { s.child with phase := .exited true } }
  | .waiting =>
    (wait s.child.signals).map fun p => { s with child := ⟨.sending, s.child.scnt + 1, p⟩ }
  | .exited _ => none

/-- The child is not waited for, so its process id stays valid. -/
def parentNext (s : State) : Option State :=
  match s.parent.phase with
  | .waiting =>
    if s.parent.scnt < numSigs then
      (wait s.parent.signals).map fun p =>
        { s with parent := { s.parent with phase := .sending, signals := p } }
    else some { s with parent := { s.parent with phase := .exited true } }
  | .sending =>
    some ⟨s.child.receive, { s.parent with phase := .waiting, scnt := s.parent.scnt + 1 }⟩
  | .exited _ => none

/-- A handler may also run between any two steps, if the mask allows it. -/
inductive Event where
  | child
  | parent
  | childHandler
  | parentHandler
  deriving DecidableEq

def next (s : State) : Event → Option State
  | .child => childNext numSigs wait s
  | .parent => parentNext numSigs wait s
  | .childHandler => s.child.signals.deliver.map fun p => { s with child.signals := p }
  | .parentHandler => s.parent.signals.deliver.map fun p => { s with parent.signals := p }

abbrev Step (s : State) (e : Event) (t : State) : Prop := next numSigs wait s e = some t

end Program

def suspend (p : SignalState ℕ) : Option (SignalState ℕ) := p.sigsuspend ∅

section Suspend

variable {numSigs : ℕ} {s t : State} {e : Event}

def posted : SignalState ℕ := ⟨{testsig}, {testsig}⟩

theorem suspend_quiet : suspend quiet = none := rfl

theorem suspend_posted : suspend posted = some quiet := by decide

/-- The situations that occur, each with the number of steps that are left. -/
inductive Turn (numSigs : ℕ) : ℕ → State → Prop where
  | call {k r} (h : k + r = numSigs) :
    Turn numSigs (4 * r + 2) ⟨⟨.sending, k, quiet⟩, ⟨.waiting, k, quiet⟩⟩
  | called {k r} (h : k + r + 1 = numSigs) :
    Turn numSigs (4 * r + 5) ⟨⟨.waiting, k, quiet⟩, ⟨.waiting, k, posted⟩⟩
  | answer {k r} (h : k + r + 1 = numSigs) :
    Turn numSigs (4 * r + 4) ⟨⟨.waiting, k, quiet⟩, ⟨.sending, k, quiet⟩⟩
  | answered {k r} (h : k + r + 1 = numSigs) :
    Turn numSigs (4 * r + 3) ⟨⟨.waiting, k, posted⟩, ⟨.waiting, k + 1, quiet⟩⟩
  | answeredLast {k} (h : k + 1 = numSigs) :
    Turn numSigs 2 ⟨⟨.waiting, k, posted⟩, ⟨.exited true, numSigs, quiet⟩⟩
  | parentGone :
    Turn numSigs 1 ⟨⟨.sending, numSigs, quiet⟩, ⟨.exited true, numSigs, quiet⟩⟩
  | childGone :
    Turn numSigs 1 ⟨⟨.exited true, numSigs, quiet⟩, ⟨.waiting, numSigs, quiet⟩⟩
  | done :
    Turn numSigs 0 ⟨⟨.exited true, numSigs, quiet⟩, ⟨.exited true, numSigs, quiet⟩⟩

theorem deliver_quiet : quiet.deliver = none := by decide

theorem deliver_posted : posted.deliver = none := by decide

theorem send_quiet : quiet.send testsig = posted := by decide

theorem step_cases (hc : s.child.signals.deliver = none) (hp : s.parent.signals.deliver = none)
    (hstep : Step numSigs suspend s e t) :
    childNext numSigs suspend s = some t ∨ parentNext numSigs suspend s = some t := by
  cases e with
  | child => exact .inl hstep
  | parent => exact .inr hstep
  | childHandler => simp [Step, next, hc] at hstep
  | parentHandler => simp [Step, next, hp] at hstep

theorem turn_step {n : ℕ} (ht : Turn numSigs n s) (hstep : Step numSigs suspend s e t) :
    ∃ m, n = m + 1 ∧ Turn numSigs m t := by
  cases ht with
  | @call k r h =>
    rcases step_cases deliver_quiet deliver_quiet hstep with hstep | hstep
    · cases r with
      | zero =>
        obtain rfl : k = numSigs := h
        simp [childNext] at hstep
        subst hstep
        exact ⟨1, rfl, .childGone⟩
      | succ r =>
        have hk : k < numSigs := by omega
        simp [childNext, hk, Process.HasExited, Process.receive, send_quiet] at hstep
        subst hstep
        exact ⟨_, rfl, .called (by omega)⟩
    · cases r with
      | zero =>
        obtain rfl : k = numSigs := h
        simp [parentNext] at hstep
        subst hstep
        exact ⟨1, rfl, .parentGone⟩
      | succ r =>
        have hk : k < numSigs := by omega
        simp [parentNext, hk, suspend_quiet] at hstep
  | @called k r h =>
    have hk : k < numSigs := by omega
    rcases step_cases deliver_quiet deliver_posted hstep with hstep | hstep
    · simp [childNext, suspend_quiet] at hstep
    · simp [parentNext, hk, suspend_posted] at hstep
      subst hstep
      exact ⟨_, rfl, .answer h⟩
  | @answer k r h =>
    rcases step_cases deliver_quiet deliver_quiet hstep with hstep | hstep
    · simp [childNext, suspend_quiet] at hstep
    · simp [parentNext, Process.receive, send_quiet] at hstep
      subst hstep
      exact ⟨_, rfl, .answered h⟩
  | @answered k r h =>
    rcases step_cases deliver_posted deliver_quiet hstep with hstep | hstep
    · simp [childNext, suspend_posted] at hstep
      subst hstep
      exact ⟨_, rfl, .call (by omega)⟩
    · cases r with
      | zero =>
        obtain rfl : k + 1 = numSigs := h
        simp [parentNext] at hstep
        subst hstep
        exact ⟨2, rfl, .answeredLast rfl⟩
      | succ r =>
        have hk : k + 1 < numSigs := by omega
        simp [parentNext, hk, suspend_quiet] at hstep
  | answeredLast h =>
    rcases step_cases deliver_posted deliver_quiet hstep with hstep | hstep
    · simp [childNext, suspend_posted, h] at hstep
      subst hstep
      exact ⟨1, rfl, .parentGone⟩
    · simp [parentNext] at hstep
  | parentGone =>
    rcases step_cases deliver_quiet deliver_quiet hstep with hstep | hstep
    · simp [childNext] at hstep
      subst hstep
      exact ⟨0, rfl, .done⟩
    · simp [parentNext] at hstep
  | childGone =>
    rcases step_cases deliver_quiet deliver_quiet hstep with hstep | hstep
    · simp [childNext] at hstep
    · simp [parentNext] at hstep
      subst hstep
      exact ⟨0, rfl, .done⟩
  | done =>
    rcases step_cases deliver_quiet deliver_quiet hstep with hstep | hstep
    · simp [childNext] at hstep
    · simp [parentNext] at hstep

theorem turn_progress {n : ℕ} (ht : Turn numSigs (n + 1) s) :
    ∃ e t, Step numSigs suspend s e t := by
  have hchild : (childNext numSigs suspend s).isSome → ∃ e t, Step numSigs suspend s e t :=
    fun h => ⟨.child, Option.isSome_iff_exists.mp h⟩
  have hparent : (parentNext numSigs suspend s).isSome → ∃ e t, Step numSigs suspend s e t :=
    fun h => ⟨.parent, Option.isSome_iff_exists.mp h⟩
  cases ht with
  | call h =>
    apply hchild
    simp only [childNext]
    split <;> [split; skip] <;> rfl
  | called h =>
    apply hparent
    simp only [parentNext, suspend_posted]
    split <;> rfl
  | answer h => exact hparent rfl
  | answered h => exact hchild (by simp [childNext, suspend_posted])
  | answeredLast h => exact hchild (by simp [childNext, suspend_posted])
  | parentGone => exact hchild (by simp [childNext])
  | childGone => exact hparent (by simp [parentNext])

theorem turn_run {es : List Event} (hrun : Execution (Step numSigs suspend) start es s) :
    ∃ n, es.length + n = 4 * numSigs + 2 ∧ Turn numSigs n s := by
  induction hrun with
  | refl => exact ⟨4 * numSigs + 2, Nat.zero_add _, .call (Nat.zero_add _)⟩
  | tail _ hstep ih =>
    obtain ⟨n, hn, ht⟩ := ih
    obtain ⟨m, rfl, ht'⟩ := turn_step ht hstep
    exact ⟨m, by simp; omega, ht'⟩

/-- In every run the processes take turns: at most one signal is on its way, and the parent has
made as many rounds as the child, or one more. No run has more than four steps a round and two
for the ends, and one that cannot go on has exchanged all signals. -/
theorem all_signals_exchanged {es : List Event}
    (hrun : Execution (Step numSigs suspend) start es s) :
    (s.child.signals.pending.card + s.parent.signals.pending.card ≤ 1 ∧
      s.child.scnt ≤ s.parent.scnt ∧ s.parent.scnt ≤ s.child.scnt + 1) ∧
    es.length ≤ 4 * numSigs + 2 ∧
    ((∀ e t, ¬ Step numSigs suspend s e t) →
      s.child.phase = .exited true ∧ s.parent.phase = .exited true ∧
      s.child.scnt = numSigs ∧ s.parent.scnt = numSigs) := by
  obtain ⟨n, hn, ht⟩ := turn_run hrun
  refine ⟨?_, by omega, fun hstuck => ?_⟩
  · have hquiet : quiet.pending.card = 0 := rfl
    have hposted : posted.pending.card = 1 := rfl
    cases ht <;> refine ⟨?_, ?_, ?_⟩ <;> simp only [hquiet, hposted] <;> omega
  · cases n with
    | zero =>
      generalize hz : 0 = z at ht
      cases ht <;> first | omega | exact ⟨rfl, rfl, rfl, rfl⟩
    | succ n =>
      obtain ⟨e, t, hstep⟩ := turn_progress ht
      exact absurd hstep (hstuck e t)

theorem one_round_exchanged : ∃ s, Execution (Step 1 suspend) start
    [.child, .parent, .parent, .child, .parent, .child] s ∧
    s.child.scnt ≤ s.parent.scnt ∧ s.parent.scnt ≤ s.child.scnt + 1 := by
  have hrun : Execution (Step 1 suspend) start
      [.child, .parent, .parent, .child, .parent, .child]
      ⟨⟨.exited true, 1, quiet⟩, ⟨.exited true, 1, quiet⟩⟩ := follow_execution (by decide)
  exact ⟨_, hrun, (all_signals_exchanged hrun).1.2⟩

end Suspend

section Waitinfo

variable {numSigs : ℕ} {s t : State} {e : Event}

end Waitinfo

end SignalExchange
