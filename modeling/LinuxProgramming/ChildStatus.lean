import LinuxProgramming.TransitionSystems
import Mathlib.Order.Defs.LinearOrder

/-! The parent of `child_status.c`, which waits with `waitid` for what happens to its child.
`si_status` already is the exit status or the number of the signal, but the program takes it for
the encoded status of `waitpid`. So it reports most changes wrongly, and it leaves at the first
one. -/
namespace ChildStatus

open TransitionSystems

abbrev Signo := { sig : ℕ // 0 < sig ∧ sig ≤ 64 }

inductive Change where
  | exited (status : UInt8)
  | killed (sig : Signo)
  | dumped (sig : Signo)
  | stopped (sig : Signo)
  | continued
  deriving DecidableEq

inductive Code where
  | exited
  | killed
  | dumped
  | stopped
  | continued
  deriving DecidableEq

structure ChildInfo where
  siPid : ℕ
  siCode : Code
  siStatus : ℕ
  deriving DecidableEq

def Change.info (pid : ℕ) : Change → ChildInfo
  | .exited status => ⟨pid, .exited, status.toNat⟩
  | .killed sig => ⟨pid, .killed, sig⟩
  | .dumped sig => ⟨pid, .dumped, sig⟩
  | .stopped sig => ⟨pid, .stopped, sig⟩
  | .continued => ⟨pid, .continued, 18⟩

section Macros

def wexitstatus (status : ℕ) : ℕ := (status &&& 0xff00) >>> 8

def wtermsig (status : ℕ) : ℕ := status &&& 0x7f

def wstopsig (status : ℕ) : ℕ := wexitstatus status

def wifexited (status : ℕ) : Bool := wtermsig status == 0

/-- The sum is taken as a `signed char`. -/
def wifsignaled (status : ℕ) : Bool :=
  0 < ((BitVec.ofNat 8 ((status &&& 0x7f) + 1)).sshiftRight 1).toInt

def wifstopped (status : ℕ) : Bool := status &&& 0xff == 0x7f

def wifcontinued (status : ℕ) : Bool := status == 0xffff

def wcoredump (status : ℕ) : Bool := status &&& 0x80 != 0

end Macros

section Program

inductive Line where
  | returned (pid status high low : ℕ)
  | fromSiCode
  | terminatedByExit
  | killedBySignal
  | stoppedBySignal
  | continuedBySignal
  | fromSiStatus
  | exitedStatus (status : ℕ)
  | isKilled (sig : ℕ) (coreDumped : Bool)
  | isStopped (sig : ℕ)
  | isContinued
  | whatHappened (status : ℕ)
  deriving DecidableEq

/-- There is no case for a child that has dumped core. -/
def codeLines : Code → List Line
  | .exited => [.terminatedByExit]
  | .killed => [.killedBySignal]
  | .stopped => [.stoppedBySignal]
  | .continued => [.continuedBySignal]
  | .dumped => []

def statusLine (status : ℕ) : Line :=
  if wifexited status then .exitedStatus (wexitstatus status)
  else if wifsignaled status then .isKilled (wtermsig status) (wcoredump status)
  else if wifstopped status then .isStopped (wstopsig status)
  else if wifcontinued status then .isContinued
  else .whatHappened status

def printChildInfo (childInfo : ChildInfo) : List Line :=
  .fromSiCode :: codeLines childInfo.siCode ++ [.fromSiStatus, statusLine childInfo.siStatus]

def report (childInfo : ChildInfo) : List Line :=
  .returned childInfo.siPid childInfo.siStatus (childInfo.siStatus >>> 8)
    (childInfo.siStatus &&& 0xff) :: printChildInfo childInfo

inductive Child where
  | running
  | stopped
  | ended
  deriving DecidableEq

inductive Parent where
  | waiting
  | exited (success : Bool)
  deriving DecidableEq

/-- A later change takes the place of one that has not been waited for. -/
structure State where
  child : Child
  pending : Option Change
  parent : Parent
  stdout : List Line
  deriving DecidableEq

def start : State := ⟨.running, none, .waiting, []⟩

/-- What can happen to a child; a stopped one can still be killed. -/
def Child.after : Child → Change → Option Child
  | .ended, _ => none
  | .running, .exited _ => some .ended
  | .stopped, .exited _ => none
  | _, .killed _ => some .ended
  | .running, .dumped _ => some .ended
  | .stopped, .dumped _ => none
  | .running, .stopped _ => some .stopped
  | .stopped, .stopped _ => none
  | .running, .continued => none
  | .stopped, .continued => some .running

inductive Event where
  | change (c : Change)
  | waitid
  deriving DecidableEq

/-- One round of the parent's loop. It blocks as long as there is no change and still a child. -/
def waitid (pid : ℕ) (s : State) : Option State :=
  match s.parent, s.pending with
  | .exited _, _ => none
  | .waiting, some c =>
    let childInfo := c.info pid
    let s := { s with pending := none, stdout := s.stdout ++ report childInfo }
    if wifexited childInfo.siStatus || wifsignaled childInfo.siStatus then
      some { s with parent := .exited true }
    else
      some s
  | .waiting, none => if s.child = .ended then some { s with parent := .exited false } else none

def next (pid : ℕ) (s : State) : Event → Option State
  | .change c => (s.child.after c).map fun child => { s with child := child, pending := some c }
  | .waitid => waitid pid s

def Step (pid : ℕ) (s : State) (e : Event) (t : State) : Prop := next pid s e = some t

end Program

section Report

theorem Change.siStatus_lt (c : Change) (pid : ℕ) : (c.info pid).siStatus < 256 := by
  cases c with
  | exited status => exact status.toNat_lt
  | killed sig => exact Nat.lt_of_le_of_lt sig.2.2 (by decide)
  | dumped sig => exact Nat.lt_of_le_of_lt sig.2.2 (by decide)
  | stopped sig => exact Nat.lt_of_le_of_lt sig.2.2 (by decide)
  | continued => exact (by decide : 18 < 256)

def decoded (n : ℕ) : Line :=
  if n % 128 = 0 then .exitedStatus 0
  else if n = 127 then .isStopped 0
  else if n = 255 then .whatHappened 255
  else .isKilled (n % 128) (128 ≤ n)

theorem statusLine_eq {n : ℕ} (hn : n < 256) : statusLine n = decoded n := by
  have h : ∀ n : Fin 256, statusLine n = decoded n := by decide +kernel
  exact h ⟨n, hn⟩

theorem leaves_iff {n : ℕ} (hn : n < 256) :
    (wifexited n || wifsignaled n) = true ↔ n ≠ 127 ∧ n ≠ 255 := by
  have h : ∀ n : Fin 256,
      (wifexited n || wifsignaled n) = true ↔ (n : ℕ) ≠ 127 ∧ (n : ℕ) ≠ 255 := by decide +kernel
  exact h ⟨n, hn⟩

theorem statusLine_signo (sig : Signo) : statusLine sig = .isKilled sig false := by
  obtain ⟨n, hpos, hle⟩ := sig
  have hmod : n % 128 = n := by omega
  simp only [statusLine_eq (show n < 256 by omega), decoded, hmod]
  rw [if_neg (by omega), if_neg (by omega), if_neg (by omega), decide_eq_false (by omega)]

def Change.line : Change → Line
  | .exited status => .exitedStatus status.toNat
  | .killed sig => .isKilled sig false
  | .dumped sig => .isKilled sig true
  | .stopped sig => .isStopped sig
  | .continued => .isContinued

/-- The status line is right for a child that returns zero and for one that is killed without a
core dump, and for no other. -/
theorem reported_rightly_iff (c : Change) (pid : ℕ) :
    statusLine (c.info pid).siStatus = c.line ↔ c = .exited 0 ∨ ∃ sig, c = .killed sig := by
  cases c with
  | exited status =>
    rw [statusLine_eq (Change.siStatus_lt _ _)]
    have h : ∀ n : Fin 256, decoded n = .exitedStatus n ↔ (n : ℕ) = 0 := by decide +kernel
    have hstatus := h ⟨status.toNat, status.toNat_lt⟩
    simp only [Change.info, Change.line, hstatus, Change.exited.injEq, reduceCtorEq, exists_false,
      or_false, ← UInt8.toNat_inj]
    rfl
  | killed sig => simp [Change.info, Change.line, statusLine_signo]
  | dumped sig => simp [Change.info, Change.line, statusLine_signo]
  | stopped sig => simp [Change.info, Change.line, statusLine_signo]
  | continued => simp [Change.info, Change.line, statusLine_eq, decoded]

end Report

section Runs

variable {pid : ℕ} {s t : State}

/-- Taken for neither an exit nor a signal. -/
def Unrecognised (c : Change) : Prop := c = .exited 127 ∨ c = .exited 255

theorem leaves_change (c : Change) :
    (wifexited (c.info pid).siStatus || wifsignaled (c.info pid).siStatus) = true ↔
      ¬ Unrecognised c := by
  rw [leaves_iff (c.siStatus_lt pid), Unrecognised]
  cases c with
  | exited status =>
    simp only [Change.info, Change.exited.injEq, ← UInt8.toNat_inj]
    exact not_or.symm
  | killed sig => have := sig.2; simp [Change.info]; omega
  | dumped sig => have := sig.2; simp [Change.info]; omega
  | stopped sig => have := sig.2; simp [Change.info]; omega
  | continued => simp [Change.info]

/-- The last change before the first `waitid`. -/
def reported : List Event → Option Change
  | [] => none
  | .waitid :: _ => none
  | .change c :: es => (reported es).or (some c)

theorem reported_append {es : List Event} (h : .waitid ∈ es) (fs : List Event) :
    reported (es ++ fs) = reported es := by
  induction es with
  | nil => cases h
  | cons e es ih =>
    cases e with
    | waitid => rfl
    | change c =>
      have hes : .waitid ∈ es := by simpa using h
      simp only [List.cons_append, reported, ih hes]

theorem reported_change {es : List Event} (h : .waitid ∉ es) (c : Change) :
    reported (es ++ [.change c]) = some c := by
  induction es with
  | nil => rfl
  | cons e es ih =>
    cases e with
    | waitid => exact absurd List.mem_cons_self h
    | change c' =>
      have hes : .waitid ∉ es := fun hmem => h (List.mem_cons_of_mem _ hmem)
      simp only [List.cons_append, reported, ih hes, Option.some_or]

theorem reported_waitid (es : List Event) : reported (es ++ [.waitid]) = reported es := by
  induction es with
  | nil => rfl
  | cons e es ih =>
    cases e with
    | waitid => rfl
    | change c => simp only [List.cons_append, reported, ih]

/-- The parent's states: nothing has happened yet, something waits to be reported, it has left
after its report, or the report was of a child that is gone and there is no other. -/
inductive Inv (pid : ℕ) : List Event → State → Prop
  | quiet : Inv pid [] start
  | changed {es child c} (hes : .waitid ∉ es) (hc : reported es = some c)
    (h : Unrecognised c → child = .ended) : Inv pid es ⟨child, some c, .waiting, []⟩
  | left {es child pending c} (hes : .waitid ∈ es) (hc : reported es = some c)
    (h : ¬ Unrecognised c) : Inv pid es ⟨child, pending, .exited true, report (c.info pid)⟩
  | missed {es c} (hes : .waitid ∈ es) (hc : reported es = some c) (h : Unrecognised c) :
    Inv pid es ⟨.ended, none, if es.count .waitid = 1 then .waiting else .exited false,
      report (c.info pid)⟩

theorem after_unrecognised {child child' : Child} {c : Change} (h : child.after c = some child')
    (hc : Unrecognised c) : child' = .ended := by
  rcases hc with rfl | rfl <;> cases child <;> simp_all [Child.after]

theorem Inv.change {es : List Event} {c : Change} (h : Inv pid es s)
    (hs : Step pid s (.change c) t) : Inv pid (es ++ [.change c]) t := by
  obtain ⟨child, hchild, rfl⟩ := Option.map_eq_some_iff.mp hs
  cases h with
  | quiet => exact .changed (by simp) rfl (after_unrecognised hchild)
  | changed hes _ _ =>
    exact .changed (by simpa using hes) (reported_change hes c) (after_unrecognised hchild)
  | left hes hc h =>
    exact .left (List.mem_append_left _ hes) ((reported_append hes _).trans hc) h
  | missed _ _ _ => simp [Child.after] at hchild

theorem Inv.waitid {es : List Event} (h : Inv pid es s) (hs : Step pid s .waitid t) :
    Inv pid (es ++ [.waitid]) t := by
  have hmem : Event.waitid ∈ es ++ [.waitid] := by simp
  cases h with
  | quiet => simp [Step, next, ChildStatus.waitid, start] at hs
  | @changed _ child c hes hc h =>
    have hreported : reported (es ++ [.waitid]) = some c := (reported_waitid es).trans hc
    simp only [Step, next, ChildStatus.waitid] at hs
    by_cases hun : Unrecognised c
    · rw [if_neg (mt (leaves_change c).mp (not_not.mpr hun))] at hs
      cases hs
      have hcount : (es ++ [Event.waitid]).count .waitid = 1 := by
        rw [List.count_append, List.count_eq_zero.mpr hes]
        rfl
      have hmissed : Inv pid _ _ := .missed hmem hreported hun
      rwa [if_pos hcount, ← h hun] at hmissed
    · rw [if_pos ((leaves_change c).mpr hun)] at hs
      cases hs
      exact .left hmem hreported hun
  | left _ _ _ => simp [Step, next, ChildStatus.waitid] at hs
  | @missed _ c hes hc h =>
    by_cases hone : es.count .waitid = 1
    · -- there is no child any more
      simp only [Step, next, ChildStatus.waitid, hone, if_true, Option.some.injEq] at hs
      subst hs
      have hcount : ¬ (es ++ [Event.waitid]).count .waitid = 1 := by
        rw [List.count_append, hone]
        decide
      have hmissed : Inv pid _ _ := .missed hmem ((reported_waitid es).trans hc) h
      rwa [if_neg hcount] at hmissed
    · simp [Step, next, ChildStatus.waitid, hone] at hs

theorem execution_inv {es : List Event} (hrun : Execution (Step pid) start es s) :
    Inv pid es s := by
  induction hrun with
  | refl => exact .quiet
  | @tail es t e u _ hstep ih =>
    cases e with
    | change c => exact ih.change hstep
    | waitid => exact ih.waitid hstep

/-- Whatever happens to the child, and in which order: at its first `waitid` the parent reports the
change that is then the last one, and nothing after it, and leaves, whether or not the child has
ended. After an exit with 127 or 255 it asks once more and fails. While nothing has happened it
waits, and only then. -/
theorem leaves_at_first_change {es : List Event} (hrun : Execution (Step pid) start es s) :
    (.waitid ∉ es → s.stdout = [] ∧ s.parent = .waiting) ∧
    (.waitid ∈ es → ∃ c, reported es = some c ∧ s.stdout = report (c.info pid) ∧
      if c = .exited 127 ∨ c = .exited 255 then s.child = .ended ∧
        s.parent = if es.count .waitid = 1 then .waiting else .exited false
      else s.parent = .exited true) ∧
    (s.parent = .waiting → s ≠ start → ∃ t, Step pid s .waitid t) := by
  cases execution_inv hrun with
  | quiet => exact ⟨fun _ => ⟨rfl, rfl⟩, nofun, fun _ hne => absurd rfl hne⟩
  | @changed _ child c hes hc h =>
    refine ⟨fun _ => ⟨rfl, rfl⟩, fun hmem => absurd hmem hes, fun _ _ => ?_⟩
    simp only [Step, next, ChildStatus.waitid]
    split <;> exact ⟨_, rfl⟩
  | @left _ child pending c hes hc h =>
    refine ⟨fun hno => absurd hes hno, fun _ => ⟨c, hc, rfl, ?_⟩, nofun⟩
    rw [if_neg (show ¬ (c = .exited 127 ∨ c = .exited 255) from h)]
  | @missed _ c hes hc h =>
    refine ⟨fun hno => absurd hes hno, fun _ => ⟨c, hc, rfl, ?_⟩, fun hwaiting _ => ?_⟩
    · rw [if_pos (show c = .exited 127 ∨ c = .exited 255 from h)]
      exact ⟨rfl, rfl⟩
    · simp only at hwaiting
      simp only [Step, next, ChildStatus.waitid, hwaiting]
      exact ⟨_, rfl⟩

/-- Stopped, continued, and reported as killed by signal 18. -/
theorem continued_reported_as_killed : ∃ s, Execution (Step 7) start
      [.change (.stopped ⟨19, by decide⟩), .change .continued, .waitid] s ∧
    s.child = .running ∧ s.parent = .exited true ∧ Line.isKilled 18 false ∈ s.stdout := by
  have hrun : Execution (Step 7) start
      [.change (.stopped ⟨19, by decide⟩), .change .continued, .waitid]
      ⟨.running, none, .exited true, report (Change.continued.info 7)⟩ :=
    follow_execution (by decide)
  obtain ⟨c, hc, hstdout, hparent⟩ := (leaves_at_first_change hrun).2.1 (by simp)
  cases hc
  rw [if_neg (by decide)] at hparent
  refine ⟨_, hrun, rfl, hparent, ?_⟩
  rw [hstdout]
  decide

end Runs

end ChildStatus
