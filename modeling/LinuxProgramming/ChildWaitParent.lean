import LinuxProgramming.Signals
import LinuxProgramming.TransitionSystems
import Mathlib.Data.Finset.Sort

/-! Parent and child that should wait for each other's signal, as in `child_wait_parent.c`. The
parent sends its signal to `getppid()`, which is its own parent. So the child waits forever, in
every run. -/
namespace ChildWaitParent

open Signals TransitionSystems

/-- `SIGUSR1`, from child to parent. -/
def syncCsig : ℕ := 10

/-- `SIGUSR2`, from parent to child. -/
def syncPsig : ℕ := 12

inductive Line where
  | fromHandler (sig : ℕ)
  | childStarted
  | childAboutToSignal
  | childAboutToWait
  | childGotSignal
  | parentAboutToWait
  | parentGotSignal
  | parentDoingWork
  | parentAboutToSignal
  deriving DecidableEq

inductive Instr where
  | puts (line : Line)
  | killParent (sig : ℕ)
  | sigsuspend
  | restoreMask
  | exit
  deriving DecidableEq

/-- The branch of the child; the calls of `sleep` take time and nothing else. -/
def childCode : List Instr :=
  [.puts .childStarted, .puts .childAboutToSignal, .killParent syncCsig, .puts .childAboutToWait,
    .sigsuspend, .puts .childGotSignal, .restoreMask, .exit]

def parentCode : List Instr :=
  [.puts .parentAboutToWait, .sigsuspend, .puts .parentGotSignal, .restoreMask,
    .puts .parentDoingWork, .puts .parentAboutToSignal, .killParent syncPsig, .exit]

structure Process where
  rest : List Instr
  signals : SignalState ℕ
  deriving DecidableEq

inductive Who where
  | child
  | parent
  deriving DecidableEq

/-- The signals that the parent's parent, or `init`, has been sent are listed, in order. -/
structure State where
  child : Process
  parent : Process
  outside : List ℕ
  stdout : List Line
  deriving DecidableEq

def State.process (s : State) : Who → Process
  | .child => s.child
  | .parent => s.parent

def State.setProcess (s : State) (p : Process) : Who → State
  | .child => { s with child := p }
  | .parent => { s with parent := p }

def State.puts (s : State) (lines : List Line) : State := { s with stdout := s.stdout ++ lines }

/-- `kill(getppid(), sig)`, where the process may send signals to its parent. -/
def State.killParent (s : State) (sig : ℕ) : Who → State
  | .child =>
    if s.parent.rest = [] then { s with outside := s.outside ++ [sig] }
    else { s with parent.signals := s.parent.signals.send sig }
  | .parent => { s with outside := s.outside ++ [sig] }

def handlerLines (delivered : Finset ℕ) : List Line :=
  (delivered.sort (· ≤ ·)).map .fromHandler

section Program

variable (origMask : Finset ℕ)

def blockMask : Finset ℕ := origMask ∪ {syncCsig, syncPsig}

def start : State :=
  ⟨⟨childCode, ⟨∅, blockMask origMask⟩⟩, ⟨parentCode, ⟨∅, blockMask origMask⟩⟩, [], []⟩

def execute (s : State) (who : Who) : Option State :=
  let p := s.process who
  match p.rest with
  | [] => none
  | .puts line :: rest => some ((s.puts [line]).setProcess { p with rest := rest } who)
  | .killParent sig :: rest => some ((s.setProcess { p with rest := rest } who).killParent sig who)
  | .sigsuspend :: rest =>
    (p.signals.sigsuspend ∅).map fun signals =>
      (s.puts (handlerLines p.signals.pending)).setProcess ⟨rest, signals⟩ who
  | .restoreMask :: rest =>
    some (s.setProcess ⟨rest, p.signals.setMask origMask⟩ who)
  | .exit :: _ => some (s.setProcess { p with rest := [] } who)

def interrupt (s : State) (who : Who) : Option State :=
  let p := s.process who
  p.signals.deliver.map fun signals =>
    (s.puts (handlerLines (p.signals.pending \ p.signals.blocked))).setProcess
      { p with signals := signals } who

inductive Event where
  | execute (who : Who)
  | interrupt (who : Who)
  deriving DecidableEq

def next (s : State) : Event → Option State
  | .execute who => execute origMask s who
  | .interrupt who => interrupt s who

abbrev Step (s : State) (e : Event) (t : State) : Prop := next origMask s e = some t

end Program

section Runs

variable {origMask : Finset ℕ} {s t : State} {e : Event}

structure At (origMask : Finset ℕ) (i j : ℕ) (s : State) : Prop where
  child_rest : s.child.rest = childCode.drop i
  parent_rest : s.parent.rest = parentCode.drop j
  child_le : i ≤ 4
  parent_le : j ≤ 8
  woken : 2 ≤ j → 3 ≤ i
  child_signals : s.child.signals = ⟨∅, blockMask origMask⟩
  parent_pending : s.parent.signals.pending = if 3 ≤ i ∧ j ≤ 1 then {syncCsig} else ∅
  parent_blocked : s.parent.signals.blocked = if j ≤ 3 then blockMask origMask else origMask
  outside : s.outside = if 7 ≤ j then [syncPsig] else []
  silent : .childGotSignal ∉ s.stdout

theorem At.progress {i j : ℕ} (ha : At origMask i j s) (hleft : i < 4 ∨ j < 8) :
    ∃ e t, Step origMask s e t := by
  obtain ⟨hc, hp, hi, hj, hw, hcs, hpp, hpb, ho, hs⟩ := ha
  by_cases hchild : i < 4
  · refine ⟨.execute .child, Option.isSome_iff_exists.mp ?_⟩
    have hcases : i = 0 ∨ i = 1 ∨ i = 2 ∨ i = 3 := by omega
    rcases hcases with rfl | rfl | rfl | rfl <;>
      simp [next, execute, State.process, hc, childCode]
  · refine ⟨.execute .parent, Option.isSome_iff_exists.mp ?_⟩
    have hcases : j = 1 ∨ j = 0 ∨ j = 2 ∨ j = 3 ∨ j = 4 ∨ j = 5 ∨ j = 6 ∨ j = 7 := by omega
    rcases hcases with rfl | hother
    · rw [if_pos ⟨by omega, le_refl 1⟩] at hpp
      simp [next, execute, State.process, hp, parentCode, hpp, SignalState.sigsuspend]
    · rcases hother with rfl | rfl | rfl | rfl | rfl | rfl | rfl <;>
        simp [next, execute, State.process, hp, parentCode]

end Runs

end ChildWaitParent
