import LinuxProgramming.TransitionSystems
import Mathlib.Logic.Function.Basic

/-! `flock_deadlock.c`, run in any number of copies at a time. A lock belongs to the open file
description. Parent and child share the descriptions that were opened before `fork`, so within
one copy no request is ever refused. Two copies can block each other, and then for good: the
process that gives up leaves its lock with the one that is still waiting. -/
namespace FlockDeadlock

open TransitionSystems

inductive File where
  | file1
  | file2
  deriving DecidableEq

inductive Role where
  | child
  | parent
  deriving DecidableEq

def Role.other : Role → Role
  | .child => .parent
  | .parent => .child

/-- What is locked first, with a request that waits. -/
def Role.first : Role → File
  | .child => .file1
  | .parent => .file2

/-- What is locked then, with `LOCK_NB`. -/
def Role.second : Role → File
  | .child => .file2
  | .parent => .file1

inductive Phase where
  | lockFirst
  | lockSecond
  | unlockFirst
  | unlockSecond
  | exiting
  | exited (success : Bool)
  deriving DecidableEq

def Phase.hasExited : Phase → Bool
  | .exited _ => true
  | _ => false

variable {ι : Type} [DecidableEq ι]

/-- The description of a file that a copy has opened is named by the copy. -/
structure State (ι : Type) where
  owner : File → Option ι
  phase : ι × Role → Phase
  detected : List (ι × Role)

def start : State ι := ⟨fun _ => none, fun _ => .lockFirst, []⟩

namespace State

def Free (s : State ι) (f : File) (i : ι) : Prop := s.owner f = none ∨ s.owner f = some i

instance (s : State ι) (f : File) (i : ι) : Decidable (s.Free f i) :=
  inferInstanceAs (Decidable (_ ∨ _))

def moveTo (s : State ι) (p : ι × Role) (ph : Phase) : State ι :=
  { s with phase := Function.update s.phase p ph }

def lock (s : State ι) (f : File) (i : ι) : State ι :=
  { s with owner := Function.update s.owner f (some i) }

def unlock (s : State ι) (f : File) (i : ι) : State ι :=
  if s.owner f = some i then { s with owner := Function.update s.owner f none } else s

/-- The descriptors of the process are closed; its copy's descriptions go with the last of
them. -/
def exit (s : State ι) (p : ι × Role) (success : Bool) : State ι :=
  let s' := s.moveTo p (.exited success)
  if (s.phase (p.1, p.2.other)).hasExited then
    { s' with owner := fun f => if s.owner f = some p.1 then none else s.owner f }
  else s'

/-- The process has seen a potential deadlock. What the child prints about it may be lost with its
buffer at `_exit`. -/
def report (s : State ι) (p : ι × Role) : State ι := { s with detected := s.detected ++ [p] }

end State

def next (s : State ι) (p : ι × Role) : Option (State ι) :=
  match s.phase p with
  | .lockFirst =>
    if s.Free p.2.first p.1 then some ((s.lock p.2.first p.1).moveTo p .lockSecond) else none
  | .lockSecond =>
    if s.Free p.2.second p.1 then some ((s.lock p.2.second p.1).moveTo p .unlockFirst)
    else some ((s.report p).exit p false)
  | .unlockFirst => some ((s.unlock p.2.first p.1).moveTo p .unlockSecond)
  | .unlockSecond => some ((s.unlock p.2.second p.1).moveTo p .exiting)
  | .exiting => some (s.exit p true)
  | .exited _ => none

abbrev Step (s : State ι) (p : ι × Role) (t : State ι) : Prop := next s p = some t

def Stuck (s : State ι) : Prop := ∀ p, next s p = none

section Frame

variable {s t : State ι} {p : ι × Role}

theorem other_ne (r : Role) : r.other ≠ r := by cases r <;> decide

theorem eq_or_other (r q : Role) : q = r ∨ q = r.other := by cases r <;> cases q <;> decide

theorem file_cases (r : Role) (f : File) : f = r.first ∨ f = r.second := by
  cases r <;> cases f <;> decide

theorem phase_exit (s : State ι) (p : ι × Role) (success : Bool) :
    (s.exit p success).phase = Function.update s.phase p (.exited success) := by
  simp only [State.exit]
  split <;> rfl

theorem detected_exit (s : State ι) (p : ι × Role) (success : Bool) :
    (s.exit p success).detected = s.detected := by
  simp only [State.exit]
  split <;> rfl

theorem owner_exit {f : File} {i : ι} {success : Bool}
    (hi : (s.exit p success).owner f = some i) : s.owner f = some i ∧
      (i = p.1 → (s.phase (p.1, p.2.other)).hasExited = false) := by
  simp only [State.exit] at hi
  split at hi
  · simp only at hi
    split at hi
    · cases hi
    · next hne =>
      refine ⟨hi, fun hip => absurd ?_ hne⟩
      rw [hi, hip]
  · next halive => exact ⟨hi, fun _ => by simpa using halive⟩

theorem owner_unlock {f g : File} {i j : ι} (hj : (s.unlock f i).owner g = some j) :
    s.owner g = some j ∧ (j = i → g ≠ f) := by
  unfold State.unlock at hj
  split at hj
  · next hown =>
    simp only [Function.update_apply] at hj
    split at hj
    · cases hj
    · next hgf => exact ⟨hj, fun _ => hgf⟩
  · next hown =>
    refine ⟨hj, ?_⟩
    rintro rfl rfl
    exact hown hj

theorem phase_unlock (s : State ι) (f : File) (i : ι) : (s.unlock f i).phase = s.phase := by
  unfold State.unlock
  split <;> rfl

theorem detected_unlock (s : State ι) (f : File) (i : ι) :
    (s.unlock f i).detected = s.detected := by
  unfold State.unlock
  split <;> rfl

omit [DecidableEq ι] in
theorem owner_lock {f g : File} {i j : ι} (hj : (s.lock f i).owner g = some j) :
    s.owner g = some j ∨ j = i ∧ g = f := by
  simp only [State.lock, Function.update_apply] at hj
  split at hj
  · next hgf => exact .inr ⟨(Option.some.inj hj).symm, hgf⟩
  · exact .inl hj

inductive Moves (s : State ι) (p : ι × Role) : State ι → Prop where
  | lockFirst (h : s.phase p = .lockFirst) (hf : s.Free p.2.first p.1) :
    Moves s p ((s.lock p.2.first p.1).moveTo p .lockSecond)
  | lockSecond (h : s.phase p = .lockSecond) (hf : s.Free p.2.second p.1) :
    Moves s p ((s.lock p.2.second p.1).moveTo p .unlockFirst)
  | giveUp (h : s.phase p = .lockSecond) (hf : ¬ s.Free p.2.second p.1) :
    Moves s p ((s.report p).exit p false)
  | unlockFirst (h : s.phase p = .unlockFirst) :
    Moves s p ((s.unlock p.2.first p.1).moveTo p .unlockSecond)
  | unlockSecond (h : s.phase p = .unlockSecond) :
    Moves s p ((s.unlock p.2.second p.1).moveTo p .exiting)
  | exit (h : s.phase p = .exiting) : Moves s p (s.exit p true)

theorem moves_of_step (hstep : Step s p t) : Moves s p t := by
  unfold Step next at hstep
  split at hstep
  · next h =>
    split at hstep <;> cases hstep
    next hf => exact .lockFirst h hf
  · next h =>
    split at hstep <;> cases hstep
    · next hf => exact .lockSecond h hf
    · next hf => exact .giveUp h hf
  · next h =>
    cases hstep
    exact .unlockFirst h
  · next h =>
    cases hstep
    exact .unlockSecond h
  · next h =>
    cases hstep
    exact .exit h
  · cases hstep

theorem phase_other (hm : Moves s p t) {q : ι × Role} (hq : q ≠ p) : t.phase q = s.phase q := by
  cases hm <;> simp [State.moveTo, State.lock, State.report, phase_exit, phase_unlock,
    Function.update_of_ne hq]

theorem owner_other (hm : Moves s p t) {f : File} {i : ι} (hi : t.owner f = some i)
    (hip : i ≠ p.1) : s.owner f = some i := by
  cases hm with
  | lockFirst _ _ => exact (owner_lock hi).resolve_right fun h => hip h.1
  | lockSecond _ _ => exact (owner_lock hi).resolve_right fun h => hip h.1
  | giveUp _ _ => exact (owner_exit hi).1
  | unlockFirst _ => exact (owner_unlock hi).1
  | unlockSecond _ => exact (owner_unlock hi).1
  | exit _ => exact (owner_exit hi).1

end Frame

section Invariant

variable {s t : State ι} {p : ι × Role}

def Held (s : State ι) : Prop :=
  ∀ f i, s.owner f = some i → ∃ r, (s.phase (i, r)).hasExited = false

/-- The locks that a process keeps for its copy, while its partner has not locked anything. -/
def Keeps (r : Role) (f : File) : Phase → Prop
  | .lockSecond | .exited false => f = r.first
  | .unlockFirst => True
  | .unlockSecond => f = r.second
  | _ => False

def Traced (s : State ι) : Prop :=
  ∀ f i r, s.owner f = some i → s.phase (i, r.other) = .lockFirst → Keeps r f (s.phase (i, r))

def Reported (s : State ι) : Prop := ∀ p, s.phase p = .exited false → p ∈ s.detected

theorem step_held (hs : Held s) (hm : Moves s p t) : Held t := by
  intro f i hi
  by_cases hip : i = p.1
  · subst hip
    cases hm with
    | giveUp _ _ =>
      refine ⟨p.2.other, ?_⟩
      have hne : (p.1, p.2.other) ≠ p := fun heq => other_ne p.2 (congrArg Prod.snd heq)
      rw [phase_exit, Function.update_of_ne hne]
      exact (owner_exit hi).2 rfl
    | exit _ =>
      refine ⟨p.2.other, ?_⟩
      have hne : (p.1, p.2.other) ≠ p := fun heq => other_ne p.2 (congrArg Prod.snd heq)
      rw [phase_exit, Function.update_of_ne hne]
      exact (owner_exit hi).2 rfl
    | _ =>
      refine ⟨p.2, ?_⟩
      simp [State.moveTo, Phase.hasExited]
  · obtain ⟨r, hr⟩ := hs f i (owner_other hm hi hip)
    refine ⟨r, ?_⟩
    rw [phase_other hm fun heq => hip (congrArg Prod.fst heq)]
    exact hr

theorem phase_moved (hm : Moves s p t) : t.phase p ≠ .lockFirst := by
  cases hm <;> simp [State.moveTo, phase_exit]

theorem keeps_moved {i : ι} {r : Role} {f : File} (hs : Traced s) (hm : Moves s (i, r) t)
    (hi : t.owner f = some i) (hother : s.phase (i, r.other) = .lockFirst) :
    Keeps r f (t.phase (i, r)) := by
  have hold := fun hown => hs f i r hown hother
  cases hm with
  | lockFirst h _ =>
    rw [h] at hold
    have hfirst : f = r.first := ((owner_lock hi).resolve_left hold).2
    simpa [State.moveTo, Keeps] using hfirst
  | lockSecond h _ => simp [State.moveTo, Keeps]
  | giveUp h _ =>
    rw [h] at hold
    have hfirst : f = r.first := hold (owner_exit hi).1
    simpa [phase_exit, Keeps] using hfirst
  | unlockFirst h =>
    have hsecond : f = r.second := (file_cases r f).resolve_left ((owner_unlock hi).2 rfl)
    simpa [State.moveTo, Keeps] using hsecond
  | unlockSecond h =>
    rw [h] at hold
    exact absurd (hold (owner_unlock hi).1) ((owner_unlock hi).2 rfl)
  | exit h =>
    rw [h] at hold
    exact absurd (owner_exit hi).1 hold

theorem step_traced (hs : Traced s) (hm : Moves s p t) : Traced t := by
  intro f i r hi hother
  by_cases hip : i = p.1
  · subst hip
    rcases eq_or_other r p.2 with hr | hr
    · subst hr
      have hne : (p.1, p.2.other) ≠ p := fun heq => other_ne p.2 (congrArg Prod.snd heq)
      rw [phase_other hm hne] at hother
      exact keeps_moved hs hm hi hother
    · exact absurd hother (by rw [← hr]; exact phase_moved hm)
  · have hne : ∀ q, (i, q) ≠ p := fun q heq => hip (congrArg Prod.fst heq)
    rw [phase_other hm (hne _)] at hother ⊢
    exact hs f i r (owner_other hm hi hip) hother

theorem step_reported (hs : Reported s) (hm : Moves s p t) : Reported t := by
  intro q hq
  by_cases hqp : q = p
  · subst hqp
    cases hm with
    | giveUp _ _ =>
      rw [detected_exit]
      exact List.mem_concat_self
    | _ => simp [State.moveTo, phase_exit] at hq
  · rw [phase_other hm hqp] at hq
    have hmem := hs q hq
    cases hm with
    | giveUp _ _ =>
      rw [detected_exit]
      exact List.mem_append_left _ hmem
    | exit _ =>
      rw [detected_exit]
      exact hmem
    | unlockFirst _ => simpa [State.moveTo, detected_unlock] using hmem
    | unlockSecond _ => simpa [State.moveTo, detected_unlock] using hmem
    | _ => exact hmem

structure Inv (s : State ι) : Prop where
  held : Held s
  traced : Traced s
  reported : Reported s

theorem reachable_inv (hr : Reachable Step start s) : Inv s := by
  obtain ⟨ps, hrun⟩ := hr
  refine hrun.invariant (fun s p t hi hstep => ?_) ⟨?_, ?_, ?_⟩
  · have hm := moves_of_step hstep
    exact ⟨step_held hi.held hm, step_traced hi.traced hm, step_reported hi.reported hm⟩
  · intro f i hi
    cases hi
  · intro f i r hi
    cases hi
  · intro p hp
    cases hp

end Invariant

section Deadlock

variable {s : State ι}

/-- The only place to wait is the first request. -/
theorem Stuck.waiting (hs : Stuck s) {p : ι × Role} (hp : (s.phase p).hasExited = false) :
    s.phase p = .lockFirst ∧ ∃ j, j ≠ p.1 ∧ s.owner p.2.first = some j := by
  have hnone := hs p
  unfold next at hnone
  split at hnone
  · next hph =>
    split at hnone
    · cases hnone
    · next hfree =>
      refine ⟨hph, ?_⟩
      cases hown : s.owner p.2.first with
      | none => exact absurd (.inl hown) hfree
      | some j => exact ⟨j, fun hj => hfree (.inr (hj ▸ hown)), rfl⟩
  · split at hnone <;> cases hnone
  · cases hnone
  · cases hnone
  · cases hnone
  · next hph =>
    rw [hph] at hp
    cases hp

/-- The owner of a file has given up with one role and waits with the other, for the other
file. -/
theorem Stuck.owner_waits (hs : Stuck s) (hi : Inv s) {r : Role} {j : ι}
    (hown : s.owner r.first = some j) :
    s.phase (j, r) = .exited false ∧ s.phase (j, r.other) = .lockFirst ∧
      ∃ k, k ≠ j ∧ s.owner r.other.first = some k := by
  obtain ⟨q, hq⟩ := hi.held _ _ hown
  obtain ⟨hphase, k, hkj, hk⟩ := hs.waiting hq
  rcases eq_or_other r q with rfl | rfl
  · rw [hown] at hk
    exact absurd (Option.some.inj hk).symm hkj
  · refine ⟨?_, hphase, k, hkj, hk⟩
    have hkeeps := hi.traced _ _ r hown hphase
    by_cases hexit : (s.phase (j, r)).hasExited = false
    · obtain ⟨-, l, hlj, hl⟩ := hs.waiting hexit
      rw [hown] at hl
      exact absurd (Option.some.inj hl).symm hlj
    · cases hp : s.phase (j, r) with
      | exited success =>
        rw [hp] at hkeeps
        cases success with
        | false => rfl
        | true => exact hkeeps.elim
      | _ => simp [hp, Phase.hasExited] at hexit

/-- However many copies run: if nothing can happen any more and some process is left, two copies
have locked one file each and wait for the other's. In both, the process that took the lock
has seen the conflict and gone. -/
theorem deadlock_is_circular (hr : Reachable Step start s) (hs : Stuck s) (p : ι × Role)
    (hp : (s.phase p).hasExited = false) :
    ∃ j k, j ≠ k ∧ s.owner .file1 = some j ∧ s.owner .file2 = some k ∧
      s.phase (j, .parent) = .lockFirst ∧ s.phase (k, .child) = .lockFirst ∧
      s.phase (j, .child) = .exited false ∧ s.phase (k, .parent) = .exited false ∧
      (j, .child) ∈ s.detected ∧ (k, .parent) ∈ s.detected := by
  have hi := reachable_inv hr
  obtain ⟨-, j, -, hj⟩ := hs.waiting hp
  obtain ⟨-, -, k, -, hk⟩ := hs.owner_waits hi hj
  obtain ⟨a, b, ha, hb⟩ : ∃ a b, s.owner (Role.first .child) = some a ∧
      s.owner (Role.first .parent) = some b := by
    obtain ⟨i, r⟩ := p
    cases r with
    | child => exact ⟨j, k, hj, hk⟩
    | parent => exact ⟨k, j, hk, hj⟩
  obtain ⟨hchild, hparent, c, hca, hc⟩ := hs.owner_waits hi ha
  obtain ⟨hparent', hchild', -⟩ := hs.owner_waits hi hb
  refine ⟨a, b, ?_, ha, hb, hparent, hchild', hchild, hparent', hi.reported _ hchild,
    hi.reported _ hparent'⟩
  rintro rfl
  rw [show s.owner (Role.other .child).first = some a from hb] at hc
  exact hca (Option.some.inj hc).symm

/-- The child of the first copy and the parent of the second take their locks and fail at the
other file; then the parent of the first and the child of the second wait. -/
def crossed : List (Bool × Role) :=
  [(true, .child), (false, .parent), (true, .child), (false, .parent)]

theorem two_copies_deadlock : ∃ s : State Bool, Execution Step start crossed s ∧ Stuck s ∧
    ∃ j k, j ≠ k ∧ s.owner .file1 = some j ∧ s.owner .file2 = some k := by
  obtain ⟨s, hfollow, hstuck, hwaits⟩ : ∃ s : State Bool, follow next start crossed = some s ∧
      Stuck s ∧ s.phase (true, .parent) = .lockFirst := by
    refine ⟨_, rfl, ?_, rfl⟩
    rintro ⟨i, r⟩
    cases i <;> cases r <;> rfl
  have hrun : Execution Step start crossed s := follow_execution hfollow
  obtain ⟨j, k, hne, hj, hk, -⟩ :=
    deadlock_is_circular ⟨_, hrun⟩ hstuck (true, .parent) (by rw [hwaits]; rfl)
  exact ⟨s, hrun, hstuck, j, k, hne, hj, hk⟩

end Deadlock

section Alone

variable {s t : State Unit} {p : Unit × Role}

theorem free_alone (s : State Unit) (f : File) (i : Unit) : s.Free f i := by
  cases hown : s.owner f with
  | none => exact .inl hown
  | some j => exact .inr hown

theorem step_alone (hs : s.detected = [] ∧ ∀ p, s.phase p ≠ .exited false)
    (hm : Moves s p t) : t.detected = [] ∧ ∀ p, t.phase p ≠ .exited false := by
  obtain ⟨hd, hp⟩ := hs
  have hself : t.phase p ≠ .exited false := by
    cases hm with
    | giveUp _ hf => exact absurd (free_alone ..) hf
    | _ => simp [State.moveTo, phase_exit]
  refine ⟨?_, fun q => ?_⟩
  · cases hm with
    | giveUp _ hf => exact absurd (free_alone ..) hf
    | exit _ => rw [detected_exit, hd]
    | unlockFirst _ => simpa [State.moveTo, detected_unlock] using hd
    | unlockSecond _ => simpa [State.moveTo, detected_unlock] using hd
    | _ => exact hd
  · by_cases hqp : q = p
    · rw [hqp]
      exact hself
    · rw [phase_other hm hqp]
      exact hp q

/-- One copy alone: no request waits or fails, both processes succeed, and no lock is left. -/
theorem single_copy_succeeds (hr : Reachable Step start s) :
    s.detected = [] ∧ (∀ p, (s.phase p).hasExited = false → ∃ t, Step s p t) ∧
    (Stuck s → (∀ p, s.phase p = .exited true) ∧ ∀ f, s.owner f = none) := by
  have hheld := (reachable_inv hr).held
  obtain ⟨ps, hrun⟩ := hr
  have hquiet : s.detected = [] ∧ ∀ p, s.phase p ≠ .exited false :=
    hrun.invariant (P := fun s => s.detected = [] ∧ ∀ p, s.phase p ≠ .exited false)
      (fun s p t hs hstep => step_alone hs (moves_of_step hstep)) ⟨rfl, fun p hp => by cases hp⟩
  have hprogress : ∀ p, (s.phase p).hasExited = false → ∃ t, Step s p t := by
    intro p hp
    cases hph : s.phase p with
    | exited success =>
      rw [hph] at hp
      cases hp
    | _ => simp [Step, next, hph, free_alone]
  refine ⟨hquiet.1, hprogress, fun hstuck => ?_⟩
  have hgone : ∀ p, (s.phase p).hasExited = true := by
    intro p
    by_contra hp
    obtain ⟨t, hstep⟩ := hprogress p (by simpa using hp)
    rw [Step, hstuck p] at hstep
    cases hstep
  constructor
  · intro p
    have hp := hgone p
    cases hph : s.phase p with
    | exited success =>
      cases success with
      | true => rfl
      | false => exact absurd hph (hquiet.2 p)
    | _ =>
      rw [hph] at hp
      cases hp
  · intro f
    cases hown : s.owner f with
    | none => rfl
    | some i =>
      obtain ⟨r, hr⟩ := hheld f i hown
      rw [hgone] at hr
      cases hr

def alternating : List (Unit × Role) :=
  [((), .child), ((), .parent), ((), .child), ((), .parent)]

theorem single_copy_detects_nothing : ∃ s : State Unit, Execution Step start alternating s ∧
    s.detected = [] := by
  have hrun : Execution Step (start : State Unit) alternating _ := follow_execution rfl
  exact ⟨_, hrun, (single_copy_succeeds ⟨_, hrun⟩).1⟩

end Alone

end FlockDeadlock
