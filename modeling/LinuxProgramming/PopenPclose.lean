import LinuxProgramming.TransitionSystems
import Mathlib.Data.Int.Notation
import Mathlib.Logic.Function.Basic

/-! `my_popen` and `my_pclose`, called any number of times by one process that also opens and
closes other descriptors. The calls of `my_popen` are numbered, and the number of a call also
names its pipe, its child and its stream. `close` and `dup2` of open descriptors succeed. -/
namespace PopenPclose

open TransitionSystems

inductive Side where
  | read
  | write
  deriving DecidableEq

inductive OpenFile where
  | pipe (call : ℕ) (side : Side)
  | other
  deriving DecidableEq

abbrev Table := ℕ → Option OpenFile

/-- What `pipe`, `fork` and `fdopen` give in a call; `pfd₀` is the read end. -/
inductive Outcome where
  | pipeFails
  | forkFails (pfd₀ pfd₁ : ℕ)
  | forked (pfd₀ pfd₁ : ℕ) (childPID : ℤ) (opened : Bool)
  deriving DecidableEq

/-- `stream` is the descriptor of the stream that a call returned, until it is passed to
`my_pclose`, and `child` the pid of the child that a call forked, until it is reaped. -/
structure Caller where
  table : Table
  fdPidMap : ℕ → ℤ
  calls : ℕ
  stream : ℕ → Option ℕ
  child : ℕ → Option ℤ

def initial (isOpen : ℕ → Bool) : Caller where
  table fd := if isOpen fd then some .other else none
  fdPidMap _ := 0
  calls := 0
  stream _ := none
  child _ := none

def rejects (type : Char) : Bool := !(type != 'r' || type != 'w')

def closeFD (type : Char) (pfd₀ pfd₁ : ℕ) : ℕ := if type = 'r' then pfd₁ else pfd₀

def saveFD (type : Char) (pfd₀ pfd₁ : ℕ) : ℕ := if type = 'r' then pfd₀ else pfd₁

def keptSide (type : Char) : Side := if type = 'r' then .read else .write

def withPipe (s : Caller) (pfd₀ pfd₁ : ℕ) : Table :=
  Function.update (Function.update s.table pfd₀ (some (.pipe s.calls .read))) pfd₁
    (some (.pipe s.calls .write))

def parentTable (s : Caller) (type : Char) (pfd₀ pfd₁ : ℕ) : Table :=
  Function.update (withPipe s pfd₀ pfd₁) (closeFD type pfd₀ pfd₁) none

/-- Free numbers, and small enough for `FDPIDMAP`, which has 1024 entries. -/
def PipeGives (s : Caller) (pfd₀ pfd₁ : ℕ) : Prop :=
  s.table pfd₀ = none ∧ s.table pfd₁ = none ∧ pfd₀ ≠ pfd₁ ∧ pfd₀ < 1024 ∧ pfd₁ < 1024

instance (s : Caller) (pfd₀ pfd₁ : ℕ) : Decidable (PipeGives s pfd₀ pfd₁) :=
  inferInstanceAs (Decidable (_ ∧ _ ∧ _ ∧ _ ∧ _))

def ForkGives (s : Caller) (childPID : ℤ) : Prop :=
  0 < childPID ∧ ∀ k < s.calls, s.child k ≠ some childPID

instance (s : Caller) (childPID : ℤ) : Decidable (ForkGives s childPID) :=
  inferInstanceAs (Decidable (_ ∧ _))

/-- What the caller does behind a successful `fork`. -/
def parentSide (s : Caller) (type : Char) (pfd₀ pfd₁ : ℕ) (childPID : ℤ) (opened : Bool) :
    Caller where
  table := parentTable s type pfd₀ pfd₁
  fdPidMap := Function.update s.fdPidMap (saveFD type pfd₀ pfd₁) childPID
  calls := s.calls + 1
  stream := Function.update s.stream s.calls
    (if opened then some (saveFD type pfd₀ pfd₁) else none)
  child := Function.update s.child s.calls (some childPID)

def popen (s : Caller) (type : Char) (outcome : Outcome) : Option Caller :=
  if rejects type then some { s with calls := s.calls + 1 }
  else
    match outcome with
    | .pipeFails => some { s with calls := s.calls + 1 }
    | .forkFails pfd₀ pfd₁ =>
      if PipeGives s pfd₀ pfd₁ then
        some { s with table := withPipe s pfd₀ pfd₁, calls := s.calls + 1 }
      else none
    | .forked pfd₀ pfd₁ childPID opened =>
      if PipeGives s pfd₀ pfd₁ ∧ ForkGives s childPID then
        some (parentSide s type pfd₀ pfd₁ childPID opened)
      else none

/-- The pid that `my_pclose` passes to `waitpid`. -/
def waitsFor (s : Caller) (fd : ℕ) : Option ℤ :=
  if 0 < s.fdPidMap fd then some (s.fdPidMap fd) else none

/-- Whatever child has that pid is reaped. -/
def waitpid (s : Caller) (pid : ℤ) : Caller :=
  { s with child := fun k => if s.child k = some pid then none else s.child k }

def pclose (s : Caller) (k : ℕ) : Option Caller :=
  match s.stream k with
  | none => none
  | some fd =>
    let s := { s with stream := Function.update s.stream k none }
    match waitsFor s fd with
    | some pid => some (waitpid s pid)
    | none => some s

/-- The caller leaves the descriptors of its streams alone until they are passed to
`my_pclose`. -/
inductive Event where
  | popen (type : Char) (outcome : Outcome)
  | pclose (k : ℕ)
  | openOther (fd : ℕ)
  | closeOther (fd : ℕ)
  deriving DecidableEq

def step (s : Caller) : Event → Option Caller
  | .popen type outcome => popen s type outcome
  | .pclose k => pclose s k
  | .openOther fd =>
    if s.table fd = none then some { s with table := Function.update s.table fd (some .other) }
    else none
  | .closeOther fd =>
    if ∀ k < s.calls, s.stream k ≠ some fd then
      some { s with table := Function.update s.table fd none }
    else none

def Step (s : Caller) (e : Event) (t : Caller) : Prop := step s e = some t

theorem not_rejects (type : Char) : rejects type = false := by
  by_cases h : type = 'r'
  · simp [rejects, h]
  · simp [rejects, h]

inductive Moves (s : Caller) : Event → Caller → Prop where
  | pipeFails {type} : Moves s (.popen type .pipeFails) { s with calls := s.calls + 1 }
  | forkFails {type pfd₀ pfd₁} : PipeGives s pfd₀ pfd₁ →
      Moves s (.popen type (.forkFails pfd₀ pfd₁))
        { s with table := withPipe s pfd₀ pfd₁, calls := s.calls + 1 }
  | forked {type pfd₀ pfd₁ childPID opened} : PipeGives s pfd₀ pfd₁ → ForkGives s childPID →
      Moves s (.popen type (.forked pfd₀ pfd₁ childPID opened))
        (parentSide s type pfd₀ pfd₁ childPID opened)
  | waited {k fd pid} : s.stream k = some fd → waitsFor s fd = some pid →
      Moves s (.pclose k) (waitpid { s with stream := Function.update s.stream k none } pid)
  | notWaited {k fd} : s.stream k = some fd → waitsFor s fd = none →
      Moves s (.pclose k) { s with stream := Function.update s.stream k none }
  | openOther {fd} : s.table fd = none →
      Moves s (.openOther fd) { s with table := Function.update s.table fd (some .other) }
  | closeOther {fd} : (∀ k < s.calls, s.stream k ≠ some fd) →
      Moves s (.closeOther fd) { s with table := Function.update s.table fd none }

section Steps

variable {s t : Caller} {e : Event}

theorem moves_of_step (h : Step s e t) : Moves s e t := by
  cases e with
  | popen type outcome =>
    simp only [Step, step, popen, not_rejects, Bool.false_eq_true, if_false] at h
    cases outcome with
    | pipeFails =>
      cases h
      exact .pipeFails
    | forkFails pfd₀ pfd₁ =>
      simp only at h
      split at h
      · next hpipe =>
        cases h
        exact .forkFails hpipe
      · cases h
    | forked pfd₀ pfd₁ childPID opened =>
      simp only at h
      split at h
      · next hgives =>
        cases h
        exact .forked hgives.1 hgives.2
      · cases h
  | pclose k =>
    simp only [Step, step, pclose] at h
    split at h
    · cases h
    · next fd hstream =>
      split at h
      · next pid hwait =>
        cases h
        exact .waited hstream hwait
      · next hwait =>
        cases h
        exact .notWaited hstream hwait
  | openOther fd =>
    simp only [Step, step] at h
    split at h
    · next hfree =>
      cases h
      exact .openOther hfree
    · cases h
  | closeOther fd =>
    simp only [Step, step] at h
    split at h
    · next hother =>
      cases h
      exact .closeOther hother
    · cases h

theorem step_pclose {k fd : ℕ} {pid : ℤ} (hstream : s.stream k = some fd)
    (hwaits : waitsFor s fd = some pid) : Step s (.pclose k)
      (waitpid { s with stream := Function.update s.stream k none } pid) := by
  have hwaits' : waitsFor { s with stream := Function.update s.stream k none } fd = some pid :=
    hwaits
  simp [Step, step, pclose, hstream, hwaits']

theorem step_forkFails {type : Char} {pfd₀ pfd₁ : ℕ} (hgives : PipeGives s pfd₀ pfd₁) :
    Step s (.popen type (.forkFails pfd₀ pfd₁))
      { s with table := withPipe s pfd₀ pfd₁, calls := s.calls + 1 } := by
  simp [Step, step, popen, not_rejects, hgives]

theorem step_forked {type : Char} {pfd₀ pfd₁ : ℕ} {childPID : ℤ} {opened : Bool}
    (hgives : PipeGives s pfd₀ pfd₁) (hfork : ForkGives s childPID) :
    Step s (.popen type (.forked pfd₀ pfd₁ childPID opened))
      (parentSide s type pfd₀ pfd₁ childPID opened) := by
  simp [Step, step, popen, not_rejects, hgives, hfork]

end Steps

section Tables

variable {s : Caller} {type : Char} {pfd₀ pfd₁ fd : ℕ} {f : OpenFile}

theorem withPipe_of_ne (h₀ : fd ≠ pfd₀) (h₁ : fd ≠ pfd₁) :
    withPipe s pfd₀ pfd₁ fd = s.table fd := by
  rw [withPipe, Function.update_of_ne h₁, Function.update_of_ne h₀]

theorem parentTable_of_ne (h₀ : fd ≠ pfd₀) (h₁ : fd ≠ pfd₁) :
    parentTable s type pfd₀ pfd₁ fd = s.table fd := by
  have hclose : fd ≠ closeFD type pfd₀ pfd₁ := by
    unfold closeFD
    split
    · exact h₁
    · exact h₀
  rw [parentTable, Function.update_of_ne hclose, withPipe_of_ne h₀ h₁]

theorem parentTable_saveFD (hne : pfd₀ ≠ pfd₁) :
    parentTable s type pfd₀ pfd₁ (saveFD type pfd₀ pfd₁) =
      some (.pipe s.calls (keptSide type)) := by
  by_cases h : type = 'r'
  · simp [parentTable, saveFD, closeFD, keptSide, withPipe, h, hne]
  · simp [parentTable, saveFD, closeFD, keptSide, withPipe, h, hne.symm]

theorem parentTable_closeFD : parentTable s type pfd₀ pfd₁ (closeFD type pfd₀ pfd₁) = none := by
  rw [parentTable, Function.update_self]

theorem withPipe_some (h : withPipe s pfd₀ pfd₁ fd = some f) :
    (∃ side, f = .pipe s.calls side) ∨ s.table fd = some f := by
  by_cases h₁ : fd = pfd₁
  · rw [withPipe, h₁, Function.update_self, Option.some.injEq] at h
    exact .inl ⟨.write, h.symm⟩
  by_cases h₀ : fd = pfd₀
  · rw [withPipe, Function.update_of_ne h₁, h₀, Function.update_self, Option.some.injEq] at h
    exact .inl ⟨.read, h.symm⟩
  · rw [withPipe_of_ne h₀ h₁] at h
    exact .inr h

theorem parentTable_some (h : parentTable s type pfd₀ pfd₁ fd = some f) :
    (∃ side, f = .pipe s.calls side) ∨ s.table fd = some f := by
  by_cases hclose : fd = closeFD type pfd₀ pfd₁
  · rw [hclose, parentTable_closeFD] at h
    cases h
  · rw [parentTable, Function.update_of_ne hclose] at h
    exact withPipe_some h

theorem ne_of_open (hgives : PipeGives s pfd₀ pfd₁) (hopen : s.table fd = some f) :
    fd ≠ pfd₀ ∧ fd ≠ pfd₁ := by
  obtain ⟨hfree₀, hfree₁, -⟩ := hgives
  constructor
  · rintro rfl
    simp [hfree₀] at hopen
  · rintro rfl
    simp [hfree₁] at hopen

theorem ne_saveFD (type : Char) (hgives : PipeGives s pfd₀ pfd₁) (hopen : s.table fd = some f) :
    fd ≠ saveFD type pfd₀ pfd₁ := by
  obtain ⟨h₀, h₁⟩ := ne_of_open hgives hopen
  unfold saveFD
  split
  · exact h₀
  · exact h₁

end Tables

/-- The stream of a call is on an end of its pipe, and the map has its child. -/
structure Own (s : Caller) (k fd : ℕ) : Prop where
  pipe : ∃ side, s.table fd = some (.pipe k side)
  positive : 0 < s.fdPidMap fd
  child : s.child k = some (s.fdPidMap fd)

structure Invariant (s : Caller) : Prop where
  numbered : ∀ fd k side, s.table fd = some (.pipe k side) → k < s.calls
  forked : ∀ k pid, s.child k = some pid → k < s.calls
  distinct : ∀ j k pid, s.child j = some pid → s.child k = some pid → j = k
  own : ∀ k fd, s.stream k = some fd → Own s k fd

theorem invariant_initial (isOpen : ℕ → Bool) : Invariant (initial isOpen) where
  numbered fd k side h := by
    simp only [initial] at h
    split at h <;> simp at h
  forked k pid h := by simp [initial] at h
  distinct j k pid h := by simp [initial] at h
  own k fd h := by simp [initial] at h

section Invariance

variable {s t : Caller} {e : Event}

theorem stream_lt_calls (h : Invariant s) {k fd : ℕ} (hstream : s.stream k = some fd) :
    k < s.calls := h.forked k _ (h.own k fd hstream).child

theorem invariant_forkFails (h : Invariant s) {pfd₀ pfd₁ : ℕ} (hgives : PipeGives s pfd₀ pfd₁) :
    Invariant { s with table := withPipe s pfd₀ pfd₁, calls := s.calls + 1 } where
  numbered fd k side hfd := by
    rcases withPipe_some hfd with ⟨_, hnew⟩ | hold
    · cases hnew
      exact Nat.lt_succ_self _
    · exact Nat.lt_succ_of_lt (h.numbered fd k side hold)
  forked k pid hk := Nat.lt_succ_of_lt (h.forked k pid hk)
  distinct := h.distinct
  own k fd hk := by
    obtain ⟨⟨side, hpipe⟩, hpos, hchild⟩ := h.own k fd hk
    obtain ⟨h₀, h₁⟩ := ne_of_open hgives hpipe
    exact ⟨⟨side, by simpa only [withPipe_of_ne h₀ h₁] using hpipe⟩, hpos, hchild⟩

theorem parentSide_child (s : Caller) (type : Char) (pfd₀ pfd₁ k : ℕ) (childPID : ℤ)
    (opened : Bool) : (parentSide s type pfd₀ pfd₁ childPID opened).child k =
      if k = s.calls then some childPID else s.child k := Function.update_apply ..

theorem parentSide_child_new (h : Invariant s) {type : Char} {pfd₀ pfd₁ k : ℕ} {childPID : ℤ}
    {opened : Bool} (hfork : ForkGives s childPID)
    (hk : (parentSide s type pfd₀ pfd₁ childPID opened).child k = some childPID) :
    k = s.calls := by
  rw [parentSide_child] at hk
  by_contra hne
  rw [if_neg hne] at hk
  exact hfork.2 k (h.forked k _ hk) hk

theorem invariant_forked (h : Invariant s) {type : Char} {pfd₀ pfd₁ : ℕ} {childPID : ℤ}
    (hgives : PipeGives s pfd₀ pfd₁) (hfork : ForkGives s childPID) (opened : Bool) :
    Invariant (parentSide s type pfd₀ pfd₁ childPID opened) where
  numbered fd k side hfd := by
    rcases parentTable_some hfd with ⟨_, hnew⟩ | hold
    · cases hnew
      exact Nat.lt_succ_self _
    · exact Nat.lt_succ_of_lt (h.numbered fd k side hold)
  forked k pid hk := by
    rw [parentSide_child] at hk
    split at hk
    · next hnew => exact hnew ▸ Nat.lt_succ_self _
    · exact Nat.lt_succ_of_lt (h.forked k pid hk)
  distinct j k pid hj hk := by
    by_cases hpid : pid = childPID
    · subst pid
      rw [parentSide_child_new h hfork hj, parentSide_child_new h hfork hk]
    · rw [parentSide_child] at hj hk
      have hold : ∀ i, (if i = s.calls then some childPID else s.child i) = some pid →
          s.child i = some pid := by
        intro i hi
        split at hi
        · exact (hpid (Option.some.inj hi).symm).elim
        · exact hi
      exact h.distinct j k pid (hold j hj) (hold k hk)
  own k fd hk := by
    simp only [parentSide, Function.update_apply] at hk
    split at hk
    · next hnew =>
      split at hk
      · cases hk
        refine ⟨⟨_, hnew ▸ parentTable_saveFD hgives.2.2.1⟩, ?_, ?_⟩
        · simpa [parentSide] using hfork.1
        · simp [parentSide, hnew]
      · cases hk
    · next hold =>
      obtain ⟨⟨side, hpipe⟩, hpos, hchild⟩ := h.own k fd hk
      obtain ⟨h₀, h₁⟩ := ne_of_open hgives hpipe
      have hsave := ne_saveFD type hgives hpipe
      refine ⟨⟨side, (parentTable_of_ne h₀ h₁).trans hpipe⟩, ?_, ?_⟩
      · simpa [parentSide, hsave] using hpos
      · simpa [parentSide, hsave, hold] using hchild

theorem invariant_waited (h : Invariant s) {k fd : ℕ} {pid : ℤ} (hstream : s.stream k = some fd)
    (hwait : waitsFor s fd = some pid) :
    Invariant (waitpid { s with stream := Function.update s.stream k none } pid) where
  numbered := h.numbered
  forked j p hj := by
    simp only [waitpid] at hj
    split at hj
    · cases hj
    · exact h.forked j p hj
  distinct i j p hi hj := by
    simp only [waitpid] at hi hj
    split at hi
    · cases hi
    split at hj
    · cases hj
    · exact h.distinct i j p hi hj
  own j fd' hj := by
    simp only [waitpid, Function.update_apply] at hj
    split at hj
    · cases hj
    · next hne =>
      obtain ⟨hpipe, hpos, hchild⟩ := h.own j fd' hj
      have hown := (h.own k fd hstream).child
      rw [waitsFor, if_pos (h.own k fd hstream).positive, Option.some.injEq] at hwait
      rw [hwait] at hown
      have hother : s.child j ≠ some pid := fun hp => hne (h.distinct j k pid hp hown)
      exact ⟨hpipe, hpos, by simpa [waitpid, hother] using hchild⟩

theorem invariant_update (h : Invariant s) {fd : ℕ} {f : Option OpenFile}
    (hf : ∀ k side, f ≠ some (.pipe k side)) (hunused : ∀ k, s.stream k ≠ some fd) :
    Invariant { s with table := Function.update s.table fd f } where
  numbered fd' k side hk := by
    simp only [Function.update_apply] at hk
    split at hk
    · exact (hf k side hk).elim
    · exact h.numbered fd' k side hk
  forked := h.forked
  distinct := h.distinct
  own k fd' hk := by
    obtain ⟨⟨side, hpipe⟩, hpos, hchild⟩ := h.own k fd' hk
    have hne : fd' ≠ fd := by
      rintro rfl
      exact hunused k hk
    exact ⟨⟨side, by simpa [hne] using hpipe⟩, hpos, hchild⟩

theorem invariant_step (h : Invariant s) (hstep : Step s e t) : Invariant t := by
  cases moves_of_step hstep with
  | pipeFails =>
    exact ⟨fun fd k side hk => Nat.lt_succ_of_lt (h.numbered fd k side hk),
      fun k pid hk => Nat.lt_succ_of_lt (h.forked k pid hk), h.distinct,
      fun k fd hk => ⟨(h.own k fd hk).pipe, (h.own k fd hk).positive, (h.own k fd hk).child⟩⟩
  | forkFails hgives => exact invariant_forkFails h hgives
  | forked hgives hfork => exact invariant_forked h hgives hfork _
  | waited hstream hwait => exact invariant_waited h hstream hwait
  | notWaited hstream hwait =>
    rw [waitsFor, if_pos (h.own _ _ hstream).positive] at hwait
    cases hwait
  | openOther hfree =>
    apply invariant_update h (by simp)
    intro k hk
    obtain ⟨side, hpipe⟩ := (h.own k _ hk).pipe
    simp [hfree] at hpipe
  | closeOther hother =>
    apply invariant_update h (by simp)
    intro k hk
    exact hother k (stream_lt_calls h hk) hk

theorem invariant_reachable {isOpen : ℕ → Bool} (hs : Reachable Step (initial isOpen) s) :
    Invariant s := by
  obtain ⟨es, hrun⟩ := hs
  exact hrun.invariant (fun _ _ _ h hstep => invariant_step h hstep) (invariant_initial isOpen)

/-- `my_pclose` of a stream waits for the child of the call that returned it, which is then
gone, and for no other. -/
theorem pclose_waits_for_own_child {isOpen : ℕ → Bool}
    (hs : Reachable Step (initial isOpen) s) {k fd : ℕ} (hstream : s.stream k = some fd) :
    ∃ pid t, waitsFor s fd = some pid ∧ (∀ j, s.child j = some pid ↔ j = k) ∧
      Step s (.pclose k) t ∧ t.stream k = none ∧ t.child k = none ∧
      ∀ j, j ≠ k → t.child j = s.child j := by
  have h := invariant_reachable hs
  obtain ⟨-, hpos, hchild⟩ := h.own k fd hstream
  have hwaits : waitsFor s fd = some (s.fdPidMap fd) := if_pos hpos
  have hown : ∀ j, s.child j = some (s.fdPidMap fd) ↔ j = k := by
    intro j
    refine ⟨fun hj => h.distinct j k _ hj hchild, ?_⟩
    rintro rfl
    exact hchild
  refine ⟨s.fdPidMap fd, _, hwaits, hown, step_pclose hstream hwaits, ?_, ?_, ?_⟩
  · exact Function.update_self ..
  · exact if_pos hchild
  · intro j hj
    exact if_neg fun hpid => hj ((hown j).mp hpid)

end Invariance

def stdio (fd : ℕ) : Bool := fd < 3

/-- The descriptor of the first stream and the pid of its child are used again for a third
stream, while the second is still open. -/
theorem pclose_waits_after_reuse : ∃ s, Reachable Step (initial stdio) s ∧
    s.stream 1 = some 5 ∧ s.stream 2 = some 3 ∧
      ∃ pid t, waitsFor s 3 = some pid ∧ (∀ j, s.child j = some pid ↔ j = 2) ∧
        Step s (.pclose 2) t ∧ t.stream 2 = none ∧ t.child 2 = none ∧
        ∀ j, j ≠ 2 → t.child j = s.child j := by
  have hrun : (follow step (initial stdio) [.popen 'r' (.forked 3 4 100 true),
      .popen 'w' (.forked 4 5 101 true), .pclose 0, .closeOther 3, .openOther 4,
      .popen 'r' (.forked 3 6 100 true)]).map (fun s => (s.stream 1, s.stream 2)) =
      some (some 5, some 3) := by decide +kernel
  obtain ⟨s, hs, hstreams⟩ := Option.map_eq_some_iff.mp hrun
  obtain ⟨h₁, h₂⟩ := Prod.mk.inj hstreams
  have hreach : Reachable Step (initial stdio) s := ⟨_, follow_execution hs⟩
  exact ⟨s, hreach, h₁, h₂, pclose_waits_for_own_child hreach h₂⟩

end PopenPclose
