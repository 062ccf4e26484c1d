import LinuxProgramming.PopenPclose

/-! The descriptors of `my_popen` in the caller and in the child. The caller is left with those
of a pipe whose `fork` failed and with that of every stream, since `my_pclose` does not close
it; each later child inherits what is open. -/
namespace PopenDescriptors

open PopenPclose TransitionSystems

section Caller

def returnsNull (type : Char) (outcome : Outcome) : Bool :=
  rejects type ||
    match outcome with
    | .pipeFails => true
    | .forkFails _ _ => true
    | .forked _ _ _ opened => !opened

def CallStep (s : Caller) (e : Event) (t : Caller) : Prop :=
  Step s e t ∧ ((∃ type outcome, e = .popen type outcome) ∨ ∃ k, e = .pclose k)

/-- What is asked of a call: a `my_popen` that returns NULL leaves the descriptors as they were,
and `my_pclose` waits only when no end of the pipe is open any more. -/
def Tidy (s : Caller) (e : Event) (t : Caller) : Prop :=
  match e with
  | .popen type outcome => returnsNull type outcome = true → t.table = s.table
  | .pclose k => ∀ fd pid, s.stream k = some fd → waitsFor s fd = some pid →
      ∀ fd' side, s.table fd' ≠ some (.pipe k side)
  | _ => True

def Careful : Event → Prop
  | .popen _ .pipeFails => True
  | .popen _ (.forked _ _ _ opened) => opened = true
  | _ => False

variable {s t : Caller} {e : Event} {isOpen : ℕ → Bool}

theorem reachable_of_calls {es : List Event} (hrun : Execution CallStep (initial isOpen) es s) :
    Reachable Step (initial isOpen) s := ⟨es, hrun.mono fun _ _ _ h => h.1⟩

theorem withPipe_ne_table {pfd₀ pfd₁ : ℕ} (hgives : PipeGives s pfd₀ pfd₁) :
    withPipe s pfd₀ pfd₁ ≠ s.table := by
  intro h
  have hfree := hgives.2.1
  rw [← h] at hfree
  simp [withPipe] at hfree

theorem parentTable_ne_table (type : Char) {pfd₀ pfd₁ : ℕ} (hgives : PipeGives s pfd₀ pfd₁) :
    parentTable s type pfd₀ pfd₁ ≠ s.table := by
  intro h
  have hsave : parentTable s type pfd₀ pfd₁ (saveFD type pfd₀ pfd₁) = _ :=
    parentTable_saveFD hgives.2.2.1
  rw [h] at hsave
  exact ne_saveFD type hgives hsave rfl

theorem tidy_iff_careful (h : Invariant s) (hstep : CallStep s e t) : Tidy s e t ↔ Careful e := by
  obtain ⟨hstep, hcall⟩ := hstep
  cases moves_of_step hstep with
  | pipeFails => simp [Tidy, Careful]
  | forkFails hgives => simp [Tidy, Careful, returnsNull, withPipe_ne_table hgives]
  | @forked type pfd₀ pfd₁ childPID opened hgives hfork =>
    have hne := parentTable_ne_table type hgives
    simp [Tidy, Careful, returnsNull, not_rejects, parentSide, hne]
  | @waited k fd pid hstream hwait =>
    obtain ⟨side, hpipe⟩ := (h.own k fd hstream).pipe
    refine iff_of_false (fun htidy => ?_) not_false
    exact htidy fd pid hstream hwait fd side hpipe
  | notWaited hstream hwait =>
    rw [waitsFor, if_pos (h.own _ _ hstream).positive] at hwait
    cases hwait
  | openOther hfree => simp at hcall
  | closeOther hother => simp at hcall

/-- No call ever closes an end of a pipe that is in the table. -/
def PipeOpen (s : Caller) : Prop := ∃ fd k side, s.table fd = some (.pipe k side)

theorem pipe_stays {fd k : ℕ} {side : Side} (hpipe : s.table fd = some (.pipe k side))
    (hstep : CallStep s e t) : t.table fd = some (.pipe k side) := by
  obtain ⟨hstep, hcall⟩ := hstep
  cases moves_of_step hstep with
  | pipeFails => exact hpipe
  | forkFails hgives =>
    obtain ⟨h₀, h₁⟩ := ne_of_open hgives hpipe
    exact (withPipe_of_ne h₀ h₁).trans hpipe
  | forked hgives hfork =>
    obtain ⟨h₀, h₁⟩ := ne_of_open hgives hpipe
    exact (parentTable_of_ne h₀ h₁).trans hpipe
  | waited hstream hwait => exact hpipe
  | notWaited hstream hwait => exact hpipe
  | openOther hfree => simp at hcall
  | closeOther hother => simp at hcall

theorem pipeOpen_step (h : PipeOpen s) (hstep : CallStep s e t) : PipeOpen t := by
  obtain ⟨fd, k, side, hpipe⟩ := h
  exact ⟨fd, k, side, pipe_stays hpipe hstep⟩

theorem not_pipeOpen_initial (isOpen : ℕ → Bool) : ¬ PipeOpen (initial isOpen) := by
  rintro ⟨fd, k, side, h⟩
  exact absurd ((invariant_initial isOpen).numbered fd k side h) (Nat.not_lt_zero k)

theorem pipeOpen_or_pipeFails (h : Invariant s) (hstep : CallStep s e t) :
    PipeOpen t ∨ ∃ type, e = .popen type .pipeFails := by
  obtain ⟨hstep, hcall⟩ := hstep
  cases moves_of_step hstep with
  | pipeFails => exact .inr ⟨_, rfl⟩
  | @forkFails type pfd₀ pfd₁ hgives =>
    exact .inl ⟨pfd₁, s.calls, .write, by simp [withPipe]⟩
  | forked hgives hfork => exact .inl ⟨_, _, _, parentTable_saveFD hgives.2.2.1⟩
  | @waited k fd pid hstream hwait =>
    obtain ⟨side, hpipe⟩ := (h.own k fd hstream).pipe
    exact .inl ⟨fd, k, side, hpipe⟩
  | @notWaited k fd hstream hwait =>
    obtain ⟨side, hpipe⟩ := (h.own k fd hstream).pipe
    exact .inl ⟨fd, k, side, hpipe⟩
  | openOther hfree => simp at hcall
  | closeOther hother => simp at hcall

theorem pipeOpen_or_no_pipe {es : List Event}
    (hrun : Execution CallStep (initial isOpen) es s) :
    PipeOpen s ∨ ∀ e ∈ es, ∃ type, e = .popen type .pipeFails := by
  induction hrun with
  | refl => exact .inr (by simp)
  | tail hrun hstep ih =>
    rcases ih with hopen | hes
    · exact .inl (pipeOpen_step hopen hstep)
    · have hinv := invariant_reachable (reachable_of_calls hrun)
      rcases pipeOpen_or_pipeFails hinv hstep with hopen | hlast
      · exact .inl hopen
      · refine .inr fun e he => ?_
        rcases List.mem_append.mp he with hmem | hmem
        · exact hes e hmem
        · exact List.mem_singleton.mp hmem ▸ hlast

theorem table_of_pipeFails {es : List Event} (hrun : Execution CallStep (initial isOpen) es s)
    (hes : ∀ e ∈ es, ∃ type, e = .popen type .pipeFails) : s.table = (initial isOpen).table := by
  induction hrun with
  | refl => rfl
  | tail hrun hstep ih =>
    obtain ⟨type, rfl⟩ := hes _ (List.mem_append_right _ List.mem_cons_self)
    cases moves_of_step hstep.1
    exact ih fun e he => hes e (List.mem_append_left _ he)

/-- In every state that the two calls can reach, a further call is tidy exactly when it is a
`my_popen` whose `pipe` fails or that returns a stream; and the descriptors are again those of
the beginning only if no call has got past `pipe`. -/
theorem caller_descriptors_iff {es : List Event}
    (hrun : Execution CallStep (initial isOpen) es s) :
    (∀ e t, CallStep s e t → (Tidy s e t ↔ Careful e)) ∧
      (s.table = (initial isOpen).table ↔ ∀ e ∈ es, ∃ type, e = .popen type .pipeFails) := by
  have hinv := invariant_reachable (reachable_of_calls hrun)
  refine ⟨fun e t hstep => tidy_iff_careful hinv hstep, fun htable => ?_,
    table_of_pipeFails hrun⟩
  rcases pipeOpen_or_no_pipe hrun with ⟨fd, k, side, hpipe⟩ | hes
  · rw [htable] at hpipe
    exact (not_pipeOpen_initial isOpen ⟨fd, k, side, hpipe⟩).elim
  · exact hes

theorem careful_call_tidy : ∃ s t, Reachable CallStep (initial stdio) s ∧
    CallStep s (.popen 'w' (.forked 3 4 100 true)) t ∧
      Tidy s (.popen 'w' (.forked 3 4 100 true)) t ∧ s.table = (initial stdio).table := by
  let s := { initial stdio with calls := 1 }
  have hfails : CallStep (initial stdio) (.popen 'r' .pipeFails) s := ⟨rfl, .inl ⟨_, _, rfl⟩⟩
  have hpopen : CallStep s (.popen 'w' (.forked 3 4 100 true)) _ :=
    ⟨step_forked (by decide) (by decide), .inl ⟨_, _, rfl⟩⟩
  obtain ⟨htidy, htable⟩ := caller_descriptors_iff (.single hfails)
  exact ⟨s, _, ⟨_, .single hfails⟩, hpopen, (htidy _ _ hpopen).mpr rfl, htable.mpr (by simp)⟩

/-- A stream is opened and closed again: `my_pclose` waits with the descriptor of the stream
open, and leaves it open. A `my_popen` whose `fork` fails leaves both ends open. -/
theorem descriptors_left_open :
    (∃ s t, Reachable CallStep (initial stdio) s ∧ CallStep s (.pclose 0) t ∧
      waitsFor s 3 = some 100 ∧ s.table 3 = some (.pipe 0 .read) ∧
      (∀ k < t.calls, t.stream k = none) ∧ t.table ≠ (initial stdio).table) ∧
    ∃ t, CallStep (initial stdio) (.popen 'r' (.forkFails 3 4)) t ∧
      returnsNull 'r' (.forkFails 3 4) = true ∧ t.table ≠ (initial stdio).table := by
  have hgives : PipeGives (initial stdio) 3 4 := by decide
  constructor
  · let s := parentSide (initial stdio) 'r' 3 4 100 true
    have hpopen : CallStep (initial stdio) (.popen 'r' (.forked 3 4 100 true)) s :=
      ⟨step_forked hgives (by decide), .inl ⟨_, _, rfl⟩⟩
    refine ⟨s, _, ⟨_, .single hpopen⟩, ⟨rfl, .inr ⟨0, rfl⟩⟩, rfl, rfl, by decide, fun h => ?_⟩
    exact absurd (congrFun h 3) (by decide)
  · exact ⟨_, ⟨step_forkFails hgives, .inl ⟨_, _, rfl⟩⟩, rfl, withPipe_ne_table hgives⟩

end Caller

section Child

def redirect (table : Table) (fd target : ℕ) : Table :=
  if fd ≠ target then
    Function.update (Function.update table target (table fd)) fd none
  else table

/-- The descriptors of the child when it executes the shell. -/
def childTable (s : Caller) (type : Char) (pfd₀ pfd₁ : ℕ) : Table :=
  if type = 'r' then redirect (Function.update (withPipe s pfd₀ pfd₁) pfd₀ none) pfd₁ 1
  else if type = 'w' then redirect (Function.update (withPipe s pfd₀ pfd₁) pfd₁ none) pfd₀ 0
  else withPipe s pfd₀ pfd₁

/-- Standard output for a child that is read from, standard input otherwise. -/
def childFD (type : Char) : ℕ := if type = 'r' then 1 else 0

def childSide (type : Char) : Side := if type = 'r' then .write else .read

/-- The only descriptor on a pipe of `my_popen` is the child's own end. -/
def OwnEndOnly (s : Caller) (type : Char) (pfd₀ pfd₁ : ℕ) : Prop :=
  ∀ fd k side, childTable s type pfd₀ pfd₁ fd = some (.pipe k side) ↔
    fd = childFD type ∧ k = s.calls ∧ side = childSide type

variable {s : Caller} {type : Char} {pfd₀ pfd₁ : ℕ}

theorem redirect_apply {table : Table} {a b target fd : ℕ} (hab : a ≠ b) :
    redirect (Function.update table a none) b target fd =
      if fd = target then table b else if fd = a ∨ fd = b then none else table fd := by
  unfold redirect
  by_cases hb : b = target
  · subst b
    by_cases hfd : fd = target
    · simp [hfd, hab.symm]
    · simp [hfd, Function.update_apply]
  · by_cases hfd : fd = target
    · subst fd
      simp [hb, hab.symm, Ne.symm hb]
    · by_cases hfb : fd = b
      · simp [hb, hfb]
      · simp [hb, hfd, hfb, Function.update_apply]

/-- The child has its own end where the shell expects it, and what the caller had elsewhere. -/
theorem childTable_apply (htype : type = 'r' ∨ type = 'w') (hgives : PipeGives s pfd₀ pfd₁)
    (fd : ℕ) : childTable s type pfd₀ pfd₁ fd =
      if fd = childFD type then some (.pipe s.calls (childSide type)) else s.table fd := by
  obtain ⟨hfree₀, hfree₁, hne, -⟩ := hgives
  have hrest : (if fd = pfd₀ ∨ fd = pfd₁ then none else withPipe s pfd₀ pfd₁ fd) =
      s.table fd := by
    split
    · next h =>
      rcases h with rfl | rfl
      · exact hfree₀.symm
      · exact hfree₁.symm
    · next h =>
      rw [not_or] at h
      exact withPipe_of_ne h.1 h.2
  rcases htype with rfl | rfl
  · have hend : withPipe s pfd₀ pfd₁ pfd₁ = some (.pipe s.calls .write) := by simp [withPipe]
    simp only [childTable, if_true, redirect_apply hne, hend, hrest, childFD, childSide]
  · have hend : withPipe s pfd₀ pfd₁ pfd₀ = some (.pipe s.calls .read) := by
      simp [withPipe, hne]
    have hswap : (if fd = pfd₁ ∨ fd = pfd₀ then none else withPipe s pfd₀ pfd₁ fd) =
        s.table fd := by simpa only [or_comm] using hrest
    simp [childTable, redirect_apply hne.symm, hend, hswap, childFD, childSide]

theorem not_ownEndOnly (hread : type ≠ 'r') (hwrite : type ≠ 'w') :
    ¬ OwnEndOnly s type pfd₀ pfd₁ := by
  intro h
  have hend : childTable s type pfd₀ pfd₁ pfd₁ = some (.pipe s.calls .write) := by
    simp [childTable, hread, hwrite, withPipe]
  have hside := ((h _ _ _).mp hend).2.2
  simp [childSide, hread] at hside

theorem ownEndOnly_of_step {t : Caller} {childPID : ℤ} {opened : Bool}
    (hstep : Step s (.popen type (.forked pfd₀ pfd₁ childPID opened)) t) :
    OwnEndOnly s type pfd₀ pfd₁ ↔ (type = 'r' ∨ type = 'w') ∧
      ∀ fd k side, s.table fd = some (.pipe k side) → fd = childFD type := by
  have hgives : PipeGives s pfd₀ pfd₁ := by
    cases moves_of_step hstep with
    | forked hgives _ => exact hgives
  constructor
  · intro h
    have htype : type = 'r' ∨ type = 'w' := by
      by_contra hnot
      rw [not_or] at hnot
      exact not_ownEndOnly hnot.1 hnot.2 h
    refine ⟨htype, fun fd k side hpipe => ?_⟩
    by_contra hfd
    have hchild : childTable s type pfd₀ pfd₁ fd = some (.pipe k side) := by
      rw [childTable_apply htype hgives, if_neg hfd, hpipe]
    exact hfd ((h _ _ _).mp hchild).1
  · rintro ⟨htype, hearlier⟩ fd k side
    rw [childTable_apply htype hgives]
    by_cases hfd : fd = childFD type
    · simp [hfd, eq_comm]
    · simp only [hfd, false_and, iff_false]
      exact fun hpipe => hfd (hearlier fd k side hpipe)

def pastPipe : Event → Bool
  | .popen _ (.forkFails _ _) => true
  | .popen _ (.forked _ _ _ _) => true
  | _ => false

def TwoEnds (s : Caller) : Prop :=
  ∃ fd fd' k k' side side', fd ≠ fd' ∧ s.table fd = some (.pipe k side) ∧
    s.table fd' = some (.pipe k' side')

theorem new_end {e : Event} {t : Caller} (hpast : pastPipe e = true) (hstep : CallStep s e t) :
    ∃ fd k side, s.table fd = none ∧ t.table fd = some (.pipe k side) := by
  obtain ⟨hstep, -⟩ := hstep
  cases moves_of_step hstep with
  | @forkFails type pfd₀ pfd₁ hgives =>
    exact ⟨pfd₁, s.calls, .write, hgives.2.1, by simp [withPipe]⟩
  | @forked type pfd₀ pfd₁ childPID opened hgives hfork =>
    refine ⟨saveFD type pfd₀ pfd₁, s.calls, keptSide type, ?_, parentTable_saveFD hgives.2.2.1⟩
    unfold saveFD
    split
    · exact hgives.1
    · exact hgives.2.1
  | pipeFails | waited | notWaited | openOther | closeOther => cases hpast

theorem pipeOpen_of_pastPipe {isOpen : ℕ → Bool} {es : List Event}
    (hrun : Execution CallStep (initial isOpen) es s) (hpast : 1 ≤ es.countP pastPipe) :
    PipeOpen s := by
  induction hrun with
  | refl => cases hpast
  | @tail es t e u hrun hstep ih =>
    rw [List.countP_append, List.countP_singleton] at hpast
    by_cases he : pastPipe e = true
    · obtain ⟨fd, k, side, -, hpipe⟩ := new_end he hstep
      exact ⟨fd, k, side, hpipe⟩
    · rw [if_neg he] at hpast
      exact pipeOpen_step (ih hpast) hstep

theorem twoEnds_of_pastPipe {isOpen : ℕ → Bool} {es : List Event}
    (hrun : Execution CallStep (initial isOpen) es s) (hpast : 2 ≤ es.countP pastPipe) :
    TwoEnds s := by
  induction hrun with
  | refl => cases hpast
  | @tail es t e u hrun hstep ih =>
    rw [List.countP_append, List.countP_singleton] at hpast
    by_cases he : pastPipe e = true
    · rw [if_pos he] at hpast
      obtain ⟨fd, k, side, hold⟩ := pipeOpen_of_pastPipe hrun (by omega)
      obtain ⟨fd', k', side', hfree, hnew⟩ := new_end he hstep
      have hne : fd ≠ fd' := by
        rintro rfl
        rw [hold] at hfree
        cases hfree
      exact ⟨fd, fd', k, k', side, side', hne, pipe_stays hold hstep, hnew⟩
    · rw [if_neg he] at hpast
      obtain ⟨fd, fd', k, k', side, side', hne, h, h'⟩ := ih hpast
      exact ⟨fd, fd', k, k', side, side', hne, pipe_stays h hstep, pipe_stays h' hstep⟩

/-- Nothing is on a pipe of an earlier call when the descriptor that the child replaces is the
only one in the caller that may be. Along a run of the two calls this is possible for the first
two pipes only. -/
theorem ownEndOnly_iff {s t : Caller} {type : Char} {pfd₀ pfd₁ : ℕ} {childPID : ℤ}
    {opened : Bool} (hstep : Step s (.popen type (.forked pfd₀ pfd₁ childPID opened)) t) :
    (OwnEndOnly s type pfd₀ pfd₁ ↔ (type = 'r' ∨ type = 'w') ∧
      ∀ fd k side, s.table fd = some (.pipe k side) → fd = childFD type) ∧
    ∀ (isOpen : ℕ → Bool) (es : List Event), Execution CallStep (initial isOpen) es s →
      2 ≤ es.countP pastPipe → ¬ OwnEndOnly s type pfd₀ pfd₁ := by
  refine ⟨ownEndOnly_of_step hstep, ?_⟩
  intro isOpen es hrun hpast hown
  obtain ⟨fd, fd', k, k', side, side', hne, h, h'⟩ := twoEnds_of_pastPipe hrun hpast
  obtain ⟨-, honly⟩ := (ownEndOnly_of_step hstep).mp hown
  exact hne ((honly fd k side h).trans (honly fd' k' side' h').symm)

/-- A caller without standard input: the stream of the first call is descriptor 0, which the
second child replaces, and the third child inherits the stream of the second call. -/
theorem replaced_stream_clean :
    ∃ s t u, Reachable CallStep (initial fun fd => fd = 1 ∨ fd = 2) s ∧ s.stream 0 = some 0 ∧
      CallStep s (.popen 'w' (.forked 3 4 101 true)) t ∧ OwnEndOnly s 'w' 3 4 ∧
      CallStep t (.popen 'w' (.forked 3 5 102 true)) u ∧ ¬ OwnEndOnly t 'w' 3 5 := by
  let start := initial fun fd => fd = 1 ∨ fd = 2
  let s := parentSide start 'r' 0 3 100 true
  have hfirst : CallStep start (.popen 'r' (.forked 0 3 100 true)) s :=
    ⟨step_forked (by decide) (by decide), .inl ⟨_, _, rfl⟩⟩
  have hsecond : CallStep s (.popen 'w' (.forked 3 4 101 true)) _ :=
    ⟨step_forked (by decide) (by decide), .inl ⟨_, _, rfl⟩⟩
  have hthird : CallStep (parentSide s 'w' 3 4 101 true) (.popen 'w' (.forked 3 5 102 true)) _ :=
    ⟨step_forked (by decide) (by decide), .inl ⟨_, _, rfl⟩⟩
  refine ⟨s, _, _, ⟨_, .single hfirst⟩, rfl, hsecond, ?_, hthird, ?_⟩
  · refine (ownEndOnly_iff hsecond.1).1.mpr ⟨.inr rfl, fun fd k side hpipe => ?_⟩
    by_contra hfd
    by_cases hclosed : fd = 3
    · rw [hclosed] at hpipe
      cases (show s.table 3 = none from rfl).symm.trans hpipe
    · have hold : start.table fd = some (.pipe k side) :=
        (parentTable_of_ne hfd hclosed).symm.trans hpipe
      exact not_pipeOpen_initial _ ⟨fd, k, side, hold⟩
  · exact (ownEndOnly_iff hthird.1).2 _ _ (.tail (.single hfirst) hsecond) (by decide)

theorem second_child_inherits : ∃ s t, Reachable CallStep (initial stdio) s ∧
    s.stream 0 = some 3 ∧ CallStep s (.popen 'w' (.forked 4 5 101 true)) t ∧
      childTable s 'w' 4 5 3 = some (.pipe 0 .read) ∧ ¬ OwnEndOnly s 'w' 4 5 := by
  let s := parentSide (initial stdio) 'r' 3 4 100 true
  have hfirst : CallStep (initial stdio) (.popen 'r' (.forked 3 4 100 true)) s :=
    ⟨step_forked (by decide) (by decide), .inl ⟨_, _, rfl⟩⟩
  have hsecond : CallStep s (.popen 'w' (.forked 4 5 101 true)) _ :=
    ⟨step_forked (by decide) (by decide), .inl ⟨_, _, rfl⟩⟩
  have hleft : childTable s 'w' 4 5 3 = some (.pipe 0 .read) := by decide
  refine ⟨s, _, ⟨_, .single hfirst⟩, rfl, hsecond, hleft, fun h => ?_⟩
  exact absurd ((h _ _ _).mp hleft).1 (by decide)

end Child

end PopenDescriptors
