import LinuxProgramming.DescriptorTables
import Mathlib.Data.Int.Order.Basic

/-! `becomeDaemon`: two forks around `setsid`, then the mask, the directory and the descriptors.
The process in which it returns 0 has no terminal and cannot get one, and of what it had open
only `/dev/null` is left, on the three standard descriptors. -/
namespace BecomeDaemon

open DescriptorTables

variable {File : Type}

structure Process (File : Type) where
  pid : ℕ
  pgrp : ℕ
  sid : ℕ
  /-- Whether the session has a controlling terminal. -/
  terminal : Bool
  umask : ℕ
  atRoot : Bool
  files : Table File

/-- The results of the calls: the pids that `fork` gives, whether `chdir` succeeds, the limit of
`sysconf`, whether `/dev/null` can be opened. -/
structure Calls (File : Type) where
  firstFork : Option ℕ
  secondFork : Option ℕ
  chdir : Bool
  openMax : Option ℕ
  devNull : Option File

def noChdir : ℕ := 1
def noCloseFiles : ℕ := 2
def noReopenStdFds : ℕ := 4
def noUmask0 : ℕ := 8

def maxClose : ℕ := 8192

def Process.fork (p : Process File) (child : ℕ) : Process File := { p with pid := child }

/-- Not for the leader of a process group. -/
def Process.setsid (p : Process File) : Option (Process File) :=
  if p.pgrp = p.pid then none
  else some { p with pgrp := p.pid, sid := p.pid, terminal := false }

def closeAll (t : Table File) (maxfd : ℕ) : Table File :=
  (List.range maxfd).foldl (fun t (fd : ℕ) => t.close fd) t

def dup2 (t : Table File) (oldfd newfd : ℤ) : Option (Table File) :=
  match t.entry oldfd with
  | none => none
  | some file => if 0 ≤ newfd ∧ newfd < t.limit then some (t.install newfd file) else none

/-- The standard descriptors on `/dev/null`; what is done so far is kept on failure. -/
def reopen (calls : Calls File) (t : Table File) : Except (Table File) (Table File) :=
  let closed := t.close 0
  match calls.devNull, closed.lowestFree 0 with
  | some file, some fd =>
    let opened := closed.install fd file
    if fd ≠ 0 then .error opened
    else match dup2 opened 0 1 with
      | none => .error opened
      | some once =>
        match dup2 once 0 2 with
        | none => .error once
        | some twice => .ok twice
  | _, _ => .error closed

/-- What is returned, and the process in which it is; the parents leave with `_exit`. -/
def becomeDaemon (flags : ℕ) (calls : Calls File) (p : Process File) : ℤ × Process File :=
  match calls.firstFork with
  | none => (-1, p)
  | some child =>
    match (p.fork child).setsid with
    | none => (-1, p.fork child)
    | some leader =>
      match calls.secondFork with
      | none => (-1, leader)
      | some grandchild =>
        let p := leader.fork grandchild
        let p := if flags &&& noUmask0 = 0 then { p with umask := 0 } else p
        -- the result of `chdir` is not looked at
        let p := if flags &&& noChdir = 0 then { p with atRoot := calls.chdir || p.atRoot } else p
        let p := if flags &&& noCloseFiles = 0 then
          { p with files := closeAll p.files (calls.openMax.getD maxClose) } else p
        if flags &&& noReopenStdFds = 0 then
          match reopen calls p.files with
          | .error files => (-1, { p with files := files })
          | .ok files => (0, { p with files := files })
        else (0, p)

section Descriptors

variable {t : Table File} {calls : Calls File} {fd : ℤ}

theorem closeAll_entry (t : Table File) (maxfd : ℕ) (fd : ℤ) :
    (closeAll t maxfd).limit = t.limit ∧
    (closeAll t maxfd).entry fd = if 0 ≤ fd ∧ fd < maxfd then none else t.entry fd := by
  induction maxfd with
  | zero =>
    refine ⟨rfl, ?_⟩
    rw [if_neg (by omega)]
    rfl
  | succ n ih =>
    obtain ⟨hlimit, hentry⟩ := ih
    have hlast : closeAll t (n + 1) = (closeAll t n).close n := by
      simp [closeAll, List.range_succ]
    refine ⟨hlast ▸ hlimit, ?_⟩
    rw [hlast, Table.close_entry, hentry]
    by_cases hn : fd = n
    · rw [if_pos hn, if_pos (by omega)]
    · rw [if_neg hn]
      exact if_congr (by omega) rfl rfl

theorem dup2_eq_some {oldfd newfd : ℤ} {file : File} (hopen : t.entry oldfd = some file) :
    dup2 t oldfd newfd = if 0 ≤ newfd ∧ newfd < t.limit then some (t.install newfd file)
      else none := by
  simp only [dup2, hopen]

def nulled (t : Table File) (file : File) : Table File :=
  (((t.close 0).install 0 file).install 1 file).install 2 file

theorem reopen_eq {file : File} (hnull : calls.devNull = some file) (hpos : 0 < t.limit) :
    reopen calls t = if 1 < t.limit then
        if 2 < t.limit then .ok (nulled t file)
        else .error (((t.close 0).install 0 file).install 1 file)
      else .error ((t.close 0).install 0 file) := by
  have h0 : (0 : ℤ) < (t.close 0).limit := by exact_mod_cast hpos
  have hfree : (t.close 0).lowestFree 0 = some 0 := Table.lowestFree_eq_some.mpr
    ⟨le_rfl, le_rfl, h0, by simp [Table.close], fun k hk hk' => by omega⟩
  have hopened : ((t.close 0).install 0 file).entry 0 = some file := by
    rw [Table.install_entry le_rfl h0, if_pos rfl]
  have honce : (((t.close 0).install 0 file).install 1 file).entry 0 = some file := by
    simp only [Table.install] at hopened ⊢
    simpa using hopened
  have hlimit : ((t.close 0).install 0 file).limit = t.limit := rfl
  have hlimit' : (((t.close 0).install 0 file).install 1 file).limit = t.limit := rfl
  simp only [reopen, hnull, hfree, ne_eq, not_true_eq_false, if_false, dup2_eq_some hopened,
    hlimit]
  by_cases hone : 1 < t.limit
  · rw [if_pos hone, if_pos (by omega)]
    simp only [dup2_eq_some honce, hlimit']
    by_cases htwo : 2 < t.limit
    · rw [if_pos htwo, if_pos (by omega)]
      rfl
    · rw [if_neg htwo, if_neg (by omega)]
  · rw [if_neg hone, if_neg (by omega)]

/-- Three descriptors are needed, and `/dev/null`. -/
theorem reopen_ok_iff {u : Table File} : reopen calls t = .ok u ↔
    ∃ file, calls.devNull = some file ∧ 3 ≤ t.limit ∧ u = nulled t file := by
  cases hnull : calls.devNull with
  | none => simp [reopen, hnull]
  | some file =>
    by_cases hpos : 0 < t.limit
    · rw [reopen_eq hnull hpos]
      split
      · split
        · next htwo =>
          constructor
          · intro h
            cases h
            exact ⟨file, rfl, htwo, rfl⟩
          · rintro ⟨_, hfile, -, rfl⟩
            cases hfile
            rfl
        · next htwo => exact iff_of_false nofun fun ⟨_, _, h, _⟩ => htwo h
      · next hone => exact iff_of_false nofun fun ⟨_, _, h, _⟩ => hone (by omega)
    · have hfull : (t.close 0).lowestFree 0 = none := by
        cases hfree : (t.close 0).lowestFree 0 with
        | none => rfl
        | some fd =>
          have hlt : fd < t.limit := (Table.lowestFree_eq_some.mp hfree).2.2.1
          have hle := (Table.lowestFree_eq_some.mp hfree).2.1
          omega
      refine iff_of_false ?_ fun ⟨_, _, h, _⟩ => hpos (by omega)
      simp [reopen, hnull, hfull]

theorem nulled_entry {file : File} (hlimit : 3 ≤ t.limit) (fd : ℤ) :
    (nulled t file).entry fd = if 0 ≤ fd ∧ fd ≤ 2 then some file else t.entry fd := by
  have hclose : (t.close 0).limit = t.limit := rfl
  simp only [nulled, Table.install, Table.close_entry, hclose]
  by_cases h : 0 ≤ fd ∧ fd ≤ 2
  · have hcases : fd = 0 ∨ fd = 1 ∨ fd = 2 := by omega
    rcases hcases with rfl | rfl | rfl <;> simp <;> omega
  · rw [if_neg h, if_neg (by omega), if_neg (by omega), if_neg (by omega), if_neg (by omega)]

end Descriptors

section Results

variable {flags : ℕ} {calls : Calls File} {p : Process File} {child grandchild : ℕ}

def remaining (flags : ℕ) (calls : Calls File) (t : Table File) : Table File :=
  if flags &&& noCloseFiles = 0 then closeAll t (calls.openMax.getD maxClose) else t

def reopened (flags : ℕ) (calls : Calls File) (t : Table File) :
    Except (Table File) (Table File) :=
  if flags &&& noReopenStdFds = 0 then reopen calls (remaining flags calls t)
  else .ok (remaining flags calls t)

def daemon (flags : ℕ) (calls : Calls File) (p : Process File) (child grandchild : ℕ)
    (files : Table File) : Process File where
  pid := grandchild
  pgrp := child
  sid := child
  terminal := false
  umask := if flags &&& noUmask0 = 0 then 0 else p.umask
  atRoot := if flags &&& noChdir = 0 then calls.chdir || p.atRoot else p.atRoot
  files := files

theorem becomeDaemon_eq (hfirst : calls.firstFork = some child) (hgroup : p.pgrp ≠ child)
    (hsecond : calls.secondFork = some grandchild) : becomeDaemon flags calls p =
      match reopened flags calls p.files with
      | .error files => (-1, daemon flags calls p child grandchild files)
      | .ok files => (0, daemon flags calls p child grandchild files) := by
  have hsetsid : (p.fork child).setsid =
      some { p.fork child with pgrp := child, sid := child, terminal := false } := if_neg hgroup
  simp only [becomeDaemon, hfirst, hsetsid, hsecond, reopened]
  by_cases hu : flags &&& noUmask0 = 0 <;> by_cases hc : flags &&& noChdir = 0 <;>
    by_cases hf : flags &&& noCloseFiles = 0 <;> by_cases ho : flags &&& noReopenStdFds = 0 <;>
    simp only [hu, hc, hf, ho, if_true, if_false, remaining, daemon, Process.fork]

theorem remaining_entry (flags : ℕ) (calls : Calls File) (t : Table File) (fd : ℤ) :
    (remaining flags calls t).limit = t.limit ∧ (remaining flags calls t).entry fd =
      if flags &&& noCloseFiles = 0 ∧ 0 ≤ fd ∧ fd < calls.openMax.getD maxClose then none
      else t.entry fd := by
  obtain ⟨hlimit, hentry⟩ := closeAll_entry t (calls.openMax.getD maxClose) fd
  rw [remaining]
  by_cases hflag : flags &&& noCloseFiles = 0
  · rw [if_pos hflag]
    exact ⟨hlimit, hentry.trans (if_congr (by simp [hflag]) rfl rfl)⟩
  · rw [if_neg hflag]
    exact ⟨rfl, (if_neg fun h => hflag h.1).symm⟩

theorem reopened_ok {u : Table File} (h : reopened flags calls p.files = .ok u) :
    (flags &&& noReopenStdFds = 0 → calls.devNull.isSome ∧ 3 ≤ p.files.limit) ∧
    ∀ fd, u.entry fd = if flags &&& noReopenStdFds = 0 ∧ 0 ≤ fd ∧ fd ≤ 2 then calls.devNull
      else if flags &&& noCloseFiles = 0 ∧ 0 ≤ fd ∧ fd < calls.openMax.getD maxClose then none
      else p.files.entry fd := by
  have hlimit := (remaining_entry flags calls p.files 0).1
  have hentry := fun fd => (remaining_entry flags calls p.files fd).2
  by_cases hflag : flags &&& noReopenStdFds = 0
  · rw [reopened, if_pos hflag] at h
    obtain ⟨file, hnull, hthree, rfl⟩ := reopen_ok_iff.mp h
    refine ⟨fun _ => ⟨by simp [hnull], hlimit ▸ hthree⟩, fun fd => ?_⟩
    rw [nulled_entry hthree, hentry, hnull]
    exact if_congr (by simp [hflag]) rfl rfl
  · rw [reopened, if_neg hflag] at h
    cases h
    refine ⟨fun h => absurd h hflag, fun fd => ?_⟩
    rw [hentry]
    exact (if_neg fun h => hflag h.1).symm

theorem reopened_succeeds
    (h : flags &&& noReopenStdFds = 0 → calls.devNull.isSome ∧ 3 ≤ p.files.limit) :
    ∃ u, reopened flags calls p.files = .ok u := by
  by_cases hflag : flags &&& noReopenStdFds = 0
  · obtain ⟨hnull, hthree⟩ := h hflag
    obtain ⟨file, hnull⟩ := Option.isSome_iff_exists.mp hnull
    have hlimit := (remaining_entry flags calls p.files 0).1
    exact ⟨_, (if_pos hflag).trans (reopen_ok_iff.mpr ⟨file, hnull, hlimit.symm ▸ hthree, rfl⟩)⟩
  · exact ⟨_, if_neg hflag⟩

theorem becomeDaemon_returns (flags : ℕ) (calls : Calls File) (p : Process File) :
    (becomeDaemon flags calls p).1 = -1 ∨ (becomeDaemon flags calls p).1 = 0 := by
  cases hfirst : calls.firstFork with
  | none => simp [becomeDaemon, hfirst]
  | some child =>
    cases hsetsid : (p.fork child).setsid with
    | none => simp [becomeDaemon, hfirst, hsetsid]
    | some leader =>
      cases hsecond : calls.secondFork with
      | none => simp [becomeDaemon, hfirst, hsetsid, hsecond]
      | some grandchild =>
        have hgroup : p.pgrp ≠ child := by
          intro heq
          have hleader : (p.fork child).setsid = none := if_pos heq
          rw [hleader] at hsetsid
          cases hsetsid
        rw [becomeDaemon_eq hfirst hgroup hsecond]
        cases reopened flags calls p.files with
        | error files => exact .inl rfl
        | ok files => exact .inr rfl

theorem becomeDaemon_zero_iff : (becomeDaemon flags calls p).1 = 0 ↔
    ∃ child grandchild files, calls.firstFork = some child ∧ p.pgrp ≠ child ∧
      calls.secondFork = some grandchild ∧ reopened flags calls p.files = .ok files ∧
      (becomeDaemon flags calls p).2 = daemon flags calls p child grandchild files := by
  constructor
  · intro h
    cases hfirst : calls.firstFork with
    | none => simp [becomeDaemon, hfirst] at h
    | some child =>
      by_cases hgroup : p.pgrp = child
      · have hsetsid : (p.fork child).setsid = none := if_pos hgroup
        simp [becomeDaemon, hfirst, hsetsid] at h
      · cases hsecond : calls.secondFork with
        | none =>
          have hsetsid : (p.fork child).setsid = some _ := if_neg hgroup
          simp [becomeDaemon, hfirst, hsetsid, hsecond] at h
        | some grandchild =>
          rw [becomeDaemon_eq hfirst hgroup hsecond] at h ⊢
          cases hfiles : reopened flags calls p.files with
          | error files => simp [hfiles] at h
          | ok files => exact ⟨child, grandchild, files, rfl, hgroup, rfl, rfl, rfl⟩
  · rintro ⟨child, grandchild, files, hfirst, hgroup, hsecond, hfiles, -⟩
    rw [becomeDaemon_eq hfirst hgroup hsecond, hfiles]

/-- When `becomeDaemon` returns 0, and the process that it leaves behind then: in a session of
which it is not the leader and that has no terminal, with the mask cleared, at the root if `chdir`
succeeds, the standard descriptors on `/dev/null` and the others up to the limit closed, each
unless its flag is set. -/
theorem becomes_daemon (flags : ℕ) (calls : Calls File) (p : Process File) :
    ((becomeDaemon flags calls p).1 = 0 ↔
      (∃ child, calls.firstFork = some child ∧ p.pgrp ≠ child) ∧ calls.secondFork.isSome ∧
        (flags &&& noReopenStdFds = 0 → calls.devNull.isSome ∧ 3 ≤ p.files.limit)) ∧
    ((becomeDaemon flags calls p).1 = 0 → calls.firstFork ≠ calls.secondFork →
      let q := (becomeDaemon flags calls p).2
      q.sid ≠ q.pid ∧ q.terminal = false ∧
      q.umask = (if flags &&& noUmask0 = 0 then 0 else p.umask) ∧
      q.atRoot = (if flags &&& noChdir = 0 then calls.chdir || p.atRoot else p.atRoot) ∧
      ∀ fd, q.files.entry fd =
        if flags &&& noReopenStdFds = 0 ∧ 0 ≤ fd ∧ fd ≤ 2 then calls.devNull
        else if flags &&& noCloseFiles = 0 ∧ 0 ≤ fd ∧ fd < calls.openMax.getD maxClose then none
        else p.files.entry fd) := by
  constructor
  · rw [becomeDaemon_zero_iff]
    constructor
    · rintro ⟨child, grandchild, files, hfirst, hgroup, hsecond, hfiles, -⟩
      exact ⟨⟨child, hfirst, hgroup⟩, by simp [hsecond], (reopened_ok hfiles).1⟩
    · rintro ⟨⟨child, hfirst, hgroup⟩, hsecond, hopen⟩
      obtain ⟨grandchild, hsecond⟩ := Option.isSome_iff_exists.mp hsecond
      obtain ⟨files, hfiles⟩ := reopened_succeeds hopen
      refine ⟨child, grandchild, files, hfirst, hgroup, hsecond, hfiles, ?_⟩
      rw [becomeDaemon_eq hfirst hgroup hsecond, hfiles]
  · intro hzero hfresh
    obtain ⟨child, grandchild, files, hfirst, -, hsecond, hfiles, hq⟩ :=
      becomeDaemon_zero_iff.mp hzero
    have hpids : child ≠ grandchild := fun h => hfresh (by rw [hfirst, hsecond, h])
    rw [hq]
    exact ⟨hpids, rfl, rfl, rfl, (reopened_ok hfiles).2⟩

end Results

end BecomeDaemon
