import LinuxProgramming.DescriptorTables

/-! `mydup` and `mydup2` of `fcntln_as_dupn.c`. Both close the old descriptor at the end, so they
move a descriptor where `dup` and `dup2` duplicate it. -/
namespace FcntlAsDupn

open DescriptorTables

variable {File : Type u}

/-- A failing `fcntl` ends the process. -/
inductive Outcome where
  | returned (fd : ℤ)
  | exited
  deriving DecidableEq

/-- The call of `fcntl` has no third argument; `m` is what it takes for it. -/
def mydup (t : Table File) (oldfd m : ℤ) : Outcome × Table File :=
  match t.dupFD oldfd m with
  | none => (.exited, t)
  | some (newfd, t) => (.returned newfd, t.close oldfd)

def mydup2 (t : Table File) (oldfd newfd : ℤ) : Outcome × Table File :=
  if oldfd = newfd then (.returned newfd, t)
  else if (t.entry oldfd).isNone then (.exited, t)
  else
    let t := if (t.entry newfd).isSome then t.close newfd else t
    match t.dupFD oldfd newfd with
    | none => (.exited, t)
    | some (_, t) => (.returned newfd, t.close oldfd)

def Moved (t : Table File) (oldfd newfd : ℤ) (file : File) (t' : Table File) : Prop :=
  ∀ fd, t'.entry fd = if fd = oldfd then none else if fd = newfd then some file else t.entry fd

section Moves

variable {t : Table File} {oldfd newfd m : ℤ} {file : File}

theorem moved_of_install (h0 : 0 ≤ newfd) (hlimit : newfd < t.limit) :
    Moved t oldfd newfd file ((t.install newfd file).close oldfd) := by
  intro fd
  rw [Table.close_entry, Table.install_entry h0 hlimit]

theorem mydup_moves (hopen : t.entry oldfd = some file) (hfree : t.lowestFree m = some newfd) :
    (mydup t oldfd m).1 = .returned newfd ∧ Moved t oldfd newfd file (mydup t oldfd m).2 := by
  have hdup : t.dupFD oldfd m = some (newfd, t.install newfd file) :=
    Table.dupFD_eq_some.mpr ⟨file, hopen, hfree, rfl⟩
  obtain ⟨h0, hle, hlimit, -⟩ := Table.lowestFree_eq_some.mp hfree
  rw [mydup, hdup]
  exact ⟨rfl, moved_of_install (by omega) hlimit⟩

theorem mydup2_moves (hne : oldfd ≠ newfd) (hopen : t.entry oldfd = some file) (h0 : 0 ≤ newfd)
    (hlimit : newfd < t.limit) :
    (mydup2 t oldfd newfd).1 = .returned newfd ∧
      Moved t oldfd newfd file (mydup2 t oldfd newfd).2 := by
  have hcleared : ∃ t' : Table File, (if (t.entry newfd).isSome then t.close newfd else t) = t' ∧
      t'.limit = t.limit ∧ ∀ fd, t'.entry fd = if fd = newfd then none else t.entry fd := by
    by_cases hused : (t.entry newfd).isSome
    · rw [if_pos hused]
      exact ⟨_, rfl, rfl, t.close_entry newfd⟩
    · rw [if_neg hused]
      refine ⟨t, rfl, rfl, fun fd => ?_⟩
      split
      · next hfd => rw [hfd, Option.not_isSome_iff_eq_none.mp hused]
      · rfl
  obtain ⟨t', ht', hsame, hentry⟩ := hcleared
  have hold : t'.entry oldfd = some file := by rw [hentry, if_neg hne, hopen]
  have hfree : t'.lowestFree newfd = some newfd := by
    apply Table.lowestFree_eq_some.mpr
    refine ⟨h0, by omega, by omega, by rw [hentry, if_pos rfl], ?_⟩
    intro k hk hlt
    omega
  have hdup := Table.dupFD_eq_some.mpr ⟨file, hold, hfree, rfl⟩
  rw [mydup2, if_neg hne, hopen, if_neg (by simp)]
  simp only [ht', hdup, true_and]
  intro fd
  rw [moved_of_install h0 (by omega) fd, hentry]
  by_cases hfd : fd = newfd <;> simp [hfd]

end Moves

/-- A call that fails returns -1 to its caller; one that ends the process does not return. -/
def Fails (o : Outcome) : Prop := o = .returned (-1)

def AsDup2 (t : Table File) (oldfd newfd : ℤ) : Prop :=
  match t.entry oldfd with
  | some file => (mydup2 t oldfd newfd).1 = .returned newfd ∧
      ∀ fd, (mydup2 t oldfd newfd).2.entry fd = if fd = newfd then some file else t.entry fd
  | none => Fails (mydup2 t oldfd newfd).1 ∧
      ∀ fd, (mydup2 t oldfd newfd).2.entry fd = t.entry fd

/-- Only for an open descriptor on itself does `mydup2` do what `dup2` does. -/
theorem mydup2_as_dup2_iff (t : Table File) (oldfd newfd : ℤ) (h0 : 0 ≤ newfd)
    (hlimit : newfd < t.limit) :
    AsDup2 t oldfd newfd ↔ oldfd = newfd ∧ t.entry oldfd ≠ none := by
  unfold AsDup2
  by_cases heq : oldfd = newfd
  · subst oldfd
    have hsame : mydup2 t newfd newfd = (.returned newfd, t) := if_pos rfl
    rw [hsame]
    cases hopen : t.entry newfd with
    | some file =>
      simp only [true_and, ne_eq, reduceCtorEq, not_false_eq_true, iff_true]
      intro fd
      split
      · next hfd => rw [hfd, hopen]
      · rfl
    | none =>
      simp only [Fails, Outcome.returned.injEq, ne_eq, not_true_eq_false, and_false, iff_false]
      omega
  · cases hopen : t.entry oldfd with
    | some file =>
      obtain ⟨-, hmoved⟩ := mydup2_moves heq hopen h0 hlimit
      simp only [heq, false_and, iff_false]
      rintro ⟨-, hdup⟩
      have hold := hdup oldfd
      rw [hmoved, if_pos rfl, if_neg heq, hopen] at hold
      cases hold
    | none =>
      have hexit : mydup2 t oldfd newfd = (.exited, t) := by
        rw [mydup2, if_neg heq, hopen]
        rfl
      simp [hexit, Fails, heq]

section Examples

def stdio : Table ℕ where
  limit := 8
  entry fd := if 0 ≤ fd ∧ fd < 3 then some fd.toNat else none
  outside fd hfd := by
    apply if_neg
    rintro ⟨h0, h3⟩
    exact hfd ⟨h0, Int.lt_trans h3 (by decide)⟩

theorem mydup2_same_open : AsDup2 stdio 1 1 :=
  (mydup2_as_dup2_iff stdio 1 1 (by decide) (by decide)).mpr ⟨rfl, by decide⟩

/-- Standard output is closed when it is put on 5 too; 7, which is not open, is put on itself
without an error, and on 5 it ends the process. -/
theorem mydup2_closes_old :
    (mydup2 stdio 1 5).1 = .returned 5 ∧ (mydup2 stdio 1 5).2.entry 5 = some 1 ∧
      (mydup2 stdio 1 5).2.entry 1 = none ∧ stdio.entry 1 = some 1 ∧
      stdio.entry 7 = none ∧ (mydup2 stdio 7 7).1 = .returned 7 ∧
      (mydup2 stdio 7 5).1 = .exited := by
  decide

end Examples

end FcntlAsDupn
