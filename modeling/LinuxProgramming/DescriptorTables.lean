import Mathlib.Data.Int.Notation
import Mathlib.Data.Nat.Notation
import Mathlib.Logic.Function.Basic

/-! The descriptor table of a process: a finite partial map from numbers to open files. What
calls install, they install at the lowest free number from a given one on. -/
namespace DescriptorTables

variable {File : Type u}

/-- Only numbers below the limit can be open. -/
structure Table (File : Type u) where
  limit : ℕ
  entry : ℤ → Option File
  outside : ∀ fd : ℤ, ¬ (0 ≤ fd ∧ fd < limit) → entry fd = none

namespace Table

def close (t : Table File) (fd : ℤ) : Table File where
  limit := t.limit
  entry := Function.update t.entry fd none
  outside n hn := by
    rw [Function.update_apply, t.outside n hn, ite_self]

/-- Nothing happens with a number beyond the limit. -/
def install (t : Table File) (fd : ℤ) (file : File) : Table File where
  limit := t.limit
  entry n := if n = fd ∧ 0 ≤ n ∧ n < t.limit then some file else t.entry n
  outside n hn := by
    rw [if_neg fun h => hn h.2, t.outside n hn]

def lowestFree (t : Table File) (m : ℤ) : Option ℤ :=
  if m < 0 then none
  else
    ((List.range' m.toNat (t.limit - m.toNat)).find? fun n : ℕ => (t.entry n).isNone).map
      fun n : ℕ => (n : ℤ)

/-- `fcntl(fd, F_DUPFD, m)`: the new number and the table with it. -/
def dupFD (t : Table File) (fd m : ℤ) : Option (ℤ × Table File) :=
  match t.entry fd, t.lowestFree m with
  | some file, some n => some (n, t.install n file)
  | _, _ => none

variable {t : Table File} {fd m n : ℤ} {file : File}

theorem close_entry (t : Table File) (fd n : ℤ) :
    (t.close fd).entry n = if n = fd then none else t.entry n := Function.update_apply ..

theorem install_entry (h0 : 0 ≤ fd) (hlimit : fd < t.limit) (n : ℤ) :
    (t.install fd file).entry n = if n = fd then some file else t.entry n := by
  by_cases hn : n = fd
  · rw [hn, if_pos rfl]
    exact if_pos ⟨rfl, h0, hlimit⟩
  · rw [if_neg hn]
    exact if_neg fun h => hn h.1

theorem ext_entry {t t' : Table File} (hlimit : t.limit = t'.limit)
    (hentry : ∀ n, t.entry n = t'.entry n) : t = t' := by
  cases t
  cases t'
  cases hlimit
  cases funext hentry
  rfl

theorem install_install (t : Table File) (fd : ℤ) (file file' : File) :
    (t.install fd file).install fd file' = t.install fd file' := by
  refine ext_entry rfl fun n => ?_
  simp only [install]
  split <;> simp_all

theorem lowestFree_eq_some : t.lowestFree m = some n ↔ 0 ≤ m ∧ m ≤ n ∧ n < t.limit ∧
    t.entry n = none ∧ ∀ k, m ≤ k → k < n → t.entry k ≠ none := by
  unfold lowestFree
  split
  · next hm =>
    simp only [reduceCtorEq, false_iff]
    rintro ⟨h0, -⟩
    omega
  · next hm =>
    obtain ⟨m, rfl⟩ := Int.eq_ofNat_of_zero_le (Int.not_lt.mp hm)
    rw [Option.map_eq_some_iff]
    simp only [Int.toNat_natCast, List.find?_range'_eq_some, List.mem_range'_1,
      Option.isNone_iff_eq_none]
    constructor
    · rintro ⟨k, ⟨hfree, ⟨hle, hlt⟩, hlow⟩, rfl⟩
      refine ⟨by omega, by omega, by omega, hfree, fun j hmj hjk => ?_⟩
      obtain ⟨j, rfl⟩ := Int.eq_ofNat_of_zero_le (show 0 ≤ j by omega)
      have hused := hlow j (by omega) (by omega)
      exact Option.isSome_iff_ne_none.mp (by simpa using hused)
    · rintro ⟨-, hle, hlt, hfree, hlow⟩
      obtain ⟨k, rfl⟩ := Int.eq_ofNat_of_zero_le (show 0 ≤ n by omega)
      refine ⟨k, ⟨hfree, by omega, fun j hmj hjk => ?_⟩, rfl⟩
      have hused := hlow j (by omega) (by omega)
      simpa [Option.isSome_iff_ne_none] using hused

theorem lowestFree_unique {k : ℤ} (hlow : t.lowestFree m = some n) (hk : m ≤ k)
    (hused : ∀ j, m ≤ j → j < k → t.entry j ≠ none) (hfree : t.entry k = none) : n = k := by
  obtain ⟨-, hmn, -, hnone, hbelow⟩ := lowestFree_eq_some.mp hlow
  have hge : ¬ n < k := fun hlt => hused n hmn hlt hnone
  have hle : ¬ k < n := fun hlt => hbelow k hk hlt hfree
  omega

theorem lowestFree_entry (hfree : t.lowestFree m = some n) : t.entry n = none :=
  (lowestFree_eq_some.mp hfree).2.2.2.1

/-- What was opened and is closed again leaves no trace. -/
theorem close_install (hnone : t.entry n = none) (file : File) :
    (t.install n file).close n = t := by
  refine ext_entry rfl fun k => ?_
  rw [close_entry]
  by_cases hk : k = n
  · rw [if_pos hk, hk, hnone]
  · rw [if_neg hk]
    exact if_neg fun h => hk h.1

theorem install_comm (hne : fd ≠ n) (file file' : File) :
    (t.install fd file).install n file' = (t.install n file').install fd file := by
  refine ext_entry rfl fun k => ?_
  by_cases hk : k = n
  · have hkfd : k ≠ fd := fun h => hne (h.symm.trans hk)
    simp [install, hkfd]
  · simp [install, hk]

theorem install_entry_of_ne (hne : n ≠ fd) (file : File) :
    (t.install fd file).entry n = t.entry n := if_neg fun h => hne h.1

theorem lowestFree_install_above (hfree : t.lowestFree m = some n) (hlt : n < fd) (file : File) :
    (t.install fd file).lowestFree m = some n := by
  obtain ⟨h0, hmn, hlimit, hnone, hbelow⟩ := lowestFree_eq_some.mp hfree
  refine lowestFree_eq_some.mpr ⟨h0, hmn, hlimit, ?_, fun k hmk hkn => ?_⟩
  · rw [install_entry_of_ne (by omega), hnone]
  · rw [install_entry_of_ne (by omega)]
    exact hbelow k hmk hkn

theorem lowestFree_install_eq_some {k : ℤ} (hfree : t.lowestFree m = some n) (file : File) :
    (t.install n file).lowestFree m = some k ↔ t.lowestFree (n + 1) = some k := by
  obtain ⟨h0, hmn, hlimit, hnone, hbelow⟩ := lowestFree_eq_some.mp hfree
  have hentry : ∀ j, (t.install n file).entry j = if j = n then some file else t.entry j :=
    install_entry (by omega) hlimit
  constructor
  · intro hk
    obtain ⟨-, hmk, hklimit, hknone, hkbelow⟩ := lowestFree_eq_some.mp hk
    have hne : k ≠ n := fun h => by simp [hentry, h] at hknone
    have hge : n ≤ k := by
      by_contra hlt
      rw [install_entry_of_ne hne] at hknone
      exact hbelow k hmk (by omega) hknone
    rw [install_entry_of_ne hne] at hknone
    refine lowestFree_eq_some.mpr ⟨by omega, by omega, hklimit, hknone, fun j hj hjk => ?_⟩
    have hused := hkbelow j (by omega) hjk
    rwa [install_entry_of_ne (by omega)] at hused
  · intro hk
    obtain ⟨-, hnk, hklimit, hknone, hkbelow⟩ := lowestFree_eq_some.mp hk
    refine lowestFree_eq_some.mpr ⟨h0, by omega, hklimit, ?_, fun j hj hjk => ?_⟩
    · rw [install_entry_of_ne (by omega), hknone]
    · rw [hentry]
      split
      · exact nofun
      · next hjn =>
        rcases Int.lt_or_gt_of_ne hjn with hlt | hgt
        · exact hbelow j hj hlt
        · exact hkbelow j (by omega) hjk

theorem dupFD_eq_some {t' : Table File} : t.dupFD fd m = some (n, t') ↔
    ∃ file, t.entry fd = some file ∧ t.lowestFree m = some n ∧ t' = t.install n file := by
  unfold dupFD
  cases t.entry fd with
  | none => simp
  | some file =>
    cases t.lowestFree m with
    | none => simp
    | some k =>
      simp only [Option.some.injEq, Prod.mk.injEq, exists_eq_left']
      constructor
      · rintro ⟨rfl, rfl⟩
        exact ⟨rfl, rfl⟩
      · rintro ⟨rfl, rfl⟩
        exact ⟨rfl, rfl⟩

end Table

end DescriptorTables
