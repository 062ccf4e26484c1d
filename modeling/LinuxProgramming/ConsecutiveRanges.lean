import Mathlib.Data.List.Pairwise
import Mathlib.Algebra.BigOperators.Group.List.Basic
import Mathlib.Data.BitVec

/-! Ranges of a wrapping counter, laid out one after the other. They leave no gap, and as
long as their lengths add up to at most one turn of the counter they are disjoint. -/
namespace ConsecutiveRanges

variable {w : ℕ}

def Covers (lo : BitVec w) (len : ℕ) (x : BitVec w) : Prop := (x - lo).toNat < len

instance (lo : BitVec w) (len : ℕ) (x : BitVec w) : Decidable (Covers lo len x) :=
  inferInstanceAs (Decidable ((x - lo).toNat < len))

/-- Each range with its start; the next one starts where it ends. -/
def layout (start : BitVec w) : List (BitVec w) → List (BitVec w × BitVec w)
  | [] => []
  | n :: ns => (start, n) :: layout (start + n) ns

def total (ns : List (BitVec w)) : ℕ := (ns.map BitVec.toNat).sum

theorem layout_append_one (start : BitVec w) (ns : List (BitVec w)) (n : BitVec w) :
    layout start (ns ++ [n]) = layout start ns ++ [(start + ns.sum, n)] := by
  induction ns generalizing start with
  | nil => simp [layout]
  | cons m ns ih => simp [layout, ih, add_assoc]

theorem layout_getElem? (start : BitVec w) (ns : List (BitVec w)) (i : ℕ) :
    (layout start ns)[i]? = ns[i]?.map fun n => (start + (ns.take i).sum, n) := by
  induction ns generalizing start i with
  | nil => simp [layout]
  | cons n ns ih =>
    cases i with
    | zero => simp [layout]
    | succ i =>
      simp only [layout, List.getElem?_cons_succ, ih, List.take_succ_cons, List.sum_cons, add_assoc]

theorem distance_shift (start n x : BitVec w) : (x - (start + n)).toNat =
    if n.toNat ≤ (x - start).toNat then (x - start).toNat - n.toNat
    else (x - start).toNat + 2 ^ w - n.toNat := by
  have hd := (x - start).isLt
  have hn := n.isLt
  rw [sub_add_eq_sub_sub]
  generalize x - start = d at hd
  rw [BitVec.toNat_sub]
  by_cases hle : n.toNat ≤ d.toNat
  · have hsum : 2 ^ w - n.toNat + d.toNat = (d.toNat - n.toNat) + 2 ^ w := by omega
    rw [if_pos hle, hsum, Nat.add_mod_right, Nat.mod_eq_of_lt (by omega)]
  · rw [if_neg hle, Nat.mod_eq_of_lt (by omega)]
    omega

theorem covers_add (start n x : BitVec w) (m : ℕ) :
    Covers start (n.toNat + m) x ↔ Covers start n.toNat x ∨ Covers (start + n) m x := by
  have hshift := distance_shift start n x
  unfold Covers
  rw [hshift]
  split <;> omega

theorem adjacent_disjoint (start n x : BitVec w) {m : ℕ} (h : n.toNat + m ≤ 2 ^ w)
    (hn : Covers start n.toNat x) : ¬ Covers (start + n) m x := by
  have hshift := distance_shift start n x
  unfold Covers at hn ⊢
  rw [hshift, if_neg (by omega)]
  omega

/-- No gap: the ranges cover what one range of the total length covers. -/
theorem covers_layout (start x : BitVec w) (ns : List (BitVec w)) :
    (∃ r ∈ layout start ns, Covers r.1 r.2.toNat x) ↔ Covers start (total ns) x := by
  induction ns generalizing start with
  | nil => simp [layout, Covers, total]
  | cons n ns ih =>
    have htotal : total (n :: ns) = n.toNat + total ns := by simp [total]
    rw [htotal, covers_add, ← ih (start + n)]
    simp [layout]

theorem layout_disjoint (start : BitVec w) {ns : List (BitVec w)} (h : total ns ≤ 2 ^ w) :
    (layout start ns).Pairwise fun r s =>
      ∀ x, ¬ (Covers r.1 r.2.toNat x ∧ Covers s.1 s.2.toNat x) := by
  induction ns generalizing start with
  | nil => exact List.Pairwise.nil
  | cons n ns ih =>
    have htotal : total (n :: ns) = n.toNat + total ns := by simp [total]
    rw [htotal] at h
    refine List.Pairwise.cons ?_ (ih (start + n) (by omega))
    intro r hr x ⟨hn, hx⟩
    have hrest := (covers_layout (start + n) x ns).mp ⟨r, hr, hx⟩
    exact adjacent_disjoint start n x h hn hrest

end ConsecutiveRanges
