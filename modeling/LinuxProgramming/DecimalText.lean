import LinuxProgramming.CharStrings
import Mathlib.Data.List.TakeWhile
import Mathlib.Algebra.Order.Ring.Int
import Mathlib.Tactic.Linarith

/-! Decimal numerals as text: `%d` on output, and on input the numeral that `strtol` and the
`%d` of `scanf` read, after white space and an optional sign. -/
namespace DecimalText

open CharStrings

/-- `isspace` in the C locale: blank, and tab to carriage return. -/
def isSpace (b : Byte) : Bool := b = 32 ∨ (9 ≤ b ∧ b ≤ 13)

def isDigit (b : Byte) : Bool := 48 ≤ b ∧ b ≤ 57

def digitValue (b : Byte) : ℕ := b.toNat - 48

def digit (d : ℕ) : Byte := UInt8.ofNat (48 + d)

def numeral (ds : List Byte) : ℕ := ds.foldl (fun n b => 10 * n + digitValue b) 0

def digitsFrom : ℕ → ℕ → List Byte
  | 0, _ => []
  | fuel + 1, n => if n < 10 then [digit n] else digitsFrom fuel (n / 10) ++ [digit (n % 10)]

def formatNat (n : ℕ) : List Byte := digitsFrom (n + 1) n

/-- What `%d` and `%ld` print. -/
def formatInt (z : ℤ) : List Byte :=
  if z < 0 then 45 :: formatNat z.natAbs else formatNat z.natAbs

def scanSign : List Byte → Bool × List Byte
  | [] => (false, [])
  | b :: rest =>
    if b = 45 then (true, rest) else if b = 43 then (false, rest) else (false, b :: rest)

/-- The numeral at the start of the text and what follows it; `none` when there is none. -/
def scanNumeral (text : List Byte) : Option (ℤ × List Byte) :=
  let (negative, unsigned) := scanSign (text.dropWhile isSpace)
  let ds := unsigned.takeWhile isDigit
  if ds = [] then none
  else some (if negative then -(numeral ds : ℤ) else numeral ds, unsigned.dropWhile isDigit)

/-- Out of range, the result of `strtol` is the nearest `long`. -/
def clampLong (z : ℤ) : ℤ := max (-2 ^ 63) (min z (2 ^ 63 - 1))

def strtol (text : CString) : ℤ :=
  match scanNumeral text.bytes with
  | some (z, _) => clampLong z
  | none => 0

/-- The text of an optionally signed numeral with the given value. -/
def Numeral (d : List Byte) (z : ℤ) : Prop :=
  ∃ ds, ds ≠ [] ∧ (∀ b ∈ ds, isDigit b) ∧
    ((d = ds ∧ z = numeral ds) ∨ (d = 43 :: ds ∧ z = numeral ds) ∨
      (d = 45 :: ds ∧ z = -(numeral ds : ℤ)))

theorem isDigit_iff {b : Byte} : isDigit b = true ↔ 48 ≤ b.toNat ∧ b.toNat ≤ 57 := by
  simp [isDigit, UInt8.le_iff_toNat_le]

theorem digit_toNat {d : ℕ} (hd : d < 10) : (digit d).toNat = 48 + d := by
  simp only [digit, UInt8.toNat_ofNat']
  omega

theorem isDigit_digit {d : ℕ} (hd : d < 10) : isDigit (digit d) = true := by
  rw [isDigit_iff, digit_toNat hd]
  omega

theorem digitValue_digit {d : ℕ} (hd : d < 10) : digitValue (digit d) = d := by
  rw [digitValue, digit_toNat hd]
  omega

theorem isSpace_of_isDigit {b : Byte} (hd : isDigit b = true) : isSpace b = false := by
  have hb := isDigit_iff.mp hd
  simp only [isSpace, UInt8.le_iff_toNat_le, decide_eq_false_iff_not, not_or, not_and]
  refine ⟨?_, ?_⟩
  · intro h
    subst h
    revert hb
    decide
  · intro _ h
    have h13 : (13 : Byte).toNat = 13 := rfl
    omega

theorem isDigit_ne {b c : Byte} (hd : isDigit b = true) (hc : isDigit c = false) : b ≠ c := by
  intro h
  rw [h, hc] at hd
  cases hd

theorem numeral_append_one (ds : List Byte) (b : Byte) :
    numeral (ds ++ [b]) = 10 * numeral ds + digitValue b := by
  simp [numeral, List.foldl_append]

/-- Induction on the fuel; enough of it stays above the number that is left. -/
theorem digitsFrom_spec : ∀ fuel n, n < fuel → digitsFrom fuel n ≠ [] ∧
    (∀ b ∈ digitsFrom fuel n, isDigit b) ∧ numeral (digitsFrom fuel n) = n := by
  intro fuel
  induction fuel with
  | zero => intro n hn; omega
  | succ fuel ih =>
    intro n hn
    by_cases hs : n < 10
    · refine ⟨by simp [digitsFrom, hs], ?_, ?_⟩
      · intro b hb
        rw [digitsFrom, if_pos hs, List.mem_singleton] at hb
        rw [hb]
        exact isDigit_digit hs
      · rw [digitsFrom, if_pos hs]
        simp [numeral, digitValue_digit hs]
    · have hm : n % 10 < 10 := Nat.mod_lt n (by decide)
      obtain ⟨_, hall, hval⟩ := ih (n / 10) (by omega)
      refine ⟨by simp [digitsFrom, hs], ?_, ?_⟩
      · intro b hb
        rw [digitsFrom, if_neg hs, List.mem_append, List.mem_singleton] at hb
        rcases hb with hb | hb
        · exact hall b hb
        · rw [hb]
          exact isDigit_digit hm
      · rw [digitsFrom, if_neg hs, numeral_append_one, hval, digitValue_digit hm]
        omega

theorem formatNat_ne_nil (n : ℕ) : formatNat n ≠ [] :=
  (digitsFrom_spec (n + 1) n (by omega)).1

theorem formatNat_digits (n : ℕ) : ∀ b ∈ formatNat n, isDigit b :=
  (digitsFrom_spec (n + 1) n (by omega)).2.1

theorem numeral_formatNat (n : ℕ) : numeral (formatNat n) = n :=
  (digitsFrom_spec (n + 1) n (by omega)).2.2

theorem digitsFrom_length : ∀ fuel n w, 0 < w → n < 10 ^ w → (digitsFrom fuel n).length ≤ w := by
  intro fuel
  induction fuel with
  | zero => intro n w _ _; simp [digitsFrom]
  | succ fuel ih =>
    intro n w hw hn
    by_cases hs : n < 10
    · simp only [digitsFrom, if_pos hs, List.length_singleton]
      omega
    · obtain ⟨v, rfl⟩ : ∃ v, w = v + 1 := ⟨w - 1, by omega⟩
      have hv : 0 < v := by
        by_contra hv
        have hz : v = 0 := by omega
        subst hz
        omega
      have hdiv : n / 10 < 10 ^ v := by
        rw [pow_succ] at hn
        omega
      have hlen := ih (n / 10) v hv hdiv
      simp only [digitsFrom, if_neg hs, List.length_append, List.length_singleton]
      omega

theorem numeral_lt (ds : List Byte) : (∀ b ∈ ds, isDigit b) → numeral ds < 10 ^ ds.length := by
  induction ds using List.reverseRecOn with
  | nil => intro _; simp [numeral]
  | append_singleton ds b ih =>
    intro hall
    have hlt := ih fun c hc => hall c (by simp [hc])
    have hb := isDigit_iff.mp (hall b (by simp))
    rw [numeral_append_one, List.length_append, List.length_singleton, pow_succ, digitValue]
    omega

theorem formatNat_length_le_iff {n w : ℕ} (hw : 0 < w) :
    (formatNat n).length ≤ w ↔ n < 10 ^ w := by
  constructor
  · intro hlen
    calc n = numeral (formatNat n) := (numeral_formatNat n).symm
      _ < 10 ^ (formatNat n).length := numeral_lt _ (formatNat_digits n)
      _ ≤ 10 ^ w := Nat.pow_le_pow_right (by decide) hlen
  · exact digitsFrom_length (n + 1) n w hw

theorem formatNat_injective {m n : ℕ} (h : formatNat m = formatNat n) : m = n := by
  rw [← numeral_formatNat m, h, numeral_formatNat]

theorem formatInt_length {z : ℤ} {w : ℕ} (hw : 0 < w) (hz : z.natAbs < 10 ^ w) :
    (formatInt z).length ≤ w + 1 := by
  have hlen := digitsFrom_length (z.natAbs + 1) z.natAbs w hw hz
  unfold formatInt formatNat
  split
  · simp only [List.length_cons]
    omega
  · omega

theorem formatInt_numeral (z : ℤ) : Numeral (formatInt z) z := by
  refine ⟨formatNat z.natAbs, formatNat_ne_nil _, formatNat_digits _, ?_⟩
  rw [numeral_formatNat]
  by_cases hz : z < 0
  · refine Or.inr (Or.inr ⟨if_pos hz, ?_⟩)
    omega
  · refine Or.inl ⟨if_neg hz, ?_⟩
    omega

theorem not_mem_formatInt {b : Byte} (hb : isDigit b = false) (hsign : b ≠ 45) (z : ℤ) :
    b ∉ formatInt z := by
  have hdigits : b ∉ formatNat z.natAbs := by
    intro hmem
    rw [formatNat_digits _ b hmem] at hb
    cases hb
  rw [formatInt]
  split
  · simp [hsign, hdigits]
  · exact hdigits

theorem formatInt_ne_nil (z : ℤ) : formatInt z ≠ [] := by
  rw [formatInt]
  split
  · exact List.cons_ne_nil _ _
  · exact formatNat_ne_nil _

theorem formatInt_nul_free (z : ℤ) : (0 : Byte) ∉ formatInt z := by
  have hdigits : (0 : Byte) ∉ formatNat z.natAbs := by
    intro h
    exact absurd (formatNat_digits _ 0 h) (by decide)
  unfold formatInt
  split
  · intro h
    rcases List.mem_cons.mp h with h | h
    · exact absurd h (by decide)
    · exact hdigits h
  · exact hdigits

theorem span_append {p : Byte → Bool} {run rest : List Byte} (hp : ∀ b ∈ run, p b)
    (hr : ∀ b, rest.head? = some b → p b = false) :
    (run ++ rest).takeWhile p = run ∧ (run ++ rest).dropWhile p = rest := by
  rw [List.takeWhile_append_of_pos hp, List.dropWhile_append_of_pos hp]
  cases rest with
  | nil => simp
  | cons b rest =>
    have hb := hr b rfl
    simp [hb]

theorem head_dropWhile {p : Byte → Bool} (text : List Byte) :
    ∀ b, (text.dropWhile p).head? = some b → p b = false := by
  intro b hb
  have hnot := List.head?_dropWhile_not p text
  rw [hb] at hnot
  simpa using hnot

theorem numeral_head {d : List Byte} {z : ℤ} (hd : Numeral d z) (rest : List Byte) :
    ∀ b, (d ++ rest).head? = some b → isSpace b = false := by
  obtain ⟨ds, hne, hall, hcase⟩ := hd
  obtain ⟨c, cs, rfl⟩ := List.exists_cons_of_ne_nil hne
  intro b hb
  rcases hcase with ⟨rfl, _⟩ | ⟨rfl, _⟩ | ⟨rfl, _⟩
  · cases hb
    exact isSpace_of_isDigit (hall c (List.mem_cons_self ..))
  · cases hb
    decide
  · cases hb
    decide

theorem scanSign_numeral {d : List Byte} {z : ℤ} (hd : Numeral d z) (rest : List Byte) :
    ∃ negative ds, scanSign (d ++ rest) = (negative, ds ++ rest) ∧ ds ≠ [] ∧
      (∀ b ∈ ds, isDigit b) ∧ z = if negative then -(numeral ds : ℤ) else numeral ds := by
  obtain ⟨ds, hne, hall, hcase⟩ := hd
  rcases hcase with ⟨rfl, hz⟩ | ⟨rfl, hz⟩ | ⟨rfl, hz⟩
  · refine ⟨false, d, ?_, hne, hall, hz⟩
    obtain ⟨c, cs, rfl⟩ := List.exists_cons_of_ne_nil hne
    have hc := hall c (List.mem_cons_self ..)
    simp [scanSign, isDigit_ne hc (show isDigit 45 = false by decide),
      isDigit_ne hc (show isDigit 43 = false by decide)]
  · exact ⟨false, ds, rfl, hne, hall, hz⟩
  · exact ⟨true, ds, rfl, hne, hall, hz⟩

/-- What the scan accepts, exactly: white space, a signed numeral, and then no digit. -/
theorem scanNumeral_eq_some {text rest : List Byte} {z : ℤ} :
    scanNumeral text = some (z, rest) ↔ ∃ w d, text = w ++ (d ++ rest) ∧
      (∀ b ∈ w, isSpace b) ∧ Numeral d z ∧ ∀ b, rest.head? = some b → isDigit b = false := by
  constructor
  · intro hs
    have hw : text = text.takeWhile isSpace ++ text.dropWhile isSpace :=
      (List.takeWhile_append_dropWhile ..).symm
    have hspace : ∀ b ∈ text.takeWhile isSpace, isSpace b := fun b hb =>
      List.mem_takeWhile_imp hb
    unfold scanNumeral at hs
    generalize text.takeWhile isSpace = w at hw hspace
    generalize text.dropWhile isSpace = t at hw hs
    cases hsign : scanSign t with
    | mk negative u =>
      rw [hsign] at hs
      have hu : u = u.takeWhile isDigit ++ u.dropWhile isDigit :=
        (List.takeWhile_append_dropWhile ..).symm
      have hall : ∀ b ∈ u.takeWhile isDigit, isDigit b := fun b hb => List.mem_takeWhile_imp hb
      have hhead := head_dropWhile (p := isDigit) u
      simp only at hs
      split at hs
      · cases hs
      · next hne =>
        obtain ⟨hz, hrest⟩ := Prod.mk.inj (Option.some.inj hs)
        rw [hrest] at hu hhead
        generalize u.takeWhile isDigit = ds at hu hall hne hz
        have hnum : ∃ d, t = d ++ rest ∧ Numeral d z := by
          cases t with
          | nil =>
            cases hsign
            cases (List.append_eq_nil_iff.mp hu.symm).1
            exact absurd rfl hne
          | cons b t =>
            simp only [scanSign] at hsign
            split at hsign
            · next hb =>
              cases hsign
              exact ⟨45 :: ds, by rw [hb, hu]; rfl, ds, hne, hall, Or.inr (Or.inr ⟨rfl, hz.symm⟩)⟩
            · split at hsign
              · next hb =>
                cases hsign
                exact ⟨43 :: ds, by rw [hb, hu]; rfl, ds, hne, hall,
                  Or.inr (Or.inl ⟨rfl, hz.symm⟩)⟩
              · cases hsign
                exact ⟨ds, hu, ds, hne, hall, Or.inl ⟨rfl, hz.symm⟩⟩
        obtain ⟨d, hd, hnum⟩ := hnum
        exact ⟨w, d, by rw [hw, hd], hspace, hnum, hhead⟩
  · intro ⟨w, d, ht, hw, hd, hr⟩
    obtain ⟨negative, ds, hsign, hne, hall, hz⟩ := scanSign_numeral hd rest
    rw [scanNumeral, ht, (span_append hw (numeral_head hd rest)).2, hsign]
    simp only [(span_append hall hr).1, (span_append hall hr).2, if_neg hne, hz]

/-- Printing a number and reading it back. -/
theorem scanNumeral_formatInt (z : ℤ) {rest : List Byte}
    (hr : ∀ b, rest.head? = some b → isDigit b = false) :
    scanNumeral (formatInt z ++ rest) = some (z, rest) :=
  scanNumeral_eq_some.mpr ⟨[], formatInt z, rfl, by simp, formatInt_numeral z, hr⟩

theorem strtol_formatInt {z : ℤ} (hlo : -2 ^ 63 ≤ z) (hhi : z < 2 ^ 63) :
    strtol ⟨formatInt z, formatInt_nul_free z⟩ = z := by
  have hscan : scanNumeral (formatInt z ++ []) = some (z, []) :=
    scanNumeral_formatInt z (by simp)
  rw [List.append_nil] at hscan
  simp only [strtol, hscan, clampLong]
  omega

end DecimalText
