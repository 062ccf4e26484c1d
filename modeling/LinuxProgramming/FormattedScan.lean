import LinuxProgramming.DecimalText

/-! `sscanf` for formats made of `%c`, `%d`, `%[^c]` and literal characters. -/
namespace FormattedScan

open CharStrings DecimalText

inductive Directive where
  | char
  | int
  | excluding (stop : Byte)
  | literal (b : Byte)
  deriving DecidableEq

inductive Field where
  | char (b : Byte)
  | int (z : ℤ)
  | text (s : List Byte)
  deriving DecidableEq

/-- What one directive assigns and the input it leaves; `none` when it fails. Only `%d`
skips white space. -/
def Directive.convert : Directive → List Byte → Option (List Field × List Byte)
  | .char, [] => none
  | .char, b :: rest => some ([.char b], rest)
  | .int, text => (scanNumeral text).map fun r => ([.int r.1], r.2)
  | .excluding stop, text =>
    if text.takeWhile (· ≠ stop) = [] then none
    else some ([.text (text.takeWhile (· ≠ stop))], text.dropWhile (· ≠ stop))
  | .literal _, [] => none
  | .literal c, b :: rest => if b = c then some ([], rest) else none

def Directive.atEnd : Directive → List Byte → Bool
  | .int, text => text.dropWhile isSpace = []
  | _, text => text = []

/-- The returned count and the assigned fields. The count is EOF, that is -1, when the input
ends before the first assignment. -/
def sscanf : List Directive → List Byte → ℤ × List Field
  | [], _ => (0, [])
  | d :: ds, text =>
    match d.convert text with
    | none => (if d.atEnd text then -1 else 0, [])
    | some (fields, rest) =>
      let (n, more) := sscanf ds rest
      if fields = [] then (n, more) else (fields.length + max n 0, fields ++ more)

theorem char_eq_some {text rest : List Byte} {fs : List Field} :
    Directive.char.convert text = some (fs, rest) ↔ ∃ b, text = b :: rest ∧ fs = [.char b] := by
  cases text with
  | nil => simp [Directive.convert]
  | cons b t =>
    simp only [Directive.convert, Option.some.injEq, Prod.mk.injEq, List.cons.injEq]
    constructor
    · intro ⟨hf, ht⟩
      exact ⟨b, ⟨rfl, ht⟩, hf.symm⟩
    · intro ⟨c, ⟨hb, ht⟩, hf⟩
      exact ⟨by rw [hf, hb], ht⟩

theorem literal_eq_some {c : Byte} {text rest : List Byte} {fs : List Field} :
    (Directive.literal c).convert text = some (fs, rest) ↔ text = c :: rest ∧ fs = [] := by
  cases text with
  | nil => simp [Directive.convert]
  | cons b t =>
    simp only [Directive.convert]
    split
    · next h =>
      subst h
      simp only [Option.some.injEq, Prod.mk.injEq, List.cons.injEq, true_and]
      exact ⟨fun h => ⟨h.2, h.1.symm⟩, fun h => ⟨h.2.symm, h.1⟩⟩
    · next h =>
      constructor
      · intro hn
        cases hn
      · intro ⟨ht, _⟩
        cases ht
        exact absurd rfl h

theorem int_eq_some {text rest : List Byte} {fs : List Field} :
    Directive.int.convert text = some (fs, rest) ↔
      ∃ z, scanNumeral text = some (z, rest) ∧ fs = [.int z] := by
  simp only [Directive.convert, Option.map_eq_some_iff, Prod.mk.injEq]
  constructor
  · intro ⟨⟨z, r⟩, hs, hf, hr⟩
    exact ⟨z, by rw [hs, ← hr], hf.symm⟩
  · intro ⟨z, hs, hf⟩
    exact ⟨(z, rest), hs, hf.symm, rfl⟩

/-- A scanset takes the longest run that avoids the stop character, if there is one. -/
theorem excluding_eq_some {c : Byte} {text rest : List Byte} {fs : List Field} :
    (Directive.excluding c).convert text = some (fs, rest) ↔
      ∃ s, text = s ++ rest ∧ s ≠ [] ∧ c ∉ s ∧ (rest = [] ∨ rest.head? = some c) ∧
        fs = [.text s] := by
  constructor
  · intro hs
    simp only [Directive.convert] at hs
    split at hs
    · cases hs
    · next hne =>
      obtain ⟨hf, hr⟩ := Prod.mk.inj (Option.some.inj hs)
      refine ⟨text.takeWhile (· ≠ c), ?_, hne, ?_, ?_, hf.symm⟩
      · rw [← hr, List.takeWhile_append_dropWhile]
      · intro hc
        simpa using List.mem_takeWhile_imp hc
      · cases hrest : rest with
        | nil => exact Or.inl rfl
        | cons b t =>
          have hb := head_dropWhile (p := (· ≠ c)) text b (by rw [hr, hrest]; rfl)
          exact Or.inr (by simpa using hb)
  · intro ⟨s, ht, hne, hc, hrest, hf⟩
    have hall : ∀ b ∈ s, decide (b ≠ c) = true := by
      intro b hb
      exact decide_eq_true (fun h => hc (h ▸ hb))
    have hhead : ∀ b, rest.head? = some b → decide (b ≠ c) = false := by
      intro b hb
      rcases hrest with hrest | hrest
      · rw [hrest] at hb
        cases hb
      · rw [hrest] at hb
        cases hb
        simp
    have hspan := span_append hall hhead
    simp only [Directive.convert]
    rw [ht, hspan.1, hspan.2, if_neg hne, hf]

theorem sscanf_count (ds : List Directive) (text : List Byte) :
    (sscanf ds text).1 = (sscanf ds text).2.length ∨
      (sscanf ds text).1 = -1 ∧ (sscanf ds text).2 = [] := by
  induction ds generalizing text with
  | nil => exact Or.inl rfl
  | cons d ds ih =>
    rw [sscanf]
    cases hc : d.convert text with
    | none =>
      cases ha : d.atEnd text with
      | true => exact Or.inr ⟨rfl, rfl⟩
      | false => exact Or.inl rfl
    | some r =>
      obtain ⟨fields, rest⟩ := r
      have hrest := ih rest
      simp only
      split
      · exact hrest
      · refine Or.inl ?_
        rcases hrest with h | ⟨h, hnil⟩
        · rw [h]
          simp
        · rw [h, hnil]
          simp

theorem sscanf_fields_some {d : Directive} {ds : List Directive} {text rest : List Byte}
    {fs : List Field} (hc : d.convert text = some (fs, rest)) :
    (sscanf (d :: ds) text).2 = fs ++ (sscanf ds rest).2 := by
  rw [sscanf, hc]
  simp only
  split
  · next h => rw [h]; rfl
  · rfl

theorem sscanf_fields_none {d : Directive} {ds : List Directive} {text : List Byte}
    (hc : d.convert text = none) : (sscanf (d :: ds) text).2 = [] := by
  rw [sscanf, hc]

end FormattedScan
