import LinuxProgramming.DecimalText

/-! `itimerspecFromStr`: the text `sec[/nsec][:sec[/nsec]]` is cut into its parts by zeros that are
written over the separators. The parts are read as they should be, whatever the text, but what
is left of it for the caller to print ends at the first separator. -/
namespace TimerSpec

open CharStrings DecimalText

structure Timespec where
  sec : ℤ
  nsec : ℤ
  deriving DecidableEq

structure Itimerspec where
  value : Timespec
  interval : Timespec
  deriving DecidableEq

/-- The result of `strtol`, cut to an `int`. -/
def atoi (text : CString) : ℤ := (BitVec.ofInt 32 (strtol text)).toInt

def textAt (memory : List Byte) (p : ℕ) : CString := stringOf (memory.drop p)

def strchrAt (memory : List Byte) (p : ℕ) (c : Byte) : Option ℕ :=
  ((textAt memory p).bytes.findIdx? (· = c)).map (p + ·)

/-- The steps that are made for either half: the `/` behind `p` becomes the end of the seconds. -/
def timespecAt (memory : List Byte) (p : ℕ) : Timespec × List Byte :=
  match strchrAt memory p 47 with
  | none => (⟨atoi (textAt memory p), 0⟩, memory)
  | some sptr =>
    let memory := memory.set sptr 0
    (⟨atoi (textAt memory p), atoi (textAt memory (sptr + 1))⟩, memory)

/-- What is stored in `*tsp`, and the memory of `str` afterwards. -/
def itimerspecFromStr (memory : List Byte) : Itimerspec × List Byte :=
  match strchrAt memory 0 58 with
  | none =>
    let value := timespecAt memory 0
    (⟨value.1, ⟨0, 0⟩⟩, value.2)
  | some cptr =>
    let value := timespecAt (memory.set cptr 0) 0
    let interval := timespecAt value.2 (cptr + 1)
    (⟨value.1, interval.1⟩, interval.2)

/-- The text up to the first `c`, and what is behind it if there is one. -/
def cutAt (c : Byte) : List Byte → List Byte × Option (List Byte)
  | [] => ([], none)
  | b :: text => if b = c then ([], some text) else (b :: (cutAt c text).1, (cutAt c text).2)

def timespecOf (text : List Byte) : Timespec :=
  let parts := cutAt 47 text
  ⟨atoi (stringOf parts.1), (parts.2.map fun nsec => atoi (stringOf nsec)).getD 0⟩

def itimerspecOf (text : List Byte) : Itimerspec :=
  let halves := cutAt 58 text
  ⟨timespecOf halves.1, (halves.2.map timespecOf).getD ⟨0, 0⟩⟩

section Cutting

variable {c : Byte} {text before after : List Byte}

theorem cutAt_absent (h : c ∉ text) : cutAt c text = (text, none) := by
  induction text with
  | nil => rfl
  | cons b text ih =>
    have hb : b ≠ c := fun heq => h (heq ▸ List.mem_cons_self)
    rw [cutAt, if_neg hb, ih fun hmem => h (List.mem_cons_of_mem b hmem)]

theorem cutAt_present (h : c ∉ before) : cutAt c (before ++ c :: after) = (before, some after) := by
  induction before with
  | nil => exact if_pos rfl
  | cons b before ih =>
    have hb : b ≠ c := fun heq => h (heq ▸ List.mem_cons_self)
    rw [List.cons_append, cutAt, if_neg hb, ih fun hmem => h (List.mem_cons_of_mem b hmem)]

theorem cut_cases (c : Byte) (text : List Byte) :
    c ∉ text ∨ ∃ before after, text = before ++ c :: after ∧ c ∉ before := by
  by_cases hmem : c ∈ text
  · obtain ⟨before, after, htext, hbefore⟩ := List.eq_append_cons_of_mem hmem
    exact .inr ⟨before, after, htext, hbefore⟩
  · exact .inl hmem

end Cutting

section Memory

variable {c : Byte} {text before after : List Byte}

theorem textAt_append (pre rest : List Byte) (h : 0 ∉ text) :
    (textAt (pre ++ (text ++ 0 :: rest)) pre.length).bytes = text := by
  rw [textAt, List.drop_left]
  exact congrArg CString.bytes (stringOf_append_nul ⟨text, h⟩ rest)

theorem strchrAt_absent (pre rest : List Byte) (h : 0 ∉ text) (hc : c ∉ text) :
    strchrAt (pre ++ (text ++ 0 :: rest)) pre.length c = none := by
  rw [strchrAt, textAt_append pre rest h, List.findIdx?_eq_none_iff.mpr]
  · rfl
  · intro b hb
    exact decide_eq_false fun heq => hc (heq ▸ hb)

theorem strchrAt_present (pre rest : List Byte) (h : 0 ∉ before ++ c :: after) (hc : c ∉ before) :
    strchrAt (pre ++ (before ++ c :: after ++ 0 :: rest)) pre.length c =
      some (pre.length + before.length) := by
  have hbefore : before.findIdx? (fun b => decide (b = c)) = none := by
    refine List.findIdx?_eq_none_iff.mpr fun b hb => ?_
    exact decide_eq_false fun heq => hc (heq ▸ hb)
  rw [strchrAt, textAt_append pre rest h, List.findIdx?_append, hbefore]
  simp [List.findIdx?_cons]

theorem set_separator (c : Byte) (pre before after rest : List Byte) :
    (pre ++ (before ++ c :: after ++ 0 :: rest)).set (pre.length + before.length) 0 =
      pre ++ (before ++ 0 :: after ++ 0 :: rest) := by
  simp

theorem timespecAt_eq (h : 0 ∉ text) (pre rest : List Byte) :
    ∃ cut, timespecAt (pre ++ (text ++ 0 :: rest)) pre.length =
        (timespecOf text, pre ++ (cut ++ 0 :: rest)) ∧
      cut.length = text.length ∧
      ∀ rest, textAt (cut ++ 0 :: rest) 0 = stringOf (cutAt 47 text).1 := by
  have hplain : ∀ pre part rest : List Byte, 0 ∉ part →
      textAt (pre ++ (part ++ 0 :: rest)) pre.length = stringOf part := fun pre part rest hpart =>
    CString.ext_bytes ((textAt_append pre rest hpart).trans (stringOf_bytes hpart).symm)
  rcases cut_cases 47 text with habsent | ⟨before, after, rfl, hbefore⟩
  · refine ⟨text, ?_, rfl, fun rest => ?_⟩
    · simp only [timespecAt, strchrAt_absent pre rest h habsent, hplain pre text rest h, timespecOf,
        cutAt_absent habsent]
      rfl
    · rw [cutAt_absent habsent]
      exact hplain [] text rest h
  · have hzero : 0 ∉ before ∧ 0 ∉ after := by
      simp only [List.mem_append, List.mem_cons, not_or] at h
      exact ⟨h.1, h.2.2⟩
    refine ⟨before ++ 0 :: after, ?_, by simp, fun rest => ?_⟩
    · have hsec := hplain pre before (after ++ 0 :: rest) hzero.1
      have hnsec := hplain (pre ++ before ++ [0]) after rest hzero.2
      simp only [List.length_append, List.length_singleton, List.append_assoc,
        List.cons_append, List.nil_append, ← Nat.add_assoc] at hsec hnsec
      simp only [timespecAt, strchrAt_present pre rest h hbefore, set_separator, timespecOf,
        cutAt_present hbefore]
      simp only [List.append_assoc, List.cons_append, hsec, hnsec]
      rfl
    · rw [cutAt_present hbefore, List.append_assoc]
      exact hplain [] before (after ++ 0 :: rest) hzero.1

end Memory

section Results

theorem cutAt_fst (c : Byte) (text : List Byte) :
    (cutAt c text).1 = text.takeWhile fun b => b ≠ c := by
  induction text with
  | nil => rfl
  | cons b text ih =>
    by_cases hb : b = c
    · simp [cutAt, hb]
    · simp [cutAt, hb, ih]

theorem itimerspecFromStr_eq (str : CString) (rest : List Byte) :
    (itimerspecFromStr (str.bytes ++ 0 :: rest)).1 = itimerspecOf str.bytes ∧
    textAt (itimerspecFromStr (str.bytes ++ 0 :: rest)).2 0 =
      stringOf (cutAt 47 (cutAt 58 str.bytes).1).1 := by
  rcases cut_cases 58 str.bytes with habsent | ⟨before, after, htext, hbefore⟩
  · obtain ⟨cut, hvalue, -, hcut⟩ := timespecAt_eq str.nul_free [] rest
    have hcolon := strchrAt_absent [] rest str.nul_free habsent
    simp only [List.nil_append, List.length_nil] at hvalue hcolon
    simp only [itimerspecFromStr, hcolon, hvalue, itimerspecOf, cutAt_absent habsent]
    exact ⟨rfl, hcut rest⟩
  · have hfree := str.nul_free
    rw [htext] at hfree ⊢
    have hzero : 0 ∉ before ∧ 0 ∉ after := by
      simp only [List.mem_append, List.mem_cons, not_or] at hfree
      exact ⟨hfree.1, hfree.2.2⟩
    obtain ⟨cut, hvalue, hlength, hcut⟩ := timespecAt_eq hzero.1 [] (after ++ 0 :: rest)
    obtain ⟨cut', hinterval, -, -⟩ := timespecAt_eq hzero.2 (cut ++ [0]) rest
    have hcolon := strchrAt_present [] rest hfree hbefore
    have hset := set_separator 58 [] before after rest
    simp only [List.nil_append, List.length_nil, Nat.zero_add] at hvalue hcolon hset
    simp only [List.length_append, List.length_singleton, hlength, List.append_assoc,
      List.cons_append, List.nil_append] at hinterval hset hcolon
    simp only [List.append_assoc, List.cons_append, itimerspecFromStr, hcolon, hset, hvalue,
      hinterval, itimerspecOf, cutAt_present hbefore]
    exact ⟨rfl, hcut _⟩

def timespecText (sec : ℤ) (nsec : Option ℤ) : List Byte :=
  formatInt sec ++ (nsec.map fun nsec => 47 :: formatInt nsec).getD []

def timerText (value : ℤ × Option ℤ) (interval : Option (ℤ × Option ℤ)) : List Byte :=
  timespecText value.1 value.2 ++
    (interval.map fun interval => 58 :: timespecText interval.1 interval.2).getD []

def IsInt (z : ℤ) : Prop := -2 ^ 31 ≤ z ∧ z < 2 ^ 31

def IsTimespec (half : ℤ × Option ℤ) : Prop := IsInt half.1 ∧ ∀ nsec ∈ half.2, IsInt nsec

theorem atoi_formatInt {z : ℤ} (h : IsInt z) : atoi (stringOf (formatInt z)) = z := by
  have htext : stringOf (formatInt z) = ⟨formatInt z, formatInt_nul_free z⟩ :=
    CString.ext_bytes (stringOf_bytes (formatInt_nul_free z))
  obtain ⟨hlo, hhi⟩ := h
  rw [atoi, htext, strtol_formatInt (by omega) (by omega), BitVec.toInt_ofInt]
  exact Int.bmod_eq_of_le (by omega) (by omega)

theorem timespecText_free {b : Byte} (hb : isDigit b = false) (hsign : b ≠ 45) (hslash : b ≠ 47)
    (sec : ℤ) (nsec : Option ℤ) : b ∉ timespecText sec nsec := by
  have hfree := not_mem_formatInt hb hsign
  cases nsec with
  | none => simp [timespecText, hfree]
  | some nsec => simp [timespecText, hfree, hslash]

theorem timespecOf_text {half : ℤ × Option ℤ} (h : IsTimespec half) :
    timespecOf (timespecText half.1 half.2) = ⟨half.1, half.2.getD 0⟩ := by
  obtain ⟨sec, nsec⟩ := half
  have hslash : (47 : Byte) ∉ formatInt sec := not_mem_formatInt (by decide) (by decide) sec
  cases nsec with
  | none =>
    have htext : timespecText sec none = formatInt sec := List.append_nil _
    simp only [htext, timespecOf, cutAt_absent hslash, atoi_formatInt h.1]
    rfl
  | some nsec =>
    have htext : timespecText sec (some nsec) = formatInt sec ++ 47 :: formatInt nsec := rfl
    simp only [htext, timespecOf, cutAt_present hslash, atoi_formatInt h.1]
    simp [atoi_formatInt (h.2 nsec rfl)]

theorem itimerspecOf_text {value : ℤ × Option ℤ} {interval : Option (ℤ × Option ℤ)}
    (hvalue : IsTimespec value) (hinterval : ∀ half ∈ interval, IsTimespec half) :
    itimerspecOf (timerText value interval) = ⟨⟨value.1, value.2.getD 0⟩,
      (interval.map fun half => ⟨half.1, half.2.getD 0⟩).getD ⟨0, 0⟩⟩ := by
  have hcolon : (58 : Byte) ∉ timespecText value.1 value.2 :=
    timespecText_free (by decide) (by decide) (by decide) _ _
  cases interval with
  | none =>
    have htext : timerText value none = timespecText value.1 value.2 := List.append_nil _
    simp only [htext, itimerspecOf, cutAt_absent hcolon, timespecOf_text hvalue]
    rfl
  | some half =>
    have htext : timerText value (some half) =
      timespecText value.1 value.2 ++ 58 :: timespecText half.1 half.2 := rfl
    simp only [htext, itimerspecOf, cutAt_present hcolon, timespecOf_text hvalue]
    simp [timespecOf_text (hinterval half rfl)]

/-- Every string is read by its parts: the seconds and nanoseconds on either side of the first
colon, with 0 for those that are missing. What the caller can print afterwards is the text up
to the first separator. And what was written from numbers is read as these numbers. -/
theorem timer_text_read (str : CString) (rest : List Byte) :
    (itimerspecFromStr (str.bytes ++ 0 :: rest)).1 = itimerspecOf str.bytes ∧
    (textAt (itimerspecFromStr (str.bytes ++ 0 :: rest)).2 0).bytes =
      str.bytes.takeWhile (fun b => b ≠ 47 ∧ b ≠ 58) ∧
    ∀ value interval, IsTimespec value → (∀ half ∈ interval, IsTimespec half) →
      str.bytes = timerText value interval →
      (itimerspecFromStr (str.bytes ++ 0 :: rest)).1 = ⟨⟨value.1, value.2.getD 0⟩,
        (interval.map fun half => ⟨half.1, half.2.getD 0⟩).getD ⟨0, 0⟩⟩ := by
  obtain ⟨hspec, hleft⟩ := itimerspecFromStr_eq str rest
  refine ⟨hspec, ?_, fun value interval hvalue hinterval htext => ?_⟩
  · have hfree : (0 : Byte) ∉ (str.bytes.takeWhile fun b => b ≠ 58).takeWhile fun b => b ≠ 47 :=
      fun hmem => str.nul_free ((List.takeWhile_subset _)
        ((List.takeWhile_subset _) hmem))
    rw [hleft, cutAt_fst, cutAt_fst, stringOf_bytes hfree, List.takeWhile_takeWhile]
    simp
  · rw [hspec, htext, itimerspecOf_text hvalue hinterval]

end Results

end TimerSpec
