import Mathlib.Data.List.DropRight
import Mathlib.Data.List.Lex
import Mathlib.Data.List.TakeWhile
import Mathlib.Order.Lattice

/-! C strings as NUL-free byte lists, the order that `strcmp` decides, and the
fixed-size character arrays that `strncpy` fills. Nothing here depends on a program. -/
namespace CharStrings

abbrev Byte := UInt8

structure CString where
  bytes : List Byte
  nul_free : (0 : Byte) ∉ bytes
  deriving DecidableEq

theorem CString.bytes_injective : Function.Injective CString.bytes := by
  rintro ⟨a, ha⟩ ⟨b, hb⟩ h
  simpa using h

theorem CString.ext_bytes {a b : CString} (h : a.bytes = b.bytes) : a = b :=
  CString.bytes_injective h

/-- Bytes are compared as unsigned chars; the terminator counts as zero. -/
def strcmpBytes : List Byte → List Byte → Int
  | [], [] => 0
  | [], b :: _ => -(b.toNat : Int)
  | a :: _, [] => a.toNat
  | a :: as, b :: bs => if a = b then strcmpBytes as bs else (a.toNat : Int) - b.toNat

def strcmp (a b : CString) : Int := strcmpBytes a.bytes b.bytes

def rank (s : CString) : List ℕ := s.bytes.map UInt8.toNat

theorem rank_injective : Function.Injective rank := by
  intro a b h
  exact CString.ext_bytes (List.map_injective_iff.mpr (fun _ _ h => UInt8.toNat_inj.mp h) h)

instance : LinearOrder CString := LinearOrder.lift' rank rank_injective

private theorem strcmpBytes_neg_iff : ∀ {as bs : List Byte}, (0 : Byte) ∉ as → (0 : Byte) ∉ bs →
    (strcmpBytes as bs < 0 ↔ as.map UInt8.toNat < bs.map UInt8.toNat)
  | [], [], _, _ => by simp [strcmpBytes]
  | [], b :: bs, _, hb => by
    have hz : b.toNat ≠ 0 := fun h =>
      hb (by simp [UInt8.toNat_inj.mp (h.trans UInt8.toNat_zero.symm)])
    have hn : -(b.toNat : Int) < 0 := by omega
    simp only [strcmpBytes, List.map_nil, List.map_cons]
    exact ⟨fun _ => List.nil_lt_cons _ _, fun _ => hn⟩
  | a :: as, [], _, _ => by
    simp only [strcmpBytes, List.map_nil, List.map_cons]
    exact ⟨fun h => absurd h (by omega), fun h => absurd h (List.not_lt_nil _)⟩
  | a :: as, b :: bs, ha, hb => by
    have ih := strcmpBytes_neg_iff (fun h => ha (List.mem_cons_of_mem a h))
      (fun h => hb (List.mem_cons_of_mem b h))
    simp only [strcmpBytes, List.map_cons, List.cons_lt_cons_iff]
    by_cases he : a = b
    · subst b; simp [ih]
    · have hne : a.toNat ≠ b.toNat := fun h => he (UInt8.toNat_inj.mp h)
      simp only [if_neg he, hne, false_and, or_false]
      omega

private theorem strcmpBytes_swap : ∀ as bs : List Byte, strcmpBytes as bs = -strcmpBytes bs as
  | [], [] => rfl
  | [], _ :: _ => rfl
  | _ :: _, [] => by simp [strcmpBytes]
  | a :: as, b :: bs => by
    by_cases he : a = b
    · subst b; simpa [strcmpBytes] using strcmpBytes_swap as bs
    · simp only [strcmpBytes, if_neg he, if_neg (Ne.symm he)]
      omega

theorem strcmp_swap (a b : CString) : strcmp a b = -strcmp b a := strcmpBytes_swap _ _

@[simp] theorem strcmp_neg_iff {a b : CString} : strcmp a b < 0 ↔ a < b :=
  strcmpBytes_neg_iff a.nul_free b.nul_free

@[simp] theorem strcmp_pos_iff {a b : CString} : 0 < strcmp a b ↔ b < a := by
  rw [strcmp_swap, ← strcmp_neg_iff]
  omega

theorem strcmp_eq_zero_iff {a b : CString} : strcmp a b = 0 ↔ a = b := by
  constructor
  · intro h
    rcases lt_trichotomy a b with hlt | heq | hgt
    · have := strcmp_neg_iff.mpr hlt
      omega
    · exact heq
    · have := strcmp_pos_iff.mpr hgt
      omega
  · rintro rfl
    have hneg : ¬ strcmp a a < 0 := fun h => lt_irrefl a (strcmp_neg_iff.mp h)
    have hpos : ¬ 0 < strcmp a a := fun h => lt_irrefl a (strcmp_pos_iff.mp h)
    omega

def ascii (s : String) : List Byte := s.toList.map fun c => UInt8.ofNat c.toNat

/-- The string stored in memory that starts with the given bytes. -/
def stringOf (memory : List Byte) : CString where
  bytes := memory.takeWhile (· ≠ 0)
  nul_free := fun h => by simpa using List.mem_takeWhile_imp h

theorem stringOf_append_nul (s : CString) (rest : List Byte) :
    stringOf (s.bytes ++ 0 :: rest) = s := by
  apply CString.ext_bytes
  have hp : ∀ b ∈ s.bytes, decide (b ≠ 0) = true := fun b hb =>
    decide_eq_true (fun h => s.nul_free (h ▸ hb))
  change (s.bytes ++ 0 :: rest).takeWhile (· ≠ 0) = s.bytes
  rw [List.takeWhile_append_of_pos hp]
  simp

theorem stringOf_bytes {l : List Byte} (h : 0 ∉ l) : (stringOf l).bytes = l := by
  apply List.takeWhile_eq_self_iff.mpr
  intro b hb
  exact decide_eq_true (fun hz => h (hz ▸ hb))

@[simp] theorem stringOf_string (s : CString) : stringOf s.bytes = s :=
  CString.ext_bytes (stringOf_bytes s.nul_free)

theorem stringOf_padded (l : List Byte) (n : ℕ) :
    stringOf (l ++ List.replicate n 0) = stringOf l := by
  apply CString.ext_bytes
  change (l ++ List.replicate n 0).takeWhile (· ≠ 0) = l.takeWhile (· ≠ 0)
  induction l with
  | nil => cases n <;> simp [List.replicate_succ]
  | cons b l ih =>
    by_cases hb : b = 0
    · simp [hb]
    · simpa [hb] using ih

section Trailing

variable {c : Byte} {text : List Byte}

/-- The bytes without those at the end that are `c`. -/
def stripTrailing (c : Byte) (bytes : List Byte) : List Byte := bytes.rdropWhile (· = c)

theorem stripTrailing_append_run (c : Byte) (bytes : List Byte) :
    stripTrailing c bytes ++
      List.replicate (bytes.length - (stripTrailing c bytes).length) c = bytes := by
  have hsplit : stripTrailing c bytes ++ bytes.rtakeWhile (· = c) = bytes :=
    List.rdropWhile_append_rtakeWhile
  have hrun : bytes.rtakeWhile (· = c) = List.replicate (bytes.rtakeWhile (· = c)).length c :=
    List.eq_replicate_of_mem fun b hb => by simpa using List.mem_rtakeWhile_imp hb
  have hlen := congrArg List.length hsplit
  rw [List.length_append] at hlen
  have hcount : bytes.length - (stripTrailing c bytes).length =
      (bytes.rtakeWhile (· = c)).length := by omega
  rw [hcount, ← hrun, hsplit]

theorem stripTrailing_eq_self_iff : stripTrailing c text = text ↔ text.getLast? ≠ some c := by
  rw [stripTrailing, List.rdropWhile_eq_self_iff]
  cases text using List.reverseRecOn with
  | nil => simp
  | append_singleton text b => simp

theorem stripTrailing_run (text : List Byte) (k : ℕ) :
    stripTrailing c (text ++ List.replicate k c) = stripTrailing c text := by
  induction k with
  | zero => simp
  | succ k ih =>
    rw [List.replicate_succ', ← List.append_assoc]
    exact (List.rdropWhile_concat_pos _ _ _ (by simp)).trans ih

theorem getLast_stripTrailing (c : Byte) (text : List Byte) :
    (stripTrailing c text).getLast? ≠ some c :=
  stripTrailing_eq_self_iff.mp (List.rdropWhile_idempotent _ _)

/-- Where the last `c` of a string is. -/
def strrchr (c : Byte) : List Byte → Option ℕ
  | [] => none
  | b :: text =>
    match strrchr c text with
    | some i => some (i + 1)
    | none => if b = c then some 0 else none

theorem strrchr_eq_none (h : c ∉ text) : strrchr c text = none := by
  induction text with
  | nil => rfl
  | cons b text ih =>
    rw [List.mem_cons, not_or] at h
    rw [strrchr, ih h.2]
    exact if_neg (Ne.symm h.1)

theorem strrchr_append (front : List Byte) (h : c ∉ text) :
    strrchr c (front ++ c :: text) = some front.length := by
  induction front with
  | nil => simp [strrchr, strrchr_eq_none h]
  | cons b front ih => simp [strrchr, ih]

end Trailing

/-- A `char[n]` array. `strncpy` overwrites all of it: the copy, then zero padding. -/
abbrev CharArray (n : ℕ) := Vector Byte n

def strncpy (n : ℕ) (src : CString) : CharArray n :=
  Vector.ofFn fun i => src.bytes.getD i.val 0

def CharArray.text (a : CharArray n) : CString := stringOf a.toList

def CharArray.Terminated (a : CharArray n) : Prop := (0 : Byte) ∈ a.toList

instance (a : CharArray n) : Decidable a.Terminated :=
  inferInstanceAs (Decidable ((0 : Byte) ∈ a.toList))

/-- Bytes written from the start of an array on; what is behind them stays. -/
def CharArray.fill (a : CharArray n) (bytes : List Byte) : CharArray n :=
  Vector.ofFn fun i => bytes.getD i.val (a.get i)

/-- `snprintf(a, n, ...)`: at most `n - 1` characters of the text, and a terminator. -/
def snprintf (a : CharArray n) (text : List Byte) : CharArray n :=
  a.fill (text.take (n - 1) ++ [0])

theorem fill_toList (a : CharArray n) (bytes : List Byte) :
    (a.fill bytes).toList = bytes.take n ++ a.toList.drop bytes.length := by
  apply List.ext_getElem
  · simp; omega
  · intro i h₁ h₂
    have hi : i < n := by simpa using h₁
    by_cases hb : i < bytes.length
    · have ht : i < (bytes.take n).length := by simp; omega
      simp [CharArray.fill, List.getElem_append_left ht, hb]
    · have ht : (bytes.take n).length ≤ i := by simp; omega
      have hn : min n bytes.length = bytes.length := by omega
      have hidx : bytes.length + (i - bytes.length) = i := by omega
      simp [CharArray.fill, List.getElem_append_right ht, hb, hn, hidx, Vector.get]

/-- Nothing of the old content is left. -/
theorem fill_whole (a b : CharArray n) : a.fill b.toList = b := by
  ext i hi
  simp [CharArray.fill]

theorem snprintf_terminated {a : CharArray n} {text : List Byte} (hn : 0 < n) :
    (snprintf a text).Terminated := by
  have hshort : (text.take (n - 1) ++ [(0 : Byte)]).length ≤ n := by
    simp
    omega
  rw [CharArray.Terminated, snprintf, fill_toList, List.take_of_length_le hshort]
  simp

theorem snprintf_text {a : CharArray n} {text : List Byte} (hfree : 0 ∉ text)
    (hlen : text.length < n) : (snprintf a text).text = ⟨text, hfree⟩ := by
  have htake : text.take (n - 1) = text := List.take_of_length_le (by omega)
  have hall : (text ++ [0]).take n = text ++ [0] := by
    apply List.take_of_length_le
    simp
    omega
  rw [CharArray.text, snprintf, fill_toList, htake, hall, List.append_assoc]
  exact stringOf_append_nul ⟨text, hfree⟩ _

theorem strncpy_toList (n : ℕ) (src : CString) :
    (strncpy n src).toList = src.bytes.take n ++ List.replicate (n - src.bytes.length) 0 := by
  apply List.ext_getElem
  · simp; omega
  · intro i h₁ h₂
    by_cases hi : i < src.bytes.length
    · have ht : i < (src.bytes.take n).length := by simp at h₁ ⊢; omega
      simp [strncpy, List.getElem_append_left ht, hi]
    · have ht : (src.bytes.take n).length ≤ i := by simp; omega
      simp [strncpy, List.getElem_append_right ht, hi]

/-- A string that leaves room for its terminator survives the copy unchanged. -/
theorem strncpy_text {n : ℕ} {src : CString} (h : src.bytes.length < n) :
    (strncpy n src).text = src := by
  obtain ⟨m, hm⟩ : ∃ m, n - src.bytes.length = m + 1 := ⟨n - src.bytes.length - 1, by omega⟩
  rw [CharArray.text, strncpy_toList, List.take_of_length_le (by omega), hm, List.replicate_succ]
  exact stringOf_append_nul src _

theorem strncpy_terminated_iff {n : ℕ} {src : CString} :
    (strncpy n src).Terminated ↔ src.bytes.length < n := by
  have hf : (0 : Byte) ∉ src.bytes.take n := fun h => src.nul_free (List.mem_of_mem_take h)
  simp only [CharArray.Terminated, strncpy_toList, List.mem_append, hf, false_or,
    List.mem_replicate, and_true]
  omega

end CharStrings
