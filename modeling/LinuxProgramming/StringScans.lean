import LinuxProgramming.CharStrings

/-! Scans of a character array up to its terminator and stores into it, with the accesses
checked: the result is `none` where the array would be left. -/
namespace StringScans

open CharStrings

variable {n : ℕ}

def strlen (a : CharArray n) : Option ℕ := a.toList.findIdx? (· == 0)

/-- The bytes of the string, as `write(fd, s, strlen(s))` or `printf("%s", s)` put them out. -/
def textBytes (a : CharArray n) : Option (List Byte) := (strlen a).map a.toList.take

/-- The inner result is where the character is, if it comes before the terminator. -/
def strchr (a : CharArray n) (c : Byte) : Option (Option ℕ) :=
  (a.toList.findIdx? fun b => b == c || b == 0).map fun i =>
    if a.toList[i]? = some c then some i else none

def store (a : CharArray n) (i : ℕ) (b : Byte) : Option (CharArray n) :=
  if i < n then some (a.setIfInBounds i b) else none

/-- `for (i = 0; s[i]; i++) s[i] = f(s[i]);` from a position on. -/
def mapFrom (f : Byte → Byte) : List Byte → Option (List Byte)
  | [] => none
  | b :: bs => if b = 0 then some (b :: bs) else (mapFrom f bs).map fun rest => f b :: rest

def mapText (f : Byte → Byte) (a : CharArray n) : Option (CharArray n) :=
  (mapFrom f a.toList).map a.fill

section Texts

variable {a : CharArray n} {text rest : List Byte}

private theorem findIdx_append {p : Byte → Bool} {b : Byte} (hp : ∀ x ∈ text, p x = false)
    (hb : p b = true) : (text ++ b :: rest).findIdx? p = some text.length := by
  have hnone : text.findIdx? p = none := List.findIdx?_eq_none_iff.mpr hp
  rw [List.findIdx?_append, hnone]
  simp [List.findIdx?_cons, hb]

theorem strlen_of_text (h : a.toList = text ++ 0 :: rest) (hfree : 0 ∉ text) :
    strlen a = some text.length := by
  rw [strlen, h]
  refine findIdx_append (fun x hx => ?_) (by simp)
  simpa using fun hz : x = 0 => hfree (hz ▸ hx)

theorem textBytes_of_text (h : a.toList = text ++ 0 :: rest) (hfree : 0 ∉ text) :
    textBytes a = some text := by
  rw [textBytes, strlen_of_text h hfree, Option.map_some, h]
  simp

theorem textBytes_unterminated (h : 0 ∉ a.toList) : textBytes a = none := by
  have hnone : strlen a = none := by
    rw [strlen, List.findIdx?_eq_none_iff]
    intro x hx
    simpa using fun hz : x = 0 => h (hz ▸ hx)
  rw [textBytes, hnone, Option.map_none]

theorem fill_byte (hn : 0 < n) (a : CharArray n) (b : Byte) :
    (a.fill [b]).toList = b :: a.toList.drop 1 := by
  rw [fill_toList, List.take_of_length_le (show [b].length ≤ n from hn), List.length_singleton,
    List.singleton_append]

theorem textBytes_fill_nul (hn : 0 < n) (a : CharArray n) (rest : List Byte) :
    textBytes (a.fill (0 :: rest)) = some [] := by
  obtain ⟨m, rfl⟩ := Nat.exists_eq_succ_of_ne_zero hn.ne'
  have hfill : (a.fill (0 :: rest)).toList =
      [] ++ 0 :: (rest.take m ++ a.toList.drop (rest.length + 1)) := by
    rw [fill_toList, List.take_succ_cons, List.cons_append, List.nil_append, List.length_cons]
  exact textBytes_of_text hfill List.not_mem_nil

theorem strchr_of_first {c : Byte} (h : a.toList = text ++ c :: rest) (hc : c ∉ text)
    (hfree : 0 ∉ text) : strchr a c = some (some text.length) := by
  have hfind : (text ++ c :: rest).findIdx? (fun b => b == c || b == 0) = some text.length := by
    refine findIdx_append (fun x hx => ?_) (by simp)
    have hxc : x ≠ c := fun he => hc (he ▸ hx)
    have hx0 : x ≠ 0 := fun he => hfree (he ▸ hx)
    simp [hxc, hx0]
  rw [strchr, h, hfind]
  simp

theorem store_behind {b x : Byte} (h : a.toList = text ++ x :: rest) :
    ∃ a', store a text.length b = some a' ∧ a'.toList = text ++ b :: rest := by
  have hlen : a.toList.length = n := a.length_toList
  rw [h, List.length_append, List.length_cons] at hlen
  refine ⟨a.setIfInBounds text.length b, if_pos (by omega), ?_⟩
  rw [Vector.toList_setIfInBounds, h]
  simp

theorem mapFrom_of_text (f : Byte → Byte) (hfree : 0 ∉ text) :
    mapFrom f (text ++ 0 :: rest) = some (text.map f ++ 0 :: rest) := by
  induction text with
  | nil => simp [mapFrom]
  | cons b text ih =>
    have hb : b ≠ 0 := fun h => hfree (h ▸ List.mem_cons_self)
    have hrest : 0 ∉ text := fun h => hfree (List.mem_cons_of_mem b h)
    simp [mapFrom, hb, ih hrest]

theorem mapText_of_text (f : Byte → Byte) (h : a.toList = text ++ 0 :: rest)
    (hfree : 0 ∉ text) :
    ∃ a', mapText f a = some a' ∧ a'.toList = text.map f ++ 0 :: rest := by
  have hlen : (text.map f ++ 0 :: rest).length = n := by
    have := a.length_toList
    rw [h] at this
    simpa using this
  refine ⟨a.fill (text.map f ++ 0 :: rest), ?_, ?_⟩
  · rw [mapText, h, mapFrom_of_text f hfree, Option.map_some]
  · rw [fill_toList, List.take_of_length_le (by omega), List.drop_of_length_le, List.append_nil]
    simp [hlen]

end Texts

end StringScans
