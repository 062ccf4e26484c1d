import LinuxProgramming.NameValueServer

/-! Which datagrams the name-value server understands, and which of them its arrays can hold.
The language is stated as a grammar and compared with `sscanf` and the two switches. -/
namespace NameValueDatagram

open BlockMemory CharStrings DecimalText FormattedScan NameValueServer

/-- Nothing, or something that starts with a colon. -/
def Closed (rest : List Byte) : Prop := rest = [] ∨ rest.head? = some 58

/-- The text is `a ':' w d ':' key rest`: an action, white space, a numeral, a key. -/
def Framed (text : List Byte) (a : Byte) (z : ℤ) (key rest : List Byte) : Prop :=
  ∃ w d, text = a :: 58 :: (w ++ (d ++ 58 :: (key ++ rest))) ∧ (∀ b ∈ w, isSpace b) ∧
    Numeral d z ∧ key ≠ [] ∧ 58 ∉ key

/-- A framed key and a value. -/
def WithValue (text : List Byte) (a : Byte) (z : ℤ) (key value : List Byte) : Prop :=
  ∃ rest, Framed text a z key (58 :: (value ++ rest)) ∧ value ≠ [] ∧ 58 ∉ value ∧ Closed rest

/-- A framed key, and then the end of the text or a colon without a value. -/
def WithoutValue (text : List Byte) (a : Byte) (z : ℤ) (key : List Byte) : Prop :=
  Framed text a z key [] ∨ ∃ rest, Framed text a z key (58 :: rest) ∧ Closed rest

theorem closed_cons {b : Byte} {rest : List Byte} (h : Closed (b :: rest)) : b = 58 := by
  rcases h with h | h
  · cases h
  · exact Option.some.inj h

theorem colon_not_digit (rest : List Byte) :
    ∀ b, (58 :: rest).head? = some b → isDigit b = false := by
  intro b hb
  cases hb
  decide

def valueFields (rest : List Byte) : List Field :=
  (sscanf [.literal 58, .excluding 58] rest).2

theorem valueFields_value {value rest : List Byte} (hne : value ≠ []) (hc : 58 ∉ value)
    (hr : Closed rest) : valueFields (58 :: (value ++ rest)) = [.text value] := by
  have hlit : (Directive.literal 58).convert (58 :: (value ++ rest)) = some ([], value ++ rest) :=
    literal_eq_some.mpr ⟨rfl, rfl⟩
  have hval : (Directive.excluding 58).convert (value ++ rest) = some ([.text value], rest) :=
    excluding_eq_some.mpr ⟨value, rfl, hne, hc, hr, rfl⟩
  rw [valueFields, sscanf_fields_some hlit, sscanf_fields_some hval]
  rfl

theorem valueFields_nil : valueFields [] = [] := rfl

theorem valueFields_empty {rest : List Byte} (hr : Closed rest) :
    valueFields (58 :: rest) = [] := by
  have hlit : (Directive.literal 58).convert (58 :: rest) = some ([], rest) :=
    literal_eq_some.mpr ⟨rfl, rfl⟩
  have hnone : (Directive.excluding 58).convert rest = none := by
    cases rest with
    | nil => rfl
    | cons b t =>
      rw [closed_cons hr]
      simp [Directive.convert]
  rw [valueFields, sscanf_fields_some hlit, sscanf_fields_none hnone]
  rfl

theorem valueFields_cases {rest : List Byte} (hr : Closed rest) :
    (valueFields rest = [] ∧ (rest = [] ∨ ∃ more, rest = 58 :: more ∧ Closed more)) ∨
    ∃ value more, rest = 58 :: (value ++ more) ∧ value ≠ [] ∧ 58 ∉ value ∧ Closed more ∧
      valueFields rest = [.text value] := by
  cases rest with
  | nil => exact Or.inl ⟨rfl, Or.inl rfl⟩
  | cons b t =>
    have hb := closed_cons hr
    subst hb
    cases hc : (Directive.excluding 58).convert t with
    | none =>
      have hclosed : Closed t := by
        cases t with
        | nil => exact Or.inl rfl
        | cons c t =>
          by_cases h58 : c = 58
          · exact Or.inr (by rw [h58]; rfl)
          · simp [Directive.convert, h58] at hc
      exact Or.inl ⟨valueFields_empty hclosed, Or.inr ⟨t, rfl, hclosed⟩⟩
    | some r =>
      obtain ⟨fs, more⟩ := r
      obtain ⟨value, ht, hne, hv, hmore, _⟩ := excluding_eq_some.mp hc
      refine Or.inr ⟨value, more, by rw [ht], hne, hv, hmore, ?_⟩
      rw [ht]
      exact valueFields_value hne hv hmore

theorem fields_framed {text key rest : List Byte} {a : Byte} {z : ℤ}
    (h : Framed text a z key rest) (hr : Closed rest) :
    (sscanf format text).2 = [.char a, .int z, .text key] ++ valueFields rest := by
  obtain ⟨w, d, ht, hw, hd, hne, hk⟩ := h
  have hchar : Directive.char.convert text =
      some ([.char a], 58 :: (w ++ (d ++ 58 :: (key ++ rest)))) :=
    char_eq_some.mpr ⟨a, ht, rfl⟩
  have hfirst : (Directive.literal 58).convert (58 :: (w ++ (d ++ 58 :: (key ++ rest)))) =
      some ([], w ++ (d ++ 58 :: (key ++ rest))) := literal_eq_some.mpr ⟨rfl, rfl⟩
  have hint : Directive.int.convert (w ++ (d ++ 58 :: (key ++ rest))) =
      some ([.int z], 58 :: (key ++ rest)) :=
    int_eq_some.mpr ⟨z, scanNumeral_eq_some.mpr ⟨w, d, rfl, hw, hd, colon_not_digit _⟩, rfl⟩
  have hsecond : (Directive.literal 58).convert (58 :: (key ++ rest)) =
      some ([], key ++ rest) := literal_eq_some.mpr ⟨rfl, rfl⟩
  have hkey : (Directive.excluding 58).convert (key ++ rest) = some ([.text key], rest) :=
    excluding_eq_some.mpr ⟨key, rfl, hne, hk, hr, rfl⟩
  rw [format, sscanf_fields_some hchar, sscanf_fields_some hfirst, sscanf_fields_some hint,
    sscanf_fields_some hsecond, sscanf_fields_some hkey]
  rfl

/-- Going through the directives: either the scan stops before a key, or there is one. -/
theorem framed_of_scan (text : List Byte) :
    (sscanf format text).2.length < 3 ∨
      ∃ a z key rest, Framed text a z key rest ∧ Closed rest := by
  have stop : ∀ {d : Directive} {ds : List Directive} {t : List Byte} {fs : List Field},
      fs.length < 3 → d.convert t = none → (fs ++ (sscanf (d :: ds) t).2).length < 3 := by
    intro d ds t fs hl hc
    rw [sscanf_fields_none hc, List.append_nil]
    exact hl
  rw [format]
  cases h₁ : Directive.char.convert text with
  | none => exact Or.inl (stop (show ([] : List Field).length < 3 by decide) h₁)
  | some r₁ =>
    obtain ⟨f₁, t₁⟩ := r₁
    obtain ⟨a, ht, rfl⟩ := char_eq_some.mp h₁
    rw [sscanf_fields_some h₁]
    cases h₂ : (Directive.literal 58).convert t₁ with
    | none => exact Or.inl (stop (by simp) h₂)
    | some r₂ =>
      obtain ⟨f₂, t₂⟩ := r₂
      obtain ⟨ht₁, rfl⟩ := literal_eq_some.mp h₂
      rw [sscanf_fields_some h₂, List.nil_append]
      cases h₃ : Directive.int.convert t₂ with
      | none => exact Or.inl (stop (by simp) h₃)
      | some r₃ =>
        obtain ⟨f₃, t₃⟩ := r₃
        obtain ⟨z, hz, rfl⟩ := int_eq_some.mp h₃
        obtain ⟨w, d, ht₂, hw, hd, _⟩ := scanNumeral_eq_some.mp hz
        rw [sscanf_fields_some h₃, ← List.append_assoc]
        cases h₄ : (Directive.literal 58).convert t₃ with
        | none => exact Or.inl (stop (by simp) h₄)
        | some r₄ =>
          obtain ⟨f₄, t₄⟩ := r₄
          obtain ⟨ht₃, rfl⟩ := literal_eq_some.mp h₄
          rw [sscanf_fields_some h₄, List.nil_append]
          cases h₅ : (Directive.excluding 58).convert t₄ with
          | none => exact Or.inl (stop (by simp) h₅)
          | some r₅ =>
            obtain ⟨f₅, t₅⟩ := r₅
            obtain ⟨key, ht₄, hne, hk, hrest, _⟩ := excluding_eq_some.mp h₅
            refine Or.inr ⟨a, z, key, t₅, ⟨w, d, ?_, hw, hd, hne, hk⟩, hrest⟩
            rw [ht, ht₁, ht₂, ht₃, ht₄]

theorem framed_nul_free {text : CString} {a : Byte} {z : ℤ} {key rest : List Byte}
    (h : Framed text.bytes a z key rest) : 0 ∉ key ∧ 0 ∉ rest := by
  obtain ⟨w, d, ht, _⟩ := h
  have hfree := text.nul_free
  rw [ht] at hfree
  simp only [List.mem_cons, List.mem_append, not_or] at hfree
  exact ⟨hfree.2.2.2.2.2.1, hfree.2.2.2.2.2.2⟩

theorem withValue_nul_free {text : CString} {a : Byte} {z : ℤ} {key value : List Byte}
    (h : WithValue text.bytes a z key value) : 0 ∉ key ∧ 0 ∉ value := by
  obtain ⟨rest, hf, _⟩ := h
  have hfree := framed_nul_free hf
  simp only [List.mem_cons, List.mem_append, not_or] at hfree
  exact ⟨hfree.1, hfree.2.2.1⟩

theorem withoutValue_nul_free {text : CString} {a : Byte} {z : ℤ} {key : List Byte}
    (h : WithoutValue text.bytes a z key) : 0 ∉ key := by
  rcases h with hf | ⟨rest, hf, _⟩
  · exact (framed_nul_free hf).1
  · exact (framed_nul_free hf).1

theorem count_of_fields {text : List Byte} {fs : List Field} (hf : (sscanf format text).2 = fs)
    (hne : fs ≠ []) : sscanf format text = ((fs.length : ℤ), fs) := by
  rcases sscanf_count format text with hn | ⟨_, hnil⟩
  · rw [hf] at hn
    exact Prod.ext hn hf
  · exact absurd (hf.symm.trans hnil) hne

theorem scan_withValue {text : CString} {a : Byte} {z : ℤ} {key value : List Byte}
    (h : WithValue text.bytes a z key value) :
    scan text = ⟨4, a, toPid z, stringOf key, stringOf value⟩ := by
  obtain ⟨rest, hf, hne, hc, hr⟩ := h
  have hfields := fields_framed hf (Or.inr rfl)
  rw [valueFields_value hne hc hr] at hfields
  rw [scan, count_of_fields hfields (by simp)]
  rfl

theorem scan_withoutValue {text : CString} {a : Byte} {z : ℤ} {key : List Byte}
    (h : WithoutValue text.bytes a z key) :
    scan text = ⟨3, a, toPid z, stringOf key, stringOf []⟩ := by
  have hfields : (sscanf format text.bytes).2 = [.char a, .int z, .text key] := by
    rcases h with hf | ⟨rest, hf, hr⟩
    · rw [fields_framed hf (Or.inl rfl), valueFields_nil]
      rfl
    · rw [fields_framed hf (Or.inr rfl), valueFields_empty hr]
      rfl
  rw [scan, count_of_fields hfields (by simp)]
  rfl

theorem scan_few {text : CString} (hl : (sscanf format text.bytes).2.length < 3) :
    (scan text).n < 3 ∧ (scan text).key = stringOf [] ∧ (scan text).value = stringOf [] := by
  have hn : (sscanf format text.bytes).1 < 3 := by
    rcases sscanf_count format text.bytes with hn | ⟨hn, _⟩ <;> omega
  unfold scan
  simp only
  split
  · exact ⟨hn, rfl, rfl⟩
  · exact ⟨hn, rfl, rfl⟩
  · next hf =>
    rw [hf] at hl
    exact absurd hl (by simp)
  · next hf =>
    rw [hf] at hl
    exact absurd hl (by simp)
  · exact ⟨hn, rfl, rfl⟩

theorem framed_kinds {text key rest : List Byte} {a : Byte} {z : ℤ}
    (hf : Framed text a z key rest) (hr : Closed rest) :
    WithoutValue text a z key ∨ ∃ value, WithValue text a z key value := by
  rcases valueFields_cases hr with ⟨_, hnone⟩ | ⟨value, more, rfl, hne, hc, hmore, _⟩
  · refine Or.inl ?_
    rcases hnone with rfl | ⟨more, rfl, hmore⟩
    · exact Or.inl hf
    · exact Or.inr ⟨more, hf, hmore⟩
  · exact Or.inr ⟨value, more, hf, hne, hc, hmore⟩

/-- Every text has a value, a key without a value, or not enough fields. -/
theorem scan_cases (text : CString) :
    ((scan text).n < 3 ∧ (scan text).key = stringOf [] ∧ (scan text).value = stringOf []) ∨
    (∃ a z key, WithoutValue text.bytes a z key) ∨
      ∃ a z key value, WithValue text.bytes a z key value := by
  rcases framed_of_scan text.bytes with hshort | ⟨a, z, key, rest, hf, hr⟩
  · exact Or.inl (scan_few hshort)
  · rcases framed_kinds hf hr with h | ⟨value, h⟩
    · exact Or.inr (Or.inl ⟨a, z, key, h⟩)
    · exact Or.inr (Or.inr ⟨a, z, key, value, h⟩)

theorem upsertValue_selected_iff (text key value : CString) (pid : Pid) :
    selectCall (scan text) = .upsertValue key value pid ↔
      ∃ a z, (a = 99 ∨ a = 117) ∧ WithValue text.bytes a z key.bytes value.bytes ∧
        pid = toPid z := by
  constructor
  · intro hcall
    rcases scan_cases text with ⟨hn, _⟩ | ⟨a, z, k, h⟩ | ⟨a, z, k, v, h⟩
    · rw [selectCall, if_pos hn] at hcall
      cases hcall
    · rw [scan_withoutValue h] at hcall
      simp only [selectCall] at hcall
      norm_num at hcall
      split at hcall
      · cases hcall
      · split at hcall <;> cases hcall
    · rw [scan_withValue h] at hcall
      simp only [selectCall] at hcall
      norm_num at hcall
      obtain ⟨hk, hv⟩ := withValue_nul_free h
      split at hcall
      · next hact =>
        cases hcall
        refine ⟨a, z, hact, ?_, rfl⟩
        rw [stringOf_bytes hk, stringOf_bytes hv]
        exact h
      · cases hcall
  · intro ⟨a, z, hact, h, hpid⟩
    rw [scan_withValue h, stringOf_string, stringOf_string, hpid]
    simp only [selectCall]
    norm_num [hact]

theorem keyed_selected_iff (text key : CString) (pid : Pid) :
    (selectCall (scan text) = .getValue key ↔ ∃ z, WithoutValue text.bytes 114 z key.bytes) ∧
    (selectCall (scan text) = .deleteKeyValue key pid ↔
      ∃ z, WithoutValue text.bytes 100 z key.bytes ∧ pid = toPid z) := by
  have selected : ∀ {a : Byte} {z : ℤ} {k : List Byte}, WithoutValue text.bytes a z k →
      selectCall (scan text) = if a = 114 then .getValue (stringOf k)
        else if a = 100 then .deleteKeyValue (stringOf k) (toPid z) else .unknownAction := by
    intro a z k h
    rw [scan_withoutValue h]
    simp only [selectCall]
    norm_num
  have valued : ∀ {a : Byte} {z : ℤ} {k v : List Byte}, WithValue text.bytes a z k v →
      selectCall (scan text) ≠ .getValue key ∧
        selectCall (scan text) ≠ .deleteKeyValue key pid := by
    intro a z k v h
    rw [scan_withValue h]
    simp only [selectCall]
    norm_num
    split <;> simp
  refine ⟨⟨?_, ?_⟩, ?_, ?_⟩
  · intro hcall
    rcases scan_cases text with ⟨hn, _⟩ | ⟨a, z, k, h⟩ | ⟨a, z, k, v, h⟩
    · rw [selectCall, if_pos hn] at hcall
      cases hcall
    · rw [selected h] at hcall
      split at hcall
      · next hact =>
        cases hcall
        refine ⟨z, ?_⟩
        rw [stringOf_bytes (withoutValue_nul_free h), ← hact]
        exact h
      · split at hcall <;> cases hcall
    · exact absurd hcall (valued h).1
  · intro ⟨z, h⟩
    rw [selected h, if_pos rfl, stringOf_string]
  · intro hcall
    rcases scan_cases text with ⟨hn, _⟩ | ⟨a, z, k, h⟩ | ⟨a, z, k, v, h⟩
    · rw [selectCall, if_pos hn] at hcall
      cases hcall
    · rw [selected h] at hcall
      split at hcall
      · cases hcall
      · split at hcall
        · next hact =>
          cases hcall
          refine ⟨z, ?_, rfl⟩
          rw [stringOf_bytes (withoutValue_nul_free h), ← hact]
          exact h
        · cases hcall
    · exact absurd hcall (valued h).2
  · intro ⟨z, h, hpid⟩
    rw [selected h, if_neg (by decide), if_pos rfl, stringOf_string, hpid]

theorem framed_length {text key rest : List Byte} {a : Byte} {z : ℤ}
    (h : Framed text a z key rest) : key.length + rest.length ≤ text.length := by
  obtain ⟨w, d, ht, _⟩ := h
  rw [ht]
  simp only [List.length_cons, List.length_append]
  omega

theorem scan_length (text : CString) : (scan text).key.bytes.length ≤ text.bytes.length ∧
    (scan text).value.bytes.length ≤ text.bytes.length := by
  rcases scan_cases text with ⟨_, hk, hv⟩ | ⟨a, z, k, h⟩ | ⟨a, z, k, v, h⟩
  · rw [hk, hv]
    exact ⟨Nat.zero_le _, Nat.zero_le _⟩
  · rw [scan_withoutValue h]
    refine ⟨?_, Nat.zero_le _⟩
    rw [stringOf_bytes (withoutValue_nul_free h)]
    rcases h with hf | ⟨rest, hf, _⟩
    · have := framed_length hf
      omega
    · have := framed_length hf
      omega
  · obtain ⟨hk, hv⟩ := withValue_nul_free h
    rw [scan_withValue h]
    simp only
    rw [stringOf_bytes hk, stringOf_bytes hv]
    obtain ⟨rest, hf, _⟩ := h
    have hlen := framed_length hf
    simp only [List.length_cons, List.length_append] at hlen
    omega

theorem receive_nul {datagram : List Byte} (hl : datagram.length < bufSize) :
    0 ∈ receive datagram := by
  apply List.mem_append_right
  apply List.mem_replicate.mpr
  exact ⟨by omega, rfl⟩

theorem receive_text {datagram : List Byte} (hl : datagram.length ≤ bufSize) :
    stringOf (receive datagram) = stringOf datagram := by
  rw [receive, List.take_of_length_le hl, stringOf_padded]

theorem stringOf_length (l : List Byte) : (stringOf l).bytes.length ≤ l.length :=
  (List.takeWhile_sublist _).length_le

theorem serve_eq {cap : Capacity} (hk : bufSize ≤ cap.key) (hv : bufSize ≤ cap.value)
    {datagram : List Byte} (hl : datagram.length < bufSize) (table : Uthash)
    (memory : Option KeyValue) (hashTable : List Addr) (h : Heap KeyValue) :
    serve cap table memory hashTable datagram h =
      perform table memory hashTable (selectCall (scan (stringOf datagram))) h := by
  have htext := receive_text (Nat.le_of_lt hl)
  obtain ⟨hkey, hval⟩ := scan_length (stringOf datagram)
  have hlen := stringOf_length datagram
  rw [serve]
  simp only
  rw [if_neg (not_not.mpr (receive_nul hl)), htext, if_neg (by omega)]

/-- Wherever the text has a numeral for a pid, it is that of an `int`. -/
def DecimalInRange (text : List Byte) : Prop :=
  ∀ a z key rest, Framed text a z key rest → -2 ^ 31 ≤ z ∧ z < 2 ^ 31

theorem toPid_toInt {z : ℤ} (h : -2 ^ 31 ≤ z ∧ z < 2 ^ 31) : (toPid z).toInt = z := by
  have hclamp : clampLong z = z := by
    unfold clampLong
    omega
  rw [toPid, hclamp, BitVec.toInt_ofInt]
  apply Int.bmod_eq_of_le <;> omega

theorem eq_toPid_iff {z : ℤ} (h : -2 ^ 31 ≤ z ∧ z < 2 ^ 31) (pid : Pid) :
    pid = toPid z ↔ pid.toInt = z := by
  constructor
  · intro hp
    rw [hp, toPid_toInt h]
  · intro hp
    apply BitVec.eq_of_toInt_eq
    rw [hp, toPid_toInt h]

theorem toPid_pid (pid : Pid) : toPid pid.toInt = pid := by
  have hlo := BitVec.le_toInt pid
  have hhi := BitVec.toInt_lt (x := pid)
  exact ((eq_toPid_iff ⟨by omega, by omega⟩ pid).mpr rfl).symm

def render (a : Byte) (pid : Pid) (key value : CString) : List Byte :=
  a :: 58 :: (formatInt pid.toInt ++ 58 :: (key.bytes ++ 58 :: value.bytes))

theorem render_withValue (a : Byte) (pid : Pid) {key value : CString} (hk : key.bytes ≠ [])
    (hkc : 58 ∉ key.bytes) (hv : value.bytes ≠ []) (hvc : 58 ∉ value.bytes) :
    WithValue (render a pid key value) a pid.toInt key.bytes value.bytes := by
  refine ⟨[], ⟨[], formatInt pid.toInt, ?_, ?_, formatInt_numeral _, hk, hkc⟩, hv, hvc, Or.inl rfl⟩
  · rw [List.append_nil, render]
    rfl
  · intro b hb
    cases hb

theorem scan_render {a : Byte} (ha : a ≠ 0) (pid : Pid) {key value : CString}
    (hk : key.bytes ≠ []) (hkc : 58 ∉ key.bytes) (hv : value.bytes ≠ [])
    (hvc : 58 ∉ value.bytes) :
    scan (stringOf (render a pid key value)) = ⟨4, a, pid, key, value⟩ := by
  have hfree : (0 : Byte) ∉ render a pid key value := by
    simp only [render, List.mem_cons, List.mem_append, not_or]
    exact ⟨Ne.symm ha, by decide, formatInt_nul_free _, by decide, key.nul_free, by decide,
      value.nul_free⟩
  have hform := render_withValue a pid hk hkc hv hvc
  rw [← stringOf_bytes hfree] at hform
  rw [scan_withValue hform, toPid_pid, stringOf_string, stringOf_string]

section Effects

variable (cap : Capacity) (datagram : List Byte)

def Upserts (key value : CString) (pid : Pid) : Prop :=
  ∀ table memory hashTable h, serve cap table memory hashTable datagram h =
    upsertValue table memory hashTable key value pid h

def Deletes (key : CString) (pid : Pid) : Prop :=
  ∀ table memory hashTable h, serve cap table memory hashTable datagram h =
    deleteKeyValue table hashTable key pid h

/-- The datagram is answered with what `getValue` finds, and the table stays as it is. -/
structure Reads (key : CString) : Prop where
  missing : ∀ table memory hashTable h h', getValue table hashTable key h = .ok (none, h') →
    serve cap table memory hashTable datagram h = .ok (⟨hashTable, some keyNotFound, none⟩, h')
  found : ∀ table memory hashTable h val h', getValue table hashTable key h = .ok (some val, h') →
    serve cap table memory hashTable datagram h =
      if val.Terminated then .ok (⟨hashTable, some val.text, none⟩, h') else .error .outOfBounds
  fault : ∀ table memory hashTable h e, getValue table hashTable key h = .error e →
    serve cap table memory hashTable datagram h = .error e

end Effects

theorem reads_of_getValue {cap : Capacity} {datagram : List Byte} {key : CString}
    (hserve : ∀ table memory hashTable h, serve cap table memory hashTable datagram h =
      perform table memory hashTable (.getValue key) h) : Reads cap datagram key := by
  refine ⟨?_, ?_, ?_⟩
  · intro table memory hashTable h h' hget
    rw [hserve, perform, bind_of_ok hget]
    rfl
  · intro table memory hashTable h val h' hget
    rw [hserve, perform, bind_of_ok hget]
    simp only
    split <;> rfl
  · intro table memory hashTable h e hget
    rw [hserve, perform, bind_of_error hget]

/-- The datagrams that make the server create or update, read, or delete, exactly, and what it
then does; all others leave the table alone and are not answered. A rendered request is read
back as it was. -/
theorem datagram_grammar (cap : Capacity) (hck : bufSize ≤ cap.key) (hcv : bufSize ≤ cap.value)
    (datagram : List Byte) (hlen : datagram.length ≤ 511)
    (hrange : DecimalInRange (stringOf datagram).bytes) :
    -- the loop does what the selected call does
    (∀ table memory hashTable h, serve cap table memory hashTable datagram h =
      perform table memory hashTable (selectCall (scan (stringOf datagram))) h) ∧
    (∀ key value pid, selectCall (scan (stringOf datagram)) = .upsertValue key value pid ↔
      ∃ a, (a = 99 ∨ a = 117) ∧
        WithValue (stringOf datagram).bytes a pid.toInt key.bytes value.bytes) ∧
    (∀ key, selectCall (scan (stringOf datagram)) = .getValue key ↔
      ∃ z, WithoutValue (stringOf datagram).bytes 114 z key.bytes) ∧
    (∀ key pid, selectCall (scan (stringOf datagram)) = .deleteKeyValue key pid ↔
      WithoutValue (stringOf datagram).bytes 100 pid.toInt key.bytes) ∧
    (∀ a key value pid, (a = 99 ∨ a = 117) →
      WithValue (stringOf datagram).bytes a pid.toInt key.bytes value.bytes →
      Upserts cap datagram key value pid) ∧
    (∀ z key, WithoutValue (stringOf datagram).bytes 114 z key.bytes → Reads cap datagram key) ∧
    (∀ key pid, WithoutValue (stringOf datagram).bytes 100 pid.toInt key.bytes →
      Deletes cap datagram key pid) ∧
    ((∀ a z key value, (a = 99 ∨ a = 117) →
        ¬ WithValue (stringOf datagram).bytes a z key value) →
      (∀ a z key, (a = 114 ∨ a = 100) → ¬ WithoutValue (stringOf datagram).bytes a z key) →
      ∀ table memory hashTable h, ∃ line, serve cap table memory hashTable datagram h =
        .ok (⟨hashTable, none, some line⟩, h)) ∧
    (∀ a pid key value, a ≠ 0 → key.bytes ≠ [] → 58 ∉ key.bytes → value.bytes ≠ [] →
      58 ∉ value.bytes → scan (stringOf (render a pid key value)) = ⟨4, a, pid, key, value⟩) := by
  have hserve := serve_eq hck hcv (show datagram.length < bufSize by unfold bufSize; omega)
  have hupsert := upsertValue_selected_iff (stringOf datagram)
  have hkeyed := keyed_selected_iff (stringOf datagram)
  have hupserts : ∀ key value pid,
      selectCall (scan (stringOf datagram)) = .upsertValue key value pid ↔
        ∃ a, (a = 99 ∨ a = 117) ∧
          WithValue (stringOf datagram).bytes a pid.toInt key.bytes value.bytes := by
    intro key value pid
    rw [hupsert]
    constructor
    · intro ⟨a, z, hact, h, hp⟩
      obtain ⟨rest, hf, _⟩ := id h
      rw [(eq_toPid_iff (hrange _ _ _ _ hf) pid).mp hp]
      exact ⟨a, hact, h⟩
    · intro ⟨a, hact, h⟩
      exact ⟨a, pid.toInt, hact, h, (toPid_pid pid).symm⟩
  have hdeletes : ∀ key pid, selectCall (scan (stringOf datagram)) = .deleteKeyValue key pid ↔
      WithoutValue (stringOf datagram).bytes 100 pid.toInt key.bytes := by
    intro key pid
    rw [(hkeyed key pid).2]
    constructor
    · intro ⟨z, h, hp⟩
      have hz : -2 ^ 31 ≤ z ∧ z < 2 ^ 31 := by
        rcases h with hf | ⟨rest, hf, _⟩
        · exact hrange _ _ _ _ hf
        · exact hrange _ _ _ _ hf
      rw [(eq_toPid_iff hz pid).mp hp]
      exact h
    · intro h
      exact ⟨pid.toInt, h, (toPid_pid pid).symm⟩
  refine ⟨hserve, hupserts, fun key => (hkeyed key 0).1, hdeletes, ?_, ?_, ?_, ?_,
    fun a pid key value ha hk hkc hv hvc => scan_render ha pid hk hkc hv hvc⟩
  · intro a key value pid hact hform table memory hashTable h
    rw [hserve, (hupserts key value pid).mpr ⟨a, hact, hform⟩]
    rfl
  · intro z key hform
    apply reads_of_getValue
    intro table memory hashTable h
    rw [hserve, (hkeyed key 0).1.mpr ⟨z, hform⟩]
  · intro key pid hform table memory hashTable h
    rw [hserve, (hdeletes key pid).mpr hform]
    rfl
  · intro hno hno' table memory hashTable h
    rw [hserve]
    cases hcall : selectCall (scan (stringOf datagram)) with
    | invalidFormat => exact ⟨.invalidFormat, rfl⟩
    | unknownAction => exact ⟨.unknownAction, rfl⟩
    | upsertValue key value pid =>
      obtain ⟨a, z, hact, hform, _⟩ := (hupsert key value pid).mp hcall
      exact absurd hform (hno a z _ _ hact)
    | getValue key =>
      obtain ⟨z, hform⟩ := (hkeyed key 0).1.mp hcall
      exact absurd hform (hno' _ z _ (Or.inl rfl))
    | deleteKeyValue key pid =>
      obtain ⟨z, hform, _⟩ := (hkeyed key pid).2.mp hcall
      exact absurd hform (hno' _ z _ (Or.inr rfl))

theorem create_datagram_understood : ∃ datagram key value pid, datagram = ascii "c:7:k:v" ∧
    key = stringOf (ascii "k") ∧ value = stringOf (ascii "v") ∧ pid = (7 : Pid) ∧
    (selectCall (scan (stringOf datagram)) = .upsertValue key value pid ↔
      ∃ a, (a = 99 ∨ a = 117) ∧
        WithValue (stringOf datagram).bytes a pid.toInt key.bytes value.bytes) ∧
    selectCall (scan (stringOf datagram)) = .upsertValue key value pid ∧
    Upserts ⟨512, 512⟩ datagram key value pid := by
  have hrange : DecimalInRange (stringOf (ascii "c:7:k:v")).bytes := by
    intro a z key rest h
    have hz : scanNumeral (ascii "7:k:v") = some (z, 58 :: (key ++ rest)) := by
      obtain ⟨w, d, ht, hw, hd, _⟩ := h
      refine scanNumeral_eq_some.mpr ⟨w, d, ?_, hw, hd, colon_not_digit _⟩
      have htail := congrArg (List.drop 2) ht
      exact htail
    have hseven : scanNumeral (ascii "7:k:v") = some (7, ascii ":k:v") := by decide
    rw [hseven] at hz
    have hz7 := (Prod.mk.inj (Option.some.inj hz)).1
    omega
  have hg := datagram_grammar ⟨512, 512⟩ (by decide) (by decide) (ascii "c:7:k:v") (by decide)
    hrange
  have hcreate : selectCall (scan (stringOf (ascii "c:7:k:v"))) =
      .upsertValue (stringOf (ascii "k")) (stringOf (ascii "v")) 7 := by decide
  obtain ⟨a, hact, hform⟩ := (hg.2.1 _ _ _).mp hcreate
  exact ⟨_, _, _, _, rfl, rfl, rfl, rfl, hg.2.1 _ _ _, hcreate,
    hg.2.2.2.2.1 a _ _ _ hact hform⟩

def Sound (hashTable : List Addr) (h : Heap KeyValue) : Prop :=
  ∀ kv ∈ hashTable, ∀ e, h.read kv = some e → e.key.Terminated ∧ e.value.Terminated

/-- A datagram that every buffer on its way can hold. -/
structure WithinCapacity (datagram : List Byte) : Prop where
  terminated : 0 ∈ receive datagram
  key_fits : (scan (stringOf (receive datagram))).key.bytes.length + 1 ≤ 64
  value_fits : (scan (stringOf (receive datagram))).value.bytes.length + 1 ≤ 256
  entries : ∀ cap table memory hashTable h r h', Sound hashTable h →
    serve cap table memory hashTable datagram h = .ok (r, h') → Sound r.hashTable h'

section Entries

variable {table : Uthash} {memory : Option KeyValue} {hashTable : List Addr}
  {h h' : Heap KeyValue} {r : Response} {key value : CString} {pid : Pid}

theorem live_of_find {kv : Addr} (hf : table.find h hashTable key = some kv) :
    ∃ x, kv ∈ hashTable ∧ h.read kv = some x := by
  obtain ⟨hmem, hkey⟩ := table.find_some h hashTable key kv hf
  obtain ⟨x, hx, _⟩ := LinkedTable.keyAt_eq_some.mp hkey
  exact ⟨x, hmem, hx⟩

theorem upsertValue_sound (hs : Sound hashTable h) (hk : key.bytes.length < 64)
    (hv : value.bytes.length < 256)
    (hrun : upsertValue table memory hashTable key value pid h = .ok (r, h')) :
    Sound r.hashTable h' := by
  have hkt : (strncpy 64 key).Terminated := strncpy_terminated_iff.mpr hk
  have hvt : (strncpy 256 value).Terminated := strncpy_terminated_iff.mpr hv
  cases hf : table.find h hashTable key with
  | none =>
    cases memory with
    | none =>
      rw [upsertValue_noMemory hf] at hrun
      cases hrun
    | some junk =>
      rw [upsertValue_missing hf hk] at hrun
      obtain ⟨rfl, rfl⟩ := Prod.mk.inj (Except.ok.inj hrun)
      intro kv hkv e he
      rw [Heap.read_alloc] at he
      split at he
      · obtain rfl := Option.some.inj he
        exact ⟨hkt, hvt⟩
      · next hne =>
        rcases List.mem_append.mp hkv with hkv | hkv
        · exact hs kv hkv e he
        · exact absurd (List.mem_singleton.mp hkv) hne
  | some kv =>
    obtain ⟨x, hmem, hx⟩ := live_of_find hf
    rw [upsertValue_found hf hx] at hrun
    split at hrun
    · obtain ⟨rfl, rfl⟩ := Prod.mk.inj (Except.ok.inj hrun)
      intro b hb e he
      rw [Heap.read_write hx] at he
      split at he
      · obtain rfl := Option.some.inj he
        exact ⟨(hs kv hmem x hx).1, hvt⟩
      · exact hs b hb e he
    · obtain ⟨rfl, rfl⟩ := Prod.mk.inj (Except.ok.inj hrun)
      exact hs

theorem deleteKeyValue_sound (hs : Sound hashTable h)
    (hrun : deleteKeyValue table hashTable key pid h = .ok (r, h')) : Sound r.hashTable h' := by
  cases hf : table.find h hashTable key with
  | none =>
    rw [deleteKeyValue_missing hf] at hrun
    obtain ⟨rfl, rfl⟩ := Prod.mk.inj (Except.ok.inj hrun)
    exact hs
  | some kv =>
    obtain ⟨x, _, hx⟩ := live_of_find hf
    rw [deleteKeyValue_found hf hx] at hrun
    split at hrun
    · obtain ⟨rfl, rfl⟩ := Prod.mk.inj (Except.ok.inj hrun)
      intro b hb e he
      rw [Heap.read_release] at he
      split at he
      · cases he
      · exact hs b (List.mem_of_mem_erase hb) e he
    · obtain ⟨rfl, rfl⟩ := Prod.mk.inj (Except.ok.inj hrun)
      exact hs

theorem getValue_sound (hs : Sound hashTable h)
    (hrun : perform table memory hashTable (.getValue key) h = .ok (r, h')) :
    Sound r.hashTable h' := by
  have hval : ∃ val, getValue table hashTable key h = .ok (val, h) := by
    cases hf : table.find h hashTable key with
    | none => exact ⟨_, getValue_missing hf⟩
    | some kv =>
      obtain ⟨x, _, hx⟩ := live_of_find hf
      exact ⟨_, getValue_found hf hx⟩
  obtain ⟨val, hval⟩ := hval
  rw [perform, bind_of_ok hval] at hrun
  cases val with
  | none =>
    obtain ⟨rfl, rfl⟩ := Prod.mk.inj (Except.ok.inj hrun)
    exact hs
  | some v =>
    simp only at hrun
    split at hrun
    · obtain ⟨rfl, rfl⟩ := Prod.mk.inj (Except.ok.inj hrun)
      exact hs
    · cases hrun

theorem selectCall_upsertValue {s : Scanned}
    (hcall : selectCall s = .upsertValue key value pid) : s.key = key ∧ s.value = value := by
  unfold selectCall at hcall
  split at hcall
  · cases hcall
  · split at hcall
    · split at hcall
      · cases hcall
        exact ⟨rfl, rfl⟩
      · cases hcall
    · split at hcall
      · cases hcall
      · split at hcall <;> cases hcall

theorem perform_sound {s : Scanned} (hs : Sound hashTable h) (hk : s.key.bytes.length < 64)
    (hv : s.value.bytes.length < 256)
    (hrun : perform table memory hashTable (selectCall s) h = .ok (r, h')) :
    Sound r.hashTable h' := by
  cases hcall : selectCall s with
  | invalidFormat =>
    rw [hcall] at hrun
    obtain ⟨rfl, rfl⟩ := Prod.mk.inj (Except.ok.inj hrun)
    exact hs
  | unknownAction =>
    rw [hcall] at hrun
    obtain ⟨rfl, rfl⟩ := Prod.mk.inj (Except.ok.inj hrun)
    exact hs
  | upsertValue key value pid =>
    obtain ⟨rfl, rfl⟩ := selectCall_upsertValue hcall
    rw [hcall] at hrun
    exact upsertValue_sound hs hk hv hrun
  | getValue key =>
    rw [hcall] at hrun
    exact getValue_sound hs hrun
  | deleteKeyValue key pid =>
    rw [hcall] at hrun
    exact deleteKeyValue_sound hs hrun

theorem serve_ok {cap : Capacity} {datagram : List Byte}
    (hrun : serve cap table memory hashTable datagram h = .ok (r, h')) :
    perform table memory hashTable (selectCall (scan (stringOf (receive datagram)))) h =
      .ok (r, h') := by
  rw [serve] at hrun
  simp only at hrun
  split at hrun
  · cases hrun
  · split at hrun
    · cases hrun
    · exact hrun

end Entries

theorem receive_nul_iff {datagram : List Byte} (hl : datagram.length ≤ bufSize) :
    0 ∈ receive datagram ↔ datagram.length < bufSize ∨ 0 ∈ datagram := by
  rw [receive, List.take_of_length_le hl, List.mem_append, List.mem_replicate]
  constructor
  · intro h
    rcases h with h | ⟨h, _⟩
    · exact Or.inr h
    · exact Or.inl (by omega)
  · intro h
    rcases h with h | h
    · exact Or.inr ⟨by omega, rfl⟩
    · exact Or.inl h

/-- The fields of the text bound what `sscanf` stores. -/
theorem scan_fits_iff (text : CString) :
    ((scan text).key.bytes.length < 64 ∧ (scan text).value.bytes.length < 256) ↔
      (∀ a z key rest, Framed text.bytes a z key rest → Closed rest → key.length < 64) ∧
      ∀ a z key value, WithValue text.bytes a z key value → value.length < 256 := by
  constructor
  · intro ⟨hk, hv⟩
    constructor
    · intro a z key rest hf hr
      rcases framed_kinds hf hr with h | ⟨value, h⟩
      · rw [scan_withoutValue h] at hk
        rwa [stringOf_bytes (withoutValue_nul_free h)] at hk
      · rw [scan_withValue h] at hk
        rwa [stringOf_bytes (withValue_nul_free h).1] at hk
    · intro a z key value h
      rw [scan_withValue h] at hv
      rwa [stringOf_bytes (withValue_nul_free h).2] at hv
  · intro ⟨hkey, hvalue⟩
    rcases scan_cases text with ⟨_, hk, hv⟩ | ⟨a, z, k, h⟩ | ⟨a, z, k, v, h⟩
    · rw [hk, hv]
      decide
    · have hk : k.length < 64 := by
        rcases h with hf | ⟨rest, hf, _⟩
        · exact hkey a z k [] hf (Or.inl rfl)
        · exact hkey a z k _ hf (Or.inr rfl)
      rw [scan_withoutValue h, stringOf_bytes (withoutValue_nul_free h)]
      exact ⟨hk, show (stringOf []).bytes.length < 256 by decide⟩
    · have hv := hvalue a z k v h
      have hfree := withValue_nul_free h
      rw [scan_withValue h, stringOf_bytes hfree.1, stringOf_bytes hfree.2]
      obtain ⟨rest, hf, _⟩ := h
      exact ⟨hkey a z k _ hf (Or.inr rfl), hv⟩

/-- Exactly the datagrams that leave room for a terminator, with a key field below 64 bytes
and a value field below 256, stay within the buffers. -/
theorem within_capacity_iff (datagram : List Byte) (hlen : datagram.length ≤ 512) :
    WithinCapacity datagram ↔
      (datagram.length < 512 ∨ 0 ∈ datagram) ∧
      (∀ a z key rest, Framed (stringOf datagram).bytes a z key rest → Closed rest →
        key.length < 64) ∧
      ∀ a z key value, WithValue (stringOf datagram).bytes a z key value →
        value.length < 256 := by
  have hl : datagram.length ≤ bufSize := hlen
  have htext := receive_text hl
  have hfits := scan_fits_iff (stringOf datagram)
  constructor
  · intro h
    have hk := h.key_fits
    have hv := h.value_fits
    rw [htext] at hk hv
    exact ⟨(receive_nul_iff hl).mp h.terminated, hfits.mp ⟨hk, hv⟩⟩
  · intro ⟨hnul, hfields⟩
    obtain ⟨hk, hv⟩ := hfits.mpr hfields
    refine ⟨(receive_nul_iff hl).mpr hnul, by rw [htext]; exact hk, by rw [htext]; exact hv, ?_⟩
    intro cap table memory hashTable h r h' hs hrun
    have hperform := serve_ok hrun
    rw [htext] at hperform
    exact perform_sound hs hk hv hperform

theorem short_datagram_within_capacity : WithinCapacity (ascii "c:7:k:v") := by
  refine (within_capacity_iff (ascii "c:7:k:v") (by decide)).mpr ⟨Or.inl (by decide), ?_, ?_⟩
  · intro a z key rest hf _
    have hlen := framed_length hf
    have htext : (stringOf (ascii "c:7:k:v")).bytes.length = 7 := by decide
    omega
  · intro a z key value ⟨rest, hf, _⟩
    have hlen := framed_length hf
    have htext : (stringOf (ascii "c:7:k:v")).bytes.length = 7 := by decide
    simp only [List.length_cons, List.length_append] at hlen
    omega

/-- A create whose key is one byte too long for its array. -/
def longKey : List Byte := ascii "c:7:" ++ List.replicate 64 107 ++ ascii ":v"

theorem long_key_overflows : longKey.length ≤ 512 ∧
    (scan (stringOf (receive longKey))).key.bytes.length + 1 = 65 ∧
    serve .declared (LinkedTable.firstMatch KeyValue.name) none [] longKey ⟨[]⟩ =
      .error .outOfBounds ∧ ¬ WithinCapacity longKey := by
  have hkey : (scan (stringOf (receive longKey))).key.bytes.length + 1 = 65 := by decide +kernel
  refine ⟨by decide +kernel, hkey, by decide +kernel, ?_⟩
  intro h
  have hfits := h.key_fits
  omega

end NameValueDatagram
