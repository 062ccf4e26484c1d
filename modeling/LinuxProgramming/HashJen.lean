import LinuxProgramming.CharStrings
import Mathlib.Algebra.Order.Ring.Nat
import Mathlib.Data.List.GetD
import Mathlib.Tactic.IntervalCases

/-! The hash function `HASH_JEN` of `uthash.h`. It reads no byte behind the key, and each of its
steps can be undone: up to the last line, which keeps one word of three, two keys that differ in
one block of twelve bytes are still told apart. -/
namespace HashJen

open CharStrings

/-- `_hj_i`, `_hj_j` and `hashv`. -/
@[ext] structure Words where
  i : UInt32
  j : UInt32
  hashv : UInt32
  deriving DecidableEq

section Model

/-- `x -= y; x -= z; x ^= shifted`. -/
def mixLine (x y z shifted : UInt32) : UInt32 := (x - y - z) ^^^ shifted

def mixRound (right left last : UInt32) (w : Words) : Words :=
  let i := mixLine w.i w.j w.hashv (w.hashv >>> right)
  let j := mixLine w.j w.hashv i (i <<< left)
  let hashv := mixLine w.hashv i j (j >>> last)
  ⟨i, j, hashv⟩

def hashJenMix (w : Words) : Words :=
  mixRound 3 10 15 (mixRound 12 16 5 (mixRound 13 8 13 w))

/-- Nothing is read behind the key. -/
def byteAt (key : List Byte) (n : ℕ) : Option UInt32 := key[n]?.map UInt8.toUInt32

def wordAt (key : List Byte) (n : ℕ) : Option UInt32 := do
  return (← byteAt key n) + (← byteAt key (n + 1)) <<< 8 + (← byteAt key (n + 2)) <<< 16 +
    (← byteAt key (n + 3)) <<< 24

/-- The `while` loop: what is left of `_hj_k`, of the key, and the words. -/
def loop (k : ℕ) (key : List Byte) (w : Words) : Option (ℕ × List Byte × Words) :=
  if 12 ≤ k then do
    let i := w.i + (← wordAt key 0)
    let j := w.j + (← wordAt key 4)
    let hashv := w.hashv + (← wordAt key 8)
    loop (k - 12) (key.drop 12) (hashJenMix ⟨i, j, hashv⟩)
  else
    return (k, key, w)
termination_by k

def tailCase (key : List Byte) (w : Words) : ℕ → Option Words
  | 11 => do return { w with hashv := w.hashv + (← byteAt key 10) <<< 24 }
  | 10 => do return { w with hashv := w.hashv + (← byteAt key 9) <<< 16 }
  | 9 => do return { w with hashv := w.hashv + (← byteAt key 8) <<< 8 }
  | 8 => do return { w with j := w.j + (← byteAt key 7) <<< 24 }
  | 7 => do return { w with j := w.j + (← byteAt key 6) <<< 16 }
  | 6 => do return { w with j := w.j + (← byteAt key 5) <<< 8 }
  | 5 => do return { w with j := w.j + (← byteAt key 4) }
  | 4 => do return { w with i := w.i + (← byteAt key 3) <<< 24 }
  | 3 => do return { w with i := w.i + (← byteAt key 2) <<< 16 }
  | 2 => do return { w with i := w.i + (← byteAt key 1) <<< 8 }
  | 1 => do return { w with i := w.i + (← byteAt key 0) }
  | _ => return w

/-- Each case falls through to the next one. -/
def tail (key : List Byte) : ℕ → Words → Option Words
  | 0, w => return w
  | k + 1, w => do tail key k (← tailCase key w (k + 1))

def start : Words := ⟨0x9e3779b9, 0x9e3779b9, 0xfeedbeef⟩

/-- The words at the end; the length is cut to an `unsigned`. -/
def jenWords (key : List Byte) : Option Words := do
  let keylen := key.length % 2 ^ 32
  let (k, rest, w) ← loop keylen key start
  let w ← tail rest k { w with hashv := w.hashv + UInt32.ofNat keylen }
  return hashJenMix w

def hashJen (key : List Byte) : Option UInt32 := (jenWords key).map Words.hashv

end Model

section Mixing

theorem mixLine_inj {x x' y z shifted : UInt32}
    (h : mixLine x y z shifted = mixLine x' y z shifted) : x = x' := by
  rw [mixLine, mixLine, UInt32.xor_left_inj] at h
  rwa [UInt32.sub_left_inj, UInt32.sub_left_inj] at h

theorem mixRound_injective (right left last : UInt32) :
    Function.Injective (mixRound right left last) := by
  intro w w' h
  obtain ⟨i, j, c⟩ := w
  obtain ⟨i', j', c'⟩ := w'
  simp only [mixRound, Words.mk.injEq] at h
  obtain ⟨hi, hj, hc⟩ := h
  rw [hi] at hj hc
  rw [hj] at hc
  -- undone from the last line to the first
  obtain rfl : c = c' := mixLine_inj hc
  obtain rfl : j = j' := mixLine_inj hj
  obtain rfl : i = i' := mixLine_inj hi
  rfl

theorem hashJenMix_injective : Function.Injective hashJenMix :=
  (mixRound_injective 3 10 15).comp
    ((mixRound_injective 12 16 5).comp (mixRound_injective 13 8 13))

end Mixing

section Words

instance : Add Words := ⟨fun v w => ⟨v.i + w.i, v.j + w.j, v.hashv + w.hashv⟩⟩

theorem Words.add_def (v w : Words) : v + w = ⟨v.i + w.i, v.j + w.j, v.hashv + w.hashv⟩ := rfl

theorem Words.add_right_injective (v : Words) : Function.Injective (v + ·) := by
  intro w w' h
  simp only [Words.add_def, Words.mk.injEq, UInt32.add_right_inj] at h
  exact Words.ext h.1 h.2.1 h.2.2

theorem Words.add_left_injective (v : Words) : Function.Injective (· + v) := by
  intro w w' h
  simp only [Words.add_def, Words.mk.injEq, UInt32.add_left_inj] at h
  exact Words.ext h.1 h.2.1 h.2.2

def word (a b c d : Byte) : UInt32 :=
  a.toUInt32 + b.toUInt32 <<< 8 + c.toUInt32 <<< 16 + d.toUInt32 <<< 24

theorem toNat_word (a b c d : Byte) :
    (word a b c d).toNat =
      a.toNat + b.toNat * 2 ^ 8 + c.toNat * 2 ^ 16 + d.toNat * 2 ^ 24 := by
  have ha := a.toNat_lt
  have hb := b.toNat_lt
  have hc := c.toNat_lt
  have hd := d.toNat_lt
  simp only [word, UInt32.toNat_add, UInt32.toNat_shiftLeft, UInt8.toNat_toUInt32,
    Nat.shiftLeft_eq, UInt32.reduceToNat, Nat.reduceMod]
  omega

theorem word_inj {a b c d a' b' c' d' : Byte} (h : word a b c d = word a' b' c' d') :
    a = a' ∧ b = b' ∧ c = c' ∧ d = d' := by
  have hnat := congrArg UInt32.toNat h
  rw [toNat_word, toNat_word] at hnat
  have ha := a.toNat_lt
  have hb := b.toNat_lt
  have hc := c.toNat_lt
  have ha' := a'.toNat_lt
  have hb' := b'.toNat_lt
  have hc' := c'.toNat_lt
  simp only [← UInt8.toNat_inj]
  omega

def block (key : List Byte) : Words :=
  ⟨word (key.getD 0 0) (key.getD 1 0) (key.getD 2 0) (key.getD 3 0),
    word (key.getD 4 0) (key.getD 5 0) (key.getD 6 0) (key.getD 7 0),
    word (key.getD 8 0) (key.getD 9 0) (key.getD 10 0) (key.getD 11 0)⟩

/-- The bytes after the last block; the lowest byte of the last word is left free. -/
def tailBlock (key : List Byte) : Words :=
  ⟨word (key.getD 0 0) (key.getD 1 0) (key.getD 2 0) (key.getD 3 0),
    word (key.getD 4 0) (key.getD 5 0) (key.getD 6 0) (key.getD 7 0),
    word 0 (key.getD 8 0) (key.getD 9 0) (key.getD 10 0)⟩

theorem eq_of_getD {a b : List Byte} (hlen : a.length = b.length)
    (h : ∀ n < a.length, a.getD n 0 = b.getD n 0) : a = b := by
  refine List.ext_getElem hlen fun n ha hb => ?_
  have hn := h n ha
  rwa [List.getD_eq_getElem _ _ ha, List.getD_eq_getElem _ _ hb] at hn

theorem block_inj {a b : List Byte} (hlen : a.length = b.length) (ha : a.length ≤ 12)
    (h : block a = block b) : a = b := by
  simp only [block, Words.mk.injEq] at h
  obtain ⟨h0, h1, h2, h3⟩ := word_inj h.1
  obtain ⟨h4, h5, h6, h7⟩ := word_inj h.2.1
  obtain ⟨h8, h9, h10, h11⟩ := word_inj h.2.2
  refine eq_of_getD hlen fun n hn => ?_
  have hn : n < 12 := by omega
  interval_cases n <;> assumption

theorem tailBlock_inj {a b : List Byte} (hlen : a.length = b.length) (ha : a.length < 12)
    (h : tailBlock a = tailBlock b) : a = b := by
  simp only [tailBlock, Words.mk.injEq] at h
  obtain ⟨h0, h1, h2, h3⟩ := word_inj h.1
  obtain ⟨h4, h5, h6, h7⟩ := word_inj h.2.1
  obtain ⟨-, h8, h9, h10⟩ := word_inj h.2.2
  refine eq_of_getD hlen fun n hn => ?_
  have hn : n < 11 := by omega
  interval_cases n <;> assumption

theorem getD_take (key : List Byte) (k n : ℕ) :
    (key.take k).getD n 0 = if n < k then key.getD n 0 else 0 := by
  rw [List.getD_eq_getElem?_getD, List.getElem?_take, List.getD_eq_getElem?_getD]
  split <;> rfl

theorem block_take (key : List Byte) {k : ℕ} (hk : 12 ≤ k) : block (key.take k) = block key := by
  have h : ∀ n < 12, (key.take k).getD n 0 = key.getD n 0 := by
    intro n hn
    rw [getD_take, if_pos (by omega)]
  simp only [block, h _ (by omega : 0 < 12), h _ (by omega : 1 < 12), h _ (by omega : 2 < 12),
    h _ (by omega : 3 < 12), h _ (by omega : 4 < 12), h _ (by omega : 5 < 12),
    h _ (by omega : 6 < 12), h _ (by omega : 7 < 12), h _ (by omega : 8 < 12),
    h _ (by omega : 9 < 12), h _ (by omega : 10 < 12), h _ (by omega : 11 < 12)]

end Words

section Reading

theorem byteAt_eq {key : List Byte} {n : ℕ} (hn : n < key.length) :
    byteAt key n = some (key.getD n 0).toUInt32 := by
  rw [byteAt, List.getElem?_eq_getElem hn, List.getD_eq_getElem _ _ hn, Option.map_some]

theorem wordAt_eq {key : List Byte} {n : ℕ} (hn : n + 3 < key.length) :
    wordAt key n = some
      (word (key.getD n 0) (key.getD (n + 1) 0) (key.getD (n + 2) 0) (key.getD (n + 3) 0)) := by
  rw [wordAt, byteAt_eq (by omega), byteAt_eq (by omega), byteAt_eq (by omega), byteAt_eq hn]
  rfl

def absorb : ℕ → List Byte → Words → Words
  | 0, _, w => w
  | n + 1, key, w => absorb n (key.drop 12) (hashJenMix (w + block key))

theorem loop_eq (k : ℕ) (key : List Byte) (w : Words) (hk : k ≤ key.length) :
    loop k key w = some (k % 12, key.drop (12 * (k / 12)), absorb (k / 12) key w) := by
  induction k using Nat.strong_induction_on generalizing key w with
  | _ k ih =>
    rw [loop]
    by_cases h12 : 12 ≤ k
    · rw [if_pos h12, wordAt_eq (by omega), wordAt_eq (by omega), wordAt_eq (by omega)]
      simp only [Option.bind_eq_bind, Option.bind_some]
      rw [ih (k - 12) (by omega) (key.drop 12) _ (by rw [List.length_drop]; omega)]
      obtain ⟨n, hn⟩ : ∃ n, k / 12 = n + 1 := ⟨k / 12 - 1, by omega⟩
      have hn' : (k - 12) / 12 = n := by omega
      have hmod : (k - 12) % 12 = k % 12 := by omega
      rw [hn, hn', hmod, List.drop_drop, absorb]
      rw [show 12 + 12 * n = 12 * (n + 1) by omega]
      rfl
    · have hdiv : k / 12 = 0 := by omega
      have hmod : k % 12 = k := by omega
      rw [if_neg h12, hdiv, hmod]
      rfl

def place (n : ℕ) (b : UInt32) : Words :=
  if n < 4 then ⟨b <<< UInt32.ofNat (8 * n), 0, 0⟩
  else if n < 8 then ⟨0, b <<< UInt32.ofNat (8 * (n - 4)), 0⟩
  else ⟨0, 0, b <<< UInt32.ofNat (8 * (n - 7))⟩

theorem tailCase_eq {key : List Byte} (w : Words) {k : ℕ} {b : UInt32} (hk : k < 11)
    (hb : byteAt key k = some b) : tailCase key w (k + 1) = some (w + place k b) := by
  interval_cases k <;> simp [tailCase, hb, place, Words.add_def]

theorem word_one (a : Byte) : word a 0 0 0 = a.toUInt32 + word 0 0 0 0 := by
  simp [word]

theorem word_two (a b : Byte) : word a b 0 0 = b.toUInt32 <<< 8 + word a 0 0 0 := by
  simp [word, UInt32.add_comm]

theorem word_three (a b c : Byte) : word a b c 0 = c.toUInt32 <<< 16 + word a b 0 0 := by
  simp [word, UInt32.add_comm]

theorem word_four (a b c d : Byte) : word a b c d = d.toUInt32 <<< 24 + word a b c 0 := by
  simp [word, UInt32.add_comm]

theorem tailBlock_take_succ (key : List Byte) {k : ℕ} (hk : k < 11) :
    tailBlock (key.take (k + 1)) =
      place k (key.getD k 0).toUInt32 + tailBlock (key.take k) := by
  simp only [tailBlock, getD_take, place, Words.add_def]
  interval_cases k <;> simp
  · exact word_one _
  · exact word_two _ _
  · exact word_three _ _ _
  · exact word_four _ _ _ _
  · exact word_one _
  · exact word_two _ _
  · exact word_three _ _ _
  · exact word_four _ _ _ _
  · exact word_two _ _
  · exact word_three _ _ _
  · exact word_four _ _ _ _

theorem Words.add_assoc (u v w : Words) : u + v + w = u + (v + w) := by
  simp only [Words.add_def, UInt32.add_assoc]

theorem tail_eq (key : List Byte) {k : ℕ} (w : Words) (hk : k < 12) (hlen : k ≤ key.length) :
    tail key k w = some (w + tailBlock (key.take k)) := by
  induction k generalizing w with
  | zero => simp [tail, tailBlock, word, Words.add_def]
  | succ k ih =>
    rw [tail, tailCase_eq w (by omega) (byteAt_eq hlen), Option.bind_eq_bind, Option.bind_some,
      ih _ (by omega) (by omega), tailBlock_take_succ key (by omega), Words.add_assoc]

end Reading

section Digest

/-- What is done from the words `w` on with the rest of a key of length `keylen`. -/
def finish (keylen : UInt32) (key : List Byte) (w : Words) : Words :=
  hashJenMix (absorb (key.length / 12) key w + ⟨0, 0, keylen⟩ +
    tailBlock (key.drop (12 * (key.length / 12))))

def digest (key : List Byte) : Words := finish (UInt32.ofNat key.length) key start

def jenHash (key : List Byte) : UInt32 := (digest (key.take (key.length % 2 ^ 32))).hashv

theorem absorb_take (n m : ℕ) (key : List Byte) (w : Words) (h : 12 * n ≤ m) :
    absorb n (key.take m) w = absorb n key w := by
  induction n generalizing m key w with
  | zero => rfl
  | succ n ih =>
    rw [absorb, absorb, block_take key (by omega), List.drop_take, ih _ _ _ (by omega)]

theorem jenWords_eq (key : List Byte) :
    jenWords key = some (digest (key.take (key.length % 2 ^ 32))) := by
  have hcut : key.length % 2 ^ 32 ≤ key.length := Nat.mod_le _ _
  rw [jenWords, digest, finish, List.length_take_of_le hcut]
  generalize key.length % 2 ^ 32 = k at hcut
  rw [loop_eq k key start hcut, absorb_take _ _ _ _ (Nat.mul_div_le k 12)]
  simp only [Option.bind_eq_bind, Option.bind_some]
  rw [tail_eq _ _ (Nat.mod_lt _ (by omega)) (by rw [List.length_drop]; omega), List.drop_take]
  have hk : k - 12 * (k / 12) = k % 12 := by omega
  rw [hk, Words.add_def _ ⟨0, 0, _⟩]
  simp only [UInt32.add_zero]
  rfl

theorem hashJen_eq (key : List Byte) : hashJen key = some (jenHash key) := by
  rw [hashJen, jenWords_eq, Option.map_some, jenHash]

end Digest

section Injectivity

theorem absorb_injective (n : ℕ) (key : List Byte) : Function.Injective (absorb n key) := by
  induction n generalizing key with
  | zero => exact Function.injective_id
  | succ n ih =>
    exact (ih _).comp (hashJenMix_injective.comp (Words.add_left_injective (block key)))

theorem finish_injective (keylen : UInt32) (key : List Byte) :
    Function.Injective (finish keylen key) :=
  hashJenMix_injective.comp ((Words.add_left_injective _).comp
    ((Words.add_left_injective _).comp (absorb_injective _ _)))

theorem finish_block (keylen : UInt32) (key : List Byte) (w : Words) (h : 12 ≤ key.length) :
    finish keylen key w =
      finish keylen (key.drop 12) (hashJenMix (w + block (key.take 12))) := by
  obtain ⟨n, hn⟩ : ∃ n, key.length / 12 = n + 1 := ⟨key.length / 12 - 1, by omega⟩
  have hn' : (key.drop 12).length / 12 = n := by rw [List.length_drop]; omega
  rw [finish, finish, hn, hn', absorb, block_take key (le_refl 12), List.drop_drop]
  rw [show 12 + 12 * n = 12 * (n + 1) by omega]

theorem finish_short (keylen : UInt32) {key : List Byte} (w : Words) (h : key.length < 12) :
    finish keylen key w = hashJenMix (w + ⟨0, 0, keylen⟩ + tailBlock key) := by
  rw [finish, Nat.div_eq_of_lt h]
  rfl

theorem drop_append_block {a post : List Byte} (h : a.length ≤ 12) :
    (a ++ post).drop 12 = post.drop (12 - a.length) := by
  rw [List.drop_append, List.drop_eq_nil_of_le h, List.nil_append]

theorem take_append_block {a post : List Byte} (h : a.length ≤ 12) :
    (a ++ post).take 12 = a ++ post.take (12 - a.length) := by
  rw [List.take_append, List.take_of_length_le h]

/-- Keys that differ in the first twelve bytes only. -/
theorem finish_inj {keylen : UInt32} {a b post : List Byte} {w : Words}
    (hlen : a.length = b.length) (ha : a.length ≤ 12)
    (h : finish keylen (a ++ post) w = finish keylen (b ++ post) w) : a = b := by
  have hlen' : (a ++ post).length = (b ++ post).length := by simp [hlen]
  by_cases hshort : (a ++ post).length < 12
  · -- both are in the tail
    rw [finish_short _ _ hshort, finish_short _ _ (hlen' ▸ hshort)] at h
    have htail := Words.add_right_injective _ (hashJenMix_injective h)
    exact List.append_cancel_right (tailBlock_inj hlen' hshort htail)
  · have hlong : 12 ≤ (a ++ post).length := by omega
    rw [finish_block _ (a ++ post) _ hlong, finish_block _ (b ++ post) _ (hlen' ▸ hlong),
      drop_append_block ha, drop_append_block (hlen ▸ ha), hlen] at h
    have hblock := Words.add_right_injective _ (hashJenMix_injective (finish_injective _ _ h))
    rw [take_append_block ha, take_append_block (hlen ▸ ha), hlen] at hblock
    exact List.append_cancel_right (block_inj (by simp [hlen]) (by simp; omega) hblock)

theorem finish_append (keylen : UInt32) (n : ℕ) {pre : List Byte} (post : List Byte) (w : Words)
    (h : pre.length = 12 * n) :
    finish keylen (pre ++ post) w = finish keylen post (absorb n pre w) := by
  induction n generalizing pre w with
  | zero =>
    rw [List.eq_nil_of_length_eq_zero h]
    rfl
  | succ n ih =>
    have hle : 12 ≤ pre.length := by omega
    rw [finish_block _ _ _ (by rw [List.length_append]; omega), List.drop_append_of_le_length hle,
      List.take_append_of_le_length hle, block_take pre (le_refl 12),
      ih _ (by rw [List.length_drop]; omega), absorb]

/-- The length is in the byte that the tail leaves free. -/
theorem keylen_add_word (n : ℕ) (hn : n < 12) (b c d : Byte) :
    UInt32.ofNat n + word 0 b c d = word (UInt8.ofNat n) b c d := by
  rw [← UInt32.toNat_inj, UInt32.toNat_add, toNat_word, toNat_word, UInt32.toNat_ofNat',
    UInt8.toNat_ofNat']
  have hb := b.toNat_lt
  have hc := c.toNat_lt
  have hd := d.toNat_lt
  have h0 : (0 : Byte).toNat = 0 := rfl
  omega

theorem digest_short_inj {a b : List Byte} (ha : a.length < 12) (hb : b.length < 12)
    (h : digest a = digest b) : a = b := by
  rw [digest, digest, finish_short _ _ ha, finish_short _ _ hb, Words.add_assoc,
    Words.add_assoc] at h
  have hwords := Words.add_right_injective _ (hashJenMix_injective h)
  have hlast := congrArg Words.hashv hwords
  simp only [Words.add_def, tailBlock] at hlast
  rw [keylen_add_word _ ha, keylen_add_word _ hb] at hlast
  have hlen := congrArg UInt8.toNat (word_inj hlast).1
  rw [UInt8.toNat_ofNat', UInt8.toNat_ofNat'] at hlen
  have hlen : a.length = b.length := by omega
  rw [hlen] at hwords
  exact tailBlock_inj hlen ha (Words.add_right_injective _ hwords)

end Injectivity

section Results

/-- The hash value is always found within the key, and the three words that it is taken from are
different for two keys shorter than a block, and for two keys that differ in one block only. -/
theorem words_tell_keys_apart :
    (∀ key, hashJen key = some (jenHash key)) ∧
      (∀ a b : List Byte, a.length < 12 → b.length < 12 → a ≠ b → jenWords a ≠ jenWords b) ∧
      ∀ pre a b post : List Byte, 12 ∣ pre.length → a.length = b.length → a.length ≤ 12 →
        (pre ++ a ++ post).length < 2 ^ 32 → a ≠ b →
        jenWords (pre ++ a ++ post) ≠ jenWords (pre ++ b ++ post) := by
  have hwhole : ∀ key : List Byte, key.length < 2 ^ 32 → jenWords key = some (digest key) := by
    intro key hkey
    rw [jenWords_eq, Nat.mod_eq_of_lt hkey, List.take_length]
  refine ⟨hashJen_eq, ?_, ?_⟩
  · intro a b ha hb hne h
    rw [hwhole a (by omega), hwhole b (by omega)] at h
    exact hne (digest_short_inj ha hb (Option.some.inj h))
  · intro pre a b post hpre hlen ha hcut hne h
    obtain ⟨n, hn⟩ := hpre
    have hlen' : (pre ++ a ++ post).length = (pre ++ b ++ post).length := by simp [hlen]
    rw [hwhole _ hcut, hwhole _ (hlen' ▸ hcut), Option.some.injEq, digest, digest, hlen',
      List.append_assoc, List.append_assoc, finish_append _ n _ _ hn,
      finish_append _ n _ _ hn] at h
    exact hne (finish_inj hlen ha h)

end Results

end HashJen
