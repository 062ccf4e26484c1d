import Mathlib.Algebra.Order.Ring.Nat

/-! Byte-addressed memory with little-endian numbers in it. -/
namespace ByteMemory

abbrev Memory := ℕ → UInt8

variable {m m' : Memory} {n a b x : ℕ}

def setByte (m : Memory) (a : ℕ) (v : UInt8) : Memory := fun b => if b = a then v else m b

/-- The number in the `n` bytes from `a` on. -/
def loadNat (m : Memory) : ℕ → ℕ → ℕ
  | 0, _ => 0
  | n + 1, a => (m a).toNat + 256 * loadNat m n (a + 1)

/-- A number too large for `n` bytes is cut off. -/
def storeNat (m : Memory) : ℕ → ℕ → ℕ → Memory
  | 0, _, _ => m
  | n + 1, a, x => setByte (storeNat m n (a + 1) (x / 256)) a (UInt8.ofNat x)

/-- The two memories hold the same `n` bytes from `a` on. -/
def SameBytes (m m' : Memory) (n a : ℕ) : Prop := ∀ b, a ≤ b → b < a + n → m' b = m b

theorem setByte_self (m : Memory) (a : ℕ) (v : UInt8) : setByte m a v a = v :=
  if_pos rfl

theorem setByte_other (h : b ≠ a) (m : Memory) (v : UInt8) : setByte m a v b = m b :=
  if_neg h

theorem storeNat_outside (h : b < a ∨ a + n ≤ b) (m : Memory) (x : ℕ) :
    storeNat m n a x b = m b := by
  induction n generalizing a x with
  | zero => rfl
  | succ n ih =>
    rw [storeNat, setByte_other (by omega)]
    apply ih
    omega

theorem loadNat_congr (h : SameBytes m m' n a) : loadNat m' n a = loadNat m n a := by
  induction n generalizing a with
  | zero => rfl
  | succ n ih =>
    have hhead := h a (by omega) (by omega)
    have hrest : SameBytes m m' n (a + 1) := fun b hb hlt => h b (by omega) (by omega)
    rw [loadNat, loadNat, hhead, ih hrest]

theorem loadNat_storeNat (m : Memory) (h : x < 256 ^ n) : loadNat (storeNat m n a x) n a = x := by
  induction n generalizing a x with
  | zero => simp only [loadNat]; omega
  | succ n ih =>
    have hrest : SameBytes (storeNat m n (a + 1) (x / 256)) (storeNat m (n + 1) a x) n (a + 1) := by
      intro b hb _
      rw [storeNat, setByte_other (by omega)]
    have hhead : (storeNat m (n + 1) a x a).toNat = x % 256 := by
      rw [storeNat, setByte_self, UInt8.toNat_ofNat']
    have hlt : x / 256 < 256 ^ n := by
      apply Nat.div_lt_of_lt_mul
      rwa [← pow_succ']
    rw [loadNat, loadNat_congr hrest, ih hlt, hhead]
    exact Nat.mod_add_div x 256

theorem loadNat_zero (h : ∀ b, a ≤ b → b < a + n → m b = 0) : loadNat m n a = 0 := by
  induction n generalizing a with
  | zero => rfl
  | succ n ih =>
    have hrest : loadNat m n (a + 1) = 0 := ih fun b hb hlt => h b (by omega) (by omega)
    rw [loadNat, hrest, h a (by omega) (by omega)]
    rfl

theorem sameBytes_setByte (h : b < a ∨ a + n ≤ b) (v : UInt8) :
    SameBytes m (setByte m b v) n a := by
  intro c hc hlt
  rw [setByte_other (by omega)]

theorem sameBytes_storeNat {k : ℕ} (h : b + k ≤ a ∨ a + n ≤ b) (x : ℕ) :
    SameBytes m (storeNat m k b x) n a := by
  intro c hc hlt
  apply storeNat_outside
  omega

theorem SameBytes.trans {m'' : Memory} (h : SameBytes m m' n a) (h' : SameBytes m' m'' n a) :
    SameBytes m m'' n a := by
  intro b hb hlt
  rw [h' b hb hlt, h b hb hlt]

theorem SameBytes.within {k : ℕ} (h : SameBytes m m' n a) (hlo : a ≤ b) (hhi : b + k ≤ a + n) :
    SameBytes m m' k b := by
  intro c hc hlt
  apply h <;> omega

end ByteMemory
