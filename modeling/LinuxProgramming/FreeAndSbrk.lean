import LinuxProgramming.BlockMemory
import LinuxProgramming.DecimalText
import LinuxProgramming.FallibleLoops

/-! `free_and_sbrk`: its arguments, read with `getInt`, and the loop that frees the blocks. The
arguments count the blocks from one and include the last one; the loop uses them as indices and
stops before it. -/
namespace FreeAndSbrk

open BlockMemory CharStrings DecimalText FallibleLoops

inductive NumError where
  | nullOrEmpty
  | strtolFailed
  | nonnumeric
  | negative
  | notPositive
  | outOfRange
  deriving DecidableEq

/-- `getNum` in base 10, with `GN_NONNEG` and `GN_GT_0`. Without a numeral `strtol` leaves
`endptr` at the start of the text. -/
def getNum (arg : CString) (nonneg gt0 : Bool) : Except NumError ℤ :=
  if arg.bytes = [] then .error .nullOrEmpty
  else match scanNumeral arg.bytes with
    | none => .error .nonnumeric
    | some (res, endptr) =>
      if clampLong res ≠ res then .error .strtolFailed
      else if endptr ≠ [] then .error .nonnumeric
      else if nonneg ∧ res < 0 then .error .negative
      else if gt0 ∧ res ≤ 0 then .error .notPositive
      else .ok res

def intMax : ℤ := 2147483647

def getInt (arg : CString) (nonneg gt0 : Bool) : Except NumError ℤ := do
  let res ← getNum arg nonneg gt0
  if res > intMax ∨ res < -intMax - 1 then .error .outOfRange else .ok res

inductive Argument where
  | numAllocs
  | blockSize
  | step
  | min
  | max
  deriving DecidableEq

inductive Refusal where
  | usage
  | number (argument : Argument) (error : NumError)
  | tooManyAllocs
  | freeMaxTooLarge
  deriving DecidableEq

structure Arguments where
  numAllocs : ℤ
  freeStep : ℤ
  freeMin : ℤ
  freeMax : ℤ
  deriving DecidableEq

def maxAllocs : ℤ := 1000000

def number (argument : Argument) (arg : CString) : Except Refusal ℤ :=
  (getInt arg false true).mapError (Refusal.number argument)

def optional (argument : Argument) (arg : Option CString) (dflt : ℤ) : Except Refusal ℤ :=
  match arg with
  | some arg => number argument arg
  | none => .ok dflt

/-- The block size may be in any base. It does not matter which blocks are freed, so how it is
read is left open. -/
def readArguments (blockSize : CString → Except NumError ℤ) (argv : List CString) :
    Except Refusal Arguments :=
  match argv with
  | _ :: allocs :: size :: more =>
    if allocs = stringOf (ascii "--help") then .error .usage
    else do
      let numAllocs ← number .numAllocs allocs
      if numAllocs > maxAllocs then .error .tooManyAllocs
      else do
        let _ ← (blockSize size).mapError (Refusal.number .blockSize)
        let freeStep ← optional .step more[0]? 1
        let freeMin ← optional .min more[1]? 1
        let freeMax ← optional .max more[2]? numAllocs
        if freeMax > numAllocs then .error .freeMaxTooLarge
        else .ok ⟨numAllocs, freeStep, freeMin, freeMax⟩
  | _ => .error .usage

def addInt (a b : ℤ) : ℤ := (a + b).bmod 4294967296

/-- The freeing loop from `j` on: the indices it frees, in order. -/
def freeBlocks (a : Arguments) : ℕ → ℤ → Except Fault (List ℤ)
  | 0, _ => .error .outOfFuel
  | rounds + 1, j =>
    if j < a.freeMax then
      if 0 ≤ j ∧ j < a.numAllocs then do
        let rest ← freeBlocks a rounds (addInt j a.freeStep)
        .ok (j :: rest)
      else .error .outOfBounds
    else .ok []

structure CheckedArguments extends Arguments where
  allocs_bound : 1 ≤ numAllocs ∧ numAllocs ≤ maxAllocs
  step_bound : 1 ≤ freeStep ∧ freeStep ≤ intMax
  min_bound : 1 ≤ freeMin ∧ freeMin ≤ intMax
  max_bound : 1 ≤ freeMax ∧ freeMax ≤ numAllocs

section Reading

theorem getNum_positive {arg : CString} {nonneg : Bool} {z : ℤ}
    (h : getNum arg nonneg true = .ok z) : 1 ≤ z := by
  rw [getNum] at h
  split at h
  · cases h
  · split at h
    · cases h
    · split_ifs at h with _ _ _ hpos
      cases h
      have hneg : ¬ z ≤ 0 := fun hz => hpos ⟨rfl, hz⟩
      omega

theorem getInt_bounds {arg : CString} {nonneg : Bool} {z : ℤ}
    (h : getInt arg nonneg true = .ok z) : 1 ≤ z ∧ z ≤ intMax := by
  obtain ⟨res, hres, hz⟩ := bind_ok_iff.mp h
  split at hz
  · cases hz
  · next hrange =>
    cases hz
    exact ⟨getNum_positive hres, Int.le_of_not_gt fun hz => hrange (.inl hz)⟩

theorem optional_bounds {argument : Argument} {arg : Option CString} {dflt z : ℤ}
    (hd : 1 ≤ dflt ∧ dflt ≤ intMax) (h : optional argument arg dflt = .ok z) :
    1 ≤ z ∧ z ≤ intMax := by
  cases arg with
  | none => cases h; exact hd
  | some arg => exact getInt_bounds (mapError_ok_iff.mp h)

theorem readArguments_checked {blockSize : CString → Except NumError ℤ} {argv : List CString}
    {a : Arguments} (h : readArguments blockSize argv = .ok a) :
    ∃ c : CheckedArguments, c.toArguments = a := by
  unfold readArguments at h
  split at h
  · split at h
    · cases h
    · obtain ⟨numAllocs, hnum, h⟩ := bind_ok_iff.mp h
      have hallocs := getInt_bounds (mapError_ok_iff.mp hnum)
      split at h
      · cases h
      · next hmax =>
        obtain ⟨_, _, h⟩ := bind_ok_iff.mp h
        obtain ⟨freeStep, hstep, h⟩ := bind_ok_iff.mp h
        obtain ⟨freeMin, hmin, h⟩ := bind_ok_iff.mp h
        obtain ⟨freeMax, hfree, h⟩ := bind_ok_iff.mp h
        split at h
        · cases h
        · next hle =>
          cases h
          have hone : 1 ≤ (1 : ℤ) ∧ (1 : ℤ) ≤ intMax := by decide
          exact ⟨{ numAllocs, freeStep, freeMin, freeMax
                   allocs_bound := ⟨hallocs.1, Int.le_of_not_gt hmax⟩
                   step_bound := optional_bounds hone hstep
                   min_bound := optional_bounds hone hmin
                   max_bound := ⟨(optional_bounds hallocs hfree).1, Int.le_of_not_gt hle⟩ }, rfl⟩
  · cases h

def numeralOf (z : ℤ) : CString := ⟨formatInt z, formatInt_nul_free z⟩

theorem getInt_numeralOf {z : ℤ} (hz : 1 ≤ z ∧ z ≤ intMax) :
    getInt (numeralOf z) false true = .ok z := by
  have hscan : scanNumeral (numeralOf z).bytes = some (z, []) := by
    have h : scanNumeral (formatInt z ++ []) = some (z, []) := scanNumeral_formatInt z (by simp)
    rwa [List.append_nil] at h
  have hne : (numeralOf z).bytes ≠ [] := by
    intro hnil
    rw [hnil] at hscan
    cases hscan
  obtain ⟨hlo, hhi⟩ := hz
  rw [intMax] at hhi
  have hlong : clampLong z = z := by
    rw [clampLong]
    omega
  have hnum : getNum (numeralOf z) false true = .ok z := by
    rw [getNum, if_neg hne, hscan]
    simp [hlong, Int.not_le.mpr (Int.lt_of_lt_of_le Int.zero_lt_one hlo)]
  rw [getInt, hnum]
  exact if_neg (by rw [intMax]; omega)

theorem readArguments_complete {blockSize : CString → Except NumError ℤ} {program size : CString}
    {bytes : ℤ} (hsize : blockSize size = .ok bytes) (c : CheckedArguments) :
    readArguments blockSize [program, numeralOf c.numAllocs, size, numeralOf c.freeStep,
      numeralOf c.freeMin, numeralOf c.freeMax] = .ok c.toArguments := by
  have hint : maxAllocs ≤ intMax := by decide
  have hread : ∀ argument {z}, 1 ≤ z ∧ z ≤ intMax → number argument (numeralOf z) = .ok z :=
    fun _ _ hz => mapError_ok_iff.mpr (getInt_numeralOf hz)
  have hallocs := hread .numAllocs ⟨c.allocs_bound.1, c.allocs_bound.2.trans hint⟩
  have hmax := hread .max ⟨c.max_bound.1, c.max_bound.2.trans (c.allocs_bound.2.trans hint)⟩
  have hhelp : numeralOf c.numAllocs ≠ stringOf (ascii "--help") := by
    intro heq
    rw [heq] at hallocs
    have hno : number .numAllocs (stringOf (ascii "--help")) =
      .error (.number .numAllocs .nonnumeric) := by decide
    rw [hno] at hallocs
    cases hallocs
  refine (if_neg hhelp).trans (bind_ok_iff.mpr ⟨_, hallocs, ?_⟩)
  refine (if_neg (Int.not_lt.mpr c.allocs_bound.2)).trans ?_
  refine bind_ok_iff.mpr ⟨bytes, mapError_ok_iff.mpr hsize, ?_⟩
  refine bind_ok_iff.mpr ⟨_, hread .step c.step_bound, ?_⟩
  refine bind_ok_iff.mpr ⟨_, hread .min c.min_bound, ?_⟩
  refine bind_ok_iff.mpr ⟨_, hmax, ?_⟩
  exact if_neg (Int.not_lt.mpr c.max_bound.2)

end Reading

section Loop

variable {a : Arguments} {j : ℤ}

theorem addInt_of_le {b : ℤ} (hj : 0 ≤ j) (hb : 0 ≤ b) (hsum : j + b ≤ intMax) :
    addInt j b = j + b := by
  rw [intMax] at hsum
  exact Int.bmod_eq_of_le (by omega) (by omega)

theorem addInt_wraps {b : ℤ} (hj : j ≤ intMax) (hb : b ≤ intMax) (hsum : intMax < j + b) :
    addInt j b < 0 := by
  rw [intMax] at hj hb hsum
  rw [addInt, Int.bmod_def]
  split <;> omega

theorem CheckedArguments.steps_nonneg (c : CheckedArguments) (m : ℕ) :
    0 ≤ (m : ℤ) * c.freeStep := by
  have hstep := c.step_bound.1
  exact Int.mul_nonneg (Int.natCast_nonneg m) (by omega)

theorem freeBlocks_negative (hj : j < 0) (hmax : 1 ≤ a.freeMax) (rounds : ℕ) (freed : List ℤ) :
    freeBlocks a rounds j ≠ .ok freed := by
  cases rounds with
  | zero => exact nofun
  | succ rounds =>
    rw [freeBlocks, if_pos (by omega), if_neg (by omega)]
    exact nofun

/-- A run that comes to its end has not gone back: a sum that wraps is negative, and the next
round would use it as an index. -/
theorem freed_ge (c : CheckedArguments) : ∀ (rounds : ℕ) (j : ℤ) (freed : List ℤ), 1 ≤ j →
    j ≤ intMax → freeBlocks c.toArguments rounds j = .ok freed → ∀ i ∈ freed, j ≤ i := by
  intro rounds
  induction rounds with
  | zero => exact nofun
  | succ rounds ih =>
    intro j freed hj hle hrun
    rw [freeBlocks] at hrun
    split at hrun
    · split at hrun
      · obtain ⟨rest, hrest, hfreed⟩ := bind_ok_iff.mp hrun
        cases hfreed
        intro i hi
        rcases List.mem_cons.mp hi with rfl | hi
        · exact le_rfl
        · by_cases hsum : j + c.freeStep ≤ intMax
          · have hstep := c.step_bound.1
            rw [addInt_of_le (by omega) (by omega) hsum] at hrest
            have hge := ih _ rest (by omega) hsum hrest i hi
            omega
          · have hneg := addInt_wraps hle c.step_bound.2 (Int.lt_of_not_ge hsum)
            exact absurd hrest (freeBlocks_negative hneg c.max_bound.1 rounds rest)
      · cases hrun
    · cases hrun
      simp

def StepsTo (a : Arguments) (j i : ℤ) : Prop :=
  ∃ m : ℕ, i = j + m * a.freeStep ∧ i < a.freeMax

theorem stepsTo_iff (hlt : j < a.freeMax) (i : ℤ) :
    StepsTo a j i ↔ i = j ∨ StepsTo a (j + a.freeStep) i := by
  constructor
  · rintro ⟨m, him, hi⟩
    cases m with
    | zero => exact .inl (by simpa using him)
    | succ m =>
      refine .inr ⟨m, ?_, hi⟩
      rw [him, Int.natCast_succ, Int.add_mul]
      omega
  · rintro (rfl | ⟨m, him, hi⟩)
    · exact ⟨0, by simp, hlt⟩
    · refine ⟨m + 1, ?_, hi⟩
      rw [him, Int.natCast_succ, Int.add_mul]
      omega

theorem CheckedArguments.le_of_stepsTo (c : CheckedArguments) {i : ℤ}
    (hi : StepsTo c.toArguments j i) : j ≤ i := by
  obtain ⟨m, him, _⟩ := hi
  have := c.steps_nonneg m
  omega

theorem freed_at_end (c : CheckedArguments) (rounds : ℕ) (hj : c.freeMax ≤ j) :
    freeBlocks c.toArguments (rounds + 1) j = .ok [] ∧ ∀ i, ¬ StepsTo c.toArguments j i := by
  refine ⟨if_neg (Int.not_lt.mpr hj), ?_⟩
  intro i hi
  have hge := c.le_of_stepsTo hi
  obtain ⟨_, _, hlt⟩ := hi
  omega

/-- What the loop really frees, as long as no sum wraps: from index `freeMin` on, in steps, up to
but not including `freeMax`. -/
theorem freed_without_wrap (c : CheckedArguments) (hroom : c.freeMax + c.freeStep ≤ intMax + 1) :
    ∀ (rounds : ℕ) (j : ℤ), 1 ≤ j → c.freeMax - j ≤ rounds →
      ∃ freed, freeBlocks c.toArguments (rounds + 1) j = .ok freed ∧ freed.Pairwise (· < ·) ∧
        ∀ i, i ∈ freed ↔ StepsTo c.toArguments j i := by
  have hstep := c.step_bound.1
  intro rounds
  induction rounds with
  | zero =>
    intro j _ hle
    obtain ⟨hrun, hnone⟩ := freed_at_end c 0 (j := j) (by omega)
    exact ⟨[], hrun, List.Pairwise.nil, by simp [hnone]⟩
  | succ rounds ih =>
    intro j hj hle
    by_cases hlt : j < c.freeMax
    · have hmax := c.max_bound.2
      have hadd := addInt_of_le (j := j) (b := c.freeStep) (by omega) (by omega) (by omega)
      obtain ⟨rest, hrest, hsorted, hmem⟩ := ih (j + c.freeStep) (by omega) (by omega)
      refine ⟨j :: rest, ?_, List.pairwise_cons.mpr ⟨?_, hsorted⟩, ?_⟩
      · rw [freeBlocks, if_pos hlt, if_pos (by omega), hadd]
        exact bind_ok_iff.mpr ⟨rest, hrest, rfl⟩
      · intro i hi
        have hge := c.le_of_stepsTo ((hmem i).mp hi)
        omega
      · intro i
        rw [List.mem_cons, hmem, stepsTo_iff hlt]
    · obtain ⟨hrun, hnone⟩ := freed_at_end c (rounds + 1) (Int.le_of_not_gt hlt)
      exact ⟨[], hrun, List.Pairwise.nil, by simp [hnone]⟩

end Loop

/-- The loop comes to its end, uses no index outside the array, frees nothing twice, and what it
frees are the announced blocks, counted from one. -/
def FreesAnnounced (a : Arguments) : Prop :=
  ∃ rounds freed, freeBlocks a rounds a.freeMin = .ok freed ∧
    (∀ i ∈ freed, 0 ≤ i ∧ i < a.numAllocs) ∧ freed.Nodup ∧
    ∀ b, b - 1 ∈ freed ↔ ∃ m : ℕ, b = a.freeMin + m * a.freeStep ∧ b ≤ a.freeMax

/-- The first announced block is at the index before the one the loop starts with. -/
theorem frees_announced_iff (c : CheckedArguments) :
    FreesAnnounced c.toArguments ↔ c.freeMax < c.freeMin := by
  constructor
  · rintro ⟨rounds, freed, hrun, _, _, hblocks⟩
    by_contra hle
    have hfirst : c.freeMin - 1 ∈ freed :=
      (hblocks c.freeMin).mpr ⟨0, by simp, Int.le_of_not_gt hle⟩
    have hge := freed_ge c rounds c.freeMin freed c.min_bound.1 c.min_bound.2 hrun _ hfirst
    omega
  · intro hlt
    refine ⟨1, [], if_neg (Int.not_lt.mpr (Int.le_of_lt hlt)), by simp, List.nodup_nil, ?_⟩
    intro b
    refine ⟨nofun, ?_⟩
    rintro ⟨m, hb, hmax⟩
    have := c.steps_nonneg m
    omega

/-- Three blocks and no further arguments: announced are the blocks 1 to 3, freed are 2 and 3. -/
theorem defaults_keep_first_block :
    readArguments (fun _ => .ok 1024) [stringOf (ascii "free_and_sbrk"), stringOf (ascii "3"),
      stringOf (ascii "1024")] = .ok ⟨3, 1, 1, 3⟩ ∧
    freeBlocks ⟨3, 1, 1, 3⟩ 3 1 = .ok [1, 2] := by
  decide

/-- The largest step: the second index is `INT_MIN`. -/
example : freeBlocks ⟨3, 2147483647, 1, 3⟩ 3 1 = .error .outOfBounds := by decide

end FreeAndSbrk
