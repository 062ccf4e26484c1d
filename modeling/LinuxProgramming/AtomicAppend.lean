import LinuxProgramming.RegularFiles
import LinuxProgramming.TransitionSystems
import Mathlib.Algebra.BigOperators.Fin
import Mathlib.Algebra.Order.BigOperators.Group.Finset
import Mathlib.Data.Fintype.Basic

/-! Several processes run `atomic_append.c` on one file. With `x` the file is opened with
`O_APPEND`, and what arrives are the bytes of all, each in its order. Without it every byte is
an `lseek` to the end and a `write`, with room for others in between. -/
namespace AtomicAppend

open CharStrings RegularFiles TransitionSystems

/-- From the command line. Beyond the bound `i + 33` is no longer an `int`. -/
structure Options where
  append : Bool
  numBytes : ℕ
  bounded : numBytes + 33 ≤ 2 ^ 31

def character (i : ℕ) : Byte := UInt8.ofNat ((i + 33) % 127)

/-- Every process has opened the file itself and so has an offset of its own. `seeked` is set
between the `lseek` and the `write`. -/
structure Process where
  i : ℕ
  offset : ℕ
  seeked : Bool

variable {ι : Type} [DecidableEq ι]

structure State (ι : Type) where
  content : List Byte
  process : ι → Process

def start (content : List Byte) : State ι := ⟨content, fun _ => ⟨0, 0, false⟩⟩

def State.setProcess (s : State ι) (p : ι) (x : Process) : State ι :=
  { s with process := Function.update s.process p x }

def State.writeAt (s : State ι) (p : ι) (offset : ℕ) : State ι :=
  let x := s.process p
  let file := (RegularFile.mk s.content offset).write [character x.i]
  { s.setProcess p ⟨x.i + 1, file.offset, false⟩ with content := file.content }

/-- `O_APPEND` makes the step to the end part of the write. -/
def next (options : ι → Options) (s : State ι) (p : ι) : Option (State ι) :=
  let x := s.process p
  if (options p).numBytes ≤ x.i then none
  else if (options p).append then some (s.writeAt p s.content.length)
  else if x.seeked then some (s.writeAt p x.offset)
  else some (s.setProcess p { x with offset := s.content.length, seeked := true })

abbrev Step (options : ι → Options) (s : State ι) (p : ι) (t : State ι) : Prop :=
  next options s p = some t

def State.Finished (options : ι → Options) (s : State ι) : Prop :=
  ∀ p, (s.process p).i = (options p).numBytes

section Writing

variable {options : ι → Options} {s t : State ι} {p q : ι} {offset : ℕ}

theorem writeAt_self : (s.writeAt p offset).process p =
    ⟨(s.process p).i + 1, offset + 1, false⟩ := by
  simp [State.writeAt, State.setProcess, RegularFile.write_offset]

theorem writeAt_other (hqp : q ≠ p) : (s.writeAt p offset).process q = s.process q := by
  simp [State.writeAt, State.setProcess, hqp]

theorem writeAt_content : (s.writeAt p offset).content =
    ((RegularFile.mk s.content offset).write [character (s.process p).i]).content := rfl

theorem writeAt_end : (s.writeAt p s.content.length).content =
    s.content ++ [character (s.process p).i] := by
  rw [writeAt_content, RegularFile.write_behind le_rfl (List.cons_ne_nil _ _)]
  simp

theorem writeAt_length (hle : offset ≤ s.content.length) :
    (s.writeAt p offset).content.length = max s.content.length (offset + 1) := by
  rw [writeAt_content, RegularFile.write_content (List.cons_ne_nil _ _)]
  simp only [List.length_append, RegularFile.before_length, List.length_singleton,
    List.length_drop]
  omega

theorem step_cases (hstep : Step options s p t) : (s.process p).i < (options p).numBytes ∧
    (((options p).append = true ∧ t = s.writeAt p s.content.length) ∨
     ((options p).append = false ∧ (s.process p).seeked = true ∧
        t = s.writeAt p (s.process p).offset) ∨
     ((options p).append = false ∧ (s.process p).seeked = false ∧
        t = s.setProcess p { s.process p with offset := s.content.length, seeked := true })) := by
  simp only [Step, next] at hstep
  split at hstep
  · cases hstep
  · next hleft =>
    refine ⟨Nat.lt_of_not_le hleft, ?_⟩
    split at hstep
    · next happend =>
      cases hstep
      exact .inl ⟨happend, rfl⟩
    · next happend =>
      rw [Bool.not_eq_true] at happend
      split at hstep
      · next hseeked =>
        cases hstep
        exact .inr (.inl ⟨happend, hseeked, rfl⟩)
      · next hseeked =>
        rw [Bool.not_eq_true] at hseeked
        cases hstep
        exact .inr (.inr ⟨happend, hseeked, rfl⟩)

end Writing

section Appending

variable {options : ι → Options} {content : List Byte} {s t : State ι} {p : ι}

/-- Behind the old content are the bytes in the order in which they were written. -/
def Appended (content : List Byte) (s : State ι) : Prop :=
  ∃ log : List (ι × Byte), s.content = content ++ log.map Prod.snd ∧
    ∀ p, (log.filter fun e => e.1 = p).map Prod.snd =
      (List.range (s.process p).i).map character

theorem start_appended (content : List Byte) : Appended content (start content : State ι) :=
  ⟨[], by simp [start], fun _ => rfl⟩

theorem step_appended (hall : ∀ p, (options p).append = true) (ha : Appended content s)
    (hstep : Step options s p t) : Appended content t := by
  obtain ⟨log, hcontent, hlog⟩ := ha
  obtain ⟨-, ⟨-, rfl⟩ | ⟨hno, -⟩ | ⟨hno, -⟩⟩ := step_cases hstep
  · refine ⟨log ++ [(p, character (s.process p).i)], ?_, fun q => ?_⟩
    · rw [writeAt_end, hcontent]
      simp
    · by_cases hqp : q = p
      · subst hqp
        rw [writeAt_self, List.range_succ, List.map_append, ← hlog q]
        simp
      · have hpq : ¬ p = q := fun h => hqp h.symm
        rw [writeAt_other hqp, ← hlog q]
        simp [hpq]
  · rw [hall p] at hno
    cases hno
  · rw [hall p] at hno
    cases hno

end Appending

section Progress

variable {options : ι → Options} {content : List Byte} {s t : State ι} {p : ι}

theorem step_count (hle : ∀ q, (s.process q).i ≤ (options q).numBytes)
    (hstep : Step options s p t) (q : ι) : (t.process q).i ≤ (options q).numBytes := by
  obtain ⟨hleft, hcases⟩ := step_cases hstep
  by_cases hqp : q = p
  · subst hqp
    rcases hcases with ⟨-, rfl⟩ | ⟨-, -, rfl⟩ | ⟨-, -, rfl⟩
    · rw [writeAt_self]
      exact hleft
    · rw [writeAt_self]
      exact hleft
    · simpa [State.setProcess] using hle q
  · rcases hcases with ⟨-, rfl⟩ | ⟨-, -, rfl⟩ | ⟨-, -, rfl⟩
    · rw [writeAt_other hqp]
      exact hle q
    · rw [writeAt_other hqp]
      exact hle q
    · simpa [State.setProcess, hqp] using hle q

theorem reachable_count (hr : Reachable (Step options) (start content) s) (q : ι) :
    (s.process q).i ≤ (options q).numBytes := by
  obtain ⟨ps, hrun⟩ := hr
  exact hrun.invariant (P := fun s => ∀ q, (s.process q).i ≤ (options q).numBytes)
    (fun _ _ _ hle hstep => step_count hle hstep) (fun q => Nat.zero_le _) q

theorem finished_of_stuck (hr : Reachable (Step options) (start content) s)
    (hstuck : ∀ p t, ¬ Step options s p t) : s.Finished options := by
  intro p
  by_contra hne
  have hleft : ¬ (options p).numBytes ≤ (s.process p).i := by
    have hle := reachable_count hr p
    omega
  have hsome : (next options s p).isSome = true := by
    simp only [next, if_neg hleft]
    split
    · rfl
    · split <;> rfl
  obtain ⟨t, ht⟩ := Option.isSome_iff_exists.mp hsome
  exact hstuck p t ht

/-- With `O_APPEND` no byte is lost: in every run the file has its old content and behind it the
bytes written so far, those of each process in order. When nothing can go on, that is all
bytes of all processes. -/
theorem appended_in_order (hall : ∀ p, (options p).append = true)
    (hr : Reachable (Step options) (start content) s) :
    ∃ log : List (ι × Byte), s.content = content ++ log.map Prod.snd ∧
      (∀ p, (log.filter fun e => e.1 = p).map Prod.snd =
        (List.range (s.process p).i).map character) ∧
      ((∀ p t, ¬ Step options s p t) → ∀ p, (log.filter fun e => e.1 = p).map Prod.snd =
        (List.range (options p).numBytes).map character) := by
  have hfinished := finished_of_stuck hr
  obtain ⟨ps, hrun⟩ := hr
  obtain ⟨log, hcontent, hlog⟩ := hrun.invariant (P := Appended content)
    (fun _ _ _ ha hstep => step_appended hall ha hstep) (start_appended content)
  refine ⟨log, hcontent, hlog, fun hstuck p => ?_⟩
  rw [hlog p, hfinished hstuck p]

theorem turns_appended : ∃ (s : State Bool) (log : List (Bool × Byte)),
    Execution (Step fun _ => ⟨true, 2, by decide⟩) (start [97]) [true, false, false, true] s ∧
    s.content = 97 :: log.map Prod.snd ∧
    (log.filter fun e => e.1 = true).map Prod.snd = [33, 34] := by
  have hrun : Execution (Step fun _ => ⟨true, 2, by decide⟩) (start [97])
      [true, false, false, true] _ := follow_execution rfl
  obtain ⟨log, hcontent, hlog, -⟩ := appended_in_order (fun _ => rfl) ⟨_, hrun⟩
  exact ⟨_, log, hrun, hcontent, hlog true⟩

end Progress

section Racing

variable {options : ι → Options} {content : List Byte} {s t : State ι} {p : ι}

/-- A process that has gone to the end has found there at least as many bytes as it has written;
so its next byte makes the file longer than that, at once or because others did. -/
structure Raced [Fintype ι] (content : List Byte) (s : State ι) : Prop where
  kept : content <+: s.content
  offset : ∀ p, (s.process p).seeked = true →
    content.length + (s.process p).i ≤ (s.process p).offset ∧
      (s.process p).offset ≤ s.content.length
  lower : ∀ p, content.length + (s.process p).i ≤ s.content.length
  upper : s.content.length ≤ content.length + ∑ p, (s.process p).i

omit [DecidableEq ι] in
theorem start_raced [Fintype ι] (content : List Byte) :
    Raced content (start content : State ι) :=
  ⟨List.prefix_rfl, fun _ h => (by cases h), fun _ => le_rfl, by simp [start]⟩

theorem sum_writeAt [Fintype ι] (s : State ι) (p : ι) (offset : ℕ) :
    ∑ q, ((s.writeAt p offset).process q).i = ∑ q, (s.process q).i + 1 := by
  have hcount : ∀ q, ((s.writeAt p offset).process q).i =
      (s.process q).i + if q = p then 1 else 0 := by
    intro q
    by_cases hqp : q = p
    · subst hqp
      rw [writeAt_self, if_pos rfl]
    · rw [writeAt_other hqp, if_neg hqp, Nat.add_zero]
  simp only [hcount, Finset.sum_add_distrib, Finset.sum_ite_eq', Finset.mem_univ, if_true]

theorem writeAt_kept {offset : ℕ} (hkept : content <+: s.content)
    (hoffset : content.length ≤ offset) :
    content <+: (s.writeAt p offset).content := by
  have htake : content <+: s.content.take offset := by
    rw [List.prefix_take_iff]
    exact ⟨hkept, hoffset⟩
  rw [writeAt_content, RegularFile.write_content (List.cons_ne_nil _ _), RegularFile.before,
    List.append_assoc, List.append_assoc]
  exact htake.trans (List.prefix_append _ _)

theorem Raced.write [Fintype ι] (hr : Raced content s) (hseeked : (s.process p).seeked = true) :
    Raced content (s.writeAt p (s.process p).offset) := by
  obtain ⟨hlow, hhigh⟩ := hr.offset p hseeked
  have hlength := writeAt_length (p := p) hhigh
  refine ⟨writeAt_kept hr.kept (by omega), fun q hq => ?_, fun q => ?_, ?_⟩
  · by_cases hqp : q = p
    · subst hqp
      rw [writeAt_self] at hq
      cases hq
    · rw [writeAt_other hqp] at hq ⊢
      have hoffset := hr.offset q hq
      omega
  · by_cases hqp : q = p
    · subst hqp
      rw [writeAt_self]
      change content.length + ((s.process q).i + 1) ≤ _
      omega
    · rw [writeAt_other hqp]
      have hlower := hr.lower q
      omega
  · rw [sum_writeAt]
    have hupper := hr.upper
    omega

theorem Raced.seek [Fintype ι] (hr : Raced content s) (p : ι) : Raced content
    (s.setProcess p { s.process p with offset := s.content.length, seeked := true }) := by
  have hcount : ∀ q, ((s.setProcess p
      { s.process p with offset := s.content.length, seeked := true }).process q).i =
        (s.process q).i := by
    intro q
    by_cases hqp : q = p
    · subst hqp
      simp [State.setProcess]
    · simp [State.setProcess, hqp]
  refine ⟨hr.kept, fun q hq => ?_, fun q => ?_, ?_⟩
  · by_cases hqp : q = p
    · subst hqp
      simpa [State.setProcess] using hr.lower q
    · simp only [State.setProcess, Function.update_of_ne hqp] at hq ⊢
      exact hr.offset q hq
  · rw [hcount]
    exact hr.lower q
  · simp only [hcount]
    exact hr.upper

theorem reachable_raced [Fintype ι] (hnone : ∀ p, (options p).append = false)
    (hr : Reachable (Step options) (start content) s) : Raced content s := by
  obtain ⟨ps, hrun⟩ := hr
  refine hrun.invariant (fun s p t hr hstep => ?_) (start_raced content)
  obtain ⟨-, ⟨hyes, -⟩ | ⟨-, hseeked, rfl⟩ | ⟨-, -, rfl⟩⟩ := step_cases hstep
  · rw [hnone p] at hyes
    cases hyes
  · exact hr.write hseeked
  · exact hr.seek p

end Racing

section Schedules

variable {options : ι → Options} {count : ι → ℕ} {len size : ℕ} {s : State ι}

structure At (count : ι → ℕ) (waiting : Finset ι) (len size : ℕ) (s : State ι) : Prop where
  size : s.content.length = size
  count : ∀ p, (s.process p).i = count p
  seeked : ∀ p, (s.process p).seeked = true ↔ p ∈ waiting
  offset : ∀ p ∈ waiting, (s.process p).offset = len

def plusOne (count : ι → ℕ) (chosen : Finset ι) (p : ι) : ℕ :=
  count p + if p ∈ chosen then 1 else 0

theorem At.seekAll (hnone : ∀ p, (options p).append = false) (ha : At count ∅ len len s)
    (chosen : Finset ι) (hleft : ∀ p ∈ chosen, count p < (options p).numBytes) :
    ∃ t, Reachable (Step options) s t ∧ At count chosen len len t := by
  induction chosen using Finset.induction_on with
  | empty => exact ⟨s, ⟨[], .refl s⟩, ha⟩
  | insert p chosen hp ih =>
    obtain ⟨t, hreach, ht⟩ := ih fun q hq => hleft q (Finset.mem_insert_of_mem hq)
    have hidle : (t.process p).seeked = false := by
      rw [← Bool.not_eq_true, ht.seeked]
      exact hp
    have hroom : ¬ (options p).numBytes ≤ (t.process p).i := by
      have := hleft p (Finset.mem_insert_self p chosen)
      rw [ht.count]
      omega
    have hstep : Step options t p
        (t.setProcess p { t.process p with offset := t.content.length, seeked := true }) := by
      simp only [Step, next, if_neg hroom, hnone, hidle]
      rfl
    refine ⟨_, hreach.trans ⟨[p], .single hstep⟩, ht.size, fun q => ?_, fun q => ?_,
      fun q hq => ?_⟩
    · by_cases hqp : q = p
      · subst hqp
        simpa [State.setProcess] using ht.count q
      · simpa [State.setProcess, hqp] using ht.count q
    · by_cases hqp : q = p
      · subst hqp
        simp [State.setProcess]
      · simpa [State.setProcess, hqp] using ht.seeked q
    · by_cases hqp : q = p
      · subst hqp
        simpa [State.setProcess] using ht.size
      · have hq : q ∈ chosen := (Finset.mem_insert.mp hq).resolve_left hqp
        simpa [State.setProcess, hqp] using ht.offset q hq

theorem At.writeAll (hnone : ∀ p, (options p).append = false) (chosen : Finset ι)
    (hleft : ∀ p ∈ chosen, count p < (options p).numBytes) (ha : At count chosen len size s)
    (hlen : len ≤ size) (hsize : size ≤ len + 1) :
    ∃ t, Reachable (Step options) s t ∧
      At (plusOne count chosen) ∅ len (if chosen = ∅ then size else len + 1) t := by
  induction chosen using Finset.induction_on generalizing count size s with
  | empty =>
    have hsame : plusOne count ∅ = count := by
      funext p
      simp [plusOne]
    exact ⟨s, ⟨[], .refl s⟩, by rw [hsame]; exact ha⟩
  | insert p chosen hp ih =>
    have hmem := Finset.mem_insert_self p chosen
    have hroom : ¬ (options p).numBytes ≤ (s.process p).i := by
      have := hleft p hmem
      rw [ha.count]
      omega
    have hseeked : (s.process p).seeked = true := (ha.seeked p).mpr hmem
    have hstep : Step options s p (s.writeAt p len) := by
      simp only [Step, next, if_neg hroom, hnone, hseeked, ha.offset p hmem]
      rfl
    have hsize' : (s.writeAt p len).content.length = len + 1 := by
      rw [writeAt_length (by rw [ha.size]; exact hlen), ha.size]
      omega
    have hnext : At (plusOne count {p}) chosen len (len + 1) (s.writeAt p len) := by
      refine ⟨hsize', fun q => ?_, fun q => ?_, fun q hq => ?_⟩
      · by_cases hqp : q = p
        · subst hqp
          simp [writeAt_self, plusOne, ha.count]
        · simp [writeAt_other hqp, plusOne, ha.count, hqp]
      · by_cases hqp : q = p
        · subst hqp
          simp [writeAt_self, hp]
        · rw [writeAt_other hqp, ha.seeked, Finset.mem_insert]
          exact or_iff_right hqp
      · have hqp : q ≠ p := fun h => hp (h ▸ hq)
        rw [writeAt_other hqp]
        exact ha.offset q (Finset.mem_insert_of_mem hq)
    have hrest : ∀ q ∈ chosen, plusOne count {p} q < (options q).numBytes := by
      intro q hq
      have hqp : q ≠ p := fun h => hp (h ▸ hq)
      simpa [plusOne, hqp] using hleft q (Finset.mem_insert_of_mem hq)
    obtain ⟨t, hreach, ht⟩ := ih hrest hnext (Nat.le_succ len) le_rfl
    refine ⟨t, Reachable.trans ⟨[p], .single hstep⟩ hreach, ?_⟩
    have hcount : plusOne (plusOne count {p}) chosen = plusOne count (insert p chosen) := by
      funext q
      by_cases hqp : q = p
      · subst hqp
        simp [plusOne, hp]
      · simp [plusOne, hqp]
    rw [hcount, ite_self] at ht
    rw [if_neg (Finset.insert_ne_empty p chosen)]
    exact ht

theorem At.round (hnone : ∀ p, (options p).append = false) (ha : At count ∅ len len s)
    {chosen : Finset ι} (hne : chosen.Nonempty)
    (hleft : ∀ p ∈ chosen, count p < (options p).numBytes) :
    ∃ t, Reachable (Step options) s t ∧ At (plusOne count chosen) ∅ (len + 1) (len + 1) t := by
  obtain ⟨t, hseek, ht⟩ := ha.seekAll hnone chosen hleft
  obtain ⟨u, hwrite, hu⟩ := ht.writeAll hnone chosen hleft le_rfl (Nat.le_succ len)
  rw [if_neg hne.ne_empty] at hu
  exact ⟨u, hseek.trans hwrite, hu.size, hu.count, hu.seeked, by simp⟩

/-- Who takes part in a round when `k + 1` are left: all that need every round, or else one. -/
theorem exists_round [Fintype ι] {left : ι → ℕ} {k : ℕ} (hmax : ∀ p, left p ≤ k + 1)
    (hsum : k + 1 ≤ ∑ p, left p) :
    ∃ chosen : Finset ι, chosen.Nonempty ∧ (∀ p ∈ chosen, 0 < left p) ∧
      (∀ p, left p - (if p ∈ chosen then 1 else 0) ≤ k) ∧
      k ≤ ∑ p, (left p - if p ∈ chosen then 1 else 0) := by
  by_cases hfull : ∃ p, left p = k + 1
  · obtain ⟨p, hp⟩ := hfull
    have hmem : ∀ q, q ∈ Finset.univ.filter (fun q => left q = k + 1) ↔ left q = k + 1 := by
      simp
    generalize Finset.univ.filter (fun q => left q = k + 1) = chosen at hmem
    refine ⟨chosen, ⟨p, (hmem p).mpr hp⟩, fun q hq => ?_, fun q => ?_, ?_⟩
    · have := (hmem q).mp hq
      omega
    · have := hmax q
      simp only [hmem]
      split <;> omega
    · have hone : k = left p - if p ∈ chosen then 1 else 0 := by
        rw [if_pos ((hmem p).mpr hp), hp, Nat.add_sub_cancel]
      exact hone.le.trans (Finset.single_le_sum
        (f := fun q => left q - if q ∈ chosen then 1 else 0) (fun _ _ => Nat.zero_le _)
        (Finset.mem_univ p))
  · have hlt : ∀ p, left p ≤ k := by
      intro p
      have hle := hmax p
      have hne : left p ≠ k + 1 := fun h => hfull ⟨p, h⟩
      omega
    obtain ⟨p, -, hp⟩ := Finset.exists_ne_zero_of_sum_ne_zero (by omega : ∑ p, left p ≠ 0)
    have hpos : 0 < left p := Nat.pos_of_ne_zero hp
    refine ⟨{p}, Finset.singleton_nonempty p, by simpa using hpos, fun q => ?_, ?_⟩
    · have := hlt q
      omega
    · have hsplit : ∑ q, left q = ∑ q, (left q - if q ∈ ({p} : Finset ι) then 1 else 0) + 1 := by
        have hq : ∀ q, left q = (left q - if q ∈ ({p} : Finset ι) then 1 else 0) +
            if q = p then 1 else 0 := by
          intro q
          by_cases hqp : q = p
          · subst hqp
            simp
            omega
          · simp [hqp]
        calc ∑ q, left q = ∑ q, ((left q - if q ∈ ({p} : Finset ι) then 1 else 0) +
              if q = p then 1 else 0) := Finset.sum_congr rfl fun q _ => hq q
          _ = _ := by simp [Finset.sum_add_distrib]
      omega

theorem sizes_reachable [Fintype ι] (hnone : ∀ p, (options p).append = false) (k : ℕ)
    (ha : At count ∅ len len s) (hmax : ∀ p, (options p).numBytes - count p ≤ k)
    (hsum : k ≤ ∑ p, ((options p).numBytes - count p))
    (hcount : ∀ p, count p ≤ (options p).numBytes) :
    ∃ t, Reachable (Step options) s t ∧ t.Finished options ∧ t.content.length = len + k := by
  induction k generalizing count len s with
  | zero =>
    refine ⟨s, ⟨[], .refl s⟩, fun p => ?_, ha.size⟩
    have hle := hcount p
    have hzero := hmax p
    rw [ha.count]
    omega
  | succ k ih =>
    obtain ⟨chosen, hne, hpos, hmax', hsum'⟩ := exists_round hmax hsum
    have hleft : ∀ p ∈ chosen, count p < (options p).numBytes := by
      intro p hp
      have := hpos p hp
      omega
    have hrest : ∀ p, (options p).numBytes - plusOne count chosen p =
        (options p).numBytes - count p - if p ∈ chosen then 1 else 0 := by
      intro p
      rw [plusOne]
      omega
    obtain ⟨t, hreach, ht⟩ := ha.round hnone hne hleft
    obtain ⟨u, hreach', hfinished, hlength⟩ := ih ht (fun p => by rw [hrest]; exact hmax' p)
      (by simp only [hrest]; exact hsum') fun p => by
        have hle := hcount p
        rw [plusOne]
        split
        · next hp => exact hleft p hp
        · exact hle
    exact ⟨u, hreach.trans hreach', hfinished, by omega⟩

end Schedules

/-- Without `O_APPEND` the old content stays, but the file can end with any number of new bytes
from what the busiest process writes up to what all of them write, and with no other number. -/
theorem racing_sizes [Fintype ι] {options : ι → Options}
    (hnone : ∀ p, (options p).append = false) (content : List Byte) :
    (∀ s, Reachable (Step options) (start content) s → content <+: s.content) ∧
    ∀ k, (∃ s, Reachable (Step options) (start content) s ∧ s.Finished options ∧
        s.content.length = content.length + k) ↔
      (∀ p, (options p).numBytes ≤ k) ∧ k ≤ ∑ p, (options p).numBytes := by
  refine ⟨fun s hr => (reachable_raced hnone hr).kept, fun k => ⟨?_, ?_⟩⟩
  · rintro ⟨s, hr, hfinished, hlength⟩
    have hraced := reachable_raced hnone hr
    refine ⟨fun p => ?_, ?_⟩
    · have hlower := hraced.lower p
      rw [hfinished p] at hlower
      omega
    · have hupper := hraced.upper
      simp only [show ∀ p, (s.process p).i = (options p).numBytes from hfinished] at hupper
      omega
  · rintro ⟨hmax, hsum⟩
    have ha : At (fun _ => 0) ∅ content.length content.length (start content : State ι) :=
      ⟨rfl, fun _ => rfl, fun _ => by simp [start], by simp⟩
    exact sizes_reachable hnone k ha (by simpa using hmax) (by simpa using hsum)
      fun p => Nat.zero_le _

def millionEach (append : Bool) (_ : Bool) : Options := ⟨append, 1000000, by decide⟩

/-- Two processes with a million bytes each may leave a file of one million. -/
theorem million_bytes_lost : ∃ s, Reachable (Step (millionEach false)) (start []) s ∧
    s.content.length = 0 + 1000000 := by
  have hnone : ∀ p, (millionEach false p).append = false := fun _ => rfl
  obtain ⟨s, hr, -, hlength⟩ := ((racing_sizes hnone []).2 1000000).mpr
    ⟨fun _ => le_rfl, by simp [millionEach]⟩
  exact ⟨s, hr, hlength⟩

end AtomicAppend
