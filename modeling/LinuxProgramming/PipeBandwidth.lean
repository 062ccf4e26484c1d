import LinuxProgramming.TransitionSystems
import Mathlib.Algebra.Order.Group.Nat

/-! The two loops of `pipe_bandwidth.c`. The child writes `blockCount` blocks, the parent calls
`read` that many times and then waits for the child. The bytes are never looked at, so the pipe
is given by how many it holds. -/
namespace PipeBandwidth

open TransitionSystems

structure Transfer where
  blockSize : ℕ
  blockCount : ℕ
  capacity : ℕ
  size_pos : 0 < blockSize
  count_pos : 0 < blockCount

def Transfer.totalSize (T : Transfer) : ℕ := T.blockCount * T.blockSize

/-- In `write i left` that many bytes of block `i` are not yet accepted. -/
inductive ChildPc where
  | write (i left : ℕ)
  | close
  | exited
  deriving DecidableEq

inductive ParentPc where
  | read (i : ℕ)
  | wait
  | ended
  deriving DecidableEq

/-- `available` is what the pipe holds, `received` what the reads have returned. -/
structure State where
  child : ChildPc
  parent : ParentPc
  available : ℕ
  received : ℕ
  deriving DecidableEq

variable (T : Transfer)

def initial : State := ⟨.write 0 T.blockSize, .read 0, 0, 0⟩

def afterWrite (i : ℕ) : ChildPc :=
  if i + 1 < T.blockCount then .write (i + 1) T.blockSize else .close

def afterRead (i : ℕ) : ParentPc := if i + 1 < T.blockCount then .read (i + 1) else .wait

def State.free (s : State) : ℕ := T.capacity - s.available

/-- A write that fits is accepted as a whole, else a piece of it, of any size that fits. -/
def Accepts (s : State) (left k : ℕ) : Prop :=
  0 < k ∧ k ≤ left ∧ k ≤ s.free T ∧ (left ≤ s.free T → k = left)

instance (s : State) (left k : ℕ) : Decidable (Accepts T s left k) :=
  inferInstanceAs (Decidable (_ ∧ _ ∧ _ ∧ (_ → _)))

inductive Event where
  | accept (k : ℕ)
  | close
  | read
  | wait
  deriving DecidableEq

def step (s : State) : Event → Option State
  | .accept k =>
    match s.child with
    | .write i left =>
      if Accepts T s left k then
        some { s with
          child := if k = left then afterWrite T i else .write i (left - k)
          available := s.available + k }
      else none
    | _ => none
  | .close =>
    match s.child with
    | .close => some { s with child := .exited }
    | _ => none
  | .read =>
    match s.parent with
    | .read i =>
      -- an empty pipe is at its end only when the child has closed it
      if 0 < s.available ∨ s.child = .exited then
        some { s with
          parent := afterRead T i
          available := s.available - min s.available T.blockSize
          received := s.received + min s.available T.blockSize }
      else none
    | _ => none
  | .wait =>
    if s.parent = .wait ∧ s.child = .exited then some { s with parent := .ended } else none

def Step (s : State) (e : Event) (t : State) : Prop := step T s e = some t

inductive Moves (s : State) : Event → State → Prop where
  | piece {i left k} : s.child = .write i left → Accepts T s left k → k < left →
      Moves s (.accept k) { s with child := .write i (left - k), available := s.available + k }
  | block {i left} : s.child = .write i left → Accepts T s left left →
      Moves s (.accept left) { s with child := afterWrite T i, available := s.available + left }
  | close : s.child = .close → Moves s .close { s with child := .exited }
  | read {i} : s.parent = .read i → 0 < s.available ∨ s.child = .exited →
      Moves s .read { s with
        parent := afterRead T i
        available := s.available - min s.available T.blockSize
        received := s.received + min s.available T.blockSize }
  | wait : s.parent = .wait → s.child = .exited → Moves s .wait { s with parent := .ended }

variable {T} {s t : State} {e : Event}

theorem moves_of_step (h : Step T s e t) : Moves T s e t := by
  cases e with
  | accept k =>
    simp only [Step, step] at h
    split at h
    · next i left hchild =>
      split at h
      · next hacc =>
        cases h
        split
        · next hk =>
          subst k
          exact .block hchild hacc
        · next hk => exact .piece hchild hacc (lt_of_le_of_ne hacc.2.1 hk)
      · cases h
    · cases h
  | close =>
    simp only [Step, step] at h
    split at h
    · next hchild =>
      cases h
      exact .close hchild
    · cases h
  | read =>
    simp only [Step, step] at h
    split at h
    · next i hparent =>
      split at h
      · next hready =>
        cases h
        exact .read hparent hready
      · cases h
    · cases h
  | wait =>
    simp only [Step, step] at h
    split at h
    · next hready =>
      cases h
      exact .wait hready.1 hready.2
    · cases h

section Conservation

def sent (T : Transfer) : ChildPc → ℕ
  | .write i left => i * T.blockSize + (T.blockSize - left)
  | .close | .exited => T.totalSize

structure Conserved (T : Transfer) (s : State) : Prop where
  flow : s.received + s.available = sent T s.child
  room : s.available ≤ T.capacity
  writing : ∀ i left, s.child = .write i left → i < T.blockCount ∧ 0 < left ∧ left ≤ T.blockSize
  reading : ∀ i, s.parent = .read i → i < T.blockCount

theorem sent_afterWrite {i : ℕ} (hi : i < T.blockCount) :
    sent T (afterWrite T i) = (i + 1) * T.blockSize := by
  unfold afterWrite
  split
  · simp [sent]
  · have : T.blockCount = i + 1 := by omega
    simp [sent, Transfer.totalSize, this]

theorem afterWrite_bounds {i j left : ℕ} (h : afterWrite T i = .write j left) :
    j < T.blockCount ∧ left = T.blockSize := by
  unfold afterWrite at h
  split at h
  · cases h
    exact ⟨‹_›, rfl⟩
  · cases h

theorem afterRead_bounds {i j : ℕ} (h : afterRead T i = .read j) :
    j < T.blockCount ∧ j = i + 1 := by
  unfold afterRead at h
  split at h
  · cases h
    exact ⟨‹_›, rfl⟩
  · cases h

theorem conserved_initial : Conserved T (initial T) where
  flow := by simp [initial, sent]
  room := Nat.zero_le _
  writing i left h := by
    cases h
    exact ⟨T.count_pos, T.size_pos, le_rfl⟩
  reading i h := by
    cases h
    exact T.count_pos

theorem conserved_step (h : Conserved T s) (hstep : Step T s e t) : Conserved T t := by
  have hflow := h.flow
  have hroom := h.room
  cases moves_of_step hstep with
  | @piece i left k hchild hacc hk =>
    obtain ⟨hi, -, hleft⟩ := h.writing i left hchild
    obtain ⟨hpos, -, hfree, -⟩ := hacc
    simp only [State.free] at hfree
    rw [hchild] at hflow
    simp only [sent] at hflow
    refine ⟨?_, by simp only; omega, ?_, h.reading⟩
    · simp only [sent]
      omega
    · intro j l hj
      cases hj
      exact ⟨hi, by omega, by omega⟩
  | @block i left hchild hacc =>
    obtain ⟨hi, -, hleft⟩ := h.writing i left hchild
    obtain ⟨hpos, -, hfree, -⟩ := hacc
    simp only [State.free] at hfree
    rw [hchild] at hflow
    simp only [sent] at hflow
    refine ⟨?_, by simp only; omega, ?_, h.reading⟩
    · simp only [sent_afterWrite hi, Nat.succ_mul]
      omega
    · intro j l hj
      obtain ⟨hcount, rfl⟩ := afterWrite_bounds hj
      exact ⟨hcount, T.size_pos, le_rfl⟩
  | close hchild =>
    rw [hchild] at hflow
    exact ⟨hflow, hroom, fun i left hw => (by cases hw), h.reading⟩
  | read hparent hready =>
    refine ⟨by simp only; omega, by simp only; omega, h.writing, fun j hj => ?_⟩
    exact (afterRead_bounds hj).1
  | wait hparent hchild => exact ⟨hflow, hroom, h.writing, fun i hr => (by cases hr)⟩

theorem conserved_reachable (hs : Reachable (Step T) (initial T) s) : Conserved T s := by
  obtain ⟨es, hrun⟩ := hs
  exact hrun.invariant (fun _ _ _ h hstep => conserved_step h hstep) conserved_initial

end Conservation

section WholeBlocks

/-- The capacity never cuts a block in two. -/
def NeverSplit (T : Transfer) : Prop :=
  T.blockSize ∣ T.capacity ∨ T.blockCount * T.blockSize ≤ T.capacity

structure Aligned (T : Transfer) (s : State) : Prop where
  available : T.blockSize ∣ s.available
  writing : ∀ i left, s.child = .write i left → left = T.blockSize
  reading : ∀ i, s.parent = .read i → s.received = i * T.blockSize
  finished : (∀ i, s.parent ≠ .read i) → s.received = T.totalSize

theorem block_fits (hT : NeverSplit T) (hc : Conserved T s) (ha : Aligned T s) {i left : ℕ}
    (hchild : s.child = .write i left) (hfree : 0 < s.free T) : left ≤ s.free T := by
  obtain ⟨hi, -, -⟩ := hc.writing i left hchild
  rw [ha.writing i left hchild]
  rcases hT with hdvd | hall
  · exact Nat.le_of_dvd hfree (Nat.dvd_sub hdvd ha.available)
  · have hflow := hc.flow
    rw [hchild, ha.writing i left hchild] at hflow
    simp only [sent, Nat.sub_self, Nat.add_zero] at hflow
    have hnext : (i + 1) * T.blockSize ≤ T.blockCount * T.blockSize :=
      Nat.mul_le_mul_right _ hi
    rw [Nat.succ_mul] at hnext
    simp only [State.free]
    omega

theorem received_afterRead {i : ℕ} (hi : i < T.blockCount) :
    (∀ j, afterRead T i = .read j → (i + 1) * T.blockSize = j * T.blockSize) ∧
      ((∀ j, afterRead T i ≠ .read j) → (i + 1) * T.blockSize = T.totalSize) := by
  constructor
  · intro j hj
    rw [(afterRead_bounds hj).2]
  · intro hwait
    have hlast : ¬ i + 1 < T.blockCount := fun hlt => hwait (i + 1) (if_pos hlt)
    rw [Transfer.totalSize, show T.blockCount = i + 1 by omega]

theorem aligned_initial : Aligned T (initial T) where
  available := Nat.dvd_zero _
  writing i left h := by
    cases h
    rfl
  reading i h := by
    cases h
    simp [initial]
  finished h := (h 0 rfl).elim

theorem aligned_step (hT : NeverSplit T) (hc : Conserved T s) (h : Aligned T s)
    (hstep : Step T s e t) : Aligned T t := by
  cases moves_of_step hstep with
  | @piece i left k hchild hacc hk =>
    obtain ⟨hpos, -, hfree, hwhole⟩ := hacc
    have := hwhole (block_fits hT hc h hchild (by omega))
    omega
  | @block i left hchild hacc =>
    rw [h.writing i left hchild]
    exact ⟨Nat.dvd_add h.available (Nat.dvd_refl _), fun j l hj => (afterWrite_bounds hj).2,
      h.reading, h.finished⟩
  | close hchild => exact ⟨h.available, fun i left hw => (by cases hw), h.reading, h.finished⟩
  | @read i hparent hready =>
    have hi := hc.reading i hparent
    have hreceived := h.reading i hparent
    have hpos : 0 < s.available := by
      rcases hready with hpos | hexited
      · exact hpos
      · have hflow := hc.flow
        rw [hexited, hreceived] at hflow
        have hmore : i * T.blockSize < T.totalSize := Nat.mul_lt_mul_of_pos_right hi T.size_pos
        simp only [sent] at hflow
        omega
    have hmin : min s.available T.blockSize = T.blockSize :=
      Nat.min_eq_right (Nat.le_of_dvd hpos h.available)
    rw [hmin]
    obtain ⟨hread, hwait⟩ := received_afterRead hi
    have hnext : s.received + T.blockSize = (i + 1) * T.blockSize := by
      rw [hreceived, Nat.succ_mul]
    exact ⟨Nat.dvd_sub h.available (Nat.dvd_refl _), h.writing,
      fun j hj => hnext.trans (hread j hj), fun hw => hnext.trans (hwait hw)⟩
  | wait hparent hchild =>
    refine ⟨h.available, h.writing, fun i hr => (by cases hr), fun _ => h.finished ?_⟩
    simp [hparent]

theorem aligned_reachable (hT : NeverSplit T) (hs : Reachable (Step T) (initial T) s) :
    Aligned T s := by
  obtain ⟨es, hrun⟩ := hs
  exact (hrun.invariant (P := fun s => Conserved T s ∧ Aligned T s)
    (fun _ _ _ h hstep => ⟨conserved_step h.1 hstep, aligned_step hT h.1 h.2 hstep⟩)
    ⟨conserved_initial, aligned_initial⟩).2

end WholeBlocks

section SplitBlocks

variable {i : ℕ}

/-- A loop that is left with bytes missing. -/
def Lost (T : Transfer) (s : State) : Prop := s.parent = .wait ∧ s.received < T.totalSize

theorem step_accept {left k : ℕ} (hchild : s.child = .write i left) (hacc : Accepts T s left k) :
    Step T s (.accept k) { s with
      child := if k = left then afterWrite T i else .write i (left - k)
      available := s.available + k } := by
  simp only [Step, step, hchild]
  exact if_pos hacc

theorem step_read (hparent : s.parent = .read i) (hpos : 0 < s.available) :
    Step T s .read { s with
      parent := afterRead T i
      available := s.available - min s.available T.blockSize
      received := s.received + min s.available T.blockSize } := by
  simp only [Step, step, hparent]
  exact if_pos (.inl hpos)

theorem read_on (hcap : 0 < T.capacity) (hc : Conserved T s) (hparent : s.parent = .read i)
    (hmiss : s.received < T.totalSize) : ∃ t, Reachable (Step T) s t ∧
      t.parent = afterRead T i ∧ t.received ≤ s.received + T.blockSize := by
  by_cases hpos : 0 < s.available
  · refine ⟨_, ⟨_, .single (step_read hparent hpos)⟩, rfl, ?_⟩
    exact Nat.add_le_add_left (Nat.min_le_right _ _) _
  · have hempty : s.available = 0 := by omega
    have hflow := hc.flow
    cases hchild : s.child with
    | write j left =>
      obtain ⟨-, hleft, -⟩ := hc.writing j left hchild
      have hacc : Accepts T s left (min left T.capacity) := by
        simp only [Accepts, State.free, hempty, Nat.sub_zero]
        omega
      have hwrite := Execution.single (step_accept hchild hacc)
      refine ⟨_, ⟨_, hwrite.tail (step_read hparent ?_)⟩, rfl, ?_⟩
      · simp only
        omega
      · exact Nat.add_le_add_left (Nat.min_le_right _ _) _
    | _ =>
      -- everything has been sent, and nothing of it is left in the pipe
      rw [hchild] at hflow
      simp only [sent] at hflow
      omega

theorem lost_of_short (hcap : 0 < T.capacity) (hs : Reachable (Step T) (initial T) s)
    (hparent : s.parent = .read i) (hshort : s.received < i * T.blockSize) :
    ∃ t, Reachable (Step T) (initial T) t ∧ Lost T t := by
  obtain ⟨m, hm⟩ : ∃ m, i + m = T.blockCount :=
    ⟨_, Nat.add_sub_cancel' ((conserved_reachable hs).reading i hparent).le⟩
  induction m generalizing s i with
  | zero =>
    have := (conserved_reachable hs).reading i hparent
    omega
  | succ m ih =>
    have hc := conserved_reachable hs
    have hle : (i + 1) * T.blockSize ≤ T.totalSize := Nat.mul_le_mul_right _ (by omega)
    rw [Nat.succ_mul] at hle
    obtain ⟨t, hst, htparent, hreceived⟩ := read_on hcap hc hparent (by omega)
    have ht := hs.trans hst
    by_cases hlast : i + 1 < T.blockCount
    · rw [afterRead, if_pos hlast] at htparent
      exact ih ht htparent (by rw [Nat.succ_mul]; omega) (by omega)
    · rw [afterRead, if_neg hlast] at htparent
      exact ⟨t, ht, htparent, by omega⟩

section Schedule

/-- The child has filled the pipe, with a piece of a block at the end, and the parent has read
`j` blocks. -/
def drained (T : Transfer) (j : ℕ) : State :=
  ⟨.write (T.capacity / T.blockSize) (T.blockSize - T.capacity % T.blockSize), .read j,
    T.capacity - j * T.blockSize, j * T.blockSize⟩

theorem blocks_fit {j : ℕ} (hj : j + 1 ≤ T.capacity / T.blockSize) :
    j * T.blockSize + T.blockSize ≤ T.capacity := by
  rw [← Nat.succ_mul]
  exact (Nat.mul_le_mul_right _ hj).trans (Nat.div_mul_le_self _ _)

theorem piece_bounds (hsplit : ¬ T.blockSize ∣ T.capacity) :
    0 < T.capacity % T.blockSize ∧ T.capacity % T.blockSize < T.blockSize := by
  refine ⟨Nat.pos_of_ne_zero fun h => ?_, Nat.mod_lt _ T.size_pos⟩
  exact hsplit (Nat.dvd_of_mod_eq_zero h)

variable (hsplit : ¬ T.blockSize ∣ T.capacity) (hcap : T.capacity < T.blockCount * T.blockSize)

include hcap

theorem full_blocks_lt : T.capacity / T.blockSize < T.blockCount :=
  Nat.div_lt_of_lt_mul (Nat.mul_comm _ _ ▸ hcap)

theorem fill_blocks {j : ℕ} (hj : j ≤ T.capacity / T.blockSize) :
    Reachable (Step T) (initial T) ⟨.write j T.blockSize, .read 0, j * T.blockSize, 0⟩ := by
  induction j with
  | zero =>
    rw [Nat.zero_mul]
    exact ⟨[], .refl _⟩
  | succ j ih =>
    have hblocks := full_blocks_lt hcap
    have hroom := blocks_fit hj
    rw [Nat.succ_mul]
    refine (ih (by omega)).trans ⟨[.accept T.blockSize], .single ?_⟩
    have hacc : Accepts T ⟨.write j T.blockSize, .read 0, j * T.blockSize, 0⟩ T.blockSize
        T.blockSize := ⟨T.size_pos, le_rfl, by simp only [State.free]; omega, fun _ => rfl⟩
    have hnext : afterWrite T j = .write (j + 1) T.blockSize := if_pos (by omega)
    simpa only [if_pos, hnext] using step_accept (i := j) (by rfl) hacc

include hsplit

theorem fill_piece : Reachable (Step T) (initial T) (drained T 0) := by
  obtain ⟨hrest, hlt⟩ := piece_bounds hsplit
  have hdiv := Nat.div_add_mod' T.capacity T.blockSize
  refine (fill_blocks hcap le_rfl).trans ⟨[.accept (T.capacity % T.blockSize)], .single ?_⟩
  have hacc : Accepts T ⟨.write (T.capacity / T.blockSize) T.blockSize, .read 0,
      T.capacity / T.blockSize * T.blockSize, 0⟩ T.blockSize (T.capacity % T.blockSize) := by
    simp only [Accepts, State.free]
    omega
  simpa only [if_neg hlt.ne, hdiv, drained, Nat.zero_mul, Nat.sub_zero] using
    step_accept (by rfl) hacc

theorem read_blocks {j : ℕ} (hj : j ≤ T.capacity / T.blockSize) :
    Reachable (Step T) (initial T) (drained T j) := by
  induction j with
  | zero => exact fill_piece hsplit hcap
  | succ j ih =>
    have hblocks := full_blocks_lt hcap
    have hroom := blocks_fit hj
    have hmin : min (T.capacity - j * T.blockSize) T.blockSize = T.blockSize := by omega
    have hnext : afterRead T j = .read (j + 1) := if_pos (by omega)
    have hpos : 0 < (drained T j).available := by
      have := T.size_pos
      simp only [drained]
      omega
    refine (ih (by omega)).trans ⟨[.read], .single ?_⟩
    simpa only [drained, hmin, hnext, Nat.sub_sub, Nat.succ_mul] using
      step_read (T := T) (i := j) (s := drained T j) (by rfl) hpos

theorem exists_lost : ∃ s, Reachable (Step T) (initial T) s ∧ Lost T s := by
  obtain ⟨hrest, hlt⟩ := piece_bounds hsplit
  have hdiv := Nat.div_add_mod' T.capacity T.blockSize
  have hpos : 0 < (drained T (T.capacity / T.blockSize)).available := by
    simp only [drained]
    omega
  have hread := (read_blocks hsplit hcap le_rfl).trans ⟨_, .single (step_read (by rfl) hpos)⟩
  by_cases hlast : T.capacity / T.blockSize + 1 < T.blockCount
  · refine lost_of_short (by omega) hread (if_pos hlast) ?_
    simp only [drained, Nat.succ_mul]
    omega
  · refine ⟨_, hread, if_neg hlast, ?_⟩
    simp only [drained, Transfer.totalSize]
    omega

end Schedule

end SplitBlocks

def Blocked (T : Transfer) (s : State) : Prop :=
  (∃ i left, s.child = .write i left) ∧ s.free T = 0

theorem sent_lt_total (hc : Conserved T s) {i left : ℕ} (hchild : s.child = .write i left) :
    sent T s.child < T.totalSize := by
  obtain ⟨hi, hpos, hleft⟩ := hc.writing i left hchild
  have hle : (i + 1) * T.blockSize ≤ T.totalSize := Nat.mul_le_mul_right _ hi
  rw [Nat.succ_mul] at hle
  simp only [hchild, sent]
  omega

/-- When the parent waits it has everything, in every interleaving, exactly where the capacity
never cuts a block in two. -/
theorem all_received_iff (T : Transfer) :
    (∀ s, Reachable (Step T) (initial T) s → s.parent = .wait →
      s.received = T.totalSize ∧ ¬ Blocked T s) ↔
    T.blockSize ∣ T.capacity ∨ T.blockCount * T.blockSize ≤ T.capacity := by
  constructor
  · intro h
    by_contra hnot
    simp only [not_or, Nat.not_le] at hnot
    obtain ⟨s, hs, hwait, hlost⟩ := exists_lost hnot.1 hnot.2
    have := (h s hs hwait).1
    omega
  · intro hT s hs hwait
    have hc := conserved_reachable hs
    have hreceived := (aligned_reachable hT hs).finished (by simp [hwait])
    refine ⟨hreceived, ?_⟩
    rintro ⟨⟨i, left, hchild⟩, -⟩
    have hflow := hc.flow
    have := sent_lt_total hc hchild
    omega

/-- One block of 200000 bytes through a pipe of 65536. -/
def oversized : Transfer := ⟨200000, 1, 65536, by decide, by decide⟩

/-- The only read gets what fits into the pipe; then both processes wait for ever. -/
theorem child_left_blocked : ∃ s, Reachable (Step oversized) (initial oversized) s ∧
    s.parent = .wait ∧ s.received = 65536 ∧ s.received ≠ oversized.totalSize ∧
    Blocked oversized s ∧ ∀ e, step oversized s e = none := by
  have hrun : follow (step oversized) (initial oversized)
      [.accept 65536, .read, .accept 65536] = some ⟨.write 0 68928, .wait, 65536, 65536⟩ := by
    decide
  refine ⟨_, ⟨_, follow_execution hrun⟩, rfl, rfl, by decide, ⟨⟨_, _, rfl⟩, rfl⟩, fun e => ?_⟩
  cases e with
  | accept k =>
    have hno : ¬ Accepts oversized ⟨.write 0 68928, .wait, 65536, 65536⟩ 68928 k := by
      simp only [Accepts, State.free, oversized]
      omega
    simp only [step, if_neg hno]
  | close => rfl
  | read => rfl
  | wait => rfl

end PipeBandwidth
