import LinuxProgramming.MallocFirstFit

/-! Requests of any size. `size + META_SIZE` wraps around at 2^64, and `sbrk` reads it as a
signed number: from 2^63 on a request moves the break down, and at the very top of the range
it gets less than a header. The test in `allocate_space` compares the old break only. -/
namespace MallocSizeLimits

open ByteMemory MallocAndFree MallocFirstFit TransitionSystems

structure Request where
  size : Size
  granted : Bool

/-- The heap, and header address and size of every block returned, which no step reads. -/
structure Ledger where
  heap : Heap
  returned : List (ℕ × ℕ)

def opening (start : ℕ) : Ledger := ⟨empty start, []⟩

def request (s : Ledger) (q : Request) : Option Ledger :=
  (myMalloc q.granted q.size s.heap).map fun (r, h) =>
    ⟨h, if r = 0 then s.returned else s.returned ++ [(r - metaSize, q.size.toNat)]⟩

def Within (x : ℕ × ℕ) (a : ℕ) : Prop := x.1 ≤ a ∧ a < x.1 + metaSize + x.2

def Separate (s : Ledger) : Prop :=
  s.returned.Pairwise (fun x y => ∀ a, ¬ (Within x a ∧ Within y a)) ∧
    ∀ x ∈ s.returned, x.1 + metaSize + x.2 ≤ s.heap.programBreak

/-- Every request returns, never with a lower break, and what was returned so far is disjoint
and below the break. -/
def Sound : Ledger → List Request → Prop
  | _, [] => True
  | s, q :: qs => ∃ t, request s q = some t ∧ s.heap.programBreak ≤ t.heap.programBreak ∧
      Separate t ∧ Sound t qs

/-- The kernel does not grant what does not fit into a signed number. -/
def Restrained : Ledger → List Request → Prop
  | _, [] => True
  | s, q :: qs => (2 ^ 63 ≤ q.size.toNat + metaSize →
      (sbrk q.granted (q.size + BitVec.ofNat 64 metaSize).toInt s.heap).1 = noAddress) ∧
      ∀ t, request s q = some t → Restrained t qs

def Handed (start : ℕ) (s : Ledger) : Prop :=
  ∃ bs, Shape start s.heap bs ∧ (∀ b ∈ bs, b.free = false) ∧ bs.map Block.extent = s.returned

section Requests

variable {start : ℕ} {s t : Ledger} {q : Request} {h : Heap}

theorem Handed.separate (hs : Handed start s) : Separate s := by
  obtain ⟨bs, hshape, _, hret⟩ := hs
  rw [Separate, ← hret]
  constructor
  · apply List.pairwise_map.mpr
    apply (contiguous_ordered hshape.contiguous).imp
    rintro b c hle a ⟨⟨_, hb⟩, hc, _⟩
    simp only [Block.stop, Block.extent] at hle hb hc
    omega
  · intro x hx
    obtain ⟨b, hb, rfl⟩ := List.mem_map.mp hx
    exact (contiguous_bounds hshape.contiguous hb).2

/-- The increment that `sbrk` gets for a size near the limit: a negative one, or less than a
header. -/
theorem request_wraps {size : Size} (hsize : 2 ^ 63 ≤ size.toNat + metaSize) :
    (size + BitVec.ofNat 64 metaSize).toInt =
      (size.toNat + metaSize : ℕ) - (2 ^ 64 : ℕ) := by
  have hlt := size.isLt
  simp only [metaSize] at hsize ⊢
  rw [BitVec.toInt_eq_toNat_cond, BitVec.toNat_add, BitVec.toNat_ofNat]
  split <;> omega

theorem sbrk_cases (granted : Bool) (i : Int) (h : Heap) :
    sbrk granted i h = (noAddress, h) ∨
    (0 ≤ (h.programBreak : Int) + i ∧ sbrk granted i h =
      (h.programBreak, { h with programBreak := ((h.programBreak : Int) + i).toNat })) := by
  simp only [sbrk]
  split
  · next hok => exact Or.inr ⟨hok.2.1, rfl⟩
  · exact Or.inl rfl

theorem allocateSpace_refused {granted : Bool} {last : ℕ} {size : Size}
    (hbreak : h.programBreak < noAddress)
    (hno : sbrk granted (size + BitVec.ofNat 64 metaSize).toInt h = (noAddress, h)) :
    allocateSpace granted last size h = (0, h) := by
  rw [allocateSpace, hno]
  simp only [ne_eq, Nat.ne_of_lt hbreak, not_false_eq_true, if_true]

theorem allocateSpace_granted {granted : Bool} {last : ℕ} {size : Size} {h' : Heap}
    (hbreak : h.programBreak < noAddress)
    (hyes : sbrk granted (size + BitVec.ofNat 64 metaSize).toInt h = (h.programBreak, h')) :
    allocateSpace granted last size h =
      (h.programBreak, enterBlock last h.programBreak size h') := by
  rw [allocateSpace, hyes]
  simp only [ne_eq, not_true_eq_false, if_false, if_neg (Nat.ne_of_lt hbreak)]

theorem Handed.unfit {bs : List Block} (hused : ∀ b ∈ bs, b.free = false) (size : Size) :
    ∀ b ∈ bs, ¬ Fits size b := by
  rintro b hb ⟨hfree, _⟩
  rw [hused b hb] at hfree
  cases hfree

theorem request_granted {bs : List Block} {h' : Heap} (hshape : Shape start s.heap bs)
    (hused : ∀ b ∈ bs, b.free = false) (hpos : 0 < q.size.toNat)
    (hyes : sbrk q.granted (q.size + BitVec.ofNat 64 metaSize).toInt s.heap =
      (s.heap.programBreak, h')) :
    ∃ h'', request s q = some ⟨h'', s.returned ++ [(s.heap.programBreak, q.size.toNat)]⟩ ∧
      h''.programBreak = h'.programBreak := by
  rw [request, myMalloc_unfit q.granted hshape hpos (Handed.unfit hused q.size),
    allocateSpace_granted hshape.bounded hyes]
  have hne : s.heap.programBreak + metaSize ≠ 0 := by simp only [metaSize]; omega
  simp only [if_neg hshape.break_pos, Option.map_some, if_neg hne, Nat.add_sub_cancel]
  refine ⟨_, rfl, ?_⟩
  split <;> simp only [enterBlock_programBreak]

theorem request_refused {bs : List Block} (hshape : Shape start s.heap bs)
    (hused : ∀ b ∈ bs, b.free = false) (hpos : 0 < q.size.toNat)
    (hno : sbrk q.granted (q.size + BitVec.ofNat 64 metaSize).toInt s.heap =
      (noAddress, s.heap)) : request s q = some s := by
  rw [request, myMalloc_unfit q.granted hshape hpos (Handed.unfit hused q.size),
    allocateSpace_refused hshape.bounded hno]
  rfl

theorem wrapped_request (hs : Handed start s) (hsize : 2 ^ 63 ≤ q.size.toNat + metaSize) :
    (sbrk q.granted (q.size + BitVec.ofNat 64 metaSize).toInt s.heap = (noAddress, s.heap) ∧
        request s q = some s) ∨
      ∃ t, (sbrk q.granted (q.size + BitVec.ofNat 64 metaSize).toInt s.heap).1 ≠ noAddress ∧
        request s q = some t ∧ ¬ (s.heap.programBreak ≤ t.heap.programBreak ∧ Separate t) := by
  obtain ⟨bs, hshape, hused, hret⟩ := hs
  have hpos : 0 < q.size.toNat := by simp only [metaSize] at hsize; omega
  rcases sbrk_cases q.granted (q.size + BitVec.ofNat 64 metaSize).toInt s.heap with
    hfail | ⟨hge, hok⟩
  · exact Or.inl ⟨hfail, request_refused hshape hused hpos hfail⟩
  · obtain ⟨h', hrun, hbreak⟩ := request_granted hshape hused hpos hok
    refine Or.inr ⟨_, ?_, hrun, ?_⟩
    · rw [hok]
      exact Nat.ne_of_lt hshape.bounded
    · rintro ⟨hle, _, hbelow⟩
      -- below 2^64 the break went down; above, the block ends far behind it
      have hend := hbelow _ (List.mem_append_right _ List.mem_cons_self)
      have hlt := q.size.isLt
      rw [request_wraps hsize] at hge hbreak
      simp only [hbreak] at hle hend
      omega

theorem modest_request (hs : Handed start s) (hsize : q.size.toNat + metaSize < 2 ^ 63) :
    ∃ t, request s q = some t ∧ s.heap.programBreak ≤ t.heap.programBreak ∧ Handed start t := by
  obtain ⟨bs, hshape, hused, hret⟩ := hs
  by_cases hzero : q.size.toNat ≤ 0
  · refine ⟨s, ?_, le_rfl, bs, hshape, hused, hret⟩
    rw [request, myMalloc, if_pos hzero]
    rfl
  · obtain ⟨r, h', bs', hrun, hv⟩ := myMalloc_serves q.granted hshape (by omega) hsize
    refine ⟨_, by rw [request, hrun]; rfl, ?_⟩
    cases hv with
    | @reuse xs b ys hbs _ hfit _ =>
      subst hbs
      exact absurd hfit (Handed.unfit hused q.size b (by simp))
    | append _ _ hbreak hshape' =>
      have hpayload : (newest s.heap q.size).payload = s.heap.programBreak + metaSize := rfl
      have hne : s.heap.programBreak + metaSize ≠ 0 := by simp only [metaSize]; omega
      simp only [hpayload, if_neg hne, Nat.add_sub_cancel]
      refine ⟨?_, bs ++ [newest s.heap q.size], hshape', ?_, ?_⟩
      · rw [hbreak]
        simp only [newest, Block.stop]
        omega
      · intro b hb
        rcases List.mem_append.mp hb with hb | hb
        · exact hused b hb
        · rw [List.mem_singleton.mp hb]
          rfl
      · rw [List.map_append, hret]
        rfl
    | refuse _ _ =>
      simp only [if_true]
      exact ⟨le_rfl, bs, hshape, hused, hret⟩

theorem handed_step (hs : Handed start s) (hq : 2 ^ 63 ≤ q.size.toNat + metaSize →
      (sbrk q.granted (q.size + BitVec.ofNat 64 metaSize).toInt s.heap).1 = noAddress) :
    ∃ t, request s q = some t ∧ s.heap.programBreak ≤ t.heap.programBreak ∧ Handed start t := by
  by_cases hsize : 2 ^ 63 ≤ q.size.toNat + metaSize
  · rcases wrapped_request hs hsize with ⟨_, hrun⟩ | ⟨t, hok, _⟩
    · exact ⟨s, hrun, le_rfl, hs⟩
    · exact absurd (hq hsize) hok
  · exact modest_request hs (not_le.mp hsize)

end Requests

/-- Induction on the requests: as long as none has wrapped around, the next one keeps the
heap in order exactly when it does not wrap around either. -/
theorem sound_iff_of_handed {start : ℕ} (qs : List Request) {s : Ledger} (hs : Handed start s) :
    Sound s qs ↔ Restrained s qs := by
  induction qs generalizing s with
  | nil => exact Iff.rfl
  | cons q qs ih =>
    constructor
    · rintro ⟨t, hrun, hle, hsep, hrest⟩
      have hq : 2 ^ 63 ≤ q.size.toNat + metaSize →
          (sbrk q.granted (q.size + BitVec.ofNat 64 metaSize).toInt s.heap).1 = noAddress := by
        intro hsize
        rcases wrapped_request hs hsize with ⟨hno, _⟩ | ⟨t', _, hrun', hbad⟩
        · rw [hno]
        · cases hrun.symm.trans hrun'
          exact absurd ⟨hle, hsep⟩ hbad
      refine ⟨hq, ?_⟩
      intro t' hrun'
      obtain ⟨u, hu, _, hhanded⟩ := handed_step hs hq
      cases hrun'.symm.trans hu
      cases hrun.symm.trans hu
      exact (ih hhanded).mp hrest
    · rintro ⟨hq, hrest⟩
      obtain ⟨t, hrun, hle, hhanded⟩ := handed_step hs hq
      exact ⟨t, hrun, hle, hhanded.separate, (ih hhanded).mpr (hrest t hrun)⟩

/-- From the empty heap: the break never goes down and what is returned is disjoint and below
the break, for exactly the histories in which the kernel refuses every request of at least
2^63 bytes with its header. -/
theorem sound_iff_restrained (start : ℕ) (hstart : 0 < start) (hbound : start < noAddress)
    (qs : List Request) : Sound (opening start) qs ↔ Restrained (opening start) qs :=
  sound_iff_of_handed qs ⟨[], shape_empty hstart hbound, by simp, rfl⟩

theorem small_requests_sound : Sound (opening 4096) [⟨64, true⟩, ⟨16, false⟩, ⟨8, true⟩] := by
  apply (sound_iff_restrained 4096 (by decide) (by decide) _).mpr
  refine ⟨fun h => absurd h (by decide), fun _ _ => ?_⟩
  refine ⟨fun h => absurd h (by decide), fun _ _ => ?_⟩
  exact ⟨fun h => absurd h (by decide), fun _ _ => trivial⟩

/-- The second request reads as minus 64: the break goes back into the first block, and the
third block is laid over it. -/
def lowering : List Request := [⟨64, true⟩, ⟨BitVec.ofNat 64 (2 ^ 64 - 96), true⟩, ⟨8, true⟩]

theorem lowering_overlaps :
    (follow request (opening 4096) (lowering.take 1)).map (fun s => s.heap.programBreak) =
      some 4192 ∧
    (follow request (opening 4096) (lowering.take 2)).map (fun s => s.heap.programBreak) =
      some 4128 ∧
    (follow request (opening 4096) lowering).map Ledger.returned =
      some [(4096, 64), (4192, 2 ^ 64 - 96), (4128, 8)] ∧
    ¬ Sound (opening 4096) lowering := by
  have hfirst : (follow request (opening 4096) (lowering.take 1)).map
      (fun s => s.heap.programBreak) = some 4192 := by decide +kernel
  have hsecond : (follow request (opening 4096) (lowering.take 2)).map
      (fun s => s.heap.programBreak) = some 4128 := by decide +kernel
  refine ⟨hfirst, hsecond, by decide +kernel, ?_⟩
  rintro ⟨s, hs, _, _, t, ht, hle, _⟩
  simp only [lowering, List.take, follow, hs, ht, Option.bind_some, Option.map_some,
    Option.some.injEq] at hfirst hsecond
  omega

end MallocSizeLimits
