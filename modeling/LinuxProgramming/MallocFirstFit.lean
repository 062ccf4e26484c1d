import LinuxProgramming.MallocAndFree
import LinuxProgramming.TransitionSystems

/-! The block list of the allocator. The blocks lie one behind the other from the first break
to the present one, the list links them in that order in both directions, and each request
gets the first block that fits. -/
namespace MallocFirstFit

open ByteMemory MallocAndFree TransitionSystems

structure Block where
  addr : ℕ
  size : ℕ
  free : Bool
  deriving DecidableEq

namespace Block

def payload (b : Block) : ℕ := b.addr + metaSize

def stop (b : Block) : ℕ := b.addr + metaSize + b.size

end Block

/-- The blocks met from `p` on, where `prev` is the block before them; they lead to the block
at `p'` with `prev'` as the last one. -/
def Segment (h : Heap) : ℕ → ℕ → List Block → ℕ → ℕ → Prop
  | prev, p, [], prev', p' => prev = prev' ∧ p = p'
  | prev, p, b :: bs, prev', p' =>
    p = b.addr ∧ b.addr ≠ 0 ∧ h.size b.addr = b.size ∧ h.free b.addr = b.free ∧
      h.prevBlock b.addr = prev ∧ Segment h b.addr (h.nextBlock b.addr) bs prev' p'

/-- Each block starts where the one before it ends. -/
def Contiguous : ℕ → List Block → ℕ → Prop
  | start, [], stop => start = stop
  | start, b :: bs, stop => b.addr = start ∧ Contiguous b.stop bs stop

/-- The blocks of the heap: the list from `HEAD_BLOCK_META` to `NULL`, without gaps from the
first break to the present one, and zeros behind it. -/
structure Shape (start : ℕ) (h : Heap) (bs : List Block) : Prop where
  listed : ∃ last, Segment h 0 h.headBlockMeta bs last 0
  contiguous : Contiguous start bs h.programBreak
  zeroed : ∀ a, h.programBreak ≤ a → h.memory a = 0
  start_pos : 0 < start
  bounded : h.programBreak < noAddress

section Layout

variable {start stop : ℕ} {bs xs ys : List Block} {b : Block}

theorem contiguous_append : Contiguous start (xs ++ ys) stop ↔
    ∃ mid, Contiguous start xs mid ∧ Contiguous mid ys stop := by
  induction xs generalizing start with
  | nil => simp [Contiguous]
  | cons x xs ih => simp [Contiguous, ih, and_assoc]

theorem contiguous_length (hc : Contiguous start bs stop) : start + bs.length ≤ stop := by
  induction bs generalizing start with
  | nil => exact le_of_eq hc
  | cons b bs ih =>
    obtain ⟨rfl, hrest⟩ := hc
    have hle := ih hrest
    simp only [Block.stop, metaSize] at hle
    simp only [List.length_cons]
    omega

theorem contiguous_bounds (hc : Contiguous start bs stop) (hb : b ∈ bs) :
    start ≤ b.addr ∧ b.stop ≤ stop := by
  induction bs generalizing start with
  | nil => cases hb
  | cons x xs ih =>
    obtain ⟨rfl, hrest⟩ := hc
    have hle := contiguous_length hrest
    rcases List.mem_cons.mp hb with rfl | hb
    · exact ⟨le_rfl, by omega⟩
    · obtain ⟨hlo, hhi⟩ := ih hrest hb
      simp only [Block.stop] at hlo
      exact ⟨by omega, hhi⟩

theorem contiguous_ordered (hc : Contiguous start bs stop) :
    bs.Pairwise fun b c => b.stop ≤ c.addr := by
  induction bs generalizing start with
  | nil => exact List.Pairwise.nil
  | cons b bs ih =>
    refine List.Pairwise.cons ?_ (ih hc.2)
    intro c hmem
    exact (contiguous_bounds hc.2 hmem).1

end Layout

section Fields

variable {h h' : Heap} {p : ℕ}

theorem fields_congr (hs : SameBytes h.memory h'.memory metaSize p) :
    h'.size p = h.size p ∧ h'.free p = h.free p ∧ h'.nextBlock p = h.nextBlock p ∧
      h'.prevBlock p = h.prevBlock p := by
  refine ⟨?_, ?_, ?_, ?_⟩
  · exact loadNat_congr (hs.within (by omega) (by simp [metaSize]))
  · have hbyte := hs (p + 8) (by omega) (by simp [metaSize])
    simp only [Heap.free, hbyte]
  · exact loadNat_congr (hs.within (by omega) (by simp [metaSize]))
  · exact loadNat_congr (hs.within (by omega) (by simp [metaSize]))

theorem segment_congr {bs : List Block} {prev prev' p' : ℕ}
    (hsame : ∀ b ∈ bs, SameBytes h.memory h'.memory metaSize b.addr)
    (hg : Segment h prev p bs prev' p') : Segment h' prev p bs prev' p' := by
  induction bs generalizing prev p with
  | nil => exact hg
  | cons b bs ih =>
    obtain ⟨hp, hne, hsize, hfree, hprev, hrest⟩ := hg
    obtain ⟨esize, efree, enext, eprev⟩ := fields_congr (hsame b List.mem_cons_self)
    refine ⟨hp, hne, esize.trans hsize, efree.trans hfree, eprev.trans hprev, ?_⟩
    rw [enext]
    exact ih (fun c hc => hsame c (List.mem_cons_of_mem b hc)) hrest

theorem segment_append {xs ys : List Block} {prev prev' p' : ℕ} :
    Segment h prev p (xs ++ ys) prev' p' ↔
      ∃ q r, Segment h prev p xs q r ∧ Segment h q r ys prev' p' := by
  induction xs generalizing prev p with
  | nil => simp [Segment]
  | cons b xs ih => simp [Segment, ih, and_assoc]

theorem segment_last {xs : List Block} {b : Block} {prev prev' p' : ℕ}
    (hg : Segment h prev p (xs ++ [b]) prev' p') : prev' = b.addr := by
  obtain ⟨q, r, _, hb⟩ := segment_append.mp hg
  exact hb.2.2.2.2.2.1.symm

end Fields

/-- The flag of one block is its own: no other header has that byte. -/
theorem Shape.setFree {start : ℕ} {h : Heap} {xs ys : List Block} {b : Block}
    (hs : Shape start h (xs ++ b :: ys)) (v : Bool) :
    Shape start (h.setFree b.addr v) (xs ++ { b with free := v } :: ys) := by
  obtain ⟨mid, hxs, rfl, hys⟩ := contiguous_append.mp hs.contiguous
  obtain ⟨last, hlist⟩ := hs.listed
  obtain ⟨q, r, hgx, hr, hne, hsize, hfree, hprev, hgy⟩ := segment_append.mp hlist
  have hstop := (contiguous_bounds hs.contiguous (b := b) (by simp)).2
  have before : ∀ x ∈ xs, SameBytes h.memory (h.setFree b.addr v).memory metaSize x.addr := by
    intro x hx
    apply sameBytes_setByte
    have hle := (contiguous_bounds hxs hx).2
    simp only [Block.stop] at hle
    omega
  have behind : ∀ y ∈ ys, SameBytes h.memory (h.setFree b.addr v).memory metaSize y.addr := by
    intro y hy
    apply sameBytes_setByte
    have hle := (contiguous_bounds hys hy).1
    simp only [Block.stop, metaSize] at hle
    omega
  have own : ∀ k, b.addr + 8 < k ∨ k + 8 ≤ b.addr + 8 →
      loadNat (h.setFree b.addr v).memory 8 k = loadNat h.memory 8 k := by
    intro k hk
    apply loadNat_congr
    apply sameBytes_setByte
    omega
  refine ⟨⟨last, ?_⟩, ?_, ?_, hs.start_pos, hs.bounded⟩
  · refine segment_append.mpr ⟨q, r, segment_congr before hgx, hr, hne, ?_, ?_, ?_, ?_⟩
    · exact (own b.addr (by omega)).trans hsize
    · simp only [Heap.free, Heap.setFree, setByte_self]
      cases v <;> rfl
    · exact (own (b.addr + 24) (by omega)).trans hprev
    · have hnext : (h.setFree b.addr v).nextBlock b.addr = h.nextBlock b.addr :=
        own (b.addr + 16) (by omega)
      rw [hnext]
      exact segment_congr behind hgy
  · exact contiguous_append.mpr ⟨b.addr, hxs, rfl, hys⟩
  · intro a ha
    have hle : h.programBreak ≤ a := ha
    simp only [Block.stop, metaSize] at hstop
    exact (setByte_other (by omega) _ _).trans (hs.zeroed a hle)

def Fits (size : Size) (b : Block) : Prop := b.free = true ∧ size.toNat ≤ b.size

instance (size : Size) (b : Block) : Decidable (Fits size b) :=
  inferInstanceAs (Decidable (_ ∧ _))

section Search

variable {h : Heap} {size : Size} {p prev prev' p' : ℕ} {b : Block} {bs : List Block}

theorem searchFrom_pass (hg : Segment h prev p (b :: bs) prev' p') (hb : ¬ Fits size b)
    (fuel head : ℕ) : searchFrom h size (fuel + 1) p head =
      searchFrom h size fuel (h.nextBlock b.addr) b.addr := by
  obtain ⟨rfl, hne, hsize, hfree, _, _⟩ := hg
  have hno : ¬ (h.free b.addr = true ∧ size.toNat ≤ h.size b.addr) := by
    rw [hfree, hsize]
    exact hb
  rw [searchFrom, if_neg hne, if_neg hno]

theorem searchFrom_hit (hg : Segment h prev p (b :: bs) prev' p') (hb : Fits size b)
    (fuel head : ℕ) : searchFrom h size (fuel + 1) p head = some (b.addr, head) := by
  obtain ⟨rfl, hne, hsize, hfree, _, _⟩ := hg
  have hyes : h.free b.addr = true ∧ size.toNat ≤ h.size b.addr := by
    rw [hfree, hsize]
    exact hb
  rw [searchFrom, if_neg hne, if_pos hyes]

/-- The out-parameter follows one block behind the search. -/
theorem searchFrom_segment (hg : Segment h prev p bs prev' p') (hno : ∀ b ∈ bs, ¬ Fits size b)
    (fuel : ℕ) : searchFrom h size (fuel + bs.length) p prev = searchFrom h size fuel p' prev' := by
  induction bs generalizing prev p with
  | nil =>
    obtain ⟨rfl, rfl⟩ := hg
    rfl
  | cons b bs ih =>
    have hrest := hg.2.2.2.2.2
    rw [List.length_cons, ← Nat.add_assoc, searchFrom_pass hg (hno b List.mem_cons_self)]
    exact ih hrest (fun c hc => hno c (List.mem_cons_of_mem b hc))

theorem searchFrom_head (hno : bs ≠ []) (hg : Segment h prev p bs prev' p')
    (hfit : ∀ b ∈ bs, ¬ Fits size b) (fuel head : ℕ) :
    searchFrom h size (fuel + bs.length) p head = searchFrom h size fuel p' prev' := by
  cases bs with
  | nil => exact absurd rfl hno
  | cons b bs =>
    have hb := hfit b List.mem_cons_self
    rw [← searchFrom_segment hg hfit, List.length_cons, ← Nat.add_assoc,
      searchFrom_pass hg hb, searchFrom_pass hg hb]

theorem Shape.length_le {start : ℕ} (hs : Shape start h bs) : bs.length ≤ 2 ^ 64 := by
  have hlen := contiguous_length hs.contiguous
  have hb := hs.bounded
  simp only [noAddress] at hb
  omega

theorem search_none {start : ℕ} (hs : Shape start h (bs ++ [b]))
    (hno : ∀ c ∈ bs ++ [b], ¬ Fits size c) (head : ℕ) :
    searchFreeSpace h size head = some (0, b.addr) := by
  obtain ⟨last, hg⟩ := hs.listed
  have hlast := segment_last hg
  have hlen := hs.length_le
  obtain ⟨fuel, hfuel⟩ : ∃ fuel, 2 ^ 64 + 1 = fuel + 1 + (bs ++ [b]).length :=
    ⟨2 ^ 64 - (bs ++ [b]).length, by omega⟩
  rw [searchFreeSpace, hfuel, searchFrom_head (by simp) hg hno, searchFrom, if_pos rfl, hlast]

theorem search_first {start : ℕ} {xs ys : List Block} (hs : Shape start h (xs ++ b :: ys))
    (hno : ∀ c ∈ xs, ¬ Fits size c) (hb : Fits size b) (head : ℕ) :
    ∃ out, searchFreeSpace h size head = some (b.addr, out) := by
  obtain ⟨last, hg⟩ := hs.listed
  obtain ⟨q, r, hgx, hgb⟩ := segment_append.mp hg
  have hlen := hs.length_le
  simp only [List.length_append, List.length_cons] at hlen
  obtain ⟨fuel, hfuel⟩ : ∃ fuel, 2 ^ 64 + 1 = fuel + 1 + xs.length :=
    ⟨2 ^ 64 - xs.length, by omega⟩
  by_cases hxs : xs = []
  · subst hxs
    obtain ⟨_, hr⟩ := hgx
    refine ⟨head, ?_⟩
    rw [searchFreeSpace, hr]
    exact searchFrom_hit hgb hb (2 ^ 64) head
  · refine ⟨q, ?_⟩
    rw [searchFreeSpace, hfuel, searchFrom_head hxs hgx hno]
    exact searchFrom_hit hgb hb fuel q

end Search

section Append

variable {h : Heap} {last new : ℕ} {size : Size}

theorem enterBlock_memory (hl : last ≠ 0) : (enterBlock last new size h).memory =
    storeNat (storeNat (storeNat (storeNat h.memory 8 (last + 16) new) 8 (new + 24) last)
      8 new size.toNat) 8 (new + 16) 0 := by
  simp only [enterBlock, ne_eq, hl, not_false_eq_true, if_true]
  rfl

/-- The writes that enter a block stay in its header and in the link of the last block. -/
theorem enterBlock_same (h : Heap) (last new : ℕ) (size : Size) {n a : ℕ}
    (hnew : a + n ≤ new ∨ new + metaSize ≤ a)
    (hlast : last = 0 ∨ a + n ≤ last + 16 ∨ last + 24 ≤ a) :
    SameBytes h.memory (enterBlock last new size h).memory n a := by
  have own : ∀ m : Memory, SameBytes m
      (storeNat (storeNat m 8 new size.toNat) 8 (new + 16) 0) n a := by
    intro m
    simp only [metaSize] at hnew
    apply (sameBytes_storeNat _ _).trans (sameBytes_storeNat _ _) <;> omega
  by_cases hz : last = 0
  · simp only [enterBlock, hz, ne_eq, not_true_eq_false, if_false]
    exact own h.memory
  · have hlast := hlast.resolve_left hz
    rw [enterBlock_memory hz]
    refine SameBytes.trans ?_ (own _)
    simp only [metaSize] at hnew
    apply (sameBytes_storeNat _ _).trans (sameBytes_storeNat _ _) <;> omega

/-- The new header. Its flag and, without a last block, its back link keep the zeros that
memory behind the break holds. -/
theorem enterBlock_new (h : Heap) (last new : ℕ) (size : Size)
    (hlast : last = 0 ∨ last + metaSize ≤ new) (hnew : new < 2 ^ 64)
    (hz : ∀ a, new ≤ a → h.memory a = 0) :
    (enterBlock last new size h).size new = size.toNat ∧
    (enterBlock last new size h).free new = false ∧
    (enterBlock last new size h).prevBlock new = last ∧
    (enterBlock last new size h).nextBlock new = 0 := by
  have hsize : size.toNat < 256 ^ 8 := size.isLt
  have upper : ∀ m : Memory,
      loadNat (storeNat (storeNat m 8 new size.toNat) 8 (new + 16) 0) 8 new = size.toNat ∧
      storeNat (storeNat m 8 new size.toNat) 8 (new + 16) 0 (new + 8) = m (new + 8) ∧
      loadNat (storeNat (storeNat m 8 new size.toNat) 8 (new + 16) 0) 8 (new + 24) =
        loadNat m 8 (new + 24) ∧
      loadNat (storeNat (storeNat m 8 new size.toNat) 8 (new + 16) 0) 8 (new + 16) = 0 := by
    intro m
    refine ⟨?_, ?_, ?_, loadNat_storeNat _ (by omega)⟩
    · rw [loadNat_congr (sameBytes_storeNat (by omega) _), loadNat_storeNat _ hsize]
    · rw [storeNat_outside (by omega), storeNat_outside (by omega)]
    · apply loadNat_congr
      apply (sameBytes_storeNat _ _).trans (sameBytes_storeNat _ _) <;> omega
  by_cases hl : last = 0
  · subst hl
    obtain ⟨hs, hf, hp, hn⟩ := upper h.memory
    refine ⟨hs, ?_, ?_, hn⟩
    · have hbyte : (enterBlock 0 new size h).memory (new + 8) = 0 := hf.trans (hz _ (by omega))
      simp [Heap.free, hbyte]
    · exact hp.trans (loadNat_zero fun b hb _ => hz b (by omega))
  · have hlast := hlast.resolve_left hl
    simp only [metaSize] at hlast
    obtain ⟨hs, hf, hp, hn⟩ :=
      upper (storeNat (storeNat h.memory 8 (last + 16) new) 8 (new + 24) last)
    rw [← enterBlock_memory hl] at hs hf hp hn
    rw [storeNat_outside (by omega), storeNat_outside (by omega), hz _ (by omega)] at hf
    refine ⟨hs, ?_, ?_, hn⟩
    · simp [Heap.free, hf]
    · exact hp.trans (loadNat_storeNat _ (by omega))

theorem enterBlock_last (h : Heap) (last new : ℕ) (size : Size) (hl : last ≠ 0)
    (hlast : last + metaSize ≤ new) (hnew : new < 2 ^ 64) :
    (enterBlock last new size h).size last = h.size last ∧
    (enterBlock last new size h).free last = h.free last ∧
    (enterBlock last new size h).prevBlock last = h.prevBlock last ∧
    (enterBlock last new size h).nextBlock last = new := by
  simp only [metaSize] at hlast
  have hbyte := enterBlock_same h last new size
    (n := 1) (a := last + 8) (by omega) (by omega) (last + 8) (by omega) (by omega)
  refine ⟨?_, by simp only [Heap.free, hbyte], ?_, ?_⟩
  · exact loadNat_congr (enterBlock_same h last new size (by omega) (by omega))
  · exact loadNat_congr (enterBlock_same h last new size (by omega) (by omega))
  · have hsame : SameBytes (storeNat h.memory 8 (last + 16) new)
        (enterBlock last new size h).memory 8 (last + 16) := by
      rw [enterBlock_memory hl]
      apply ((sameBytes_storeNat _ _).trans (sameBytes_storeNat _ _)).trans
        (sameBytes_storeNat _ _) <;> omega
    exact (loadNat_congr hsame).trans (loadNat_storeNat _ (by omega))

@[simp] theorem enterBlock_programBreak :
    (enterBlock last new size h).programBreak = h.programBreak := by
  unfold enterBlock
  split <;> rfl

@[simp] theorem enterBlock_headBlockMeta :
    (enterBlock last new size h).headBlockMeta = h.headBlockMeta := by
  unfold enterBlock
  split <;> rfl

def grown (h : Heap) (size : Size) : Heap :=
  { h with programBreak := h.programBreak + metaSize + size.toNat }

def newest (h : Heap) (size : Size) : Block := ⟨h.programBreak, size.toNat, false⟩

theorem request_toInt (hsize : size.toNat + metaSize < 2 ^ 63) :
    (size + BitVec.ofNat 64 metaSize).toInt = (size.toNat + metaSize : ℕ) := by
  have hnat : (size + BitVec.ofNat 64 metaSize).toNat = size.toNat + metaSize := by
    simp only [metaSize, BitVec.toNat_add, BitVec.toNat_ofNat] at hsize ⊢
    omega
  rw [BitVec.toInt_eq_toNat_of_lt (by omega), hnat]

theorem sbrk_modest (granted : Bool) : sbrk granted (size.toNat + metaSize : ℕ) h =
    if granted = true ∧ (newest h size).stop < noAddress then (h.programBreak, grown h size)
    else (noAddress, h) := by
  have hmoved : (h.programBreak : Int) + (size.toNat + metaSize : ℕ) =
      ((newest h size).stop : ℕ) := by
    simp only [newest, Block.stop]
    omega
  have hiff : (granted = true ∧ (0 : Int) ≤ ((newest h size).stop : ℕ) ∧
      (((newest h size).stop : ℕ) : Int) < noAddress) ↔
      (granted = true ∧ (newest h size).stop < noAddress) := by
    apply and_congr_right
    intro _
    omega
  simp only [sbrk, hmoved, hiff]
  rfl

theorem allocateSpace_modest (granted : Bool) (hbreak : h.programBreak < noAddress)
    (hsize : size.toNat + metaSize < 2 ^ 63) : allocateSpace granted last size h =
      if granted = true ∧ (newest h size).stop < noAddress then
        (h.programBreak, enterBlock last h.programBreak size (grown h size))
      else (0, h) := by
  have hne := Nat.ne_of_lt hbreak
  rw [allocateSpace, request_toInt hsize, sbrk_modest]
  by_cases hok : granted = true ∧ (newest h size).stop < noAddress
  · simp only [if_pos hok, ne_eq, not_true_eq_false, if_false, if_neg hne]
  · simp only [if_neg hok, ne_eq, hne, not_false_eq_true, if_true]

variable {start : ℕ} {bs : List Block} {b : Block}

theorem Shape.enter_first (hs : Shape start h []) (hfit : (newest h size).stop < noAddress) :
    Shape start { enterBlock 0 h.programBreak size (grown h size) with
      headBlockMeta := h.programBreak } [newest h size] := by
  have hstart : start = h.programBreak := hs.contiguous
  have hpos := hs.start_pos
  have hb := hs.bounded
  simp only [noAddress] at hb
  obtain ⟨esize, efree, eprev, enext⟩ := enterBlock_new (grown h size) 0 h.programBreak size
    (Or.inl rfl) (by omega) hs.zeroed
  refine ⟨⟨h.programBreak, rfl, by simp only [newest]; omega, esize, efree, eprev, rfl, enext⟩,
    ⟨hstart.symm, ?_⟩, ?_, hpos, ?_⟩
  · simp only [enterBlock_programBreak]
    rfl
  · intro a ha
    have hge : (grown h size).programBreak ≤ a := by
      simpa only [enterBlock_programBreak] using ha
    simp only [grown] at hge
    have hsame := enterBlock_same (grown h size) 0 h.programBreak size
      (n := 1) (a := a) (by omega) (Or.inl rfl) a le_rfl (by omega)
    exact hsame.trans (hs.zeroed a (by omega))
  · simp only [enterBlock_programBreak]
    exact hfit

/-- The block found last during the search becomes the predecessor of the new one. -/
theorem Shape.enter_next (hs : Shape start h (bs ++ [b]))
    (hfit : (newest h size).stop < noAddress) :
    Shape start (enterBlock b.addr h.programBreak size (grown h size))
      (bs ++ [b] ++ [newest h size]) := by
  obtain ⟨mid, hbs, rfl, hstop⟩ := contiguous_append.mp hs.contiguous
  obtain ⟨last, hlist⟩ := hs.listed
  obtain ⟨q, r, hg, hr, hne, hsize, hfree, hprev, _, _⟩ := segment_append.mp hlist
  have hstop : b.addr + metaSize + b.size = h.programBreak := hstop
  have hlink : b.addr + metaSize ≤ h.programBreak := by omega
  have hb := hs.bounded
  simp only [noAddress] at hb
  obtain ⟨esize, efree, eprev, enext⟩ := enterBlock_new (grown h size) b.addr h.programBreak size
    (Or.inr hlink) (by omega) hs.zeroed
  obtain ⟨lsize, lfree, lprev, lnext⟩ := enterBlock_last (grown h size) b.addr h.programBreak size
    hne hlink (by omega)
  have before : ∀ x ∈ bs, SameBytes (grown h size).memory
      (enterBlock b.addr h.programBreak size (grown h size)).memory metaSize x.addr := by
    intro x hx
    have hle := (contiguous_bounds hbs hx).2
    simp only [Block.stop] at hle
    apply enterBlock_same <;> omega
  refine ⟨⟨h.programBreak, ?_⟩, ?_, ?_, hs.start_pos, ?_⟩
  · have hg' : Segment (grown h size) 0 h.headBlockMeta bs q r :=
      segment_congr (h := h) (fun _ _ _ _ _ => rfl) hg
    rw [enterBlock_headBlockMeta, List.append_assoc]
    refine segment_append.mpr ⟨q, r, segment_congr before hg', hr, hne, lsize.trans hsize,
      lfree.trans hfree, lprev.trans hprev, ?_⟩
    exact ⟨lnext, by simp only [newest]; omega, esize, efree, eprev, rfl, enext⟩
  · rw [enterBlock_programBreak]
    exact contiguous_append.mpr ⟨h.programBreak, hs.contiguous, rfl, rfl⟩
  · intro a ha
    have hge : (grown h size).programBreak ≤ a := by
      simpa only [enterBlock_programBreak] using ha
    simp only [grown] at hge
    have hsame := enterBlock_same (grown h size) b.addr h.programBreak size
      (n := 1) (a := a) (by omega) (by simp only [metaSize] at *; omega)
      a le_rfl (by omega)
    exact hsame.trans (hs.zeroed a (by omega))
  · rw [enterBlock_programBreak]
    exact hfit

end Append

/-- What a request does to the blocks: the first one that fits is taken into use, and only if
none does a block of the size asked for comes behind all others. A refused request changes
nothing. -/
inductive Serves (start : ℕ) (granted : Bool) (size : Size) (h : Heap) (bs : List Block) :
    ℕ → Heap → List Block → Prop where
  | reuse {xs b ys} : bs = xs ++ b :: ys → (∀ x ∈ xs, ¬ Fits size x) → Fits size b →
      Shape start (h.setFree b.addr false) (xs ++ { b with free := false } :: ys) →
      Serves start granted size h bs b.payload (h.setFree b.addr false)
        (xs ++ { b with free := false } :: ys)
  | append {h'} : (∀ b ∈ bs, ¬ Fits size b) → granted = true →
      h'.programBreak = (newest h size).stop → Shape start h' (bs ++ [newest h size]) →
      Serves start granted size h bs (newest h size).payload h' (bs ++ [newest h size])
  | refuse : (∀ b ∈ bs, ¬ Fits size b) →
      (granted = false ∨ noAddress ≤ (newest h size).stop) →
      Serves start granted size h bs 0 h bs

section Requests

variable {start : ℕ} {h : Heap} {bs : List Block} {size : Size}

theorem head_null_iff (hs : Shape start h bs) : h.headBlockMeta = 0 ↔ bs = [] := by
  obtain ⟨last, hg⟩ := hs.listed
  cases bs with
  | nil => exact ⟨fun _ => rfl, fun _ => hg.2⟩
  | cons b bs =>
    obtain ⟨hp, hne, _⟩ := hg
    rw [hp]
    simp [hne]

def lastAddr (bs : List Block) : ℕ := (bs.getLast?.map Block.addr).getD 0

theorem lastAddr_append (xs : List Block) (b : Block) : lastAddr (xs ++ [b]) = b.addr := by
  simp [lastAddr]

theorem myMalloc_unfit (granted : Bool) (hs : Shape start h bs) (hpos : 0 < size.toNat)
    (hno : ∀ b ∈ bs, ¬ Fits size b) : myMalloc granted size h =
      let (newBlock, h') := allocateSpace granted (lastAddr bs) size h
      if newBlock = 0 then some (0, h')
      else some (newBlock + metaSize, if bs = [] then { h' with headBlockMeta := newBlock }
        else h') := by
  rw [myMalloc, if_neg (by omega)]
  rcases List.eq_nil_or_concat bs with rfl | ⟨xs, b, rfl⟩
  · rw [if_pos ((head_null_iff hs).mpr rfl)]
    simp only [if_true]
    rfl
  · rw [List.concat_eq_append] at hs hno ⊢
    have hne : xs ++ [b] ≠ [] := by simp
    have hhead : h.headBlockMeta ≠ 0 := fun hz => hne ((head_null_iff hs).mp hz)
    rw [if_neg hhead, search_none hs hno, lastAddr_append]
    simp only [if_true, if_neg hne]

theorem Shape.break_pos (hs : Shape start h bs) : h.programBreak ≠ 0 := by
  have hlen := contiguous_length hs.contiguous
  have hstart := hs.start_pos
  omega

theorem Shape.enter (hs : Shape start h bs) (hfit : (newest h size).stop < noAddress) :
    let h' := enterBlock (lastAddr bs) h.programBreak size (grown h size)
    Shape start (if bs = [] then { h' with headBlockMeta := h.programBreak } else h')
      (bs ++ [newest h size]) := by
  rcases List.eq_nil_or_concat bs with rfl | ⟨xs, b, rfl⟩
  · exact hs.enter_first hfit
  · rw [List.concat_eq_append] at hs ⊢
    simp only [List.append_eq_nil_iff, List.cons_ne_self, and_false, if_false, lastAddr_append]
    exact hs.enter_next hfit

theorem myMalloc_serves (granted : Bool) (hs : Shape start h bs) (hpos : 0 < size.toNat)
    (hsize : size.toNat + metaSize < 2 ^ 63) :
    ∃ r h' bs', myMalloc granted size h = some (r, h') ∧
      Serves start granted size h bs r h' bs' := by
  cases hfind : bs.find? (fun b => decide (Fits size b)) with
  | some b =>
    obtain ⟨hb, xs, ys, rfl, hxs⟩ := List.find?_eq_some_iff_append.mp hfind
    have hfit : Fits size b := of_decide_eq_true hb
    have hno : ∀ x ∈ xs, ¬ Fits size x := fun x hx => by simpa using hxs x hx
    obtain ⟨out, hsearch⟩ := search_first hs hno hfit h.headBlockMeta
    have hhead : h.headBlockMeta ≠ 0 := fun hz => by simpa using (head_null_iff hs).mp hz
    have haddr : b.addr ≠ 0 := by
      have hlo := (contiguous_bounds hs.contiguous (b := b) (by simp)).1
      have hstart := hs.start_pos
      omega
    refine ⟨_, _, _, ?_, .reuse rfl hno hfit (hs.setFree false)⟩
    rw [myMalloc, if_neg (by omega), if_neg hhead, hsearch]
    simp only [if_neg haddr]
    rfl
  | none =>
    have hno : ∀ b ∈ bs, ¬ Fits size b := fun b hb => by
      simpa using List.find?_eq_none.mp hfind b hb
    rw [myMalloc_unfit granted hs hpos hno, allocateSpace_modest granted hs.bounded hsize]
    by_cases hok : granted = true ∧ (newest h size).stop < noAddress
    · rw [if_pos hok]
      simp only [if_neg hs.break_pos]
      refine ⟨_, _, _, rfl, .append hno hok.1 ?_ (hs.enter hok.2)⟩
      split <;> simp only [enterBlock_programBreak] <;> rfl
    · rw [if_neg hok]
      refine ⟨0, h, bs, rfl, .refuse hno ?_⟩
      cases granted with
      | false => exact Or.inl rfl
      | true => exact Or.inr (not_lt.mp fun hlt => hok ⟨rfl, hlt⟩)

end Requests

/-- The heap, and every block that `sbrk` handed out, which no step reads. -/
structure State where
  heap : Heap
  obtained : List (ℕ × ℕ)

inductive Event where
  | malloc (size : Size) (granted : Bool)
  | setFree (block : ℕ)

/-- Between the requests the flag of any block may be set, which `free` is meant to do. -/
def step (s : State) : Event → Option State
  | .malloc size granted =>
    (myMalloc granted size s.heap).map fun (_, h) =>
      ⟨h, if h.programBreak = s.heap.programBreak then s.obtained
        else s.obtained ++ [(s.heap.programBreak, size.toNat)]⟩
  | .setFree block =>
    if block ∈ s.obtained.map Prod.fst then
      some { s with heap := s.heap.setFree block true }
    else none

def Step (s : State) (e : Event) (t : State) : Prop := step s e = some t

def initial (start : ℕ) : State := ⟨empty start, []⟩

def Modest : Event → Prop
  | .malloc size _ => 0 < size.toNat ∧ size.toNat + metaSize < 2 ^ 63
  | .setFree _ => True

def Block.extent (b : Block) : ℕ × ℕ := (b.addr, b.size)

theorem Serves.shape {start : ℕ} {granted : Bool} {size : Size} {h h' : Heap}
    {bs bs' : List Block} {r : ℕ} (hv : Serves start granted size h bs r h' bs')
    (hs : Shape start h bs) : Shape start h' bs' := by
  cases hv with
  | reuse _ _ _ hs' => exact hs'
  | append _ _ _ hs' => exact hs'
  | refuse _ _ => exact hs

theorem Serves.extents {start : ℕ} {granted : Bool} {size : Size} {h h' : Heap}
    {bs bs' : List Block} {r : ℕ} (hv : Serves start granted size h bs r h' bs') :
    bs'.map Block.extent = if h'.programBreak = h.programBreak then bs.map Block.extent
      else bs.map Block.extent ++ [(h.programBreak, size.toNat)] := by
  cases hv with
  | reuse hbs _ _ _ =>
    subst hbs
    rw [if_pos (by rfl)]
    simp [Block.extent]
  | append _ _ hbreak _ =>
    have hne : h'.programBreak ≠ h.programBreak := by
      rw [hbreak]
      simp only [newest, Block.stop, metaSize]
      omega
    rw [if_neg hne]
    simp [Block.extent, newest]
  | refuse _ _ => rw [if_pos rfl]

def Recorded (start : ℕ) (s : State) : Prop :=
  ∃ bs, Shape start s.heap bs ∧ bs.map Block.extent = s.obtained

theorem recorded_step {start : ℕ} {s t : State} {e : Event} (hr : Recorded start s)
    (he : Modest e) (h : Step s e t) : Recorded start t := by
  obtain ⟨bs, hs, hrec⟩ := hr
  cases e with
  | malloc size granted =>
    obtain ⟨r, h', bs', hrun, hv⟩ := myMalloc_serves granted hs he.1 he.2
    rw [Step, step, hrun] at h
    cases h
    exact ⟨bs', hv.shape hs, by rw [hv.extents, hrec]⟩
  | setFree block =>
    rw [Step, step] at h
    split at h
    · next hmem =>
      cases h
      rw [← hrec, List.map_map] at hmem
      obtain ⟨b, hb, rfl⟩ := List.mem_map.mp hmem
      obtain ⟨xs, ys, rfl⟩ := List.append_of_mem hb
      refine ⟨_, hs.setFree true, ?_⟩
      rw [← hrec]
      simp [Block.extent]
    · cases h

theorem shape_empty {start : ℕ} (hstart : 0 < start) (hbound : start < noAddress) :
    Shape start (empty start) [] :=
  ⟨⟨0, rfl, rfl⟩, rfl, fun _ _ => rfl, hstart, hbound⟩

theorem recorded_run {start : ℕ} (hstart : 0 < start) (hbound : start < noAddress) {s : State}
    {es : List Event} (hrun : Execution Step (initial start) es s) (he : ∀ e ∈ es, Modest e) :
    Recorded start s := by
  induction hrun with
  | refl => exact ⟨[], shape_empty hstart hbound, rfl⟩
  | @tail es t e u _ hstep ih =>
    have hr := ih fun e he' => he e (List.mem_append_left _ he')
    exact recorded_step hr (he e (by simp)) hstep

theorem payloads_disjoint {start stop : ℕ} {bs : List Block} (hc : Contiguous start bs stop) :
    bs.Pairwise fun b c =>
      ∀ a, ¬ ((b.payload ≤ a ∧ a < b.stop) ∧ (c.payload ≤ a ∧ a < c.stop)) := by
  apply (contiguous_ordered hc).imp
  rintro b c hle a ⟨⟨_, hb⟩, hlo, _⟩
  simp only [Block.payload] at hlo
  omega

/-- After any history of requests, with flags set in between: the list holds all blocks that
`sbrk` handed out, in order and without gaps, the payloads do not overlap, and the next
request is served by first fit. -/
theorem first_fit_heap (start : ℕ) (hstart : 0 < start) (hbound : start < noAddress)
    (es : List Event) (s : State) (hrun : Execution Step (initial start) es s)
    (he : ∀ e ∈ es, Modest e) : ∃ bs, Shape start s.heap bs ∧
      bs.map Block.extent = s.obtained ∧
      bs.Pairwise (fun b c => b.stop ≤ c.addr) ∧
      bs.Pairwise (fun b c => b.free = false → c.free = false →
        ∀ a, ¬ ((b.payload ≤ a ∧ a < b.stop) ∧ (c.payload ≤ a ∧ a < c.stop))) ∧
      ∀ size granted, Modest (.malloc size granted) →
        ∃ r h' bs', myMalloc granted size s.heap = some (r, h') ∧
          Serves start granted size s.heap bs r h' bs' := by
  obtain ⟨bs, hs, hrec⟩ := recorded_run hstart hbound hrun he
  refine ⟨bs, hs, hrec, contiguous_ordered hs.contiguous, ?_, ?_⟩
  · apply (payloads_disjoint hs.contiguous).imp
    intro b c hdisj _ _
    exact hdisj
  · intro size granted hmod
    exact myMalloc_serves granted hs hmod.1 hmod.2

/-- Two blocks, the first one given back and taken again by a smaller request. -/
def reusing : List Event :=
  [.malloc 16 true, .malloc 24 true, .setFree 4096, .malloc 8 true, .malloc 1 true]

theorem reusing_first_fit : ∃ s, Execution Step (initial 4096) reusing s ∧
    s.obtained = [(4096, 16), (4144, 24), (4200, 1)] ∧
    ∃ bs, Shape 4096 s.heap bs ∧ bs.map Block.extent = s.obtained := by
  have hrun : (follow step (initial 4096) reusing).map State.obtained =
      some [(4096, 16), (4144, 24), (4200, 1)] := by decide +kernel
  obtain ⟨s, hs, hob⟩ := Option.map_eq_some_iff.mp hrun
  have hmod : ∀ e ∈ reusing, Modest e := by
    simp [reusing, Modest, metaSize]
  obtain ⟨bs, hshape, hrec, _⟩ := first_fit_heap 4096 (by decide) (by decide) reusing s
    (follow_execution hs) hmod
  exact ⟨s, follow_execution hs, hob, bs, hshape, hrec⟩

end MallocFirstFit
