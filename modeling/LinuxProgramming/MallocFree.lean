import LinuxProgramming.MallocSizeLimits

/-! `free` goes one byte back from the payload where it should go one header back. It never
reaches the flag of the block; what it hits instead depends on the sizes. -/
namespace MallocFree

open ByteMemory MallocAndFree MallocFirstFit MallocSizeLimits TransitionSystems

/-- What `free` is meant to do: set the flag of the block that the pointer belongs to. -/
def markFree (ptr : ℕ) (h : Heap) : Heap :=
  if ptr = 0 then h else h.setFree (ptr - metaSize) true

/-- The flag of the block is set and no other byte changes, so that the block serves a next
request that it has room for. -/
def FreeWorks (h : Heap) (ptr : ℕ) : Prop :=
  free ptr h = markFree ptr h ∧
    (ptr ≠ 0 → ∀ granted size r h', 0 < size.toNat → size.toNat ≤ h.size (ptr - metaSize) →
      myMalloc granted size (free ptr h) = some (r, h') → h'.programBreak = h.programBreak)

def Returned (s : Ledger) (ptr : ℕ) : Prop :=
  ptr = 0 ∨ ∃ x ∈ s.returned, ptr = x.1 + metaSize

theorem setByte_eq_iff {m : Memory} {a b : ℕ} (hne : a ≠ b) (v : UInt8) :
    setByte m a v = setByte m b v ↔ m a = v ∧ m b = v := by
  constructor
  · intro heq
    have ha := congrFun heq a
    have hb := congrFun heq b
    rw [setByte_self, setByte_other hne] at ha
    rw [setByte_self, setByte_other (Ne.symm hne)] at hb
    exact ⟨ha.symm, hb⟩
  · rintro ⟨ha, hb⟩
    funext c
    by_cases hca : c = a
    · rw [hca, setByte_self, setByte_other hne, ha]
    · by_cases hcb : c = b
      · rw [hcb, setByte_self, setByte_other (Ne.symm hne), hb]
      · rw [setByte_other hca, setByte_other hcb]

theorem free_eq_iff (h : Heap) (block : ℕ) :
    free (block + metaSize) h = markFree (block + metaSize) h ↔
      h.memory (block + metaSize + 7) = 1 ∧ h.memory (block + 8) = 1 := by
  have hne : block + metaSize ≠ 0 := by simp only [metaSize]; omega
  have hbyte : block + metaSize - 1 + 8 = block + metaSize + 7 := by simp only [metaSize]; omega
  rw [free, markFree, if_neg hne, if_neg hne, Nat.add_sub_cancel]
  simp only [Heap.setFree, if_true, hbyte, Heap.mk.injEq, and_self, and_true]
  apply setByte_eq_iff
  simp only [metaSize]
  omega

theorem free_hits {start : ℕ} {h : Heap} {xs ys : List Block} {b : Block}
    (hs : Shape start h (xs ++ b :: ys)) :
    (8 ≤ b.size → b.payload ≤ b.payload + 7 ∧ b.payload + 7 < b.stop) ∧
    (b.size < 8 → ∀ c zs, ys = c :: zs → c.addr ≤ b.payload + 7 ∧ b.payload + 7 < c.addr + 8) ∧
    (b.size < 8 → ys = [] → h.programBreak ≤ b.payload + 7) := by
  obtain ⟨mid, _, _, hys⟩ := contiguous_append.mp hs.contiguous
  simp only [Block.payload, Block.stop]
  refine ⟨fun _ => by omega, ?_, ?_⟩
  · rintro hsmall c zs rfl
    have hc : c.addr = b.stop := hys.1
    have hfits := (contiguous_bounds hs.contiguous (b := b) (by simp)).2
    simp only [Block.stop] at hc hfits
    omega
  · rintro hsmall rfl
    have hend : b.stop = h.programBreak := hys
    simp only [Block.stop] at hend
    omega

theorem handed_run {start : ℕ} {qs : List Request} {s t : Ledger} (hs : Handed start s)
    (hq : Restrained s qs) (hrun : follow request s qs = some t) : Handed start t := by
  induction qs generalizing s with
  | nil =>
    cases hrun
    exact hs
  | cons q qs ih =>
    obtain ⟨u, hu, hrest⟩ := Option.bind_eq_some_iff.mp hrun
    obtain ⟨u', hu', _, hhanded⟩ := handed_step hs hq.1
    cases hu.symm.trans hu'
    exact ih hhanded (hq.2 u hu) hrest

theorem flag_clear {start : ℕ} {s : Ledger} (hs : Handed start s) {x : ℕ × ℕ}
    (hx : x ∈ s.returned) : s.heap.memory (x.1 + 8) = 0 := by
  obtain ⟨bs, hshape, hused, hret⟩ := hs
  rw [← hret] at hx
  obtain ⟨b, hb, rfl⟩ := List.mem_map.mp hx
  obtain ⟨xs, ys, rfl⟩ := List.append_of_mem hb
  obtain ⟨last, hlist⟩ := hshape.listed
  obtain ⟨q, r, _, _, _, _, hfree, _⟩ := segment_append.mp hlist
  rw [hused b hb] at hfree
  simpa [Heap.free, Block.extent] using hfree

/-- After any requests, `free` of a pointer that was returned does what it should for `NULL`,
and else only where both bytes hold a one already. That takes a request that wrapped around:
without one it works for `NULL` alone. -/
theorem free_works_iff_null (start : ℕ) (hstart : 0 < start) (hbound : start < noAddress)
    (qs : List Request) (s : Ledger) (hrun : follow request (opening start) qs = some s)
    (ptr : ℕ) (hp : Returned s ptr) :
    (free ptr s.heap = markFree ptr s.heap ↔
      ptr = 0 ∨ (s.heap.memory (ptr + 7) = 1 ∧ s.heap.memory (ptr - 24) = 1)) ∧
    (Restrained (opening start) qs → (FreeWorks s.heap ptr ↔ ptr = 0)) := by
  have hnull : free 0 s.heap = markFree 0 s.heap := rfl
  rcases hp with rfl | ⟨x, hx, rfl⟩
  · refine ⟨⟨fun _ => Or.inl rfl, fun _ => hnull⟩, ?_⟩
    intro _
    exact ⟨fun _ => rfl, fun _ => ⟨hnull, fun h => absurd rfl h⟩⟩
  · have hne : x.1 + metaSize ≠ 0 := by simp only [metaSize]; omega
    have hflag : x.1 + metaSize - 24 = x.1 + 8 := by simp only [metaSize]; omega
    constructor
    · rw [free_eq_iff, hflag]
      exact ⟨Or.inr, fun h => h.resolve_left hne⟩
    · intro hq
      refine ⟨?_, fun h => absurd h hne⟩
      rintro ⟨hfree, _⟩
      have hhanded := handed_run ⟨[], shape_empty hstart hbound, by simp, rfl⟩ hq hrun
      have hclear := flag_clear hhanded hx
      rw [free_eq_iff, hclear] at hfree
      exact absurd hfree.2 (by decide)

/-- Two blocks and a refused request: `free` fails for the first block and works for the `NULL`
of the refusal. -/
theorem free_after_requests : ∃ s,
    follow request (opening 4096) [⟨16, true⟩, ⟨4, true⟩, ⟨8, false⟩] = some s ∧
      s.returned = [(4096, 16), (4144, 4)] ∧ ¬ FreeWorks s.heap 4128 ∧ FreeWorks s.heap 0 := by
  have hreturned : (follow request (opening 4096) [⟨16, true⟩, ⟨4, true⟩, ⟨8, false⟩]).map
      Ledger.returned = some [(4096, 16), (4144, 4)] := by decide +kernel
  obtain ⟨s, hrun, hs⟩ := Option.map_eq_some_iff.mp hreturned
  have hq : Restrained (opening 4096) [⟨16, true⟩, ⟨4, true⟩, ⟨8, false⟩] := by
    refine ⟨fun h => absurd h (by decide), fun _ _ => ?_⟩
    refine ⟨fun h => absurd h (by decide), fun _ _ => ?_⟩
    exact ⟨fun h => absurd h (by decide), fun _ _ => trivial⟩
  have hfirst : Returned s 4128 := Or.inr ⟨(4096, 16), by simp [hs], rfl⟩
  have hiff : ∀ ptr, Returned s ptr → (FreeWorks s.heap ptr ↔ ptr = 0) := fun ptr hp =>
    (free_works_iff_null 4096 (by decide) (by decide) _ s hrun ptr hp).2 hq
  refine ⟨s, hrun, hs, ?_, (hiff 0 (Or.inl rfl)).mpr rfl⟩
  rw [hiff 4128 hfirst]
  decide

/-- A large block: the flag stays clear, a byte of the payload is overwritten, and the same
request again moves the break. A small one: the size of the block behind it changes. -/
theorem free_misses_flag :
    (follow request (opening 4096) [⟨16, true⟩]).map (fun s =>
        (s.returned, (free 4128 s.heap).free 4096, (free 4128 s.heap).memory 4135,
          (myMalloc true 16 (free 4128 s.heap)).map fun p => p.2.programBreak)) =
      some ([(4096, 16)], false, 1, some 4192) ∧
    (follow request (opening 4096) [⟨4, true⟩, ⟨16, true⟩]).map (fun s =>
        (s.returned, s.heap.size 4132, (free 4128 s.heap).size 4132)) =
      some ([(4096, 4), (4132, 16)], 16, 16 + 2 ^ 24) := by
  constructor <;> decide +kernel

end MallocFree
