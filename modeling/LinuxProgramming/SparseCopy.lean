import LinuxProgramming.RegularFiles

/-! The copy loop of `cp_sparse.c`. Zero bytes are only counted; the next other byte makes a
hole of that length with `lseek`. The count `nullSeqLen` is not set before the loop, and nothing
is done about a count that is left at the end. -/
namespace SparseCopy

open CharStrings RegularFiles

def bufSize : ℕ := 1024

/-- The writes are kept with their offsets, and whether an `lseek` has failed, which the program
does not look at. -/
structure Copy where
  nullSeqLen : BitVec 64
  dest : RegularFile
  writes : List (Byte × ℕ)
  seekFailed : Bool

def start (nullSeqLen : BitVec 64) : Copy := ⟨nullSeqLen, .empty, [], false⟩

def Copy.write (s : Copy) (b : Byte) : Copy :=
  { s with dest := s.dest.write [b], writes := s.writes ++ [(b, s.dest.offset)] }

/-- The length is passed as an `off_t`. -/
def Copy.seek (s : Copy) : Copy :=
  match s.dest.seekCur s.nullSeqLen.toInt with
  | some dest => { s with dest := dest }
  | none => { s with seekFailed := true }

def copyByte (s : Copy) (b : Byte) : Copy :=
  if b = 0 then { s with nullSeqLen := s.nullSeqLen + 1 }
  else if 0 < s.nullSeqLen then { s.seek.write b with nullSeqLen := 0 }
  else s.write b

def copyBuffer (s : Copy) (buf : List Byte) : Copy := buf.foldl copyByte s

def copyFile {source : List Byte} (nullSeqLen : BitVec 64) (reads : Chunking bufSize source) :
    Copy :=
  reads.chunks.foldl copyBuffer (start nullSeqLen)

theorem copyFile_eq {source : List Byte} (nullSeqLen : BitVec 64)
    (reads : Chunking bufSize source) :
    copyFile nullSeqLen reads = source.foldl copyByte (start nullSeqLen) :=
  reads.foldl_chunks copyByte (start nullSeqLen)

def stripZeros (bytes : List Byte) : List Byte := bytes.rdropWhile (· = 0)

theorem stripZeros_zero (bytes : List Byte) : stripZeros (bytes ++ [0]) = stripZeros bytes :=
  List.rdropWhile_concat_pos _ _ _ (by simp)

theorem stripZeros_nonzero {b : Byte} (bytes : List Byte) (hb : b ≠ 0) :
    stripZeros (bytes ++ [b]) = bytes ++ [b] :=
  List.rdropWhile_concat_neg _ _ _ (by simpa using hb)

theorem stripZeros_append_zeros (bytes : List Byte) : stripZeros bytes ++
    List.replicate (bytes.length - (stripZeros bytes).length) 0 = bytes :=
  stripTrailing_append_run 0 bytes

theorem stripZeros_length_le (bytes : List Byte) : (stripZeros bytes).length ≤ bytes.length :=
  (List.rdropWhile_prefix _ _).length_le

theorem stripZeros_eq_self_iff {bytes : List Byte} :
    stripZeros bytes = bytes ↔ bytes.getLast? ≠ some 0 :=
  stripTrailing_eq_self_iff

section Loop

/-- What the loop has made of these bytes, behind what it has made of the bytes before. -/
structure Copied (base : List Byte) (earlier : List (Byte × ℕ)) (bytes : List Byte) (s : Copy) :
    Prop where
  pending : s.nullSeqLen.toNat = bytes.length - (stripZeros bytes).length
  content : s.dest.content = base ++ stripZeros bytes
  offset : s.dest.offset = s.dest.content.length
  writes : s.writes = earlier ++ (bytes.zipIdx base.length).filter fun w => w.1 ≠ 0

variable {base : List Byte} {earlier : List (Byte × ℕ)} {bytes : List Byte} {s : Copy} {b : Byte}

theorem copied_zero (h : Copied base earlier bytes s) (hlen : bytes.length < 2 ^ 63) :
    Copied base earlier (bytes ++ [0]) { s with nullSeqLen := s.nullSeqLen + 1 } := by
  have hle := stripZeros_length_le bytes
  refine ⟨?_, ?_, h.offset, ?_⟩
  · have hpending := h.pending
    rw [stripZeros_zero, BitVec.toNat_add, hpending]
    simp
    omega
  · rw [stripZeros_zero]
    exact h.content
  · rw [h.writes, List.zipIdx_append]
    simp

theorem copied_write (h : Copied base earlier bytes s) (hb : b ≠ 0) {t : Copy}
    (hcontent : t.dest.content = s.dest.content)
    (hoffset : t.dest.offset = s.dest.offset + s.nullSeqLen.toNat)
    (hwrites : t.writes = s.writes) :
    Copied base earlier (bytes ++ [b]) { t.write b with nullSeqLen := 0 } := by
  have hroom : t.dest.offset - t.dest.content.length =
      bytes.length - (stripZeros bytes).length := by
    rw [hoffset, hcontent, h.offset, h.pending]
    omega
  have hwritten : (t.dest.write [b]).content = base ++ (bytes ++ [b]) := by
    rw [RegularFile.write_behind (by rw [hoffset, hcontent, h.offset]; omega) (by simp), hroom,
      hcontent, h.content, List.append_assoc base, stripZeros_append_zeros, List.append_assoc]
  have hend : t.dest.offset = base.length + bytes.length := by
    have hlen := congrArg List.length h.content
    have hle := stripZeros_length_le bytes
    rw [List.length_append] at hlen
    rw [hoffset, h.offset, h.pending]
    omega
  refine ⟨?_, ?_, ?_, ?_⟩
  · rw [stripZeros_nonzero bytes hb]
    simp
  · rw [stripZeros_nonzero bytes hb]
    exact hwritten
  · simp only [Copy.write, hwritten]
    simp [RegularFile.write, hend]
    omega
  · simp only [Copy.write, hwrites, h.writes, hend]
    rw [List.zipIdx_append, List.filter_append]
    simp [hb]

theorem seek_eq (hpending : s.nullSeqLen.toNat < 2 ^ 63) : s.seek =
    if s.dest.offset + s.nullSeqLen.toNat < 2 ^ 63 then
      { s with dest := { s.dest with offset := s.dest.offset + s.nullSeqLen.toNat } }
    else { s with seekFailed := true } := by
  have hint : s.nullSeqLen.toInt = s.nullSeqLen.toNat :=
    BitVec.toInt_eq_toNat_of_lt (by omega)
  rw [Copy.seek, hint]
  by_cases hroom : s.dest.offset + s.nullSeqLen.toNat < 2 ^ 63
  · rw [RegularFile.seekCur_forward hroom, if_pos hroom]
  · rw [RegularFile.seekCur, if_neg (by omega), if_neg hroom]

theorem copied_step (h : Copied base earlier bytes s) (hlen : bytes.length < 2 ^ 63)
    (hok : (copyByte s b).seekFailed = false) :
    Copied base earlier (bytes ++ [b]) (copyByte s b) := by
  have hpending : s.nullSeqLen.toNat < 2 ^ 63 := by
    rw [h.pending]
    omega
  unfold copyByte at hok ⊢
  split
  · next hb =>
    subst b
    exact copied_zero h hlen
  · next hb =>
    rw [if_neg hb] at hok
    split
    · next hnull =>
      rw [if_pos hnull, seek_eq hpending] at hok
      rw [seek_eq hpending]
      split
      · exact copied_write h hb rfl rfl rfl
      · next hroom =>
        rw [if_neg hroom] at hok
        cases hok
    · next hnull =>
      have hzero : s.nullSeqLen = 0 := BitVec.le_zero_iff.mp (BitVec.not_lt.mp hnull)
      have hwrite := copied_write h hb (t := s) rfl (by simp [hzero]) rfl
      rw [← hzero] at hwrite
      exact hwrite

theorem seekFailed_copyByte (hok : (copyByte s b).seekFailed = false) : s.seekFailed = false := by
  unfold copyByte at hok
  split at hok
  · exact hok
  · split at hok
    · simp only [Copy.write, Copy.seek] at hok
      split at hok
      · exact hok
      · cases hok
    · exact hok

theorem seekFailed_run (hok : (bytes.foldl copyByte s).seekFailed = false) :
    s.seekFailed = false := by
  induction bytes using List.reverseRecOn with
  | nil => exact hok
  | append_singleton bytes b ih =>
    rw [List.foldl_concat] at hok
    exact ih (seekFailed_copyByte hok)

theorem copied_run (h : Copied base earlier [] s) (hlen : bytes.length < 2 ^ 63)
    (hok : (bytes.foldl copyByte s).seekFailed = false) :
    Copied base earlier bytes (bytes.foldl copyByte s) := by
  induction bytes using List.reverseRecOn with
  | nil => exact h
  | append_singleton bytes b ih =>
    rw [List.length_append, List.length_singleton] at hlen
    rw [List.foldl_concat] at hok ⊢
    exact copied_step (ih (by omega) (seekFailed_copyByte hok)) (by omega) hok

theorem seek_ok_step (h : Copied base earlier bytes s) (hs : s.seekFailed = false)
    (hroom : base.length + bytes.length < 2 ^ 63) : (copyByte s b).seekFailed = false := by
  have hpending : s.nullSeqLen.toNat < 2 ^ 63 := by
    rw [h.pending]
    omega
  have hend : s.dest.offset + s.nullSeqLen.toNat < 2 ^ 63 := by
    have hle := stripZeros_length_le bytes
    rw [h.offset, h.content, h.pending, List.length_append]
    omega
  unfold copyByte
  split
  · exact hs
  · split
    · rw [seek_eq hpending, if_pos hend]
      exact hs
    · exact hs

theorem seek_ok_run (h : Copied base earlier [] s) (hs : s.seekFailed = false)
    (hroom : base.length + bytes.length < 2 ^ 63) :
    (bytes.foldl copyByte s).seekFailed = false := by
  induction bytes using List.reverseRecOn with
  | nil => exact hs
  | append_singleton bytes b ih =>
    rw [List.length_append, List.length_singleton] at hroom
    have hok := ih (by omega)
    rw [List.foldl_concat]
    exact seek_ok_step (copied_run h (by omega) hok) hok (by omega)

end Loop

theorem copied_start : Copied [] [] [] (start 0) :=
  ⟨by simp [start, stripZeros], by simp [start, RegularFile.empty, stripZeros], rfl, rfl⟩

theorem seek_ok (source : FileContent) (reads : Chunking bufSize source.bytes) :
    (copyFile 0 reads).seekFailed = false := by
  rw [copyFile_eq]
  exact seek_ok_run copied_start rfl (by simpa using source.size_lt)

/-- With the count starting at 0: no `lseek` fails, the writes are those of the bytes that are
not zero, in order, each at its own offset, and the file is the source without the zeros at its
end, however the reads have cut it. -/
theorem sparse_copy_exact (source : FileContent) (reads : Chunking bufSize source.bytes) :
    (copyFile 0 reads).seekFailed = false ∧
      (copyFile 0 reads).writes = source.bytes.zipIdx.filter (fun w => w.1 ≠ 0) ∧
      (copyFile 0 reads).dest.content = source.bytes.rdropWhile (· = 0) := by
  have hok := seek_ok source reads
  rw [copyFile_eq] at hok ⊢
  have hcopied := copied_run copied_start source.size_lt hok
  exact ⟨hok, by simpa using hcopied.writes, hcopied.content.trans (List.nil_append _)⟩

section Preservation

variable {source : List Byte} {b : Byte} {g : BitVec 64} {k m : ℕ}

theorem copy_zeros (g : BitVec 64) (k : ℕ) :
    (List.replicate k (0 : Byte)).foldl copyByte (start g) = start (g + BitVec.ofNat 64 k) := by
  induction k with
  | zero => simp
  | succ k ih =>
    rw [List.replicate_succ', List.foldl_concat, ih]
    simp [copyByte, start, BitVec.add_assoc, BitVec.ofNat_add]

theorem count_lt_of_seek (hok : (start g).seek.seekFailed = false) : g.toNat < 2 ^ 63 := by
  by_contra hbig
  have hint : g.toInt < 0 := by
    rw [BitVec.toInt_eq_toNat_cond]
    split <;> omega
  have hfails : (start g).dest.seekCur (start g).nullSeqLen.toInt = none := by
    apply if_neg
    simp [start, RegularFile.empty]
    omega
  have hseek : (start g).seek = { start g with seekFailed := true } := by
    simp only [Copy.seek, hfails]
  rw [hseek] at hok
  cases hok

theorem copyByte_first (hb : b ≠ 0) (hok : (copyByte (start g) b).seekFailed = false) :
    copyByte (start g) b = ⟨0, ⟨List.replicate g.toNat 0 ++ [b], g.toNat + 1⟩, [(b, g.toNat)],
      false⟩ := by
  unfold copyByte at hok ⊢
  rw [if_neg hb] at hok ⊢
  by_cases hnull : 0 < (start g).nullSeqLen
  · rw [if_pos hnull] at hok ⊢
    have hpending := count_lt_of_seek hok
    have hroom : (start g).dest.offset + (start g).nullSeqLen.toNat < 2 ^ 63 :=
      (Nat.zero_add g.toNat).trans_lt hpending
    rw [seek_eq hpending, if_pos hroom]
    simp [start, RegularFile.empty, Copy.write, RegularFile.write, RegularFile.before]
  · have hzero : g = 0 := BitVec.le_zero_iff.mp (BitVec.not_lt.mp hnull)
    simp [start, RegularFile.empty, Copy.write, RegularFile.write, RegularFile.before, hzero]

theorem copied_first (hb : b ≠ 0) (hok : (copyByte (start g) b).seekFailed = false) :
    Copied (List.replicate g.toNat 0 ++ [b]) [(b, g.toNat)] [] (copyByte (start g) b) := by
  rw [copyByte_first hb hok]
  exact ⟨by simp, by simp [stripZeros], by simp, by simp⟩

theorem leading_zeros_inj {xs ys : List Byte} (hb : b ≠ 0) :
    List.replicate m 0 ++ b :: xs = List.replicate k 0 ++ b :: ys ↔ m = k ∧ xs = ys := by
  induction m generalizing k with
  | zero =>
    cases k with
    | zero => simp
    | succ k => simp [List.replicate_succ, hb]
  | succ m ih =>
    cases k with
    | zero => simp [List.replicate_succ, Ne.symm hb]
    | succ k => simp [List.replicate_succ, ih]

theorem leading_zeros (source : List Byte) : ∃ k, source = List.replicate k 0 ∨
    ∃ b rest, b ≠ 0 ∧ source = List.replicate k 0 ++ b :: rest := by
  induction source with
  | nil => exact ⟨0, .inl rfl⟩
  | cons c source ih =>
    by_cases hc : c = 0
    · obtain ⟨k, hall | ⟨b, rest, hb, hsource⟩⟩ := ih
      · exact ⟨k + 1, .inl (by rw [hc, hall, List.replicate_succ])⟩
      · refine ⟨k + 1, .inr ⟨b, rest, hb, ?_⟩⟩
        rw [hc, hsource, List.replicate_succ, List.cons_append]
    · exact ⟨0, .inr ⟨c, source, hc, rfl⟩⟩

theorem wrapped_count_iff (hk : k < 2 ^ 63) : (g + BitVec.ofNat 64 k).toNat = k ↔ g = 0 := by
  have hcount : (BitVec.ofNat 64 k).toNat = k := by
    rw [BitVec.toNat_ofNat]
    omega
  constructor
  · intro h
    have hsame : g + BitVec.ofNat 64 k = BitVec.ofNat 64 k := by
      apply BitVec.eq_of_toNat_eq
      exact h.trans hcount.symm
    simpa using hsame
  · rintro rfl
    simpa using hcount

theorem content_with_nonzero {rest : List Byte} (hb : b ≠ 0) (hlen : rest.length < 2 ^ 63)
    (hok : ((List.replicate k 0 ++ b :: rest).foldl copyByte (start g)).seekFailed = false) :
    ((List.replicate k 0 ++ b :: rest).foldl copyByte (start g)).dest.content =
      List.replicate (g + BitVec.ofNat 64 k).toNat 0 ++ b :: stripZeros rest := by
  rw [List.foldl_append, List.foldl_cons, copy_zeros] at hok ⊢
  have hfirst := copied_first hb (seekFailed_run hok)
  rw [(copied_run hfirst hlen hok).content]
  simp

theorem last_ne_zero_iff {rest : List Byte} (hb : b ≠ 0) :
    (List.replicate k 0 ++ b :: rest).getLast? ≠ some 0 ↔ rest.getLast? ≠ some 0 := by
  rw [List.getLast?_append, List.getLast?_cons]
  cases rest.getLast? with
  | none => simp [hb]
  | some c => simp

/-- With no `lseek` failing, the copy has the bytes of the source exactly if the source is empty,
or the count started at 0 and the source does not end with a zero. -/
theorem copy_preserves_iff (source : FileContent) (reads : Chunking bufSize source.bytes)
    (hok : (copyFile g reads).seekFailed = false) :
    (copyFile g reads).dest.content = source.bytes ↔
      source.bytes = [] ∨ g = 0 ∧ source.bytes.getLast? ≠ some 0 := by
  obtain ⟨bytes, hsize⟩ := source
  rw [copyFile_eq] at hok ⊢
  simp only at hok ⊢
  obtain ⟨k, rfl | ⟨b, rest, hb, rfl⟩⟩ := leading_zeros bytes
  · rw [copy_zeros]
    cases k with
    | zero => simp [start, RegularFile.empty]
    | succ k => simp [start, RegularFile.empty, List.replicate_succ']
  · have hlen : k + (rest.length + 1) < 2 ^ 63 := by simpa using hsize
    rw [content_with_nonzero hb (by omega) hok, leading_zeros_inj hb, stripZeros_eq_self_iff,
      wrapped_count_iff (by omega), last_ne_zero_iff hb]
    simp

end Preservation

section Files

theorem bufSize_pos : 0 < bufSize := by decide

def holeMaker : RegularFile :=
  ((RegularFile.empty.write (ascii "ABCDE")).seekSet 40).write (ascii "abcde")

def fileWithHole : FileContent := ⟨holeMaker.content, by decide⟩

/-- It ends with a byte that is not zero. -/
theorem fileWithHole_preserved :
    (copyFile 0 (.atOnce bufSize_pos fileWithHole.bytes)).dest.content = fileWithHole.bytes :=
  (copy_preserves_iff fileWithHole _ (seek_ok fileWithHole _)).mpr (.inr ⟨rfl, by decide⟩)

/-- Zeros at the end are lost, and a count that does not start at 0 makes a hole at the start. -/
theorem copy_differs :
    (copyFile 0 (.atOnce bufSize_pos [65, 0])).dest.content = [65] ∧
      (copyFile 0 (.atOnce bufSize_pos [65, 0])).seekFailed = false ∧
      (copyFile 2 (.atOnce bufSize_pos [65])).dest.content = [0, 0, 65] ∧
      (copyFile 2 (.atOnce bufSize_pos [65])).seekFailed = false := by
  decide

end Files

end SparseCopy
