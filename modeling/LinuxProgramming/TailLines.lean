import LinuxProgramming.RegularFiles
import LinuxProgramming.StringScans

/-! The three loops of `tail.c`: count the newlines, find the offset, print. All of them skip
the first byte of every chunk, and the last one prints the buffer as a string, with whatever is
in it behind the chunk. -/
namespace TailLines

open CharStrings StringScans RegularFiles

def bufferSize : ℕ := 4096

abbrev Buffer := CharArray bufferSize

def newline : Byte := 10

abbrev Splitting := (bytes : List Byte) → Chunking bufferSize bytes

def fillAll {n : ℕ} (filecontent : CharArray n) (chunks : List (List Byte)) : CharArray n :=
  chunks.foldl (fun a chunk => a.fill chunk) filecontent

/-- `++` on an `int`; nothing is said about what comes after `INT_MAX`. -/
def increment (counter : ℤ) : Option ℤ := if counter < 2147483647 then some (counter + 1) else none

/-- `for (int i = 1; i < readlen; i++)`, so from the second byte on. -/
def countChunk (totalnewline : ℤ) (chunk : List Byte) : Option ℤ :=
  chunk.tail.foldlM (fun total b => if b = newline then increment total else some total)
    totalnewline

def countLoop (chunks : List (List Byte)) : Option ℤ := chunks.foldlM countChunk 0

structure Position where
  newlinecounter : ℤ
  startprinting : ℕ
  deriving DecidableEq

/-- The `break` leaves only this inner loop. -/
def locateFrom (totalnewline n : ℤ) : Position → List Byte → Option Position
  | p, [] => some p
  | p, b :: bytes => do
    let newlinecounter ← if b = newline then increment p.newlinecounter else some p.newlinecounter
    let p : Position := ⟨newlinecounter, p.startprinting + 1⟩
    if totalnewline - newlinecounter = n - 1 then some p else locateFrom totalnewline n p bytes

def locateLoop (totalnewline n : ℤ) (chunks : List (List Byte)) : Option Position :=
  chunks.foldlM (fun p chunk => locateFrom totalnewline n p chunk.tail) ⟨0, 0⟩

/-- `printf("%s", filecontent)` behind each read; a buffer without a terminator is left. -/
def printLoop {n : ℕ} : CharArray n → List (List Byte) → Option (List Byte)
  | _, [] => some []
  | filecontent, chunk :: chunks =>
    match textBytes (filecontent.fill chunk) with
    | none => none
    | some printed => (printLoop (filecontent.fill chunk) chunks).map fun rest => printed ++ rest

/-- What the program prints, from the content of the file, what is in `filecontent` at the
start and the way each loop is served. -/
def tail (n : ℕ) (content : List Byte) (filecontent : Buffer) (count locate print : Splitting) :
    Option (List Byte) := do
  let totalnewline ← countLoop (count content).chunks
  let filecontent := fillAll filecontent (count content).chunks
  if totalnewline > n then
    let position ← locateLoop totalnewline n (locate content).chunks
    let filecontent := fillAll filecontent (locate content).chunks
    printLoop filecontent (print (content.drop position.startprinting)).chunks
  else printLoop filecontent (print content).chunks

section Lines

/-- The lines of a file, each with its newline; the last one may lack it. -/
def splitLines : List Byte → List (List Byte)
  | [] => []
  | b :: bytes =>
    if b = newline then [b] :: splitLines bytes
    else
      match splitLines bytes with
      | [] => [[b]]
      | line :: lines => (b :: line) :: lines

def lastLines (n : ℕ) (content : List Byte) : List Byte :=
  ((splitLines content).drop ((splitLines content).length - n)).flatten

theorem splitLines_flatten (content : List Byte) : (splitLines content).flatten = content := by
  induction content with
  | nil => rfl
  | cons b bytes ih =>
    rw [splitLines]
    split
    · simp [ih]
    · split
      · next h =>
        rw [h] at ih
        simp at ih
        simp [← ih]
      · next line lines h =>
        rw [h] at ih
        simpa using ih

theorem splitLines_ne_nil {content : List Byte} (h : content ≠ []) : splitLines content ≠ [] := by
  intro hnil
  have hflat := splitLines_flatten content
  rw [hnil] at hflat
  exact h hflat.symm

theorem line_ne_nil {content line : List Byte} (h : line ∈ splitLines content) : line ≠ [] := by
  induction content generalizing line with
  | nil => simp [splitLines] at h
  | cons b bytes ih =>
    rw [splitLines] at h
    split at h
    · rcases List.mem_cons.mp h with rfl | hrest
      · simp
      · exact ih hrest
    · split at h
      · simp_all
      · next first lines hlines =>
        rcases List.mem_cons.mp h with rfl | hrest
        · simp
        · exact ih (by rw [hlines]; exact List.mem_cons_of_mem _ hrest)

theorem lastLines_zero (content : List Byte) : lastLines 0 content = [] := by
  simp [lastLines]

theorem lastLines_all {n : ℕ} {content : List Byte} (h : (splitLines content).length ≤ n) :
    lastLines n content = content := by
  rw [lastLines, Nat.sub_eq_zero_of_le h, List.drop_zero, splitLines_flatten]

theorem lastLines_ne_nil {n : ℕ} {content : List Byte} (hn : 0 < n) (h : content ≠ []) :
    lastLines n content ≠ [] := by
  intro hnil
  have hlines := List.length_pos_iff.mpr (splitLines_ne_nil h)
  rw [lastLines, List.flatten_eq_nil_iff] at hnil
  have hlt : (splitLines content).length - n < (splitLines content).length := by omega
  have hmem := List.getElem_mem (show 0 < ((splitLines content).drop
    ((splitLines content).length - n)).length by simp; omega)
  exact line_ne_nil (List.mem_of_mem_drop hmem) (hnil _ hmem)

end Lines

theorem bufferSize_pos : 0 < bufferSize := by decide

section Loops

variable {n : ℕ} {content : List Byte} {chunks : List (List Byte)} {a : CharArray n}

theorem countChunk_eq {total : ℤ} {chunk : List Byte}
    (hfits : total + chunk.tail.count newline ≤ 2147483647) :
    countChunk total chunk = some (total + chunk.tail.count newline) := by
  unfold countChunk
  generalize chunk.tail = bytes at *
  induction bytes generalizing total with
  | nil => simp
  | cons b bytes ih =>
    rw [List.foldlM_cons]
    by_cases hb : b = newline
    · rw [hb, List.count_cons_self] at hfits ⊢
      rw [if_pos rfl, increment, if_pos (by omega)]
      refine (ih (by omega)).trans ?_
      congr 1
      omega
    · rw [List.count_cons_of_ne hb] at hfits ⊢
      rw [if_neg hb]
      exact ih hfits

theorem countChunk_of_not_mem {chunk : List Byte} (h : newline ∉ chunk) :
    countChunk 0 chunk = some 0 := by
  have hnone : chunk.tail.count newline = 0 := by
    apply List.count_eq_zero_of_not_mem
    exact fun hb => h (List.mem_of_mem_tail hb)
  rw [countChunk_eq (by rw [hnone]; decide), hnone]
  rfl

theorem countLoop_of_not_mem (h : ∀ chunk ∈ chunks, newline ∉ chunk) :
    countLoop chunks = some 0 := by
  unfold countLoop
  induction chunks with
  | nil => rfl
  | cons chunk chunks ih =>
    rw [List.foldlM_cons, countChunk_of_not_mem (h chunk List.mem_cons_self)]
    exact ih fun c hc => h c (List.mem_cons_of_mem chunk hc)

theorem countLoop_bytewise (content : List Byte) :
    countLoop (content.map fun b => [b]) = some 0 := by
  unfold countLoop
  induction content with
  | nil => rfl
  | cons b content ih => exact ih

theorem printLoop_of_nul (hn : 0 < n) (h : ∀ chunk ∈ chunks, ∃ rest, chunk = 0 :: rest) :
    printLoop a chunks = some [] := by
  induction chunks generalizing a with
  | nil => rfl
  | cons chunk chunks ih =>
    obtain ⟨rest, rfl⟩ := h chunk List.mem_cons_self
    rw [printLoop, textBytes_fill_nul hn]
    simp [ih fun c hc => h c (List.mem_cons_of_mem _ hc)]

theorem printLoop_bytewise (hn : 0 < n) (ha : 0 ∉ a.toList.drop 1) :
    printLoop a (content.map fun b => [b]) =
      if content.all (· == 0) then some [] else none := by
  induction content generalizing a with
  | nil => simp [printLoop]
  | cons b content ih =>
    have hnext : 0 ∉ (a.fill [b]).toList.drop 1 := by
      rw [fill_byte hn]
      exact ha
    rw [List.map_cons, printLoop]
    by_cases hb : b = 0
    · subst b
      rw [textBytes_fill_nul hn]
      simp only [ih hnext, List.nil_append, Option.map_id', List.all_cons, beq_self_eq_true,
        Bool.true_and]
    · have hfree : 0 ∉ (a.fill [b]).toList := by
        rw [fill_byte hn, List.mem_cons, not_or]
        exact ⟨Ne.symm hb, ha⟩
      rw [textBytes_unterminated hfree]
      simp [hb]

theorem fillAll_bytewise (hn : 0 < n) (ha : 0 ∉ a.toList.drop 1) :
    0 ∉ (fillAll a (content.map fun b => [b])).toList.drop 1 := by
  unfold fillAll
  induction content generalizing a with
  | nil => exact ha
  | cons b content ih =>
    apply ih
    rw [fill_byte hn]
    exact ha

end Loops

def unterminated : Buffer := Vector.replicate bufferSize 120

theorem unterminated_nul_free : 0 ∉ unterminated.toList := by
  simp [unterminated]

/-- Single bytes are never counted, and each of them is printed with all that is behind it. -/
theorem tail_bytewise (n : ℕ) (content : List Byte) :
    tail n content unterminated (.bytewise bufferSize_pos) (.bytewise bufferSize_pos)
      (.bytewise bufferSize_pos) = if content.all (· == 0) then some [] else none := by
  have hcount : countLoop (Chunking.bytewise bufferSize_pos content).chunks = some 0 :=
    countLoop_bytewise content
  have hfree : 0 ∉ unterminated.toList.drop 1 :=
    fun h => unterminated_nul_free (List.mem_of_mem_drop h)
  rw [tail, hcount, Option.bind_eq_bind, Option.bind_some, if_neg (by omega)]
  exact printLoop_bytewise bufferSize_pos (fillAll_bytewise bufferSize_pos hfree)

theorem tail_of_nul {content : List Byte} (h : ∀ b ∈ content, b = 0) (n : ℕ)
    (filecontent : Buffer) (count locate print : Splitting) :
    tail n content filecontent count locate print = some [] := by
  have hcount : countLoop (count content).chunks = some 0 := by
    apply countLoop_of_not_mem
    intro chunk hc hmem
    have hzero := h _ ((count content).mem_of_mem_chunk hc hmem)
    exact absurd hzero (by decide)
  rw [tail, hcount, Option.bind_eq_bind, Option.bind_some, if_neg (by omega)]
  apply printLoop_of_nul bufferSize_pos
  intro chunk hc
  have hpos := ((print content).bounded chunk hc).1
  cases chunk with
  | nil => simp at hpos
  | cons b rest =>
    have hb := h b ((print content).mem_of_mem_chunk hc List.mem_cons_self)
    exact ⟨rest, by rw [hb]⟩

/-- For a given file and line count the output is right, however the reads cut the file and
whatever is in the buffer at the start, exactly when nothing is to be printed and nothing could
be. -/
theorem tail_prints_last_lines_iff (n : ℕ) (content : List Byte) :
    (∀ filecontent count locate print,
      tail n content filecontent count locate print = some (lastLines n content)) ↔
    content = [] ∨ n = 0 ∧ ∀ b ∈ content, b = 0 := by
  constructor
  · intro h
    by_cases hempty : content = []
    · exact .inl hempty
    have hbytes := (tail_bytewise n content).symm.trans (h unterminated _ _ _)
    split at hbytes
    · next hzero =>
      refine .inr ⟨?_, by simpa using hzero⟩
      by_contra hn
      exact lastLines_ne_nil (Nat.pos_of_ne_zero hn) hempty (Option.some.inj hbytes).symm
    · cases hbytes
  · rintro (rfl | ⟨rfl, hzero⟩) filecontent count locate print
    · rw [tail_of_nul (by simp)]
      simp [lastLines, splitLines]
    · rw [tail_of_nul hzero, lastLines_zero]

section OneChunk

variable {n : ℕ} {content : List Byte}

def zeroed : Buffer := Vector.replicate bufferSize 0

theorem zeroed_fill_twice (hshort : content.length ≤ bufferSize) :
    ((zeroed.fill content).fill content).toList =
      content ++ List.replicate (bufferSize - content.length) 0 := by
  rw [fill_toList, List.take_of_length_le hshort, fill_toList, List.take_of_length_le hshort,
    List.drop_left, zeroed, Vector.toList_replicate, List.drop_replicate]

theorem count_le_lines (content : List Byte) :
    content.count newline ≤ (splitLines content).length := by
  induction content with
  | nil => simp
  | cons b bytes ih =>
    rw [splitLines]
    by_cases hb : b = newline
    · rw [if_pos hb, hb, List.count_cons_self, List.length_cons]
      omega
    · rw [if_neg hb, List.count_cons_of_ne hb]
      cases hlines : splitLines bytes with
      | nil =>
        rw [hlines, List.length_nil] at ih
        exact ih.trans (Nat.zero_le _)
      | cons line lines =>
        rw [hlines] at ih
        exact ih

theorem countChunk_le {content : List Byte} (hshort : content.length < bufferSize) :
    ∃ total, countChunk 0 content = some total ∧ total ≤ (splitLines content).length := by
  have htail : content.tail.count newline ≤ content.count newline :=
    (List.tail_sublist content).count_le newline
  have hlines := count_le_lines content
  have hlength : content.count newline ≤ content.length := List.count_le_length
  rw [bufferSize] at hshort
  exact ⟨_, countChunk_eq (by omega), by omega⟩

theorem tail_short_text (hne : content ≠ []) (hfree : 0 ∉ content)
    (hshort : content.length < bufferSize) (hlines : (splitLines content).length ≤ n) :
    tail n content zeroed (.atOnce bufferSize_pos) (.atOnce bufferSize_pos)
      (.atOnce bufferSize_pos) = some (lastLines n content) := by
  obtain ⟨total, htotal, hle⟩ := countChunk_le hshort
  have hcount : countLoop [content] = some total := by
    rw [countLoop, List.foldlM_cons, htotal]
    rfl
  have hfew : ¬ total > n := by omega
  have hrest : List.replicate (bufferSize - content.length) (0 : Byte) =
      0 :: List.replicate (bufferSize - content.length - 1) 0 := by
    rw [← List.replicate_succ]
    congr 1
    omega
  have hbuffer := zeroed_fill_twice hshort.le
  rw [hrest] at hbuffer
  rw [tail, Chunking.atOnce_chunks bufferSize_pos hne hshort.le, hcount, Option.bind_eq_bind,
    Option.bind_some, if_neg hfew, lastLines_all hlines, fillAll, List.foldl_cons,
    List.foldl_nil, printLoop, textBytes_of_text hbuffer hfree]
  simp [printLoop]

/-- Of two lines the last one is asked for. Printing begins at its newline, one line too late,
and goes on with the bytes that the earlier reads have left in the buffer. -/
theorem tail_prints_stale_bytes :
    tail 1 (ascii "a\nb\n") zeroed (.atOnce bufferSize_pos) (.atOnce bufferSize_pos)
      (.atOnce bufferSize_pos) = some (ascii "\n\nb\n") ∧
    lastLines 1 (ascii "a\nb\n") = ascii "b\n" := by
  refine ⟨?_, by decide⟩
  have hread : (Chunking.atOnce bufferSize_pos (ascii "a\nb\n")).chunks = [ascii "a\nb\n"] :=
    Chunking.atOnce_chunks bufferSize_pos (by decide) (by decide)
  have hprint : (Chunking.atOnce bufferSize_pos (ascii "\n")).chunks = [ascii "\n"] :=
    Chunking.atOnce_chunks bufferSize_pos (by decide) (by decide)
  have hcount : countLoop [ascii "a\nb\n"] = some 2 := by decide
  have hlocate : locateLoop 2 (1 : ℕ) [ascii "a\nb\n"] = some ⟨2, 3⟩ := by decide
  have hbuffer := zeroed_fill_twice (show (ascii "a\nb\n").length ≤ bufferSize by decide)
  generalize hpast : (zeroed.fill (ascii "a\nb\n")).fill (ascii "a\nb\n") = past at hbuffer
  have htext : (past.fill (ascii "\n")).toList =
      ascii "\n\nb\n" ++ 0 :: List.replicate (bufferSize - 5) 0 := by
    have hfill := fill_byte bufferSize_pos past newline
    rw [hbuffer] at hfill
    exact hfill
  have hrest : (ascii "a\nb\n").drop 3 = ascii "\n" := by decide
  rw [tail, hread, hcount, Option.bind_eq_bind, Option.bind_some, if_pos (by decide), hlocate,
    Option.bind_eq_bind, Option.bind_some]
  simp only [fillAll, List.foldl_cons, List.foldl_nil, hpast]
  rw [hrest, hprint, printLoop, textBytes_of_text htext (by decide)]
  simp [printLoop]

end OneChunk

end TailLines
