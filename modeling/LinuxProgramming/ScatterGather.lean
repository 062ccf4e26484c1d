import LinuxProgramming.RegularFiles
import Mathlib.Algebra.GroupWithZero.Nat
import Mathlib.Data.List.Forall2

/-! `my_readv` and `my_writev`: one call of `read` or `write` for each buffer, whatever the call
before has transferred. The calls are a parameter; below they are those on a regular file, and
those that give any sequence of results. -/
namespace ScatterGather

open CharStrings RegularFiles

variable {σ : Type}

def ssizeMax : ℤ := 2 ^ 63 - 1

def intMax : ℕ := 2 ^ 31 - 1

/-- What a call has done with one buffer; the result `none` is -1. -/
structure Transfer (σ : Type) where
  result : Option ℕ
  buf : List Byte
  file : σ

structure Outcome (σ : Type) where
  ret : ℤ
  iov : List (List Byte)
  file : σ

def Outcome.cons (buf : List Byte) (o : Outcome σ) : Outcome σ := { o with iov := buf :: o.iov }

/-- The loop that the two functions share, at the index `i` and with the total so far, which is
an `ssize_t`. The index is an `int` although `iovcnt` is a `size_t`: where it would have to pass
INT_MAX the code has no defined behaviour, and the result is `none`. -/
def transferLoop (call : σ → List Byte → Transfer σ) :
    ℕ → ℤ → List (List Byte) → σ → Option (Outcome σ)
  | _, total, [], s => some ⟨total, [], s⟩
  | i, total, buf :: iov, s =>
    let c := call s buf
    match c.result with
    | none => some ⟨-1, c.buf :: iov, c.file⟩
    | some n =>
      let total := (total + n).bmod (2 ^ 64)
      if total ≥ ssizeMax then some ⟨-1, c.buf :: iov, c.file⟩
      else if i = intMax then none
      else (transferLoop call (i + 1) total iov c.file).map (Outcome.cons c.buf)

def transferv (call : σ → List Byte → Transfer σ) (iov : List (List Byte)) (s : σ) :
    Option (Outcome σ) :=
  if iov.length < 1 then some ⟨-1, iov, s⟩ else transferLoop call 0 0 iov s

/-- `read(fd, buf, length)`: the bytes that arrive are put at the start of the buffer. -/
def readInto (read : σ → ℕ → Option (List Byte) × σ) (s : σ) (buf : List Byte) : Transfer σ :=
  match read s buf.length with
  | (none, s) => ⟨none, buf, s⟩
  | (some bytes, s) => ⟨some bytes.length, bytes ++ buf.drop bytes.length, s⟩

def writeFrom (write : σ → List Byte → Option ℕ × σ) (s : σ) (buf : List Byte) : Transfer σ :=
  ⟨(write s buf).1, buf, (write s buf).2⟩

def myReadv (read : σ → ℕ → Option (List Byte) × σ) (iov : List (List Byte)) (s : σ) :
    Option (Outcome σ) :=
  transferv (readInto read) iov s

def myWritev (write : σ → List Byte → Option ℕ × σ) (iov : List (List Byte)) (s : σ) :
    Option (Outcome σ) :=
  transferv (writeFrom write) iov s

section Loop

variable {call : σ → List Byte → Transfer σ} {buf : List Byte} {iov : List (List Byte)} {s : σ}
  {total : ℤ} {i n : ℕ}

theorem transferv_of_ne (h : iov ≠ []) : transferv call iov s = transferLoop call 0 0 iov s := by
  apply if_neg
  rw [Nat.not_lt]
  exact List.length_pos_iff.mpr h

theorem wrap_of_lt (h0 : 0 ≤ total) (h : total < ssizeMax) : total.bmod (2 ^ 64) = total := by
  rw [ssizeMax] at h
  exact Int.bmod_eq_of_le (by omega) (by omega)

theorem wrap_le (h : -2 ^ 63 ≤ total) : total.bmod (2 ^ 64) ≤ total := by
  rw [Int.bmod_eq_emod]
  split <;> omega

theorem le_wrap (total : ℤ) : -2 ^ 63 ≤ total.bmod (2 ^ 64) := by
  rw [Int.bmod_eq_emod]
  split <;> omega

theorem neg_one_lt : (-1 : ℤ) < ssizeMax := by decide

theorem transferLoop_cons (hresult : (call s buf).result = some n) (h0 : 0 ≤ total)
    (hsmall : total + n < ssizeMax) : transferLoop call i total (buf :: iov) s =
      if i = intMax then none
      else (transferLoop call (i + 1) (total + n) iov (call s buf).file).map
        (Outcome.cons (call s buf).buf) := by
  have hwrap : (total + n).bmod (2 ^ 64) = total + n := wrap_of_lt (by omega) hsmall
  rw [transferLoop]
  simp only [hresult, hwrap]
  rw [if_neg (by omega)]

/-- Every call succeeds, with at most as many bytes as it is asked for. -/
def Succeeds (call : σ → List Byte → Transfer σ) : Prop :=
  ∀ s buf, ∃ n ≤ buf.length, (call s buf).result = some n

theorem transferLoop_overflows (hcall : Succeeds call) (h0 : 0 ≤ total)
    (hsmall : total + iov.flatten.length < ssizeMax) (hi : i ≤ intMax)
    (hlong : intMax < i + iov.length) : transferLoop call i total iov s = none := by
  induction iov generalizing i total s with
  | nil =>
    rw [List.length_nil] at hlong
    omega
  | cons buf iov ih =>
    obtain ⟨n, hn, hresult⟩ := hcall s buf
    rw [List.flatten_cons, List.length_append, Int.natCast_add] at hsmall
    rw [List.length_cons] at hlong
    rw [transferLoop_cons hresult h0 (by omega)]
    split
    · rfl
    · next hnext =>
      rw [@ih (call s buf).file (total + n) (i + 1) (by omega) (by omega) (by omega) (by omega)]
      rfl

end Loop

section RegularFile

def fileRead (f : RegularFile) (n : ℕ) : Option (List Byte) × RegularFile :=
  (some (f.read n).1, (f.read n).2)

def fileWrite (f : RegularFile) (buf : List Byte) : Option ℕ × RegularFile :=
  (some buf.length, f.write buf)

theorem succeeds_write : Succeeds (writeFrom fileWrite) :=
  fun _ buf => ⟨buf.length, le_rfl, rfl⟩

theorem succeeds_read : Succeeds (readInto fileRead) := by
  intro f buf
  refine ⟨(f.read buf.length).1.length, ?_, rfl⟩
  simp only [RegularFile.read, List.length_take]
  omega

theorem writeLoop_file {iov : List (List Byte)} {f : RegularFile} {total : ℤ} {i : ℕ}
    (h0 : 0 ≤ total) (hsmall : total + iov.flatten.length < ssizeMax)
    (hi : i + iov.length ≤ intMax) :
    transferLoop (writeFrom fileWrite) i total iov f =
      some ⟨total + iov.flatten.length, iov, f.write iov.flatten⟩ := by
  induction iov generalizing f total i with
  | nil => simp [transferLoop, RegularFile.write_nil]
  | cons buf iov ih =>
    rw [List.flatten_cons, List.length_append, Int.natCast_add] at hsmall ⊢
    rw [List.length_cons] at hi
    have hrest := @ih (f.write buf) (total + buf.length) (i + 1) (by omega) (by omega) (by omega)
    rw [RegularFile.write_append, Int.add_assoc] at hrest
    rw [transferLoop_cons (n := buf.length) rfl h0 (by omega), if_neg (by omega)]
    exact Option.map_eq_some_iff.mpr ⟨_, hrest, rfl⟩

def ahead (f : RegularFile) : List Byte := f.content.drop f.offset

theorem ahead_read (f : RegularFile) (n : ℕ) : ahead (f.read n).2 = (ahead f).drop n := by
  rw [ahead, ahead, List.drop_drop]
  simp only [RegularFile.read, List.length_take, List.length_drop]
  rcases Nat.le_total n (f.content.length - f.offset) with hle | hle
  · rw [Nat.min_eq_left hle]
  · rw [List.drop_of_length_le (by omega), List.drop_of_length_le (by omega)]

theorem fill_first (avail buf rest : List Byte) :
    avail.take buf.length ++ buf.drop (avail.take buf.length).length ++
      ((avail.drop buf.length).take rest.length ++ rest.drop (avail.drop buf.length).length) =
    avail.take (buf ++ rest).length ++ (buf ++ rest).drop avail.length := by
  rw [List.length_append, List.length_take, List.length_drop]
  rcases Nat.le_total buf.length avail.length with hle | hle
  · have hdrop : buf.drop (min buf.length avail.length) = [] :=
      List.drop_of_length_le (by omega)
    have hrest : (buf ++ rest).drop avail.length = rest.drop (avail.length - buf.length) := by
      rw [List.drop_append, List.drop_of_length_le hle, List.nil_append]
    rw [hdrop, hrest, List.append_nil, List.take_add, List.append_assoc]
  · have hmin : min buf.length avail.length = avail.length := Nat.min_eq_right hle
    have hall : avail.take (buf.length + rest.length) = avail :=
      List.take_of_length_le (by omega)
    rw [hmin, List.drop_of_length_le hle, Nat.sub_eq_zero_of_le hle, List.take_of_length_le hle,
      hall, List.drop_append_of_le_length hle]
    simp

theorem filled_agrees (out rest iov : List Byte) :
    ((out ++ rest).take iov.length ++ iov.drop (out ++ rest).length).take out.length =
      out.take iov.length := by
  rcases Nat.le_total iov.length out.length with hle | hle
  · have hdrop : iov.drop (out ++ rest).length = [] := by
      apply List.drop_of_length_le
      rw [List.length_append]
      omega
    rw [hdrop, List.append_nil, List.take_append_of_le_length hle, List.take_take,
      Nat.min_eq_right hle]
  · have htake : (out ++ rest).take iov.length = out ++ rest.take (iov.length - out.length) := by
      rw [List.take_append, List.take_of_length_le hle]
    rw [htake, List.append_assoc, List.take_left, List.take_of_length_le hle]

theorem readLoop_file {iov : List (List Byte)} {f : RegularFile} {total : ℤ} {i : ℕ}
    (h0 : 0 ≤ total) (hsmall : total + iov.flatten.length < ssizeMax)
    (hi : i + iov.length ≤ intMax) :
    ∃ o, transferLoop (readInto fileRead) i total iov f = some o ∧
      o.ret = total + (min iov.flatten.length (ahead f).length : ℕ) ∧
      o.iov.map List.length = iov.map List.length ∧
      o.iov.flatten = (ahead f).take iov.flatten.length ++ iov.flatten.drop (ahead f).length := by
  induction iov generalizing f total i with
  | nil => simp [transferLoop]
  | cons buf iov ih =>
    rw [List.flatten_cons, List.length_append, Int.natCast_add] at hsmall
    rw [List.length_cons] at hi
    have hbytes : (f.read buf.length).1 = (ahead f).take buf.length := rfl
    have hshort : ((ahead f).take buf.length).length = min buf.length (ahead f).length :=
      List.length_take ..
    rw [transferLoop_cons (n := ((ahead f).take buf.length).length) rfl h0 (by omega),
      if_neg (by omega)]
    obtain ⟨o, ho, hret, hlens, hflat⟩ := @ih (f.read buf.length).2
      (total + ((ahead f).take buf.length).length) (i + 1) (by omega) (by omega) (by omega)
    rw [ahead_read] at hret hflat
    refine ⟨_, Option.map_eq_some_iff.mpr ⟨o, ho, rfl⟩, ?_, ?_, ?_⟩
    · refine hret.trans ?_
      rw [List.flatten_cons, List.length_append, List.length_drop, hshort]
      omega
    · have hbuf : (readInto fileRead f buf).buf.length = buf.length := by
        simp only [readInto, fileRead, hbytes, List.length_append, List.length_drop, hshort]
        omega
      rw [Outcome.cons, List.map_cons, List.map_cons, hbuf]
      exact congrArg _ hlens
    · have hbuf : (readInto fileRead f buf).buf = (ahead f).take buf.length ++
          buf.drop ((ahead f).take buf.length).length := rfl
      rw [Outcome.cons, List.flatten_cons, List.flatten_cons, hbuf, ← fill_first]
      exact congrArg _ hflat

/-- The concatenation of the buffers is stored at the offset. Read back from there, the file
fills the buffers one after the other, as far as it goes; so what is read agrees with what was
written, whatever the two lists of buffers are. -/
def ReadsBack (f : RegularFile) (out iov : List (List Byte)) : Prop :=
  ∃ w r, myWritev fileWrite out f = some w ∧
    myReadv fileRead iov (w.file.seekSet f.offset) = some r ∧
    w.ret = out.flatten.length ∧ w.file = f.write out.flatten ∧
    let available := w.file.content.drop f.offset
    r.ret = (min iov.flatten.length available.length : ℕ) ∧
      r.iov.map List.length = iov.map List.length ∧
      r.iov.flatten = available.take iov.flatten.length ++ iov.flatten.drop available.length ∧
      r.iov.flatten.take out.flatten.length = out.flatten.take iov.flatten.length

section ReadBack

variable {f : RegularFile} {out iov : List (List Byte)} (hout : out ≠ []) (hiov : iov ≠ [])
  (hwritten : (out.flatten.length : ℤ) < ssizeMax) (hroom : (iov.flatten.length : ℤ) < ssizeMax)

include hout hiov hwritten hroom

theorem readsBack_of_few (hwcnt : out.length ≤ intMax) (hrcnt : iov.length ≤ intMax) :
    ReadsBack f out iov := by
  have hw : myWritev fileWrite out f =
      some ⟨out.flatten.length, out, f.write out.flatten⟩ := by
    rw [myWritev, transferv_of_ne hout,
      writeLoop_file le_rfl (by simpa using hwritten) (by omega), Int.zero_add]
  obtain ⟨r, hr, hread, hlens, hflat⟩ :=
    @readLoop_file iov ((f.write out.flatten).seekSet f.offset) 0 0 le_rfl
      (by simpa using hroom) (by omega)
  rw [Int.zero_add] at hread
  refine ⟨_, r, hw, (transferv_of_ne hiov).trans hr, rfl, rfl, hread, hlens, hflat, ?_⟩
  have havail : ahead ((f.write out.flatten).seekSet f.offset) =
      out.flatten ++ f.content.drop (f.offset + out.flatten.length) :=
    RegularFile.drop_write f out.flatten
  rw [hflat, havail]
  exact filled_agrees _ _ _

theorem few_of_readsBack (h : ReadsBack f out iov) :
    out.length ≤ intMax ∧ iov.length ≤ intMax := by
  obtain ⟨w, r, hw, hr, -⟩ := h
  refine ⟨?_, ?_⟩
  · by_contra hlong
    rw [myWritev, transferv_of_ne hout, transferLoop_overflows succeeds_write le_rfl
      (by simpa using hwritten) (Nat.zero_le _) (by omega)] at hw
    cases hw
  · by_contra hlong
    rw [myReadv, transferv_of_ne hiov, transferLoop_overflows succeeds_read le_rfl
      (by simpa using hroom) (Nat.zero_le _) (by omega)] at hr
    cases hr

end ReadBack

/-- What is written is read back exactly as long as an `int` can count the buffers. -/
theorem readv_reads_back_writev (f : RegularFile) (out iov : List (List Byte)) (hout : out ≠ [])
    (hiov : iov ≠ []) (hwritten : (out.flatten.length : ℤ) < ssizeMax)
    (hroom : (iov.flatten.length : ℤ) < ssizeMax) :
    ReadsBack f out iov ↔ out.length ≤ intMax ∧ iov.length ≤ intMax := by
  constructor
  · intro h
    exact few_of_readsBack hout hiov hwritten hroom h
  · rintro ⟨hwcnt, hrcnt⟩
    exact readsBack_of_few hout hiov hwritten hroom hwcnt hrcnt

/-- Three buffers written, two of other lengths read back. -/
theorem readv_reads_back_three :
    ReadsBack ⟨ascii "abc", 1⟩ [ascii "X", [], ascii "YZ"] [ascii "..", ascii "..."] :=
  (readv_reads_back_writev _ _ _ (by decide) (by decide) (by decide) (by decide)).mpr
    ⟨by decide, by decide⟩

/-- The byte behind 2^31 empty buffers is not written. -/
theorem index_overflows :
    myWritev fileWrite (List.replicate (2 ^ 31) [] ++ [ascii "x"]) ⟨[], 0⟩ = none ∧
      ¬ ReadsBack ⟨[], 0⟩ (List.replicate (2 ^ 31) [] ++ [ascii "x"]) [ascii "."] := by
  have hlen : (List.replicate (2 ^ 31) ([] : List Byte) ++ [ascii "x"]).length = 2 ^ 31 + 1 := by
    rw [List.length_append, List.length_replicate, List.length_singleton]
  have hbytes : (List.replicate (2 ^ 31) ([] : List Byte) ++ [ascii "x"]).flatten = ascii "x" := by
    rw [List.flatten_append, List.flatten_replicate_nil]
    rfl
  generalize List.replicate (2 ^ 31) ([] : List Byte) ++ [ascii "x"] = out at hlen hbytes
  have hnone : myWritev fileWrite out ⟨[], 0⟩ = none := by
    rw [myWritev, transferv_of_ne (by rintro rfl; simp at hlen)]
    refine transferLoop_overflows succeeds_write le_rfl ?_ (Nat.zero_le _) ?_
    · rw [hbytes]
      decide
    · rw [hlen]
      decide
  refine ⟨hnone, ?_⟩
  rintro ⟨w, r, hw, -⟩
  rw [hnone] at hw
  cases hw

end RegularFile

section AnyResults

def counts : List (Option ℕ) → List ℕ
  | some n :: rs => n :: counts rs
  | _ => []

/-- What is returned, and the counts of the calls that are made, when the calls give these
results. -/
def afterResults : ℕ → ℤ → List (Option ℕ) → Option (ℤ × List ℕ)
  | _, total, [] => some (total, [])
  | _, _, none :: _ => some (-1, [])
  | i, total, some n :: rs =>
    if (total + n).bmod (2 ^ 64) ≥ ssizeMax then some (-1, [n])
    else if i = intMax then none
    else (afterResults (i + 1) ((total + n).bmod (2 ^ 64)) rs).map fun r => (r.1, n :: r.2)

theorem afterResults_small {rs : List (Option ℕ)} {total : ℤ} {i : ℕ} (h0 : 0 ≤ total)
    (hsmall : total + (counts rs).sum < ssizeMax) (hi : i ≤ intMax) :
    afterResults i total rs =
      if i + (counts rs).length ≤ intMax then
        some (if none ∈ rs then -1 else total + (counts rs).sum, counts rs)
      else none := by
  induction rs generalizing total i with
  | nil => simp [afterResults, counts, hi]
  | cons r rs ih =>
    cases r with
    | none => simp [afterResults, counts, hi]
    | some n =>
      rw [counts, List.sum_cons, Int.natCast_add] at hsmall
      have hwrap : (total + n).bmod (2 ^ 64) = total + n := wrap_of_lt (by omega) (by omega)
      rw [afterResults, hwrap, if_neg (by omega), counts, List.length_cons]
      by_cases hlast : i = intMax
      · rw [if_pos hlast, if_neg (by omega)]
      · rw [if_neg hlast, @ih (total + n) (i + 1) (by omega) (by omega) (by omega),
          show i + 1 + (counts rs).length = i + ((counts rs).length + 1) by omega]
        split
        · simp [Int.add_assoc]
        · rfl

/-- Once the bytes are too many for an `ssize_t`, whatever is returned is less. -/
theorem afterResults_large {rs : List (Option ℕ)} {total : ℤ} {i past : ℕ} {r : ℤ × List ℕ}
    (hr : afterResults i total rs = some r) (hlo : -2 ^ 63 ≤ total)
    (hpast : total ≤ past) (htotal : total < ssizeMax)
    (hlarge : ssizeMax ≤ past + (counts rs).sum) :
    r.1 < ssizeMax ∧ ssizeMax ≤ past + r.2.sum := by
  induction rs generalizing total i past r with
  | nil =>
    cases hr
    exact ⟨htotal, hlarge⟩
  | cons result rs ih =>
    cases result with
    | none =>
      cases hr
      exact ⟨neg_one_lt, hlarge⟩
    | some n =>
      have hle : (total + n).bmod (2 ^ 64) ≤ total + n := wrap_le (by omega)
      have hge := le_wrap (total + n)
      rw [afterResults] at hr
      split at hr
      · cases hr
        refine ⟨neg_one_lt, ?_⟩
        rw [List.sum_singleton]
        omega
      · split at hr
        · cases hr
        · obtain ⟨r, hrest, rfl⟩ := Option.map_eq_some_iff.mp hr
          rw [counts, List.sum_cons, Int.natCast_add] at hlarge
          obtain ⟨hret, hsum⟩ := @ih ((total + n).bmod (2 ^ 64)) (i + 1) (past + n) r hrest hge
            (by omega) (by omega) (by omega)
          refine ⟨hret, ?_⟩
          rw [List.sum_cons, Int.natCast_add]
          omega

theorem afterResults_made {rs : List (Option ℕ)} {total : ℤ} {i : ℕ} {r : ℤ × List ℕ}
    (hr : afterResults i total rs = some r) : r.2 = (counts rs).take r.2.length := by
  induction rs generalizing total i r with
  | nil =>
    cases hr
    rfl
  | cons result rs ih =>
    cases result with
    | none =>
      cases hr
      rfl
    | some n =>
      rw [afterResults] at hr
      rw [counts]
      split at hr
      · cases hr
        simp
      · split at hr
        · cases hr
        · obtain ⟨r, hrest, rfl⟩ := Option.map_eq_some_iff.mp hr
          rw [List.length_cons, List.take_succ_cons, ← ih hrest]

structure Sink where
  results : List (Option ℕ)
  sent : List Byte

def Sink.write (s : Sink) (buf : List Byte) : Option ℕ × Sink :=
  match s.results with
  | some n :: rs => (some n, ⟨rs, s.sent ++ buf.take n⟩)
  | rs => (none, ⟨rs.tail, s.sent⟩)

structure Source where
  arrivals : List (Option (List Byte))
  received : List Byte

def Source.read (s : Source) (_ : ℕ) : Option (List Byte) × Source :=
  match s.arrivals with
  | some bytes :: as => (some bytes, ⟨as, s.received ++ bytes⟩)
  | as => (none, ⟨as.tail, s.received⟩)

def gather (ns : List ℕ) (iov : List (List Byte)) : List Byte :=
  (List.zipWith List.take ns iov).flatten

def scatter : List (List Byte) → List (List Byte) → List (List Byte)
  | bytes :: ds, buf :: iov => (bytes ++ buf.drop bytes.length) :: scatter ds iov
  | _, iov => iov

theorem writev_sink {iov : List (List Byte)} {rs : List (Option ℕ)} {total : ℤ} {i : ℕ}
    {sent : List Byte} (hlen : iov.length = rs.length) :
    (transferLoop (writeFrom Sink.write) i total iov ⟨rs, sent⟩).map
        (fun o => (o.ret, o.file.sent)) =
      (afterResults i total rs).map fun r => (r.1, sent ++ gather r.2 iov) := by
  induction iov generalizing rs total i sent with
  | nil =>
    rw [List.length_eq_zero_iff.mp hlen.symm]
    simp [transferLoop, afterResults, gather]
  | cons buf iov ih =>
    cases rs with
    | nil => simp at hlen
    | cons r rs =>
      cases r with
      | none => simp [transferLoop, writeFrom, Sink.write, afterResults, gather]
      | some n =>
        have hrest : iov.length = rs.length := by simpa using hlen
        rw [transferLoop, afterResults]
        simp only [writeFrom, Sink.write]
        split
        · simp [gather]
        · split
          · rfl
          · have hih := @ih rs ((total + n).bmod (2 ^ 64)) (i + 1) (sent ++ buf.take n) hrest
            rw [Option.map_map]
            refine hih.trans ?_
            rw [Option.map_map]
            simp [gather, Function.comp_def]

def arrived : List (Option (List Byte)) → List (List Byte)
  | some bytes :: as => bytes :: arrived as
  | _ => []

def sizes (as : List (Option (List Byte))) : List (Option ℕ) := as.map (Option.map List.length)

theorem counts_sizes (as : List (Option (List Byte))) :
    counts (sizes as) = (arrived as).map List.length := by
  induction as with
  | nil => rfl
  | cons a as ih =>
    cases a with
    | none => rfl
    | some bytes => exact congrArg _ ih

theorem readv_source {iov : List (List Byte)} {as : List (Option (List Byte))} {total : ℤ} {i : ℕ}
    {received : List Byte} (hlen : iov.length = as.length) :
    (transferLoop (readInto Source.read) i total iov ⟨as, received⟩).map
        (fun o => (o.ret, o.file.received, o.iov)) =
      (afterResults i total (sizes as)).map fun r =>
        (r.1, received ++ ((arrived as).take r.2.length).flatten,
          scatter ((arrived as).take r.2.length) iov) := by
  induction iov generalizing as total i received with
  | nil =>
    rw [List.length_eq_zero_iff.mp hlen.symm]
    simp [transferLoop, sizes, afterResults, arrived, scatter]
  | cons buf iov ih =>
    cases as with
    | nil => simp at hlen
    | cons a as =>
      cases a with
      | none => simp [transferLoop, readInto, Source.read, sizes, afterResults, arrived, scatter]
      | some bytes =>
        have hrest : iov.length = as.length := by simpa using hlen
        have hsizes : sizes (some bytes :: as) = some bytes.length :: sizes as := rfl
        rw [hsizes, transferLoop, afterResults, arrived]
        simp only [readInto, Source.read]
        split
        · simp [scatter]
        · split
          · rfl
          · have hih := @ih as ((total + bytes.length).bmod (2 ^ 64)) (i + 1) (received ++ bytes)
              hrest
            have hput := congrArg (Option.map fun x : ℤ × List Byte × List (List Byte) =>
              (x.1, x.2.1, (bytes ++ buf.drop bytes.length) :: x.2.2)) hih
            rw [Option.map_map, Option.map_map] at hput
            rw [Option.map_map, Option.map_map]
            refine hput.trans ?_
            simp [scatter, Function.comp_def]

def Gives (lens : List ℕ) (rs : List (Option ℕ)) : Prop :=
  List.Forall₂ (fun len r => ∀ n, r = some n → n ≤ len) lens rs

def Within : List ℕ → List ℕ → Prop
  | n :: ns, len :: lens => n ≤ len ∧ Within ns lens
  | [], _ => True
  | _ :: _, [] => False

/-- Behind a call that transfers less than it was asked for nothing more is transferred. -/
def Contiguous : List ℕ → List ℕ → Prop
  | len :: lens, n :: ns => (n < len → ns.sum = 0) ∧ Contiguous lens ns
  | _, _ => True

theorem within_counts {lens : List ℕ} {rs : List (Option ℕ)} (h : Gives lens rs) :
    Within (counts rs) lens := by
  induction h with
  | nil => trivial
  | @cons len r lens rs hr _ ih =>
    cases r with
    | none => trivial
    | some n => exact ⟨hr n rfl, ih⟩

theorem within_take {ns lens : List ℕ} (k : ℕ) (h : Within ns lens) : Within (ns.take k) lens := by
  induction ns generalizing k lens with
  | nil => simp [Within]
  | cons n ns ih =>
    cases lens with
    | nil => exact h.elim
    | cons len lens =>
      cases k with
      | zero => trivial
      | succ k => exact ⟨h.1, ih k h.2⟩

theorem contiguous_of_sum (lens : List ℕ) {ns : List ℕ} (h : ns.sum = 0) : Contiguous lens ns := by
  induction ns generalizing lens with
  | nil => cases lens <;> trivial
  | cons n ns ih =>
    rw [List.sum_cons] at h
    cases lens with
    | nil => trivial
    | cons len lens => exact ⟨fun _ => by omega, ih lens (by omega)⟩

/-- Behind a buffer that is not full nothing is transferred, so only a full one needs a proof of
the rest. -/
theorem contiguous_cons {n len : ℕ} {ns lens : List ℕ} (hshort : n < len → ns.sum = 0)
    (hrest : len ≤ n → Contiguous lens ns) : Contiguous (len :: lens) (n :: ns) := by
  refine ⟨hshort, ?_⟩
  by_cases hlt : n < len
  · exact contiguous_of_sum lens (hshort hlt)
  · exact hrest (Nat.le_of_not_lt hlt)

section Gather

variable {ns : List ℕ} {iov : List (List Byte)}

theorem gather_length (h : Within ns (iov.map List.length)) : (gather ns iov).length = ns.sum := by
  induction ns generalizing iov with
  | nil => simp [gather]
  | cons n ns ih =>
    cases iov with
    | nil => exact h.elim
    | cons buf iov =>
      have hlen : (buf.take n).length = n := List.length_take_of_le h.1
      have htail : (gather ns iov).length = ns.sum := ih h.2
      rw [gather] at htail
      rw [gather, List.zipWith_cons_cons, List.flatten_cons, List.length_append, hlen, htail,
        List.sum_cons]

theorem gather_of_contiguous (hw : Within ns (iov.map List.length))
    (h : Contiguous (iov.map List.length) ns) : gather ns iov <+: iov.flatten := by
  induction ns generalizing iov with
  | nil => simp [gather]
  | cons n ns ih =>
    cases iov with
    | nil => simp [gather]
    | cons buf iov =>
      obtain ⟨hshort, hrest⟩ := h
      obtain ⟨hn, hw⟩ := hw
      have hcons : gather (n :: ns) (buf :: iov) = buf.take n ++ gather ns iov := rfl
      rw [hcons, List.flatten_cons]
      by_cases hlt : n < buf.length
      · have hnone : gather ns iov = [] := by
          rw [← List.length_eq_zero_iff, gather_length hw]
          exact hshort hlt
        rw [hnone, List.append_nil]
        exact (List.take_prefix n buf).trans (List.prefix_append _ _)
      · rw [List.take_of_length_le (by omega), List.prefix_append_right_inj]
        exact ih hw hrest

theorem gather_replicate {lens : List ℕ} (b : Byte) (h : Within ns lens) :
    gather ns (lens.map fun len => List.replicate len b) = List.replicate ns.sum b := by
  induction ns generalizing lens with
  | nil => simp [gather]
  | cons n ns ih =>
    cases lens with
    | nil => exact h.elim
    | cons len lens =>
      have htail := ih h.2
      rw [gather] at htail
      rw [gather, List.map_cons, List.zipWith_cons_cons, List.flatten_cons, htail,
        List.take_replicate, Nat.min_eq_left h.1, List.sum_cons, List.replicate_add]

theorem replicate_head_eq {p q : ℕ} {a b : Byte} {x y : List Byte} (hp : 0 < p) (hq : 0 < q)
    (h : List.replicate p a ++ x = List.replicate q b ++ y) : a = b := by
  obtain ⟨p, rfl⟩ := Nat.exists_eq_succ_of_ne_zero hp.ne'
  obtain ⟨q, rfl⟩ := Nat.exists_eq_succ_of_ne_zero hq.ne'
  rw [List.replicate_succ, List.replicate_succ, List.cons_append, List.cons_append] at h
  exact (List.cons.inj h).1

theorem replicate_split {n len : ℕ} (h : n ≤ len) (b : Byte) :
    List.replicate len b = List.replicate n b ++ List.replicate (len - n) b := by
  rw [← List.replicate_add, Nat.add_sub_cancel' h]

/-- A buffer of zeros before buffers of ones tells where a byte was left out. -/
theorem contiguous_of_gather {lens : List ℕ} (hw : Within ns lens)
    (h : ∀ iov : List (List Byte), iov.map List.length = lens → gather ns iov <+: iov.flatten) :
    Contiguous lens ns := by
  induction ns generalizing lens with
  | nil => cases lens <;> trivial
  | cons n ns ih =>
    cases lens with
    | nil => trivial
    | cons len lens =>
      obtain ⟨hn, hw⟩ := hw
      have hshort : n < len → ns.sum = 0 := by
        intro hlt
        by_contra hpos
        obtain ⟨rest, hrest⟩ := h (List.replicate len 0 :: lens.map fun l => List.replicate l 1)
          (by simp [Function.comp_def])
        have hcons : gather (n :: ns)
            (List.replicate len 0 :: lens.map fun l => List.replicate l 1) =
            List.replicate n 0 ++ List.replicate ns.sum 1 := by
          rw [← gather_replicate 1 hw, ← Nat.min_eq_left hn, ← List.take_replicate,
            Nat.min_eq_left hn]
          rfl
        rw [hcons, List.flatten_cons, replicate_split hn, List.append_assoc, List.append_assoc]
          at hrest
        have hnext := List.append_cancel_left hrest
        exact absurd (replicate_head_eq (Nat.pos_of_ne_zero hpos) (by omega) hnext) (by decide)
      apply contiguous_cons hshort
      intro hge
      refine ih hw fun iov hiov => ?_
      have hfull := h (List.replicate len 0 :: iov) (by simp [hiov])
      have hcons : gather (n :: ns) (List.replicate len 0 :: iov) =
          (List.replicate len 0).take n ++ gather ns iov := rfl
      rw [hcons, List.take_of_length_le (by simpa using hge), List.flatten_cons,
        List.prefix_append_right_inj] at hfull
      exact hfull

end Gather

section Scatter

variable {ds iov : List (List Byte)}

theorem flatten_eq_nil_of_sum (h : (ds.map List.length).sum = 0) : ds.flatten = [] := by
  rw [← List.length_eq_zero_iff, List.length_flatten]
  exact h

theorem flatten_ones (ns : List ℕ) :
    (ns.map fun n => List.replicate n (1 : Byte)).flatten = List.replicate ns.sum 1 := by
  induction ns with
  | nil => rfl
  | cons n ns ih => rw [List.map_cons, List.flatten_cons, ih, List.sum_cons, List.replicate_add]

theorem scatter_nothing (h : ds.flatten = []) : scatter ds iov = iov := by
  induction ds generalizing iov with
  | nil => cases iov <;> rfl
  | cons bytes ds ih =>
    rw [List.flatten_cons, List.append_eq_nil_iff] at h
    cases iov with
    | nil => rfl
    | cons buf iov =>
      rw [scatter, h.1, ih h.2]
      rfl

theorem scatter_of_contiguous (hw : Within (ds.map List.length) (iov.map List.length))
    (h : Contiguous (iov.map List.length) (ds.map List.length)) :
    (scatter ds iov).flatten = ds.flatten ++ iov.flatten.drop ds.flatten.length := by
  induction ds generalizing iov with
  | nil => cases iov <;> rfl
  | cons bytes ds ih =>
    cases iov with
    | nil => exact hw.elim
    | cons buf iov =>
      obtain ⟨hshort, hrest⟩ := h
      obtain ⟨hn, hw⟩ := hw
      rw [scatter, List.flatten_cons, List.flatten_cons, List.flatten_cons, List.length_append]
      by_cases hlt : bytes.length < buf.length
      · have hnone := flatten_eq_nil_of_sum (hshort hlt)
        rw [scatter_nothing hnone, hnone, List.append_nil, List.length_nil, Nat.add_zero,
          List.drop_append_of_le_length hn, List.append_assoc]
      · have hfull : buf.drop bytes.length = [] := List.drop_of_length_le (by omega)
        have heq : bytes.length = buf.length := by omega
        rw [hfull, List.append_nil, ih hw hrest, heq, List.drop_append, List.append_assoc]
        simp

/-- Ones delivered into buffers of zeros. -/
theorem contiguous_of_scatter {lens ns : List ℕ} (hw : Within ns lens)
    (h : (scatter (ns.map fun n => List.replicate n 1)
        (lens.map fun len => List.replicate len 0)).flatten =
      (ns.map fun n => List.replicate n 1).flatten ++
        (lens.map fun len => List.replicate len 0).flatten.drop
          (ns.map fun n => List.replicate n (1 : Byte)).flatten.length) :
    Contiguous lens ns := by
  induction ns generalizing lens with
  | nil => cases lens <;> trivial
  | cons n ns ih =>
    cases lens with
    | nil => trivial
    | cons len lens =>
      obtain ⟨hn, hw⟩ := hw
      simp only [List.map_cons, scatter, List.flatten_cons, List.length_append,
        List.length_replicate, List.drop_replicate, List.append_assoc] at h
      have hnext := List.append_cancel_left h
      have hshort : n < len → ns.sum = 0 := by
        intro hlt
        by_contra hpos
        rw [flatten_ones] at hnext
        have hhead := replicate_head_eq (by omega) (Nat.pos_of_ne_zero hpos) hnext
        exact absurd hhead (by decide)
      apply contiguous_cons hshort
      intro hge
      apply ih hw
      have heq : n = len := Nat.le_antisymm hn hge
      rw [heq, Nat.sub_self, List.replicate_zero, List.nil_append, List.drop_append] at hnext
      simpa using hnext

end Scatter

def ReturnsCount (ret : ℤ) (moved : List Byte) : Prop :=
  ret = moved.length ∨ ret = -1 ∧ moved = []

def WritevOk (iov : List (List Byte)) (rs : List (Option ℕ)) : Prop :=
  ∃ o, myWritev Sink.write iov ⟨rs, []⟩ = some o ∧ o.file.sent <+: iov.flatten ∧
    ReturnsCount o.ret o.file.sent

/-- In order and without gaps: the bytes received, and behind them what was there before. -/
def ReadvOk (iov : List (List Byte)) (as : List (Option (List Byte))) : Prop :=
  ∃ o, myReadv Source.read iov ⟨as, []⟩ = some o ∧
    o.iov.flatten = o.file.received ++ iov.flatten.drop o.file.received.length ∧
    ReturnsCount o.ret o.file.received

/-- The results under which the loop does what `readv` and `writev` do. -/
structure Orderly (lens : List ℕ) (rs : List (Option ℕ)) : Prop where
  few : (counts rs).length ≤ intMax
  small : ((counts rs).sum : ℤ) < ssizeMax
  error_first : none ∈ rs → (counts rs).sum = 0
  contiguous : Contiguous lens (counts rs)

section Results

variable {rs : List (Option ℕ)} {r : ℤ × List ℕ} {moved : List Byte}

theorem made_of_small (hr : afterResults 0 0 rs = some r)
    (hsmall : ((counts rs).sum : ℤ) < ssizeMax) :
    (counts rs).length ≤ intMax ∧
      r = (if none ∈ rs then -1 else ((counts rs).sum : ℤ), counts rs) := by
  rw [afterResults_small le_rfl (by omega) (Nat.zero_le _), Nat.zero_add, Int.zero_add] at hr
  split at hr
  · next hfew => exact ⟨hfew, (Option.some.inj hr).symm⟩
  · cases hr

theorem Orderly.results {lens : List ℕ} (h : Orderly lens rs) :
    ∃ r, afterResults 0 0 rs = some r ∧ r.2 = counts rs := by
  have hsmall := h.small
  have hfew := h.few
  rw [afterResults_small le_rfl (by omega) (Nat.zero_le _), if_pos (by omega)]
  exact ⟨_, rfl, rfl⟩

theorem returnsCount_iff (hr : afterResults 0 0 rs = some r) (hmoved : moved.length = r.2.sum) :
    ReturnsCount r.1 moved ↔
      ((counts rs).sum : ℤ) < ssizeMax ∧ (none ∈ rs → (counts rs).sum = 0) := by
  rw [ReturnsCount, ← List.length_eq_zero_iff]
  by_cases hsmall : ((counts rs).sum : ℤ) < ssizeMax
  · obtain ⟨-, rfl⟩ := made_of_small hr hsmall
    simp only [hmoved, hsmall, true_and]
    by_cases herror : none ∈ rs
    · simp only [herror, if_true, true_and, forall_const]
      omega
    · simp [herror]
  · obtain ⟨hret, hsum⟩ := @afterResults_large rs 0 0 0 r hr (by decide) (by decide) (by decide)
      (by omega)
    have hpos : 0 < ssizeMax := by decide
    simp only [hsmall, false_and, iff_false]
    omega

theorem within_made {lens : List ℕ} (hgives : Gives lens rs) (hr : afterResults 0 0 rs = some r) :
    Within r.2 lens := by
  rw [afterResults_made hr]
  exact within_take _ (within_counts hgives)

end Results

theorem exists_some_iff {α β γ : Type} {x : Option α} {y : Option β} {f : α → γ} {g : β → γ}
    (h : x.map f = y.map g) (P : γ → Prop) :
    (∃ a, x = some a ∧ P (f a)) ↔ ∃ b, y = some b ∧ P (g b) := by
  cases x <;> cases y <;> simp_all

section Writev

variable {iov : List (List Byte)} {rs : List (Option ℕ)}

theorem writevOk_iff (hne : iov ≠ []) (hlen : iov.length = rs.length) : WritevOk iov rs ↔
    ∃ r, afterResults 0 0 rs = some r ∧ gather r.2 iov <+: iov.flatten ∧
      ReturnsCount r.1 (gather r.2 iov) := by
  rw [WritevOk, myWritev, transferv_of_ne hne]
  exact exists_some_iff (@writev_sink iov rs 0 0 [] hlen)
    fun x => x.2 <+: iov.flatten ∧ ReturnsCount x.1 x.2

theorem writev_iff {lens : List ℕ} (hne : lens ≠ []) (hgives : Gives lens rs) :
    (∀ iov : List (List Byte), iov.map List.length = lens → WritevOk iov rs) ↔
      Orderly lens rs := by
  have hok : ∀ iov : List (List Byte), iov.map List.length = lens → (WritevOk iov rs ↔
      ∃ r, afterResults 0 0 rs = some r ∧ gather r.2 iov <+: iov.flatten ∧
        ReturnsCount r.1 (gather r.2 iov)) := by
    rintro iov rfl
    refine writevOk_iff (by simpa using hne) ?_
    simpa using hgives.length_eq
  have hmoved : ∀ (iov : List (List Byte)) (r : ℤ × List ℕ), iov.map List.length = lens →
      afterResults 0 0 rs = some r → (gather r.2 iov).length = r.2.sum := by
    rintro iov r rfl hr
    exact gather_length (within_made hgives hr)
  constructor
  · intro h
    have hzeros : (lens.map fun len => List.replicate len (0 : Byte)).map List.length = lens := by
      simp [Function.comp_def]
    obtain ⟨r, hr, -, hret⟩ := (hok _ hzeros).mp (h _ hzeros)
    obtain ⟨hsmall, herror⟩ := (returnsCount_iff hr (hmoved _ r hzeros hr)).mp hret
    obtain ⟨hfew, rfl⟩ := made_of_small hr hsmall
    refine ⟨hfew, hsmall, herror, contiguous_of_gather (within_counts hgives) fun iov hiov => ?_⟩
    obtain ⟨r', hr', hsent, -⟩ := (hok iov hiov).mp (h iov hiov)
    cases hr.symm.trans hr'
    exact hsent
  · intro h iov hiov
    obtain ⟨r, hr, hmade⟩ := h.results
    refine (hok iov hiov).mpr ⟨r, hr, ?_,
      (returnsCount_iff hr (hmoved iov r hiov hr)).mpr ⟨h.small, h.error_first⟩⟩
    subst lens
    rw [hmade]
    exact gather_of_contiguous (within_counts hgives) h.contiguous

end Writev

section Readv

variable {iov : List (List Byte)} {as : List (Option (List Byte))} {rs : List (Option ℕ)}

def delivered (as : List (Option (List Byte))) (made : List ℕ) : List (List Byte) :=
  (arrived as).take made.length

theorem readvOk_iff (hne : iov ≠ []) (hlen : iov.length = as.length) : ReadvOk iov as ↔
    ∃ r, afterResults 0 0 (sizes as) = some r ∧
      (scatter (delivered as r.2) iov).flatten =
        (delivered as r.2).flatten ++ iov.flatten.drop (delivered as r.2).flatten.length ∧
      ReturnsCount r.1 (delivered as r.2).flatten := by
  rw [ReadvOk, myReadv, transferv_of_ne hne]
  exact exists_some_iff (@readv_source iov as 0 0 [] hlen) fun x =>
    x.2.2.flatten = x.2.1 ++ iov.flatten.drop x.2.1.length ∧ ReturnsCount x.1 x.2.1

theorem delivered_length {r : ℤ × List ℕ} (hr : afterResults 0 0 (sizes as) = some r) :
    (delivered as r.2).flatten.length = r.2.sum := by
  have hmade := afterResults_made hr
  rw [counts_sizes, ← List.map_take] at hmade
  rw [List.length_flatten, delivered, ← hmade]

theorem delivered_counts (as : List (Option (List Byte))) :
    delivered as (counts (sizes as)) = arrived as := by
  rw [delivered, counts_sizes, List.length_map, List.take_length]

def ones (rs : List (Option ℕ)) : List (Option (List Byte)) :=
  rs.map (Option.map fun n => List.replicate n 1)

theorem sizes_ones (rs : List (Option ℕ)) : sizes (ones rs) = rs := by
  simp [sizes, ones, Function.comp_def]

theorem arrived_ones (rs : List (Option ℕ)) :
    arrived (ones rs) = (counts rs).map fun n => List.replicate n 1 := by
  induction rs with
  | nil => rfl
  | cons r rs ih =>
    cases r with
    | none => rfl
    | some n => exact congrArg _ ih

theorem readv_iff {lens : List ℕ} (hne : lens ≠ []) (hgives : Gives lens rs) :
    (∀ (iov : List (List Byte)) (as : List (Option (List Byte))),
      iov.map List.length = lens → sizes as = rs → ReadvOk iov as) ↔ Orderly lens rs := by
  have hne' : ∀ iov : List (List Byte), iov.map List.length = lens → iov ≠ [] := by
    rintro iov rfl
    simpa using hne
  have hlen : ∀ (iov : List (List Byte)) (as : List (Option (List Byte))),
      iov.map List.length = lens → sizes as = rs → iov.length = as.length := by
    rintro iov as rfl rfl
    simpa [sizes] using hgives.length_eq
  constructor
  · intro h
    have hzeros : (lens.map fun len => List.replicate len (0 : Byte)).map List.length = lens := by
      simp [Function.comp_def]
    have hones := sizes_ones rs
    obtain ⟨r, hr, hplaced, hret⟩ := (readvOk_iff (hne' _ hzeros) (hlen _ _ hzeros hones)).mp
      (h _ _ hzeros hones)
    obtain ⟨hsmall, herror⟩ := (returnsCount_iff hr (delivered_length hr)).mp hret
    obtain ⟨hfew, rfl⟩ := made_of_small hr hsmall
    rw [delivered_counts, arrived_ones] at hplaced
    rw [hones] at hfew hsmall herror
    exact ⟨hfew, hsmall, herror, contiguous_of_scatter (within_counts hgives) hplaced⟩
  · rintro h iov as rfl rfl
    obtain ⟨r, hr, hmade⟩ := h.results
    refine (readvOk_iff (hne' iov rfl) (hlen iov as rfl rfl)).mpr ⟨r, hr, ?_,
      (returnsCount_iff hr (delivered_length hr)).mpr ⟨h.small, h.error_first⟩⟩
    rw [hmade, delivered_counts]
    have hw := within_counts hgives
    have hc := h.contiguous
    rw [counts_sizes] at hw hc
    exact scatter_of_contiguous hw hc

end Readv

/-- Whatever the bytes are, both functions do what `writev` and `readv` do exactly under orderly
results: an `int` counts the calls that succeed, the bytes are fewer than SSIZE_MAX, an error
comes before any byte, and a call that transfers less than it was asked for is the last to
transfer anything. -/
theorem short_transfers_iff (lens : List ℕ) (rs : List (Option ℕ)) (hne : lens ≠ [])
    (hgives : Gives lens rs) :
    ((∀ iov : List (List Byte), iov.map List.length = lens → WritevOk iov rs) ↔
      Orderly lens rs) ∧
    ((∀ (iov : List (List Byte)) (as : List (Option (List Byte))),
      iov.map List.length = lens → sizes as = rs → ReadvOk iov as) ↔ Orderly lens rs) :=
  ⟨writev_iff hne hgives, readv_iff hne hgives⟩

theorem short_last_write_ok : WritevOk [ascii "ab", ascii "cd"] [some 2, some 1] := by
  have hgives : Gives [2, 2] [some 2, some 1] := .cons (by simp) (.cons (by simp) .nil)
  have horderly : Orderly [2, 2] [some 2, some 1] :=
    ⟨by decide, by decide, by simp, by simp [counts, Contiguous]⟩
  exact (short_transfers_iff _ _ (by simp) hgives).1.mpr horderly _ (by decide)

/-- A byte is left out behind a short write, and a gap is left behind a short read; an error
behind a complete write hides what was written. -/
theorem short_transfers_misplaced :
    (myWritev Sink.write [ascii "ab", ascii "cd"] ⟨[some 1, some 2], []⟩).map (·.file.sent) =
        some (ascii "acd") ∧
      ¬ WritevOk [ascii "ab", ascii "cd"] [some 1, some 2] ∧
      (myReadv Source.read [ascii "..", ascii ".."]
        ⟨[some (ascii "a"), some (ascii "bc")], []⟩).map (·.iov) =
        some [ascii "a.", ascii "bc"] ∧
      (myWritev Sink.write [ascii "ab", ascii "cd"] ⟨[some 2, none], []⟩).map
        (fun o => (o.ret, o.file.sent)) = some (-1, ascii "ab") := by
  have hsent : (myWritev Sink.write [ascii "ab", ascii "cd"] ⟨[some 1, some 2], []⟩).map
      (·.file.sent) = some (ascii "acd") := by decide
  refine ⟨hsent, ?_, by decide, by decide⟩
  rintro ⟨o, ho, hpre, -⟩
  obtain ⟨o', ho', hacd⟩ := Option.map_eq_some_iff.mp hsent
  cases ho.symm.trans ho'
  rw [hacd] at hpre
  exact absurd hpre (by decide)

end AnyResults

end ScatterGather
