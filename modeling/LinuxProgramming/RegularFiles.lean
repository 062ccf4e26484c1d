import LinuxProgramming.CharStrings
import Mathlib.Algebra.Group.Int.Defs
import Mathlib.Algebra.Group.Nat.Defs
import Mathlib.Data.List.DropRight

/-! Regular files as the calls on them see them: the bytes, holes counting as zeros, the offset
of an open file, and the chunks in which successive reads deliver the bytes. -/
namespace RegularFiles

open CharStrings

structure FileContent where
  bytes : List Byte
  size_lt : bytes.length < 2 ^ 63

/-- The results of successive reads, from some offset up to the end of the file. -/
structure Chunking (limit : ℕ) (bytes : List Byte) where
  chunks : List (List Byte)
  delivered : chunks.flatten = bytes
  bounded : ∀ chunk ∈ chunks, 0 < chunk.length ∧ chunk.length ≤ limit

namespace Chunking

variable {limit : ℕ} {bytes : List Byte}

def bytewise (h : 0 < limit) (bytes : List Byte) : Chunking limit bytes where
  chunks := bytes.map fun b => [b]
  delivered := by
    induction bytes with
    | nil => rfl
    | cons b bytes ih => simp [ih]
  bounded chunk hc := by
    obtain ⟨b, -, rfl⟩ := List.mem_map.mp hc
    exact ⟨Nat.one_pos, h⟩

def whole (hne : bytes ≠ []) (hlimit : bytes.length ≤ limit) : Chunking limit bytes where
  chunks := [bytes]
  delivered := by simp
  bounded chunk hc := by
    rw [List.mem_singleton.mp hc]
    exact ⟨List.length_pos_iff.mpr hne, hlimit⟩

def atOnce (h : 0 < limit) (bytes : List Byte) : Chunking limit bytes :=
  if hall : bytes ≠ [] ∧ bytes.length ≤ limit then whole hall.1 hall.2 else bytewise h bytes

theorem atOnce_chunks (h : 0 < limit) (hne : bytes ≠ []) (hlimit : bytes.length ≤ limit) :
    (atOnce h bytes).chunks = [bytes] := by
  rw [atOnce, dif_pos ⟨hne, hlimit⟩, whole]

theorem mem_of_mem_chunk (reads : Chunking limit bytes) {chunk : List Byte}
    (hc : chunk ∈ reads.chunks) {b : Byte} (hb : b ∈ chunk) : b ∈ bytes := by
  rw [← reads.delivered]
  exact List.mem_flatten.mpr ⟨chunk, hc, hb⟩

/-- What goes over the chunks byte by byte does not depend on where they are cut. -/
theorem foldl_chunks {σ : Type u} (f : σ → Byte → σ) (s : σ) (reads : Chunking limit bytes) :
    reads.chunks.foldl (fun s chunk => chunk.foldl f s) s = bytes.foldl f s := by
  rw [← List.foldl_flatten, reads.delivered]

end Chunking

@[ext] structure RegularFile where
  content : List Byte
  offset : ℕ

namespace RegularFile

def empty : RegularFile := ⟨[], 0⟩

/-- The bytes up to the offset; what lies between the end of the file and the offset reads as
zeros. -/
def before (f : RegularFile) : List Byte :=
  f.content.take f.offset ++ List.replicate (f.offset - f.content.length) 0

/-- A write behind the end leaves a hole; a write of nothing leaves the file as it is. -/
def write (f : RegularFile) (bytes : List Byte) : RegularFile :=
  match bytes with
  | [] => f
  | b :: bs =>
    { content := f.before ++ (b :: bs) ++ f.content.drop (f.offset + (b :: bs).length)
      offset := f.offset + (b :: bs).length }

/-- A read is short only at the end of the file. -/
def read (f : RegularFile) (n : ℕ) : List Byte × RegularFile :=
  let bytes := (f.content.drop f.offset).take n
  (bytes, { f with offset := f.offset + bytes.length })

/-- `lseek` with `SEEK_CUR`; the offset has to stay an `off_t` that is not negative. -/
def seekCur (f : RegularFile) (distance : ℤ) : Option RegularFile :=
  if 0 ≤ f.offset + distance ∧ f.offset + distance < 2 ^ 63 then
    some { f with offset := (f.offset + distance).toNat }
  else none

def seekSet (f : RegularFile) (offset : ℕ) : RegularFile := { f with offset := offset }

variable {f g : RegularFile} {bytes : List Byte}

theorem before_length (f : RegularFile) : f.before.length = f.offset := by
  rw [before, List.length_append, List.length_take, List.length_replicate]
  omega

theorem write_nil (f : RegularFile) : f.write [] = f := rfl

theorem write_content (h : bytes ≠ []) :
    (f.write bytes).content = f.before ++ bytes ++ f.content.drop (f.offset + bytes.length) := by
  cases bytes with
  | nil => exact absurd rfl h
  | cons b bs => rfl

theorem write_offset (f : RegularFile) (bytes : List Byte) :
    (f.write bytes).offset = f.offset + bytes.length := by
  cases bytes <;> rfl

theorem write_behind (h : f.content.length ≤ f.offset) (hne : bytes ≠ []) :
    (f.write bytes).content =
      f.content ++ List.replicate (f.offset - f.content.length) 0 ++ bytes := by
  have hdrop : f.content.drop (f.offset + bytes.length) = [] :=
    List.drop_of_length_le (by omega)
  rw [write_content hne, before, List.take_of_length_le h, hdrop, List.append_nil]

theorem drop_write (f : RegularFile) (bytes : List Byte) :
    (f.write bytes).content.drop f.offset =
      bytes ++ f.content.drop (f.offset + bytes.length) := by
  by_cases hne : bytes = []
  · rw [hne]
    rfl
  · rw [write_content hne, List.append_assoc, List.drop_left' f.before_length]

theorem write_append (f : RegularFile) (xs ys : List Byte) :
    (f.write xs).write ys = f.write (xs ++ ys) := by
  by_cases hx : xs = []
  · rw [hx, write_nil, List.nil_append]
  by_cases hy : ys = []
  · rw [hy, write_nil, List.append_nil]
  have hxy : xs ++ ys ≠ [] := by simp [hx]
  have hlen : (f.before ++ xs).length = f.offset + xs.length := by
    rw [List.length_append, before_length]
  have hbefore : (f.write xs).before = f.before ++ xs := by
    have hzero : f.offset + xs.length - (f.write xs).content.length = 0 := by
      rw [write_content hx, List.length_append, hlen]
      omega
    rw [before, write_offset, hzero, List.replicate_zero, List.append_nil, write_content hx,
      List.take_left' hlen]
  have hdrop : (f.write xs).content.drop (f.offset + xs.length + ys.length) =
      f.content.drop (f.offset + (xs ++ ys).length) := by
    rw [← List.drop_drop, write_content hx, List.drop_left' hlen, List.drop_drop,
      List.length_append, Nat.add_assoc]
  have hcontent : ((f.write xs).write ys).content = (f.write (xs ++ ys)).content := by
    rw [write_content hy, write_content hxy, hbefore, write_offset, hdrop,
      List.append_assoc f.before]
  have hoffset : ((f.write xs).write ys).offset = (f.write (xs ++ ys)).offset := by
    rw [write_offset, write_offset, write_offset, List.length_append, Nat.add_assoc]
  exact RegularFile.ext hcontent hoffset

theorem seekCur_forward {d : ℕ} (h : f.offset + d < 2 ^ 63) :
    f.seekCur d = some { f with offset := f.offset + d } := by
  rw [seekCur, if_pos (by omega)]
  simp only [Option.some.injEq, mk.injEq, true_and]
  omega

end RegularFile

end RegularFiles
