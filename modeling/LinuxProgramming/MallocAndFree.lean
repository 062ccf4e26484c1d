import LinuxProgramming.ByteMemory

/-! The allocator of `malloc_and_free.c` over byte-addressed memory. A `block_meta` takes 32
bytes: `size` at 0, `free` at 8, `next_block` at 16, `prev_block` at 24, and pointers are
numbers with 0 for `NULL`. The search writes its out-parameter, which the source calls `last`
where it declares `head`. -/
namespace MallocAndFree

open ByteMemory

abbrev Size := BitVec 64

def metaSize : ℕ := 32

/-- `(void *) -1`, which is never the address of the break. -/
def noAddress : ℕ := 2 ^ 64 - 1

structure Heap where
  memory : Memory
  programBreak : ℕ
  headBlockMeta : ℕ

namespace Heap

def size (h : Heap) (block : ℕ) : ℕ := loadNat h.memory 8 block
def free (h : Heap) (block : ℕ) : Bool := h.memory (block + 8) != 0
def nextBlock (h : Heap) (block : ℕ) : ℕ := loadNat h.memory 8 (block + 16)
def prevBlock (h : Heap) (block : ℕ) : ℕ := loadNat h.memory 8 (block + 24)

def setSize (h : Heap) (block x : ℕ) : Heap := { h with memory := storeNat h.memory 8 block x }
def setFree (h : Heap) (block : ℕ) (v : Bool) : Heap :=
  { h with memory := setByte h.memory (block + 8) (if v then 1 else 0) }
def setNextBlock (h : Heap) (block p : ℕ) : Heap :=
  { h with memory := storeNat h.memory 8 (block + 16) p }
def setPrevBlock (h : Heap) (block p : ℕ) : Heap :=
  { h with memory := storeNat h.memory 8 (block + 24) p }

end Heap

def empty (start : ℕ) : Heap := ⟨fun _ => 0, start, 0⟩

/-- The kernel may refuse, and it has to where the break would leave the address space. -/
def sbrk (granted : Bool) (increment : Int) (h : Heap) : ℕ × Heap :=
  let moved := (h.programBreak : Int) + increment
  if granted ∧ 0 ≤ moved ∧ moved < noAddress then
    (h.programBreak, { h with programBreak := moved.toNat })
  else (noAddress, h)

/-- The end of `allocate_space`: the new block is linked behind `last`. Its flag is not
written. -/
def enterBlock (last newBlock : ℕ) (size : Size) (h : Heap) : Heap :=
  let h := if last ≠ 0 then (h.setNextBlock last newBlock).setPrevBlock newBlock last else h
  let h := h.setSize newBlock size.toNat
  h.setNextBlock newBlock 0

/-- The request is a `size_t` that `sbrk` takes for a signed number. -/
def allocateSpace (granted : Bool) (last : ℕ) (size : Size) (h : Heap) : ℕ × Heap :=
  let newBlock := h.programBreak
  let (requested, h) := sbrk granted (size + BitVec.ofNat 64 metaSize).toInt h
  if newBlock ≠ requested then (0, h)
  else if requested = noAddress then (0, h)
  else (newBlock, enterBlock last newBlock size h)

/-- The loop of `search_free_space`: the block found, or `NULL`, and the out-parameter. -/
def searchFrom (h : Heap) (size : Size) : ℕ → ℕ → ℕ → Option (ℕ × ℕ)
  | 0, _, _ => none
  | fuel + 1, current, head =>
    if current = 0 then some (0, head)
    else if h.free current ∧ size.toNat ≤ h.size current then some (current, head)
    else searchFrom h size fuel (h.nextBlock current) current

/-- A list without a cycle has at most one block for each address. -/
def searchFreeSpace (h : Heap) (size : Size) (head : ℕ) : Option (ℕ × ℕ) :=
  searchFrom h size (2 ^ 64 + 1) h.headBlockMeta head

def myMalloc (granted : Bool) (size : Size) (h : Heap) : Option (ℕ × Heap) :=
  if size.toNat ≤ 0 then some (0, h)
  else if h.headBlockMeta = 0 then
    let (newBlock, h) := allocateSpace granted 0 size h
    if newBlock = 0 then some (0, h)
    else some (newBlock + metaSize, { h with headBlockMeta := newBlock })
  else
    match searchFreeSpace h size h.headBlockMeta with
    | none => none
    | some (newBlock, head) =>
      if newBlock = 0 then
        let (newBlock, h) := allocateSpace granted head size h
        if newBlock = 0 then some (0, h)
        else some (newBlock + metaSize, h)
      else some (newBlock + metaSize, h.setFree newBlock false)

/-- `ptr - 1` is one byte less, not one block less. -/
def free (ptr : ℕ) (h : Heap) : Heap :=
  if ptr = 0 then h
  else
    let block := ptr - 1
    h.setFree block true

end MallocAndFree
