import LinuxProgramming.CharStrings
import LinuxProgramming.DoublyLinkedLists

/-! The hash table of `uthash.h`, as far as `HASH_FIND`, `HASH_ADD`, `HASH_DELETE` and
`HASH_FSCK` go. Each element is a memory block with a handle in it. The handles are in two
doubly linked lists at once: the one of all elements in the order of insertion, and the one of
their bucket. When a bucket gets too long the number of buckets is doubled.

The address of a handle stands for that of its element. There is one table, so the field `tbl`
of a handle is left out and the table goes along with the head of the list. -/
namespace Uthash

open BlockMemory CharStrings DoublyLinkedLists

structure Handle where
  prev : Option Addr
  next : Option Addr
  hhPrev : Option Addr
  hhNext : Option Addr
  keylen : ℕ
  hashv : UInt32
  deriving DecidableEq

structure Element (α : Type) where
  item : α
  hh : Handle
  deriving DecidableEq

structure Bucket where
  hhHead : Option Addr
  count : ℕ
  expandMult : ℕ
  deriving DecidableEq

/-- `UT_hash_table`; `num_buckets` is the length of the array. The numbers are `unsigned` in the
source; that they do not wrap around, with fewer than 2^31 buckets and 2^28 elements, is
`Holds.inRange`. -/
structure Table where
  buckets : List Bucket
  log2NumBuckets : ℕ
  numItems : ℕ
  tail : Option Addr
  idealChainMaxlen : ℕ
  nonidealItems : ℕ
  ineffExpands : ℕ
  noexpand : Bool
  deriving DecidableEq

def Table.numBuckets (tbl : Table) : ℕ := tbl.buckets.length

abbrev HashTable := Option (Addr × Table)

/-- Where the key of an item is, and what it is: the first bytes from there on. -/
structure KeyField (α : Type) where
  bytes : α → List Byte
  key : α → List Byte
  key_bytes : ∀ x, (bytes x).take (key x).length = key x

variable {α : Type}

def appOrder : Links (Element α) where
  prev e := e.hh.prev
  next e := e.hh.next
  setPrev p e := { e with hh := { e.hh with prev := p } }
  setNext p e := { e with hh := { e.hh with next := p } }
  core e := { e with hh := { e.hh with prev := none, next := none } }
  prev_setPrev _ _ := rfl
  next_setPrev _ _ := rfl
  prev_setNext _ _ := rfl
  next_setNext _ _ := rfl
  core_setPrev _ _ := rfl
  core_setNext _ _ := rfl

def bucketOrder : Links (Element α) where
  prev e := e.hh.hhPrev
  next e := e.hh.hhNext
  setPrev p e := { e with hh := { e.hh with hhPrev := p } }
  setNext p e := { e with hh := { e.hh with hhNext := p } }
  core e := { e with hh := { e.hh with hhPrev := none, hhNext := none } }
  prev_setPrev _ _ := rfl
  next_setPrev _ _ := rfl
  prev_setNext _ _ := rfl
  next_setNext _ _ := rfl
  core_setPrev _ _ := rfl
  core_setNext _ _ := rfl

def hashToBkt (hashv : UInt32) (numBkts : ℕ) : ℕ := hashv.toNat &&& (numBkts - 1)

def bucketAt (buckets : List Bucket) (bkt : ℕ) : Program (Element α) Bucket :=
  match buckets[bkt]? with
  | some b => pure b
  | none => throw .outOfBounds

/-- The loops follow links. No list is longer than the memory, so this many rounds are enough. -/
def rounds : Program (Element α) ℕ := fun h => .ok (h.fresh + 1, h)

section Find

variable (K : KeyField α) (hash : List Byte → UInt32)

/-- `HASH_KEYCMP` is only asked for keys of the right hash value and length. -/
def hashFindInBkt (key : List Byte) (hashval : UInt32) :
    ℕ → Option Addr → Program (Element α) (Option Addr)
  | 0, _ => throw .outOfFuel
  | _ + 1, none => return none
  | fuel + 1, some out => do
    let e ← load (some out)
    if e.hh.hashv = hashval ∧ e.hh.keylen = key.length ∧ (K.bytes e.item).take key.length = key
    then return some out
    else hashFindInBkt key hashval fuel e.hh.hhNext

def hashFind (head : HashTable) (key : List Byte) : Program (Element α) (Option Addr) := do
  match head with
  | none => return none
  | some (_, tbl) =>
    let hashv := hash key
    let b ← bucketAt tbl.buckets (hashToBkt hashv tbl.numBuckets)
    hashFindInBkt K key hashv (← rounds) b.hhHead

end Find

section Add

def Bucket.receive (ideal : ℕ) (b : Bucket) : Bucket × ℕ :=
  if ideal < b.count + 1 then
    if b.expandMult * ideal < b.count + 1 then
      ({ b with count := b.count + 1, expandMult := b.expandMult + 1 }, 1)
    else ({ b with count := b.count + 1 }, 1)
  else ({ b with count := b.count + 1 }, 0)

def expandChain (ideal : ℕ) :
    ℕ → Option Addr → List Bucket × ℕ → Program (Element α) (List Bucket × ℕ)
  | 0, _, _ => throw .outOfFuel
  | _ + 1, none, s => return s
  | fuel + 1, some thh, (newBuckets, nonideal) => do
    let e ← load (some thh)
    let bkt := hashToBkt e.hh.hashv newBuckets.length
    let newbkt ← bucketAt newBuckets bkt
    let (received, more) := newbkt.receive ideal
    pushFront bucketOrder thh newbkt.hhHead
    expandChain ideal fuel e.hh.hhNext
      (newBuckets.set bkt { received with hhHead := some thh }, nonideal + more)

def expandChains (ideal : ℕ) :
    List Bucket → List Bucket × ℕ → Program (Element α) (List Bucket × ℕ)
  | [], s => return s
  | b :: bs, s => do
    let s ← expandChain ideal (← rounds) b.hhHead s
    expandChains ideal bs s

def idealChainLength (numItems log2NumBuckets numBuckets : ℕ) : ℕ :=
  numItems >>> (log2NumBuckets + 1) + if numItems &&& (numBuckets * 2 - 1) ≠ 0 then 1 else 0

/-- The fields of the table after its elements have been distributed. Two ineffective expansions
in a row are the last ones. -/
def Table.redistributed (tbl : Table) (ideal : ℕ) (s : List Bucket × ℕ) : Table :=
  let ineff := if tbl.numItems >>> 1 < s.2 then tbl.ineffExpands + 1 else 0
  { tbl with
    buckets := s.1
    log2NumBuckets := tbl.log2NumBuckets + 1
    idealChainMaxlen := ideal
    nonidealItems := s.2
    ineffExpands := ineff
    noexpand := if 1 < ineff then true else tbl.noexpand }

def hashExpandBuckets (tbl : Table) : Program (Element α) Table := do
  let ideal := idealChainLength tbl.numItems tbl.log2NumBuckets tbl.numBuckets
  let s ← expandChains ideal tbl.buckets
    (List.replicate (tbl.numBuckets * 2) ⟨none, 0, 0⟩, 0)
  return tbl.redistributed ideal s

/-- No result means that `uthash_malloc` has failed and the process has ended. -/
def hashAddToBkt (granted : Bool) (tbl : Table) (bkt : ℕ) (add : Addr) :
    Program (Element α) (Option Table) := do
  let b ← bucketAt tbl.buckets bkt
  pushFront bucketOrder add b.hhHead
  let b := { b with count := b.count + 1, hhHead := some add }
  let tbl := { tbl with buckets := tbl.buckets.set bkt b }
  if (b.expandMult + 1) * 10 ≤ b.count ∧ tbl.noexpand = false then
    if granted then return some (← hashExpandBuckets tbl) else return none
  else return some tbl

def hashMakeTable (head : Addr) : Table where
  buckets := List.replicate 32 ⟨none, 0, 0⟩
  log2NumBuckets := 5
  numItems := 0
  tail := some head
  idealChainMaxlen := 0
  nonidealItems := 0
  ineffExpands := 0
  noexpand := false

def hashEnterList (granted : Bool) (head : HashTable) (add : Addr) :
    Program (Element α) (Option (Addr × Table)) :=
  match head with
  | none => do
    store (some add) (appOrder.setNext none)
    store (some add) (appOrder.setPrev none)
    if granted then return some (add, hashMakeTable add) else return none
  | some (first, tbl) => do
    pushBack appOrder add tbl.tail
    return some (first, { tbl with tail := some add })

/-- `granted` says whether the memory asked for during the call is there. -/
def hashAdd (K : KeyField α) (hash : List Byte → UInt32) (granted : Bool) (head : HashTable)
    (add : Addr) : Program (Element α) (Option HashTable) := do
  let key := K.key (← load (some add)).item
  store (some add) fun e => { e with hh := { e.hh with hashv := hash key } }
  store (some add) fun e => { e with hh := { e.hh with keylen := key.length } }
  match ← hashEnterList granted head add with
  | none => return none
  | some (first, tbl) =>
    let tbl := { tbl with numItems := tbl.numItems + 1 }
    match ← hashAddToBkt granted tbl (hashToBkt (hash key) tbl.numBuckets) add with
    | none => return none
    | some tbl => return some (some (first, tbl))

end Add

section Delete

def hashDelInBkt (tbl : Table) (bkt : ℕ) (del : Addr) : Program (Element α) Table := do
  let b ← bucketAt tbl.buckets bkt
  let e ← load (some del)
  bypass bucketOrder e.hh.hhPrev e.hh.hhNext
  let b := { b with
    count := b.count - 1
    hhHead := if b.hhHead = some del then e.hh.hhNext else b.hhHead }
  return { tbl with buckets := tbl.buckets.set bkt b }

/-- With its last element the table itself is released. Where the first element goes, the one
behind it is the first. -/
def hashDelete (head : HashTable) (del : Addr) : Program (Element α) HashTable := do
  let e ← load (some del)
  match head with
  | none => throw .invalidPointer
  | some (first, tbl) =>
    if e.hh.prev = none ∧ e.hh.next = none then return none
    else
      let tbl := { tbl with tail := if tbl.tail = some del then e.hh.prev else tbl.tail }
      bypass appOrder e.hh.prev e.hh.next
      let first := if e.hh.prev = none then e.hh.next.getD first else first
      let tbl ← hashDelInBkt tbl (hashToBkt e.hh.hashv tbl.numBuckets) del
      return some (first, { tbl with numItems := tbl.numItems - 1 })

end Delete

section Check

inductive Oops where
  | invalidHhPrev
  | invalidBucketCount
  | invalidHhItemCount
  | invalidPrev
  | invalidAppItemCount
  deriving DecidableEq

def checkLinks (L : Links (Element α)) :
    ℕ → Option Addr → Option Addr → ℕ → Program (Element α) (Option ℕ)
  | 0, _, _, _ => throw .outOfFuel
  | _ + 1, none, _, count => return some count
  | fuel + 1, some thh, prev, count => do
    let e ← load (some thh)
    if L.prev e = prev then checkLinks L fuel (L.next e) (some thh) (count + 1) else return none

def checkBuckets : List Bucket → ℕ → Program (Element α) (Except Oops ℕ)
  | [], count => return .ok count
  | b :: bs, count => do
    match ← checkLinks bucketOrder (← rounds) b.hhHead none 0 with
    | none => return .error .invalidHhPrev
    | some bktCount =>
      if b.count = bktCount then checkBuckets bs (count + bktCount)
      else return .error .invalidBucketCount

def hashFsck (head : HashTable) : Program (Element α) (Option Oops) := do
  match head with
  | none => return none
  | some (first, tbl) =>
    match ← checkBuckets tbl.buckets 0 with
    | .error oops => return some oops
    | .ok count =>
      if count ≠ tbl.numItems then return some .invalidHhItemCount
      else
        match ← checkLinks appOrder (← rounds) (some first) none 0 with
        | none => return some .invalidPrev
        | some count => return if count = tbl.numItems then none else some .invalidAppItemCount

end Check

end Uthash
