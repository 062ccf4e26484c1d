import LinuxProgramming.LinkedTable
import LinuxProgramming.FormattedScan

/-! The name-value server of `server.c`. The hash table is the list of its entries in the
order of insertion; how `HASH_FIND_STR` finds one is left open. Each entry is a block made
by `malloc`. A datagram goes through `buf`, `sscanf` and the two switches to one call. -/
namespace NameValueServer

open BlockMemory CharStrings DecimalText FormattedScan LinkedTable

abbrev Pid := BitVec 32

structure KeyValue where
  key : CharArray 64
  value : CharArray 256
  creatorPid : Pid
  deriving DecidableEq

def KeyValue.name (e : KeyValue) : CString := e.key.text

abbrev Uthash := Lookup KeyValue.name

inductive Diagnostic where
  | notAuthorizedToUpdate (client : Pid) (key : CString)
  | notAuthorizedToDelete (client : Pid) (key : CString)
  | invalidFormat
  | unknownAction
  deriving DecidableEq

def Diagnostic.text : Diagnostic → List Byte
  | .notAuthorizedToUpdate client key => ascii "Error: client " ++ formatInt client.toInt ++
      ascii " not authorized to update key " ++ key.bytes ++ ascii "\n"
  | .notAuthorizedToDelete client key => ascii "Error: client " ++ formatInt client.toInt ++
      ascii " not authorized to delete key " ++ key.bytes ++ ascii "\n"
  | .invalidFormat => ascii "Invalid format or not enough parts\n"
  | .unknownAction => ascii "unknown action"

structure Response where
  hashTable : List Addr
  reply : Option CString
  stderr : Option Diagnostic
  deriving DecidableEq

/-- `memory` is what `malloc` hands out, junk included; `none` when it fails. -/
def malloc (memory : Option KeyValue) : Program KeyValue (Option Addr) := fun h =>
  match memory with
  | some junk => .ok (some h.fresh, h.alloc junk)
  | none => .ok (none, h)

def hashFindStr (table : Uthash) (hashTable : List Addr) (key : CString) :
    Program KeyValue (Option Addr) := fun h => .ok (table.find h hashTable key, h)

/-- The length of the key is taken with `strlen` from the entry itself. -/
def hashAddStr (hashTable : List Addr) (kv : Option Addr) : Program KeyValue (List Addr) := do
  let e ← load kv
  if e.key.Terminated then return hashTable ++ kv.toList else throw .outOfBounds

def hashDel (hashTable : List Addr) (kv : Addr) : List Addr := hashTable.erase kv

/-- A failed `malloc` is reported and the NULL pointer is written through all the same. -/
def upsertValue (table : Uthash) (memory : Option KeyValue) (hashTable : List Addr)
    (key value : CString) (creatorId : Pid) : Program KeyValue Response := do
  match ← hashFindStr table hashTable key with
  | none =>
    let kv ← malloc memory
    store kv fun e => { e with key := strncpy 64 key }
    store kv fun e => { e with value := strncpy 256 value }
    store kv fun e => { e with creatorPid := creatorId }
    let hashTable ← hashAddStr hashTable kv
    return ⟨hashTable, none, none⟩
  | some kv =>
    let e ← load (some kv)
    if e.creatorPid = creatorId then
      store (some kv) fun e => { e with value := strncpy 256 value }
      return ⟨hashTable, none, none⟩
    else return ⟨hashTable, none, some (.notAuthorizedToUpdate creatorId key)⟩

def getValue (table : Uthash) (hashTable : List Addr) (key : CString) :
    Program KeyValue (Option (CharArray 256)) := do
  match ← hashFindStr table hashTable key with
  | none => return none
  | some kv =>
    let e ← load (some kv)
    return some e.value

def deleteKeyValue (table : Uthash) (hashTable : List Addr) (key : CString) (creatorId : Pid) :
    Program KeyValue Response := do
  match ← hashFindStr table hashTable key with
  | none => return ⟨hashTable, none, none⟩
  | some kv =>
    let e ← load (some kv)
    if e.creatorPid = creatorId then
      free (some kv)
      return ⟨hashDel hashTable kv, none, none⟩
    else return ⟨hashTable, none, some (.notAuthorizedToDelete creatorId key)⟩

structure Scanned where
  n : ℤ
  action : Byte
  creatorPid : Pid
  key : CString
  value : CString
  deriving DecidableEq

def format : List Directive :=
  [.char, .literal 58, .int, .literal 58, .excluding 58, .literal 58, .excluding 58]

/-- `%d` stores the `long` it has read into an `int`. -/
def toPid (z : ℤ) : Pid := BitVec.ofInt 32 (clampLong z)

/-- Variables that are not reached keep what they were set to before the scan. -/
def scan (text : CString) : Scanned :=
  let (n, fields) := sscanf format text.bytes
  match fields with
  | [.char a] => ⟨n, a, 0, stringOf [], stringOf []⟩
  | [.char a, .int z] => ⟨n, a, toPid z, stringOf [], stringOf []⟩
  | [.char a, .int z, .text k] => ⟨n, a, toPid z, stringOf k, stringOf []⟩
  | [.char a, .int z, .text k, .text v] => ⟨n, a, toPid z, stringOf k, stringOf v⟩
  | _ => ⟨n, 0, 0, stringOf [], stringOf []⟩

inductive Call where
  | invalidFormat
  | unknownAction
  | upsertValue (key value : CString) (creatorPid : Pid)
  | getValue (key : CString)
  | deleteKeyValue (key : CString) (creatorPid : Pid)
  deriving DecidableEq

def selectCall (s : Scanned) : Call :=
  if s.n < 3 then .invalidFormat
  else if s.n = 4 then
    -- 'c' or 'u'
    if s.action = 99 ∨ s.action = 117 then .upsertValue s.key s.value s.creatorPid
    else .unknownAction
  else
    -- 'r', 'd'
    if s.action = 114 then .getValue s.key
    else if s.action = 100 then .deleteKeyValue s.key s.creatorPid
    else .unknownAction

def keyNotFound : CString := ⟨ascii "Key not found", by decide⟩

/-- The reply to a read has the length that `strlen` finds. -/
def perform (table : Uthash) (memory : Option KeyValue) (hashTable : List Addr) :
    Call → Program KeyValue Response
  | .invalidFormat => return ⟨hashTable, none, some .invalidFormat⟩
  | .unknownAction => return ⟨hashTable, none, some .unknownAction⟩
  | .upsertValue key value pid => upsertValue table memory hashTable key value pid
  | .getValue key => do
    match ← getValue table hashTable key with
    | none => return ⟨hashTable, some keyNotFound, none⟩
    | some val =>
      if val.Terminated then return ⟨hashTable, some val.text, none⟩
      else throw .outOfBounds
  | .deleteKeyValue key pid => deleteKeyValue table hashTable key pid

structure Capacity where
  key : ℕ
  value : ℕ

def Capacity.declared : Capacity := ⟨64, 256⟩

def bufSize : ℕ := 512

/-- `buf` after `memset` and `recvfrom`; a longer datagram is cut off. -/
def receive (datagram : List Byte) : List Byte :=
  datagram.take bufSize ++ List.replicate (bufSize - datagram.length) 0

def serve (cap : Capacity) (table : Uthash) (memory : Option KeyValue) (hashTable : List Addr)
    (datagram : List Byte) : Program KeyValue Response := do
  let buf := receive datagram
  if 0 ∉ buf then throw .outOfBounds
  let s := scan (stringOf buf)
  if cap.key ≤ s.key.bytes.length ∨ cap.value ≤ s.value.bytes.length then throw .outOfBounds
  perform table memory hashTable (selectCall s)

structure Server where
  heap : Heap KeyValue
  hashTable : List Addr
  deriving DecidableEq

def Server.start : Server := ⟨⟨[]⟩, []⟩

/-- A decoded request, with what `malloc` would hand out while it is processed. -/
structure Arrival where
  request : Scanned
  memory : Option KeyValue
  deriving DecidableEq

def handle (table : Uthash) (s : Server) (a : Arrival) : Except Fault (Server × Response) :=
  match perform table a.memory s.hashTable (selectCall a.request) s.heap with
  | .ok (r, h) => .ok (⟨h, r.hashTable⟩, r)
  | .error e => .error e

def run (table : Uthash) (s : Server) : List Arrival → Except Fault Server
  | [] => .ok s
  | a :: as =>
    match handle table s a with
    | .ok (s', _) => run table s' as
    | .error e => .error e

section Specifications

variable {table : Uthash} {hashTable : List Addr} {h : Heap KeyValue} {key : CString}

theorem hashFindStr_ok {found : Option Addr} (hf : table.find h hashTable key = found) :
    hashFindStr table hashTable key h = .ok (found, h) := by rw [hashFindStr, hf]

theorem upsertValue_missing (hf : table.find h hashTable key = none)
    (hk : key.bytes.length < 64) (junk : KeyValue) (value : CString) (pid : Pid) :
    upsertValue table (some junk) hashTable key value pid h =
      .ok (⟨hashTable ++ [h.fresh], none, none⟩,
        h.alloc ⟨strncpy 64 key, strncpy 256 value, pid⟩) := by
  have hnew : ∀ x : KeyValue, (h.alloc x).read h.fresh = some x := by
    intro x
    rw [Heap.read_alloc, if_pos rfl]
  have hadd : hashAddStr hashTable (some h.fresh)
      (h.alloc ⟨strncpy 64 key, strncpy 256 value, pid⟩) =
      .ok (hashTable ++ [h.fresh], h.alloc ⟨strncpy 64 key, strncpy 256 value, pid⟩) := by
    rw [hashAddStr, bind_of_ok (load_ok (hnew _)), if_pos (strncpy_terminated_iff.mpr hk)]
    rfl
  have hmalloc : malloc (some junk) h = .ok (some h.fresh, h.alloc junk) := rfl
  rw [upsertValue, bind_of_ok (hashFindStr_ok hf)]
  simp only
  rw [bind_of_ok hmalloc, bind_of_ok (store_ok (hnew _) _), Heap.alloc_write,
    bind_of_ok (store_ok (hnew _) _), Heap.alloc_write,
    bind_of_ok (store_ok (hnew _) _), Heap.alloc_write]
  exact bind_of_ok hadd _

theorem upsertValue_noMemory (hf : table.find h hashTable key = none) (value : CString)
    (pid : Pid) : upsertValue table none hashTable key value pid h = .error .invalidPointer := by
  have hmalloc : malloc none h = .ok (none, h) := rfl
  rw [upsertValue, bind_of_ok (hashFindStr_ok hf)]
  simp only
  rw [bind_of_ok hmalloc]
  rfl

theorem upsertValue_found {kv : Addr} {x : KeyValue} (hf : table.find h hashTable key = some kv)
    (hx : h.read kv = some x) (memory : Option KeyValue) (value : CString) (pid : Pid) :
    upsertValue table memory hashTable key value pid h =
      if x.creatorPid = pid then
        .ok (⟨hashTable, none, none⟩, h.write kv { x with value := strncpy 256 value })
      else .ok (⟨hashTable, none, some (.notAuthorizedToUpdate pid key)⟩, h) := by
  rw [upsertValue, bind_of_ok (hashFindStr_ok hf)]
  simp only
  rw [bind_of_ok (load_ok hx)]
  by_cases ho : x.creatorPid = pid
  · rw [if_pos ho, if_pos ho, bind_of_ok (store_ok hx _)]
    rfl
  · rw [if_neg ho, if_neg ho]
    rfl

theorem getValue_missing (hf : table.find h hashTable key = none) :
    getValue table hashTable key h = .ok (none, h) := by
  rw [getValue, bind_of_ok (hashFindStr_ok hf)]
  rfl

theorem getValue_found {kv : Addr} {x : KeyValue} (hf : table.find h hashTable key = some kv)
    (hx : h.read kv = some x) : getValue table hashTable key h = .ok (some x.value, h) := by
  rw [getValue, bind_of_ok (hashFindStr_ok hf)]
  simp only
  rw [bind_of_ok (load_ok hx)]
  rfl

theorem deleteKeyValue_missing (hf : table.find h hashTable key = none) (pid : Pid) :
    deleteKeyValue table hashTable key pid h = .ok (⟨hashTable, none, none⟩, h) := by
  rw [deleteKeyValue, bind_of_ok (hashFindStr_ok hf)]
  rfl

theorem deleteKeyValue_found {kv : Addr} {x : KeyValue}
    (hf : table.find h hashTable key = some kv) (hx : h.read kv = some x) (pid : Pid) :
    deleteKeyValue table hashTable key pid h =
      if x.creatorPid = pid then .ok (⟨hashTable.erase kv, none, none⟩, h.release kv)
      else .ok (⟨hashTable, none, some (.notAuthorizedToDelete pid key)⟩, h) := by
  rw [deleteKeyValue, bind_of_ok (hashFindStr_ok hf)]
  simp only
  rw [bind_of_ok (load_ok hx)]
  by_cases ho : x.creatorPid = pid
  · rw [if_pos ho, if_pos ho, bind_of_ok (free_ok hx)]
    rfl
  · rw [if_neg ho, if_neg ho]
    rfl

end Specifications

end NameValueServer
