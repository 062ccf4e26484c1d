import LinuxProgramming.HashJen
import LinuxProgramming.NameValueStore
import LinuxProgramming.UthashOperations

/-! The name-value server on the hash table of `uthash.h`. `NameValueServer` takes the table as
the list of its entries and any right lookup; here the same functions run on the buckets and
links in memory. Every run gives the same answers and the same faults, and the integrity check
of the table passes after each request. -/
namespace NameValueHashTable

open BlockMemory CharStrings LinkedTable Uthash
open HashJen (jenHash)
open NameValueServer (KeyValue Pid Diagnostic Scanned Call Server Response Arrival selectCall
  keyNotFound)

def keyField : KeyField KeyValue where
  bytes e := e.key.toList
  key e := e.name.bytes
  key_bytes e := by
    rw [KeyValue.name, CharArray.text, stringOf]
    exact List.prefix_iff_eq_take.mp (List.takeWhile_prefix _) |>.symm

section Server

variable (hash : List Byte → UInt32)

structure Outcome where
  hashTable : HashTable
  reply : Option CString
  stderr : Option Diagnostic

/-- `memory` is what `malloc` hands out, junk included; `none` when it fails. -/
def malloc (memory : Option (Element KeyValue)) : Program (Element KeyValue) (Option Addr) :=
  fun h => match memory with
    | some junk => .ok (some h.fresh, h.alloc junk)
    | none => .ok (none, h)

def hashFindStr (hashTable : HashTable) (key : CString) :
    Program (Element KeyValue) (Option Addr) := hashFind keyField hash hashTable key.bytes

def hashAddStr (granted : Bool) (hashTable : HashTable) (kv : Option Addr) :
    Program (Element KeyValue) (Option HashTable) := do
  let e ← load kv
  match kv with
  | none => throw .invalidPointer
  | some add =>
    if e.item.key.Terminated then hashAdd keyField hash granted hashTable add
    else throw .outOfBounds

/-- No outcome means that the table found no memory and has ended the process. -/
def upsertValue (memory : Option (Element KeyValue)) (granted : Bool) (hashTable : HashTable)
    (key value : CString) (creatorId : Pid) :
    Program (Element KeyValue) (Option Outcome) := do
  match ← hashFindStr hash hashTable key with
  | none =>
    let kv ← malloc memory
    store kv fun e => { e with item := { e.item with key := strncpy 64 key } }
    store kv fun e => { e with item := { e.item with value := strncpy 256 value } }
    store kv fun e => { e with item := { e.item with creatorPid := creatorId } }
    match ← hashAddStr hash granted hashTable kv with
    | none => return none
    | some hashTable => return some ⟨hashTable, none, none⟩
  | some kv =>
    let e ← load (some kv)
    if e.item.creatorPid = creatorId then
      store (some kv) fun e => { e with item := { e.item with value := strncpy 256 value } }
      return some ⟨hashTable, none, none⟩
    else return some ⟨hashTable, none, some (.notAuthorizedToUpdate creatorId key)⟩

def getValue (hashTable : HashTable) (key : CString) :
    Program (Element KeyValue) (Option (CharArray 256)) := do
  match ← hashFindStr hash hashTable key with
  | none => return none
  | some kv =>
    let e ← load (some kv)
    return some e.item.value

def deleteKeyValue (hashTable : HashTable) (key : CString) (creatorId : Pid) :
    Program (Element KeyValue) Outcome := do
  match ← hashFindStr hash hashTable key with
  | none => return ⟨hashTable, none, none⟩
  | some kv =>
    let e ← load (some kv)
    if e.item.creatorPid = creatorId then
      let hashTable ← hashDelete hashTable kv
      free (some kv)
      return ⟨hashTable, none, none⟩
    else return ⟨hashTable, none, some (.notAuthorizedToDelete creatorId key)⟩

def perform (memory : Option (Element KeyValue)) (granted : Bool) (hashTable : HashTable) :
    Call → Program (Element KeyValue) (Option Outcome)
  | .invalidFormat => return some ⟨hashTable, none, some .invalidFormat⟩
  | .unknownAction => return some ⟨hashTable, none, some .unknownAction⟩
  | .upsertValue key value pid => upsertValue hash memory granted hashTable key value pid
  | .getValue key => do
    match ← getValue hash hashTable key with
    | none => return some ⟨hashTable, some keyNotFound, none⟩
    | some val =>
      if val.Terminated then return some ⟨hashTable, some val.text, none⟩
      else throw .outOfBounds
  | .deleteKeyValue key pid => do return some (← deleteKeyValue hash hashTable key pid)

structure State where
  heap : Heap (Element KeyValue)
  hashTable : HashTable

def State.start : State := ⟨⟨[]⟩, none⟩

/-- The link that `HASH_ITER` takes before the body runs. -/
def nextOf (p : Option Addr) : Program (Element KeyValue) (Option Addr) := do
  match p with
  | none => return none
  | some a =>
    let e ← load (some a)
    return e.hh.next

def cleanupLoop : ℕ → Option Addr → Option Addr → HashTable →
    Program (Element KeyValue) HashTable
  | 0, _, _, _ => throw .outOfFuel
  | _ + 1, none, _, hashTable => return hashTable
  | fuel + 1, some current, tmp, hashTable => do
    let hashTable ← hashDelete hashTable current
    free (some current)
    cleanupLoop fuel tmp (← nextOf tmp) hashTable

def cleanupHashTable (hashTable : HashTable) : Program (Element KeyValue) HashTable := do
  let current := hashTable.map Prod.fst
  let tmp ← nextOf current
  cleanupLoop (← rounds) current tmp hashTable

/-- A decoded request, with the memory there is while it is processed: for the entry, and for
the table. -/
structure Request where
  request : Scanned
  memory : Option (Element KeyValue)
  granted : Bool

def handle (s : State) (q : Request) : Except Fault (Option (State × Outcome)) :=
  match perform hash q.memory q.granted s.hashTable (selectCall q.request) s.heap with
  | .ok (some o, h) => .ok (some (⟨h, o.hashTable⟩, o))
  | .ok (none, _) => .ok none
  | .error e => .error e

/-- The loop of `main`, with what is sent and printed; `none` once the process has ended. -/
def run (s : State) :
    List Request → Except Fault (Option (State × List (Option CString × Option Diagnostic)))
  | [] => .ok (some (s, []))
  | q :: qs =>
    match handle hash s q with
    | .error e => .error e
    | .ok none => .ok none
    | .ok (some (s', o)) =>
      match run s' qs with
      | .ok (some (t, os)) => .ok (some (t, (o.reply, o.stderr) :: os))
      | r => r

/-- Whether the table has fewer than 2^31 buckets before each of the requests. -/
def fits (s : State) : List Request → Bool
  | [] => true
  | q :: qs => Roomy s.hashTable &&
      match handle hash s q with
      | .ok (some (s', _)) => fits s' qs
      | _ => true

end Server

section Agreement

variable {hash : List Byte → UInt32} {t : State} {s : Server}

/-- The table in memory and the list of its entries, which are all the memory in use. -/
structure Agrees (hash : List Byte → UInt32) (t : State) (s : Server) : Prop where
  heap : s.heap = itemsOf t.heap
  table : Holds keyField hash t.heap t.hashTable s.hashTable
  represents : ∃ m, Represents KeyValue.name s.heap s.hashTable m
  owned : ∀ a x, s.heap.read a = some x → a ∈ s.hashTable

theorem start_agrees (hash : List Byte → UInt32) : Agrees hash .start .start := by
  refine ⟨rfl, rfl, ⟨_, represents_empty _⟩, ?_⟩
  intro a x hx
  cases hx

theorem keyAt_iff (h : Heap (Element KeyValue)) (a : Addr) (key : CString) :
    keyAt (keyOf keyField) h a = some key.bytes ↔
      keyAt KeyValue.name (itemsOf h) a = some key := by
  rw [keyAt, keyAt, read_itemsOf]
  cases h.read a with
  | none => simp
  | some e =>
    simp only [Option.map_some, Option.some.injEq]
    exact CString.bytes_injective.eq_iff

theorem Agrees.find (ha : Agrees hash t s) (table : NameValueServer.Uthash) (key : CString) :
    hashFindStr hash t.hashTable key t.heap =
      .ok (table.find s.heap s.hashTable key, t.heap) := by
  obtain ⟨m, hm⟩ := ha.represents
  obtain ⟨r, hrun, hr⟩ := hashFind_finds ha.table key.bytes
  rw [hashFindStr, hrun]
  have hkey := fun a => keyAt_iff t.heap a key
  rw [← ha.heap] at hkey
  cases hf : table.find s.heap s.hashTable key with
  | none =>
    have hnone := table.find_none _ _ _ hf
    cases r with
    | none => rfl
    | some a => exact absurd ((hkey a).mp hr.2) (hnone a hr.1)
  | some a =>
    obtain ⟨hmem, hka⟩ := table.find_some _ _ _ _ hf
    cases r with
    | none => exact absurd ((hkey a).mpr hka) (hr a hmem)
    | some b =>
      have hba : b = a := hm.unique hr.1 hmem (((hkey b).mp hr.2).trans hka.symm)
      rw [hba]

theorem Agrees.read (ha : Agrees hash t s) {a : Addr} (hmem : a ∈ s.hashTable) :
    ∃ e, t.heap.read a = some e ∧ s.heap.read a = some e.item := by
  obtain ⟨e, he⟩ := ha.table.live hmem
  exact ⟨e, he, by rw [ha.heap, read_itemsOf, he]; rfl⟩

/-- The same result in both models, where the process does not end; `n` bounds the blocks that
were ever allocated. -/
def Matches (hash : List Byte → UInt32) (n : ℕ) :
    Except Fault (Option Outcome × Heap (Element KeyValue)) →
      Except Fault (Response × Heap KeyValue) → Prop
  | .error e, r => r = .error e
  | .ok (none, _), _ => False
  | .ok (some o, h), r => ∃ items k, r = .ok (⟨items, o.reply, o.stderr⟩, k) ∧ h.fresh ≤ n ∧
      Agrees hash ⟨h, o.hashTable⟩ ⟨k, items⟩

theorem upsertValue_overlong {table : NameValueServer.Uthash} {h : Heap KeyValue}
    {items : List Addr} {key : CString} (hf : table.find h items key = none)
    (hk : ¬ key.bytes.length < 64) (junk : KeyValue) (value : CString) (pid : Pid) :
    NameValueServer.upsertValue table (some junk) items key value pid h =
      .error .outOfBounds := by
  have hnew : ∀ x : KeyValue, (h.alloc x).read h.fresh = some x := by
    intro x
    rw [Heap.read_alloc, if_pos rfl]
  have hmalloc : NameValueServer.malloc (some junk) h = .ok (some h.fresh, h.alloc junk) := rfl
  have hadd : NameValueServer.hashAddStr items (some h.fresh)
      (h.alloc ⟨strncpy 64 key, strncpy 256 value, pid⟩) = .error .outOfBounds := by
    rw [NameValueServer.hashAddStr, bind_of_ok (load_ok (hnew _)),
      if_neg fun ht => hk (strncpy_terminated_iff.mp ht)]
    rfl
  rw [NameValueServer.upsertValue, bind_of_ok (NameValueServer.hashFindStr_ok hf)]
  simp only
  rw [bind_of_ok hmalloc, bind_of_ok (store_ok (hnew _) _), Heap.alloc_write,
    bind_of_ok (store_ok (hnew _) _), Heap.alloc_write,
    bind_of_ok (store_ok (hnew _) _), Heap.alloc_write]
  exact bind_of_error hadd _

def filled (junk : Element KeyValue) (key value : CString) (pid : Pid) : Element KeyValue :=
  ⟨⟨strncpy 64 key, strncpy 256 value, pid⟩, junk.hh⟩

theorem read_alloc_fresh (h : Heap (Element KeyValue)) (x : Element KeyValue) :
    (h.alloc x).read h.fresh = some x := by
  rw [Heap.read_alloc, if_pos rfl]

theorem upsertValue_fills {key : CString} {h : Heap (Element KeyValue)} {head : HashTable}
    (hfind : hashFindStr hash head key h = .ok (none, h)) (junk : Element KeyValue)
    (value : CString) (pid : Pid) :
    upsertValue hash (some junk) true head key value pid h =
      (hashAddStr hash true head (some h.fresh) >>= fun r => match r with
        | none => pure none
        | some hashTable => pure (some ⟨hashTable, none, none⟩))
          (h.alloc (filled junk key value pid)) := by
  have hmalloc : malloc (some junk) h = .ok (some h.fresh, h.alloc junk) := rfl
  have hnew := read_alloc_fresh h
  rw [upsertValue, bind_of_ok hfind]
  simp only []
  rw [bind_of_ok hmalloc, bind_of_ok (store_ok (hnew _) _), Heap.alloc_write,
    bind_of_ok (store_ok (hnew _) _), Heap.alloc_write,
    bind_of_ok (store_ok (hnew _) _), Heap.alloc_write]
  rfl

theorem Agrees.added (ha : Agrees hash t s) (hroom : Roomy t.hashTable)
    {table : NameValueServer.Uthash} {e : Element KeyValue} (hterm : e.item.key.Terminated)
    (hf : table.find s.heap s.hashTable e.item.name = none) :
    ∃ h' head', hashAddStr hash true t.hashTable (some t.heap.fresh) (t.heap.alloc e) =
        .ok (some head', h') ∧ h'.fresh = t.heap.fresh + 1 ∧
      Agrees hash ⟨h', head'⟩ ⟨s.heap.alloc e.item, s.hashTable ++ [s.heap.fresh]⟩ := by
  have hnew := read_alloc_fresh t.heap e
  have hfresh : t.heap.fresh ∉ s.hashTable := by
    intro hmem
    obtain ⟨x, hx⟩ := ha.table.live hmem
    exact Heap.ne_fresh hx rfl
  have hold : ∀ a ∈ s.hashTable, (t.heap.alloc e).read a = t.heap.read a := by
    intro a hmem
    have hne : a ≠ t.heap.fresh := fun heq => hfresh (heq ▸ hmem)
    rw [Heap.read_alloc, if_neg hne]
  obtain ⟨h', head', hadd, hsize, hitems, hholds⟩ :=
    hashAdd_ok (ha.table.unchanged (by simp) hold) hroom hnew hfresh
  obtain ⟨m, hm⟩ := ha.represents
  refine ⟨h', head', ?_, by rw [hsize, Heap.fresh_alloc], ?_, ?_,
    ⟨_, hm.add e.item (hm.find_none table hf)⟩, ?_⟩
  · rw [hashAddStr, bind_of_ok (load_ok hnew)]
    simp only [if_pos hterm]
    exact hadd
  · rw [itemsOf_eq hsize hitems, itemsOf_alloc, ha.heap]
  · have hfreshs : s.heap.fresh = t.heap.fresh := by rw [ha.heap, fresh_itemsOf]
    rw [hfreshs]
    exact hholds
  · intro a x hx
    rw [Heap.read_alloc] at hx
    split at hx
    · next hfa => rw [hfa]; exact List.mem_concat_self
    · exact List.mem_append_left _ (ha.owned a x hx)

theorem upsertValue_missing (ha : Agrees hash t s) (hroom : Roomy t.hashTable)
    {table : NameValueServer.Uthash} {key : CString}
    (hf : table.find s.heap s.hashTable key = none) (junk : Element KeyValue)
    (value : CString) (pid : Pid) :
    Matches hash (t.heap.fresh + 1)
      (upsertValue hash (some junk) true t.hashTable key value pid t.heap)
      (NameValueServer.upsertValue table (some junk.item) s.hashTable key value pid s.heap) := by
  have hfind := ha.find table key
  rw [hf] at hfind
  rw [upsertValue_fills hfind]
  by_cases hk : key.bytes.length < 64
  · have hname : (filled junk key value pid).item.name = key := strncpy_text hk
    obtain ⟨h', head', hrun, hsize, hagrees⟩ := ha.added hroom (e := filled junk key value pid)
      (strncpy_terminated_iff.mpr hk) (hname.symm ▸ hf)
    rw [bind_of_ok hrun]
    exact ⟨_, _, NameValueServer.upsertValue_missing hf hk junk.item value pid, hsize.le, hagrees⟩
  · have hterm : ¬ (filled junk key value pid).item.key.Terminated := fun ht =>
      hk (strncpy_terminated_iff.mp ht)
    have hrun : hashAddStr hash true t.hashTable (some t.heap.fresh)
        (t.heap.alloc (filled junk key value pid)) = .error .outOfBounds := by
      rw [hashAddStr, bind_of_ok (load_ok (read_alloc_fresh t.heap _))]
      simp only [if_neg hterm]
      rfl
    rw [bind_of_error hrun]
    exact upsertValue_overlong hf hk junk.item value pid

theorem upsertValue_found (ha : Agrees hash t s) {table : NameValueServer.Uthash}
    {key : CString} {kv : Addr} (hf : table.find s.heap s.hashTable key = some kv)
    (memory : Option (Element KeyValue)) (granted : Bool) (value : CString) (pid : Pid) :
    Matches hash (t.heap.fresh + 1)
      (upsertValue hash memory granted t.hashTable key value pid t.heap)
      (NameValueServer.upsertValue table (memory.map Element.item) s.hashTable key value pid
        s.heap) := by
  have hfind := ha.find table key
  rw [hf] at hfind
  obtain ⟨m, hm⟩ := ha.represents
  have hmem := (table.find_some _ _ _ _ hf).1
  obtain ⟨e, he, hx⟩ := ha.read hmem
  rw [upsertValue, bind_of_ok hfind, NameValueServer.upsertValue_found hf hx]
  simp only []
  rw [bind_of_ok (load_ok he)]
  by_cases ho : e.item.creatorPid = pid
  · set e' : Element KeyValue := { e with item := { e.item with value := strncpy 256 value } }
      with he'
    have hname : e'.item.name = e.item.name := by simp only [KeyValue.name, he']
    have hkey : keyOf keyField e' = keyOf keyField e := congrArg CString.bytes hname
    rw [if_pos ho, if_pos ho, bind_of_ok (store_ok he _)]
    refine ⟨s.hashTable, s.heap.write kv e'.item, rfl, by simp, ?_, ?_,
      ⟨_, hm.update hmem hx hname⟩, ?_⟩
    · rw [ha.heap]
      exact (itemsOf_write t.heap kv e').symm
    · refine ha.table.congr (by simp) fun a _ => ?_
      change ((t.heap.write kv e').read a).map _ = _
      rw [Heap.read_write he]
      split
      · next hak => rw [hak, he, Option.map_some, Option.map_some, hkey]
      · rfl
    · intro a x hread
      rw [Heap.read_write hx] at hread
      split at hread
      · next hak => rw [hak]; exact hmem
      · exact ha.owned a x hread
  · rw [if_neg ho, if_neg ho]
    exact ⟨_, _, rfl, Nat.le_succ _, ha⟩

theorem upsertValue_matches (ha : Agrees hash t s) (hroom : Roomy t.hashTable)
    (table : NameValueServer.Uthash)
    (memory : Option (Element KeyValue)) (key value : CString) (pid : Pid) :
    Matches hash (t.heap.fresh + 1) (upsertValue hash memory true t.hashTable key value pid t.heap)
      (NameValueServer.upsertValue table (memory.map Element.item) s.hashTable key value pid
        s.heap) := by
  cases hf : table.find s.heap s.hashTable key with
  | some kv => exact upsertValue_found ha hf memory true value pid
  | none =>
    cases memory with
    | some junk => exact upsertValue_missing ha hroom hf junk value pid
    | none =>
      have hfind := ha.find table key
      rw [hf] at hfind
      have hmalloc : malloc none t.heap = .ok (none, t.heap) := rfl
      rw [upsertValue, bind_of_ok hfind, Option.map_none,
        NameValueServer.upsertValue_noMemory hf value pid]
      simp only []
      rw [bind_of_ok hmalloc]
      rfl

theorem upsertValue_denied (hash : List Byte → UInt32) (memory : Option (Element KeyValue))
    (hashTable : HashTable) (key value : CString) (pid : Pid) :
    GivesUpOr (upsertValue hash memory false hashTable key value pid)
      (upsertValue hash memory true hashTable key value pid) := by
  refine .after _ fun found => ?_
  cases found with
  | some kv => exact .refl _
  | none =>
    refine .after _ fun kv => .after _ fun _ => .after _ fun _ => .after _ fun _ => ?_
    refine GivesUpOr.followed (.after _ fun e => ?_) rfl fun _ => .refl _
    cases kv with
    | none => exact .refl _
    | some add =>
      simp only []
      split
      · exact hashAdd_denied keyField hash hashTable add
      · exact .refl _

theorem getValue_matches (ha : Agrees hash t s) (table : NameValueServer.Uthash)
    (key : CString) : ∃ r, getValue hash t.hashTable key t.heap = .ok (r, t.heap) ∧
      NameValueServer.getValue table s.hashTable key s.heap = .ok (r, s.heap) := by
  have hfind := ha.find table key
  cases hf : table.find s.heap s.hashTable key with
  | none =>
    rw [hf] at hfind
    rw [getValue, bind_of_ok hfind, NameValueServer.getValue_missing hf]
    exact ⟨none, rfl, rfl⟩
  | some kv =>
    rw [hf] at hfind
    obtain ⟨e, he, hx⟩ := ha.read (table.find_some _ _ _ _ hf).1
    rw [getValue, bind_of_ok hfind, NameValueServer.getValue_found hf hx]
    simp only []
    rw [bind_of_ok (load_ok he)]
    exact ⟨_, rfl, rfl⟩

/-- The entry is out of both lists before its memory is given back. -/
theorem deleteKeyValue_matches (ha : Agrees hash t s) (table : NameValueServer.Uthash)
    (key : CString) (pid : Pid) :
    ∃ o h items, deleteKeyValue hash t.hashTable key pid t.heap = .ok (o, h) ∧
      NameValueServer.deleteKeyValue table s.hashTable key pid s.heap =
        .ok (⟨items, o.reply, o.stderr⟩, itemsOf h) ∧ h.fresh = t.heap.fresh ∧
      Agrees hash ⟨h, o.hashTable⟩ ⟨itemsOf h, items⟩ := by
  have hfind := ha.find table key
  have hsame : Agrees hash ⟨t.heap, t.hashTable⟩ ⟨itemsOf t.heap, s.hashTable⟩ := by
    rw [← ha.heap]
    exact ha
  cases hf : table.find s.heap s.hashTable key with
  | none =>
    rw [hf] at hfind
    rw [deleteKeyValue, bind_of_ok hfind, NameValueServer.deleteKeyValue_missing hf]
    refine ⟨⟨t.hashTable, none, none⟩, t.heap, s.hashTable, rfl, ?_, rfl, hsame⟩
    rw [ha.heap]
  | some kv =>
    rw [hf] at hfind
    have hmem := (table.find_some _ _ _ _ hf).1
    obtain ⟨m, hm⟩ := ha.represents
    obtain ⟨e, he, hx⟩ := ha.read hmem
    rw [deleteKeyValue, bind_of_ok hfind, NameValueServer.deleteKeyValue_found hf hx]
    simp only []
    rw [bind_of_ok (load_ok he)]
    by_cases ho : e.item.creatorPid = pid
    · obtain ⟨h', head', hrun, hp, hholds⟩ := hashDelete_ok ha.table hmem
      have hitems : itemsOf h' = s.heap := hp.itemsOf_eq.trans ha.heap.symm
      obtain ⟨e', he'⟩ : ∃ e', h'.read kv = some e' := by
        obtain ⟨y, hy, -⟩ := read_of_map (hp.fixed kv) he
        exact ⟨y, hy⟩
      rw [if_pos ho, if_pos ho, bind_of_ok hrun, bind_of_ok (free_ok he')]
      refine ⟨⟨head', none, none⟩, h'.release kv, s.hashTable.erase kv, rfl, ?_,
        by rw [Heap.fresh_release, hp.fresh], rfl, ?_, ?_, ?_⟩
      · rw [itemsOf_release, hitems]
      · refine hholds.unchanged (by simp) fun a hmem' => ?_
        have hne : a ≠ kv := ((List.Nodup.mem_erase_iff ha.table.nodup).mp hmem').1
        rw [Heap.read_release, if_neg hne]
      · rw [itemsOf_release, hitems]
        exact ⟨_, hm.remove hmem hx⟩
      · intro a x hread
        rw [itemsOf_release, hitems, Heap.read_release] at hread
        split at hread
        · cases hread
        · next hne => exact (List.mem_erase_of_ne hne).mpr (ha.owned a x hread)
    · rw [if_neg ho, if_neg ho]
      refine ⟨⟨t.hashTable, none, some (.notAuthorizedToDelete pid key)⟩, t.heap, s.hashTable,
        rfl, ?_, rfl, hsame⟩
      rw [ha.heap]

theorem perform_matches (ha : Agrees hash t s) (hroom : Roomy t.hashTable)
    (table : NameValueServer.Uthash)
    (memory : Option (Element KeyValue)) (c : Call) :
    Matches hash (t.heap.fresh + 1) (perform hash memory true t.hashTable c t.heap)
      (NameValueServer.perform table (memory.map Element.item) s.hashTable c s.heap) := by
  cases c with
  | invalidFormat => exact ⟨_, _, rfl, Nat.le_succ _, ha⟩
  | unknownAction => exact ⟨_, _, rfl, Nat.le_succ _, ha⟩
  | upsertValue key value pid => exact upsertValue_matches ha hroom table memory key value pid
  | getValue key =>
    obtain ⟨r, hget, hget'⟩ := getValue_matches ha table key
    rw [perform, bind_of_ok hget, NameValueServer.perform, bind_of_ok hget']
    cases r with
    | none => exact ⟨_, _, rfl, Nat.le_succ _, ha⟩
    | some val =>
      simp only []
      by_cases hval : val.Terminated
      · rw [if_pos hval, if_pos hval]
        exact ⟨_, _, rfl, Nat.le_succ _, ha⟩
      · rw [if_neg hval, if_neg hval]
        rfl
  | deleteKeyValue key pid =>
    obtain ⟨o, h, items, hdel, hdel', hsize, hagree⟩ := deleteKeyValue_matches ha table key pid
    rw [perform, bind_of_ok hdel, NameValueServer.perform, hdel']
    exact ⟨items, itemsOf h, rfl, hsize.trans_le (Nat.le_succ _), hagree⟩

theorem perform_denied (hash : List Byte → UInt32) (memory : Option (Element KeyValue))
    (hashTable : HashTable) (c : Call) :
    GivesUpOr (perform hash memory false hashTable c) (perform hash memory true hashTable c) := by
  cases c with
  | upsertValue key value pid => exact upsertValue_denied hash memory hashTable key value pid
  | _ => exact .refl _

def Request.arrival (q : Request) : Arrival := ⟨q.request, q.memory.map Element.item⟩

theorem handle_agrees (ha : Agrees hash t s) (hroom : Roomy t.hashTable)
    (table : NameValueServer.Uthash) (q : Request) :
    (q.granted = false ∧ handle hash t q = .ok none) ∨
    (∃ e, handle hash t q = .error e ∧ NameValueServer.handle table s q.arrival = .error e) ∨
    ∃ t' s' o items, handle hash t q = .ok (some (t', o)) ∧
      NameValueServer.handle table s q.arrival = .ok (s', ⟨items, o.reply, o.stderr⟩) ∧
      t'.heap.fresh ≤ t.heap.fresh + 1 ∧ Agrees hash t' s' := by
  obtain ⟨request, memory, granted⟩ := q
  have hmatch := perform_matches ha hroom table memory (selectCall request)
  have hcases : (granted = false ∧ handle hash t ⟨request, memory, granted⟩ = .ok none) ∨
      perform hash memory granted t.hashTable (selectCall request) t.heap =
        perform hash memory true t.hashTable (selectCall request) t.heap := by
    cases granted with
    | true => exact .inr rfl
    | false =>
      refine (perform_denied hash memory t.hashTable (selectCall request) t.heap).imp_left ?_
      rintro ⟨h', hnone⟩
      exact ⟨rfl, by simp only [handle, hnone]⟩
  refine hcases.imp_right fun hsame => ?_
  simp only [handle, NameValueServer.handle, Request.arrival, hsame]
  generalize perform hash memory true t.hashTable (selectCall request) t.heap = r at hmatch
  rcases r with e | ⟨_ | o, h⟩
  · rw [show NameValueServer.perform table _ _ _ _ = .error e from hmatch]
    exact .inl ⟨e, rfl, rfl⟩
  · exact hmatch.elim
  · obtain ⟨items, k, hok, hsize, hagree⟩ := hmatch
    rw [hok]
    exact .inr ⟨_, _, o, items, rfl, rfl, hsize, hagree⟩

/-- The model with the list of entries, with what is sent and printed. -/
def listRun (table : NameValueServer.Uthash) (s : Server) :
    List Arrival → Except Fault (Server × List (Option CString × Option Diagnostic))
  | [] => .ok (s, [])
  | a :: as =>
    match NameValueServer.handle table s a with
    | .error e => .error e
    | .ok (s', r) =>
      match listRun table s' as with
      | .error e => .error e
      | .ok (u, os) => .ok (u, (r.reply, r.stderr) :: os)

theorem run_agrees (table : NameValueServer.Uthash) (qs : List Request) :
    ∀ {t : State} {s : Server}, Agrees hash t s → fits hash t qs →
      (run hash t qs = .ok none ∧ ∃ q ∈ qs, q.granted = false) ∨
      (∃ e, run hash t qs = .error e ∧ listRun table s (qs.map Request.arrival) = .error e) ∨
      ∃ t' s' os, run hash t qs = .ok (some (t', os)) ∧
        listRun table s (qs.map Request.arrival) = .ok (s', os) ∧
        t'.heap.fresh ≤ t.heap.fresh + qs.length ∧ Agrees hash t' s' := by
  induction qs with
  | nil => exact fun ha _ => .inr (.inr ⟨_, _, [], rfl, rfl, le_rfl, ha⟩)
  | cons q qs ih =>
    intro t s ha hfits
    rw [fits, Bool.and_eq_true, decide_eq_true_eq] at hfits
    obtain ⟨hroom, hfits⟩ := hfits
    simp only [run, List.map_cons, listRun]
    rcases handle_agrees ha hroom table q with
      ⟨hg, hnone⟩ | ⟨e, he, he'⟩ | ⟨t', s', o, items, ho, ho', hsize, ha'⟩
    · rw [hnone]
      exact .inl ⟨rfl, q, List.mem_cons_self, hg⟩
    · rw [he, he']
      exact .inr (.inl ⟨e, rfl, rfl⟩)
    · rw [ho] at hfits
      rw [ho, ho']
      rcases ih ha' hfits with
        ⟨hnone, r, hr, hg⟩ | ⟨e, he, he'⟩ | ⟨t'', s'', os, hok, hok', hsize', ha''⟩
      · simp only [hnone]
        exact .inl ⟨trivial, r, List.mem_cons_of_mem q hr, hg⟩
      · simp only [he, he']
        exact .inr (.inl ⟨e, rfl, rfl⟩)
      · simp only [hok, hok']
        refine .inr (.inr ⟨_, _, _, rfl, rfl, ?_, ha''⟩)
        rw [List.length_cons]
        omega

theorem few_blocks {qs : List Request} {n : ℕ} (hfew : qs.length < 2 ^ 28)
    (hsize : n ≤ State.start.heap.fresh + qs.length) : n < 2 ^ 28 := by
  have hstart : State.start.heap.fresh = 0 := rfl
  omega

/-- Whatever the hash function and whatever arrives, the server on the hash table sends and
prints what it does on the list of entries and faults where that does; the counters of the table
are in range and its integrity check passes at the end. -/
theorem hash_table_server_agrees (hash : List Byte → UInt32) (table : NameValueServer.Uthash)
    (qs : List Request) (hfew : qs.length < 2 ^ 28) (hfits : fits hash .start qs) :
    (run hash .start qs = .ok none ∧ ∃ q ∈ qs, q.granted = false) ∨
    (∃ e, run hash .start qs = .error e ∧
      listRun table .start (qs.map Request.arrival) = .error e) ∨
    ∃ t s os, run hash .start qs = .ok (some (t, os)) ∧
      listRun table .start (qs.map Request.arrival) = .ok (s, os) ∧
      s.heap = itemsOf t.heap ∧
      (∀ first tbl, t.hashTable = some (first, tbl) → tbl.InRange) ∧
      hashFsck t.hashTable t.heap = .ok (none, t.heap) := by
  refine (run_agrees table qs (start_agrees hash) hfits).imp_right (.imp_right ?_)
  rintro ⟨t, s, os, hrun, hlist, hsize, ha⟩
  exact ⟨t, s, os, hrun, hlist, ha.heap, ha.table.inRange (few_blocks hfew hsize),
    hashFsck_ok ha.table⟩

end Agreement

section Map

open NameValueStore

variable {hash : List Byte → UInt32} {t : State}

def answers (m : Store) : List Scanned → List (Option CString)
  | [] => []
  | r :: rs => m.reply r :: answers (m.step r) rs

theorem listRun_refines (table : NameValueServer.Uthash) (as : List Arrival) :
    ∀ {s : Server} {m : Store}, Refines s m → (∀ a ∈ as, Served a) →
      ∃ s' os, listRun table s as = .ok (s', os) ∧
        os.map Prod.fst = answers m (as.map Arrival.request) ∧
        Refines s' (m.run (as.map Arrival.request)) := by
  induction as with
  | nil => exact fun hr _ => ⟨_, [], rfl, rfl, hr⟩
  | cons a as ih =>
    intro s m hr hs
    obtain ⟨s₁, r, hhandle, hr₁, hreply⟩ := handle_refines table hr (hs a List.mem_cons_self)
    obtain ⟨s₂, os, hrun, hos, hr₂⟩ := ih hr₁ fun b hb => hs b (List.mem_cons_of_mem a hb)
    refine ⟨s₂, (r.reply, r.stderr) :: os, ?_, ?_, hr₂⟩
    · simp only [listRun, hhandle, hrun]
    · rw [List.map_cons, List.map_cons, answers, hos, hreply]

/-- As long as memory lasts and the arrays are large enough, the clients are answered from a
map, and the table ends up with the values of that map. -/
theorem served_from_map (hash : List Byte → UInt32) (qs : List Request)
    (hfew : qs.length < 2 ^ 28) (hfits : fits hash .start qs)
    (hserved : ∀ q ∈ qs, Served q.arrival ∧ q.granted = true) :
    ∃ t os, run hash .start qs = .ok (some (t, os)) ∧
      (∀ first tbl, t.hashTable = some (first, tbl) → tbl.InRange) ∧
      os.map Prod.fst = answers .empty (qs.map Request.request) ∧
      ∀ key, getValue hash t.hashTable key t.heap =
        .ok ((Store.empty.run (qs.map Request.request) key).map fun e => strncpy 256 e.value,
          t.heap) := by
  set table := firstMatch KeyValue.name
  have hrequests : (qs.map Request.arrival).map Arrival.request = qs.map Request.request := by
    rw [List.map_map]
    rfl
  obtain ⟨s, os, hlist, hos, hr⟩ := listRun_refines table (qs.map Request.arrival) start_refines
    (by simpa using fun q hq => (hserved q hq).1)
  rw [hrequests] at hos hr
  rcases run_agrees table qs (start_agrees hash) hfits with
    ⟨-, q, hq, hg⟩ | ⟨e, -, he⟩ | ⟨t, s', os', hrun, hlist', hsize, ha⟩
  · rw [(hserved q hq).2] at hg
    cases hg
  · rw [hlist] at he
    cases he
  · rw [hlist] at hlist'
    cases hlist'
    refine ⟨t, os, hrun, ha.table.inRange (few_blocks hfew hsize), hos, fun key => ?_⟩
    obtain ⟨r, hget, hget'⟩ := getValue_matches ha table key
    rw [getValue_result table hr key] at hget'
    cases hget'
    exact hget

def contestedRequests : List Request :=
  contested.map fun a =>
    ⟨a.request, a.memory.map fun x => ⟨x, ⟨none, none, none, none, 0, 0⟩⟩, true⟩

theorem contested_requests_agree : ∃ t s os,
    run jenHash .start contestedRequests = .ok (some (t, os)) ∧
      listRun (firstMatch KeyValue.name) .start (contestedRequests.map Request.arrival) =
        .ok (s, os) ∧ hashFsck t.hashTable t.heap = .ok (none, t.heap) := by
  obtain ⟨r, hserved⟩ : ∃ r, run jenHash .start contestedRequests = .ok (some r) := ⟨_, rfl⟩
  rcases hash_table_server_agrees jenHash (firstMatch KeyValue.name) contestedRequests
    (by decide) (by decide +kernel) with
    ⟨hnone, -⟩ | ⟨e, he, -⟩ | ⟨t, s, os, hrun, hlist, -, -, hfsck⟩
  · cases hserved.symm.trans hnone
  · cases hserved.symm.trans he
  · exact ⟨t, s, os, hrun, hlist, hfsck⟩

theorem contested_requests_served : ∃ t os,
    run jenHash .start contestedRequests = .ok (some (t, os)) ∧
      os.map Prod.fst = answers .empty (contestedRequests.map Request.request) := by
  obtain ⟨t, os, hrun, -, hos, -⟩ :=
    served_from_map jenHash contestedRequests (by decide) (by decide +kernel) (by decide)
  exact ⟨t, os, hrun, hos⟩

end Map

section Cleanup

variable {hash : List Byte → UInt32} {h : Heap (Element KeyValue)} {head : HashTable}

theorem nextOf_ok {items : List Addr} (hl : DoublyLinkedLists.Linked appOrder h items) :
    nextOf items.head? h = .ok (items.tail.head?, h) := by
  cases items with
  | nil => rfl
  | cons a items =>
    have hfront : DoublyLinkedLists.Linked appOrder h ([] ++ a :: items) := hl
    obtain ⟨e, he, -, hnext⟩ := hfront.neighbours
    rw [List.head?_cons, nextOf, bind_of_ok (load_ok he)]
    exact congrArg (fun p => Except.ok (p, h)) hnext

/-- Each entry is taken out and freed, with the link to the one after it in hand. Induction
over the entries that are left. -/
theorem cleanupLoop_ok {items : List Addr} : ∀ {h : Heap (Element KeyValue)} {head : HashTable}
    {fuel : ℕ}, Holds keyField hash h head items → items.length < fuel →
    ∃ h', cleanupLoop fuel items.head? items.tail.head? head h = .ok (none, h') ∧
      ∀ a, (h'.read a).isSome ↔ (h.read a).isSome ∧ a ∉ items := by
  induction items with
  | nil =>
    intro h head fuel hh hfuel
    obtain ⟨fuel, rfl⟩ : ∃ n, fuel = n + 1 := ⟨fuel - 1, by simp at hfuel; omega⟩
    cases head with
    | none => exact ⟨h, rfl, by simp⟩
    | some p =>
      have hfirst := hh.first
      cases hfirst
  | cons a items ih =>
    intro h head fuel hh hfuel
    obtain ⟨fuel, rfl⟩ : ∃ n, fuel = n + 1 := ⟨fuel - 1, by simp at hfuel; omega⟩
    obtain ⟨e, he⟩ := hh.live List.mem_cons_self
    obtain ⟨h₁, head₁, hdel, hp, hh₁⟩ := hashDelete_ok hh List.mem_cons_self
    rw [List.erase_cons_head] at hh₁
    obtain ⟨e₁, he₁, -⟩ := read_of_map (hp.fixed a) he
    have hrest : a ∉ items := (List.nodup_cons.mp hh.nodup).1
    have hh₂ : Holds keyField hash (h₁.release a) head₁ items := by
      refine hh₁.unchanged (by simp) fun b hb => ?_
      rw [Heap.read_release, if_neg fun hba : b = a => hrest (hba ▸ hb)]
    obtain ⟨h', hloop, hread⟩ := ih hh₂ (Nat.lt_of_succ_lt_succ hfuel)
    refine ⟨h', ?_, fun b => ?_⟩
    · rw [List.head?_cons, List.tail_cons, cleanupLoop, bind_of_ok hdel,
        bind_of_ok (free_ok he₁), bind_of_ok (nextOf_ok hh₂.linked), hloop]
    · have hlive : (h₁.read b).isSome = (h.read b).isSome := by
        have hfixed := congrArg Option.isSome (hp.fixed b)
        rwa [Option.isSome_map, Option.isSome_map] at hfixed
      rw [hread, Heap.read_release, List.mem_cons, not_or, ← hlive]
      by_cases hba : b = a
      · simp [hba]
      · simp [hba]

/-- Once the server has served any requests, the cleanup frees every entry, each once, and no
memory that was handed out for an entry is left. -/
theorem cleanup_frees_all (hash : List Byte → UInt32) (qs : List Request)
    (hfew : qs.length < 2 ^ 28) (hfits : fits hash .start qs) {t : State}
    {os : List (Option CString × Option Diagnostic)}
    (hrun : run hash .start qs = .ok (some (t, os))) :
    (∀ first tbl, t.hashTable = some (first, tbl) → tbl.InRange) ∧
    ∃ h, cleanupHashTable t.hashTable t.heap = .ok (none, h) ∧ ∀ a, h.read a = none := by
  rcases run_agrees (firstMatch KeyValue.name) qs (start_agrees hash) hfits with
    ⟨hnone, -⟩ | ⟨e, he, -⟩ | ⟨t', s, os', hok, -, hsize, ha⟩
  · rw [hrun] at hnone
    cases hnone
  · rw [hrun] at he
    cases he
  · rw [hrun] at hok
    cases hok
    have hhead : t.hashTable.map Prod.fst = s.hashTable.head? := by
      have hh := ha.table
      cases ht : t.hashTable with
      | none =>
        rw [ht] at hh
        rw [show s.hashTable = [] from hh]
        rfl
      | some p =>
        rw [ht] at hh
        exact hh.first.symm
    obtain ⟨h, hloop, hread⟩ := cleanupLoop_ok ha.table
      (Nat.lt_succ_of_le (ha.table.linked.length_le ha.table.nodup))
    refine ⟨ha.table.inRange (few_blocks hfew hsize), h, ?_, fun a => ?_⟩
    · rw [cleanupHashTable, hhead, bind_of_ok (nextOf_ok ha.table.linked),
        bind_of_ok (rounds_ok t.heap), hloop]
    · refine Option.not_isSome_iff_eq_none.mp fun hsome => ?_
      obtain ⟨hlive, hout⟩ := (hread a).mp hsome
      obtain ⟨e, he⟩ := Option.isSome_iff_exists.mp hlive
      refine hout (ha.owned a e.item ?_)
      rw [ha.heap, read_itemsOf, he]
      rfl

theorem contested_requests_freed : ∃ t os h,
    run jenHash .start contestedRequests = .ok (some (t, os)) ∧
      cleanupHashTable t.hashTable t.heap = .ok (none, h) ∧ ∀ a, h.read a = none := by
  obtain ⟨-, h, hcleanup, hread⟩ :=
    cleanup_frees_all jenHash contestedRequests (by decide) (by decide +kernel) rfl
  exact ⟨_, _, h, rfl, hcleanup, hread⟩

end Cleanup

end NameValueHashTable
