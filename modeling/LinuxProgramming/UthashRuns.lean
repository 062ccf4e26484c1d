import LinuxProgramming.UthashOperations
import Mathlib.Data.Multiset.AddSub
import Mathlib.Data.Multiset.MapFold

/-! A program that uses the table as the header intends: it allocates an element and adds it, or
it looks a key up, takes the element out and frees it. From the empty table on, every sequence
of these keeps the table right and makes it hold a known collection of keys. -/
namespace UthashRuns

open BlockMemory CharStrings LinkedTable Uthash

/-- `add` comes with the contents of the new block and whether the table gets memory itself. -/
inductive Operation (α : Type) where
  | add (x : Element α) (granted : Bool)
  | delete (key : List Byte)

section Program

variable {α : Type} (K : KeyField α) (hash : List Byte → UInt32)

def allocate (x : Element α) : Program (Element α) Addr := fun h => .ok (h.fresh, h.alloc x)

def perform (head : HashTable) : Operation α → Program (Element α) (Option HashTable)
  | .add x granted => do
    let add ← allocate x
    hashAdd K hash granted head add
  | .delete key => do
    match ← hashFind K hash head key with
    | none => return some head
    | some delptr =>
      let head ← hashDelete head delptr
      free (some delptr)
      return some head

/-- No result once the table has found no memory. -/
def run : HashTable → List (Operation α) → Program (Element α) (Option HashTable)
  | head, [] => return some head
  | head, op :: ops => do
    match ← perform K hash head op with
    | none => return none
    | some head => run head ops

/-- Whether the table has fewer than 2^31 buckets before each of the operations. -/
def fits : HashTable → List (Operation α) → Heap (Element α) → Bool
  | _, [], _ => true
  | head, op :: ops, h => Roomy head &&
      match perform K hash head op h with
      | .ok (some head, h) => fits head ops h
      | _ => true

/-- The keys that should be there, as often as they were added and not deleted. -/
def Operation.apply (m : Multiset (List Byte)) : Operation α → Multiset (List Byte)
  | .add x _ => K.key x.item ::ₘ m
  | .delete key => m.erase key

def contents (ops : List (Operation α)) : Multiset (List Byte) :=
  ops.foldl (Operation.apply K) 0

end Program

section Invariant

variable {α : Type} {K : KeyField α} {hash : List Byte → UInt32} {h : Heap (Element α)}
  {head : HashTable} {items : List Addr} {m : Multiset (List Byte)}

structure Contains (K : KeyField α) (hash : List Byte → UInt32) (h : Heap (Element α))
    (head : HashTable) (items : List Addr) (m : Multiset (List Byte)) : Prop where
  table : Holds K hash h head items
  keys : (items.map (keyAt (keyOf K) h) : Multiset (Option (List Byte))) = m.map some

theorem Contains.mem_iff (hc : Contains K hash h head items m) {key : List Byte} :
    key ∈ m ↔ ∃ a ∈ items, keyAt (keyOf K) h a = some key := by
  rw [← Multiset.mem_map_of_injective (Option.some_injective _), ← hc.keys, Multiset.mem_coe,
    List.mem_map]

theorem Contains.find (hc : Contains K hash h head items m) (key : List Byte) :
    ∃ r, hashFind K hash head key h = .ok (r, h) ∧ Finds K h items key r ∧
      (r.isSome ↔ key ∈ m) := by
  obtain ⟨r, hrun, hr⟩ := hashFind_finds hc.table key
  refine ⟨r, hrun, hr, ?_⟩
  rw [hc.mem_iff]
  cases r with
  | some a => exact ⟨fun _ => ⟨a, hr.1, hr.2⟩, fun _ => rfl⟩
  | none =>
    constructor
    · intro hsome
      cases hsome
    · rintro ⟨a, ha, hkey⟩
      exact absurd hkey (hr a ha)

end Invariant

end UthashRuns
