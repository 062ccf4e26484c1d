import LinuxProgramming.ThreadSafeTreeInvariant
import LinuxProgramming.TransitionSystems

/-! Threads that call `add` and `lookup` on one tree, one memory access a step. An `add`
excludes other adds from a node by its mutex only, a `lookup` takes no mutex, and a child is
in the tree before `initialize` has run on it. `calloc` succeeds. -/
namespace ThreadSafeTreeInterleaving

open BlockMemory CharStrings SearchGraph TransitionSystems ThreadSafeTree
open ThreadSafeTreeInvariant

variable {ι V : Type}

inductive Op (V : Type) where
  | add (c : Call V)
  | lookup (key : CString)
  deriving DecidableEq

inductive Done (V : Type) where
  | add (c : Call V) (r : Int)
  | lookup (key : CString) (found : Bool)
  deriving DecidableEq

def Done.op : Done V → Op V
  | .add c _ => .add c
  | .lookup key _ => .lookup key

inductive Stage where
  | mutexInit | mutexLock | key | value | left | right | mutexUnlock
  deriving DecidableEq

def Stage.next : Stage → Option Stage
  | .mutexInit => some .mutexLock
  | .mutexLock => some .key
  | .key => some .value
  | .value => some .left
  | .left => some .right
  | .right => some .mutexUnlock
  | .mutexUnlock => none

def Stage.effect (n : Node V) : Stage → Option (Node V)
  | .mutexInit => some { n with nodeMutex := false }
  | .mutexLock => if n.nodeMutex then none else some { n with nodeMutex := true }
  | .key => some { n with key := none }
  | .value => some { n with value := none }
  | .left => some { n with left := none }
  | .right => some { n with right := none }
  | .mutexUnlock => some { n with nodeMutex := false }

/-- The next access of an `add`. Results of nested calls are dropped. -/
inductive AddPc where
  | lock (node : Addr) (nested : Bool)
  | testKey (node : Addr) (nested : Bool)
  | storeKey (node : Addr)
  | storeValue (node : Addr)
  | unlockFilled (node : Addr)
  | compare (node : Addr) (nested : Bool)
  | testChild (node : Addr) (d : Dir)
  | makeChild (node : Addr) (d : Dir)
  | setUp (node : Addr) (d : Dir) (child : Addr) (stage : Stage)
  | unlockDescend (node : Addr) (d : Dir)
  | descend (node : Addr) (d : Dir)
  | unlockDuplicate (node : Addr) (nested : Bool)
  deriving DecidableEq

/-- The next access of a `lookup`; it reads the key of a node twice. -/
inductive LookupPc where
  | readKey (root : Option Addr)
  | compareKey (root : Addr)
  | follow (root : Addr) (d : Dir)
  deriving DecidableEq

inductive Next (π ρ : Type) where
  | go (pc : π)
  | ret (r : ρ)

/-- One access of an `add`; none while the mutex is taken, or on an invalid pointer. -/
def addStep (c : Call V) (h : Heap (Node V)) : AddPc → Option (Heap (Node V) × Next AddPc Int)
  | .lock a nested => (h.read a).bind fun n =>
    if n.nodeMutex then none
    else some (h.write a { n with nodeMutex := true }, .go (.testKey a nested))
  | .testKey a nested => (h.read a).bind fun n =>
    some (h, .go (if n.key = none then .storeKey a else .compare a nested))
  | .storeKey a => (h.read a).bind fun n =>
    some (h.write a { n with key := some c.key }, .go (.storeValue a))
  | .storeValue a => (h.read a).bind fun n =>
    some (h.write a { n with value := c.value }, .go (.unlockFilled a))
  | .unlockFilled a => (h.read a).bind fun n =>
    some (h.write a { n with nodeMutex := false }, .ret 0)
  | .compare a nested => (h.read a).bind fun n => n.key.bind fun rootKey =>
    some (h, .go (if strcmp c.key rootKey < 0 then .testChild a .left
      else if 0 < strcmp c.key rootKey then .testChild a .right
      else .unlockDuplicate a nested))
  | .testChild a d => (h.read a).bind fun n =>
    some (h, .go (if n.child d = none then .makeChild a d else .unlockDescend a d))
  | .makeChild a d => (h.read a).bind fun n =>
    some ((h.alloc .blank).write a (n.setChild d (some h.fresh)),
      .go (.setUp a d h.fresh .mutexInit))
  | .setUp a d b stage => (h.read b).bind fun n => (stage.effect n).bind fun n' =>
    some (h.write b n', .go (match stage.next with
      | some stage' => .setUp a d b stage'
      | none => .unlockDescend a d))
  | .unlockDescend a d => (h.read a).bind fun n =>
    some (h.write a { n with nodeMutex := false }, .go (.descend a d))
  | .descend a d => (h.read a).bind fun n => (n.child d).bind fun b =>
    some (h, .go (.lock b true))
  | .unlockDuplicate a nested => (h.read a).bind fun n =>
    some (h.write a { n with nodeMutex := false }, .ret (if nested then 0 else -1))

def lookupStep (key : CString) (h : Heap (Node V)) : LookupPc → Option (Next LookupPc Bool)
  | .readKey none => some (.ret false)
  | .readKey (some a) => (h.read a).bind fun n =>
    some (if n.key = none then .ret false else .go (.compareKey a))
  | .compareKey a => (h.read a).bind fun n => n.key.bind fun rootKey =>
    some (if 0 < strcmp rootKey key then .go (.follow a .left)
      else if strcmp rootKey key < 0 then .go (.follow a .right)
      else .ret true)
  | .follow a d => (h.read a).bind fun n => some (.go (.readKey (n.child d)))

inductive Activity (V : Type) where
  | idle
  | adding (c : Call V) (pc : AddPc)
  | lookingUp (key : CString) (pc : LookupPc)
  deriving DecidableEq

/-- `stored` is the history of the keys this thread has put into nodes; no step reads it. -/
structure Thread (V : Type) where
  todo : List (Op V)
  activity : Activity V
  returned : List (Done V)
  stored : List (Addr × Call V)
  deriving DecidableEq

structure State (ι V : Type) where
  heap : Heap (Node V)
  threads : ι → Thread V

def Op.start : Op V → Activity V
  | .add c => .adding c (.lock rootAddr false)
  | .lookup key => .lookingUp key (.readKey (some rootAddr))

def storesOf (c : Call V) : AddPc → List (Addr × Call V)
  | .storeKey a => [(a, c)]
  | _ => []

def threadStep (h : Heap (Node V)) (t : Thread V) : Option (Heap (Node V) × Thread V) :=
  match t.activity with
  | .idle =>
    match t.todo with
    | [] => none
    | op :: rest => some (h, { t with todo := rest, activity := op.start })
  | .adding c pc => (addStep c h pc).map fun r =>
    (r.1, match r.2 with
      | .go pc' => { t with activity := .adding c pc', stored := t.stored ++ storesOf c pc }
      | .ret x => { t with activity := .idle, returned := t.returned ++ [.add c x] })
  | .lookingUp key pc => (lookupStep key h pc).map fun r =>
    (h, match r with
      | .go pc' => { t with activity := .lookingUp key pc' }
      | .ret found => { t with activity := .idle, returned := t.returned ++ [.lookup key found] })

def Step [DecidableEq ι] (s : State ι V) (i : ι) (u : State ι V) : Prop :=
  ∃ h t, threadStep s.heap (s.threads i) = some (h, t) ∧
    u = ⟨h, Function.update s.threads i t⟩

def initial (calls : ι → List (Op V)) : State ι V :=
  ⟨rooted, fun i => ⟨calls i, .idle, [], []⟩⟩

def next [DecidableEq ι] (s : State ι V) (i : ι) : Option (State ι V) :=
  (threadStep s.heap (s.threads i)).map fun r => ⟨r.1, Function.update s.threads i r.2⟩

theorem step_of_next [DecidableEq ι] {s u : State ι V} {i : ι} (h : next s i = some u) :
    Step s i u := by
  obtain ⟨⟨heap, t⟩, ht, rfl⟩ := Option.map_eq_some_iff.mp h
  exact ⟨heap, t, ht, rfl⟩

end ThreadSafeTreeInterleaving
