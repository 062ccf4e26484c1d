import LinuxProgramming.BlockMemory
import LinuxProgramming.CharStrings
import LinuxProgramming.SearchGraph

/-! The thread-safe unbalanced binary tree of `thread_safe_tree.c`.
A pointer is an optional address, `none` being NULL. Keys are the strings they point to,
which nobody modifies. Mutex calls on a live node succeed or block; `calloc` may fail. -/
namespace ThreadSafeTree

open BlockMemory CharStrings SearchGraph

structure Node (V : Type) where
  key : Option CString
  value : Option V
  left : Option Addr
  right : Option Addr
  nodeMutex : Bool
  deriving DecidableEq

variable {V : Type}

def Node.child (n : Node V) : Dir → Option Addr
  | .left => n.left
  | .right => n.right

def Node.setChild (n : Node V) (d : Dir) (p : Option Addr) : Node V :=
  match d with
  | .left => { n with left := p }
  | .right => { n with right := p }

/-- The zeroed memory that `calloc` hands out; an all-zero mutex is a free one. -/
def Node.blank : Node V := ⟨none, none, none, none, false⟩

abbrev TreeProgram (V : Type) (β : Type) := Program (Node V) β

def pthreadMutexInit (node : Option Addr) : TreeProgram V Unit :=
  store node fun n => { n with nodeMutex := false }

def pthreadMutexLock (node : Option Addr) : TreeProgram V Unit := do
  let n ← load node
  if n.nodeMutex then throw .deadlock
  store node fun n => { n with nodeMutex := true }

def pthreadMutexUnlock (node : Option Addr) : TreeProgram V Unit :=
  store node fun n => { n with nodeMutex := false }

def calloc : TreeProgram V Addr := fun h => .ok (h.fresh, h.alloc .blank)

def initializeNode (node : Option Addr) : TreeProgram V Int := do
  pthreadMutexInit node
  pthreadMutexLock node
  store node fun n => { n with key := none }
  store node fun n => { n with value := none }
  store node fun n => { n with left := none }
  store node fun n => { n with right := none }
  pthreadMutexUnlock node
  return 0

/-- How a critical section of `add` ends: with a return, or with the mutex released
and the recursive call on a child still to come. -/
inductive Section where
  | ret (r : Int)
  | descend (d : Dir)
  deriving DecidableEq, Repr

/-- The branch of `add` for one side. A failed `calloc` returns with the mutex held. -/
def addBelow (callocOk : Bool) (root : Addr) (d : Dir) : TreeProgram V Section := do
  let n ← load (some root)
  if n.child d = none then
    if callocOk then
      let child ← calloc
      store (some root) fun n => n.setChild d (some child)
      let _ ← initializeNode (some child)
      pthreadMutexUnlock (some root)
      return .descend d
    else
      store (some root) fun n => n.setChild d none
      return .ret (-1)
  else
    pthreadMutexUnlock (some root)
    return .descend d

def addSection (callocOk : Bool) (root : Addr) (key : CString) (value : Option V) :
    TreeProgram V Section := do
  pthreadMutexLock (some root)
  let n ← load (some root)
  match n.key with
  | none =>
    store (some root) fun n => { n with key := some key }
    store (some root) fun n => { n with value := value }
    pthreadMutexUnlock (some root)
    return .ret 0
  | some rootKey =>
    if strcmp key rootKey < 0 then addBelow callocOk root .left
    else if 0 < strcmp key rootKey then addBelow callocOk root .right
    else
      pthreadMutexUnlock (some root)
      return .ret (-1)

/-- A call reaches `calloc` at most once: the child it made is empty and takes the key.
The result of the recursive call is dropped. -/
def addFrom (callocOk : Bool) : ℕ → Option Addr → Option CString → Option V → TreeProgram V Int
  | 0, _, _, _ => throw .outOfFuel
  | _ + 1, _, none, _ => return -1
  | _ + 1, none, some _, _ => throw .invalidPointer
  | fuel + 1, some root, some key, value => do
    match ← addSection callocOk root key value with
    | .ret r => return r
    | .descend d =>
      let n ← load (some root)
      let _ ← addFrom callocOk fuel (n.child d) (some key) value
      return 0

/-- Every node is met at most once on the way down, so the number of blocks bounds the depth. -/
def depth : TreeProgram V ℕ := fun h => .ok (h.fresh + 2, h)

def add (callocOk : Bool) (root : Option Addr) (key : Option CString) (value : Option V) :
    TreeProgram V Int := do
  addFrom callocOk (← depth) root key value

structure Call (V : Type) where
  key : CString
  value : Option V
  deriving DecidableEq

/-- `value` is what the caller's variable holds: the assignment in the last branch sets
the parameter, not the variable. -/
def lookupFrom : ℕ → Option Addr → Option CString → Option V → TreeProgram V (Bool × Option V)
  | 0, _, _, _ => throw .outOfFuel
  | _ + 1, _, none, value => return (false, value)
  | _ + 1, none, some _, value => return (false, value)
  | fuel + 1, some root, some key, value => do
    let n ← load (some root)
    match n.key with
    | none => return (false, value)
    | some rootKey =>
      if 0 < strcmp rootKey key then lookupFrom fuel n.left (some key) value
      else if strcmp rootKey key < 0 then lookupFrom fuel n.right (some key) value
      else return (true, value)

def lookup (root : Option Addr) (key : Option CString) (value : Option V) :
    TreeProgram V (Bool × Option V) := do
  lookupFrom (← depth) root key value

/-- `parent` is what the caller's variable holds, junk at first. -/
def getParentFrom : ℕ → Option Addr → Option CString → Option Addr →
    TreeProgram V (Int × Option Addr)
  | 0, _, _, _ => throw .outOfFuel
  | _ + 1, _, none, parent => return (-1, parent)
  | _ + 1, none, some _, parent => return (-1, parent)
  | fuel + 1, some root, some childKey, parent => do
    let n ← load (some root)
    match n.key with
    | none => return (-1, parent)
    | some rootKey =>
      if 0 < strcmp rootKey childKey then
        getParentFrom fuel n.left (some childKey) (if n.left = none then parent else some root)
      else if strcmp rootKey childKey < 0 then
        getParentFrom fuel n.right (some childKey) (if n.right = none then parent else some root)
      else return (0, parent)

def getParent (root : Option Addr) (childKey : Option CString) (parent : Option Addr) :
    TreeProgram V (Int × Option Addr) := do
  getParentFrom (← depth) root childKey parent

def getNodeFrom : ℕ → Option Addr → Option CString → Option Addr → TreeProgram V (Int × Option Addr)
  | 0, _, _, _ => throw .outOfFuel
  | _ + 1, _, none, self => return (-1, self)
  | _ + 1, none, some _, self => return (-1, self)
  | fuel + 1, some root, some key, self => do
    let n ← load (some root)
    match n.key with
    | none => return (-1, self)
    | some rootKey =>
      if 0 < strcmp rootKey key then getNodeFrom fuel n.left (some key) self
      else if strcmp rootKey key < 0 then getNodeFrom fuel n.right (some key) self
      else return (0, some root)

def getNode (root : Option Addr) (key : Option CString) (self : Option Addr) :
    TreeProgram V (Int × Option Addr) := do
  getNodeFrom (← depth) root key self

def furthest (d : Dir) : ℕ → Addr → TreeProgram V Addr
  | 0, _ => throw .outOfFuel
  | fuel + 1, tmp => do
    let n ← load (some tmp)
    match n.child d with
    | none => return tmp
    | some c => furthest d fuel c

def getFurthest (d : Dir) (root res : Option Addr) : TreeProgram V (Int × Option Addr) :=
  match root with
  | none => return (-1, res)
  | some a => do
    let n ← load (some a)
    if n.key = none then return (-1, res)
    let tmp ← furthest d (← depth) a
    return (0, some tmp)

def getMin (root res : Option Addr) : TreeProgram V (Int × Option Addr) :=
  getFurthest .left root res

def getMax (root res : Option Addr) : TreeProgram V (Int × Option Addr) :=
  getFurthest .right root res

def strcmpPtr (a b : Option CString) : TreeProgram V Int :=
  match a, b with
  | some a, some b => return strcmp a b
  | _, _ => throw .invalidPointer

/-- The part of `delete` for a node without children. The side to unlink is chosen by
comparing with the key of `root`. -/
def unlinkLeaf (root : Option Addr) (key : Option CString) (parent self : Option Addr) :
    TreeProgram V Int := do
  let r ← load root
  if 0 < (← strcmpPtr r.key key) then
    store parent fun p => p.setChild .left none
  else
    store parent fun p => p.setChild .right none
  free self
  pthreadMutexUnlock parent
  return 0

/-- `self` takes the pair of its neighbour in the order, whose node is released. Neither
the link to that node nor the mutex of the parent is touched. -/
def takeOver (self neighbour : Option Addr) : TreeProgram V Int := do
  pthreadMutexLock self
  let m ← load neighbour
  store self fun n => { n with key := m.key }
  let m ← load neighbour
  store self fun n => { n with value := m.value }
  free neighbour
  pthreadMutexUnlock self
  return 0

def replaceInner (self : Option Addr) (n : Node V) : TreeProgram V Int := do
  if n.left ≠ none then
    let (s, leftMax) ← getMax n.left none
    if s ≠ 0 then return -1
    takeOver self leftMax
  else
    let (s, rightMin) ← getMin n.right none
    if s ≠ 0 then return -1
    takeOver self rightMin

def deleteFound (root : Option Addr) (key : Option CString) (parent self : Option Addr) :
    TreeProgram V Int := do
  pthreadMutexLock parent
  let n ← load self
  if n.left = none ∧ n.right = none then unlinkLeaf root key parent self
  else replaceInner self n

/-- `parent` and `self` are what the uninitialized locals happen to hold. -/
def delete (root : Option Addr) (key : Option CString) (parent self : Option Addr) :
    TreeProgram V Int := do
  let (s, parent) ← getParent root key parent
  if s ≠ 0 then return -1
  let (s, self) ← getNode root key self
  if s ≠ 0 then return -1
  deleteFound root key parent self

end ThreadSafeTree
