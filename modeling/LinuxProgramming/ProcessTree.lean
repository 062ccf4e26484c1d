import LinuxProgramming.DecimalText
import LinuxProgramming.FallibleLoops
import LinuxProgramming.ParentForest
import Mathlib.Data.Fin.VecNotation
import Mathlib.Data.Nat.SuccPred

/-! The process tree of `pstree.c`. The linked list is a sequence of processes, and a node is
its place in it; the ghost process is a node of its own. `create_tree` fills the arrays of
children, `print_tree` walks them. Nothing keeps the list from naming parents in a circle, so
the printing takes a bound on its nested calls. -/
namespace ProcessTree

open CharStrings DecimalText FallibleLoops ParentForest

abbrev Pid := BitVec 32

structure Process where
  name : CString
  pid : Pid
  ppid : Pid

inductive Node (n : ℕ) where
  | ghost
  | process (i : Fin n)
  deriving DecidableEq

/-- `childs` up to `child_array_index`. -/
structure ChildArray (n : ℕ) where
  entries : List (Fin n)
  bound : entries.length ≤ 512

def ChildArray.push (a : ChildArray n) (i : Fin n) : Option (ChildArray n) :=
  if h : a.entries.length < 512 then some ⟨a.entries ++ [i], by simpa using h⟩ else none

/-- The fields that `create_tree` sets; a `parent` is undefined before. -/
structure Tree (n : ℕ) where
  childs : Node n → ChildArray n
  parent : Fin n → Option (Node n)

inductive Failure where
  | malloc
  | findNodeInLl
  | outOfBounds
  deriving DecidableEq

section Source

variable {n : ℕ} (ps : Fin n → Process)

def findNodeInLl (pid : Pid) : Option (Fin n) :=
  (List.finRange n).find? fun i => (ps i).pid = pid

def adopt (tree : Tree n) (node : Node n) (i : Fin n) : Except Failure (Tree n) :=
  match (tree.childs node).push i with
  | none => .error .outOfBounds
  | some array => .ok
    { childs := Function.update tree.childs node array
      parent := Function.update tree.parent i (some node) }

def attach (tree : Tree n) (i : Fin n) : Except Failure (Tree n) :=
  if (ps i).ppid = 0 then adopt tree .ghost i
  else match findNodeInLl ps (ps i).ppid with
    | none => .error .findNodeInLl
    | some j => adopt tree (.process j) i

def emptyTree (n : ℕ) : Tree n := ⟨fun _ => ⟨[], Nat.zero_le 512⟩, fun _ => none⟩

/-- `granted` tells whether there is memory for the ghost process. -/
def createTree (granted : Bool) : Except Failure (Tree n) :=
  if granted then (List.finRange n).foldlM (attach ps) (emptyTree n) else .error .malloc

/-- The line of a node. The depth is an `int`, which no stack of nested calls can exceed. -/
def lineOf (node : Fin n) (depth : ℕ) (isLast : Bool) : List Byte :=
  (List.replicate (depth - 1) (ascii (if isLast then "    " else "|   "))).flatten ++
    (if depth > 0 then ascii (if isLast then "`-- " else "|-- ") else []) ++
    ((ps node).name.bytes ++ ascii "(" ++ formatInt (ps node).pid.toInt ++ ascii ")\n")

/-- The loops over `childs`: `isLast` is set at the last index. -/
def printChilds (print : Fin n → Bool → Option (List Byte)) : List (Fin n) → Option (List Byte)
  | [] => some []
  | child :: rest => do
    let text ← print child rest.isEmpty
    let more ← printChilds print rest
    some (text ++ more)

/-- No result means that the nested calls are more than the bound. -/
def printTreeRecursive (tree : Tree n) : ℕ → Fin n → ℕ → Bool → Option (List Byte)
  | 0, _, _, _ => none
  | calls + 1, node, depth, isLast => do
    let below ← printChilds (fun child last => printTreeRecursive tree calls child (depth + 1) last)
      (tree.childs (.process node)).entries
    some (lineOf ps node depth isLast ++ below)

def header : List Byte := ascii "GHOST PROCESS(0)\n"

def printTree (tree : Tree n) (calls : ℕ) : Option (List Byte) := do
  let below ← printChilds (fun child last => printTreeRecursive ps tree calls child 1 last)
    (tree.childs .ghost).entries
  some (header ++ below)

end Source

section Parents

variable {n : ℕ}

inductive IsParent (ps : Fin n → Process) (i : Fin n) : Node n → Prop where
  | ghost : (ps i).ppid = 0 → IsParent ps i .ghost
  | process {j} : (ps i).ppid ≠ 0 → (ps j).pid = (ps i).ppid →
      (∀ k < j, (ps k).pid ≠ (ps i).ppid) → IsParent ps i (.process j)

/-- The chain of parents comes to a process with `ppid` 0. -/
inductive ReachesGhost (ps : Fin n → Process) : Fin n → Prop where
  | here {i} : (ps i).ppid = 0 → ReachesGhost ps i
  | parent {i j} : IsParent ps i (.process j) → ReachesGhost ps j → ReachesGhost ps i

variable (ps : Fin n → Process)

def parentOf (i : Fin n) : Option (Node n) :=
  if (ps i).ppid = 0 then some .ghost else (findNodeInLl ps (ps i).ppid).map .process

def up (i : Fin n) : Option (Fin n) :=
  if (ps i).ppid = 0 then none else findNodeInLl ps (ps i).ppid

variable {ps} {i j : Fin n} {node : Node n}

theorem findNodeInLl_eq_some {pid : Pid} :
    findNodeInLl ps pid = some j ↔ (ps j).pid = pid ∧ ∀ k < j, (ps k).pid ≠ pid := by
  rw [findNodeInLl, List.find?_eq_some_iff_getElem]
  simp only [decide_eq_true_eq, List.getElem_finRange, List.length_finRange]
  refine and_congr_right fun _ => ?_
  constructor
  · rintro ⟨m, hm, rfl, hbefore⟩ k hk hpid
    simpa [hpid] using hbefore k.val hk
  · intro hbefore
    refine ⟨j.val, j.isLt, by simp, ?_⟩
    intro k hk
    simpa using hbefore ⟨k, hk.trans j.isLt⟩ hk

theorem isParent_iff : IsParent ps i node ↔ parentOf ps i = some node := by
  rw [parentOf]
  constructor
  · intro h
    cases h with
    | ghost hzero => exact if_pos hzero
    | process hne hpid hfirst =>
      rw [if_neg hne, findNodeInLl_eq_some.mpr ⟨hpid, hfirst⟩]
      rfl
  · intro h
    split at h
    · next hzero =>
      cases h
      exact .ghost hzero
    · next hne =>
      obtain ⟨j, hfind, rfl⟩ := Option.map_eq_some_iff.mp h
      obtain ⟨hpid, hfirst⟩ := findNodeInLl_eq_some.mp hfind
      exact .process hne hpid hfirst

instance : Decidable (IsParent ps i node) := decidable_of_iff _ isParent_iff.symm

theorem IsParent.unique {other : Node n} (h : IsParent ps i node) (h' : IsParent ps i other) :
    node = other :=
  Option.some.inj ((isParent_iff.mp h).symm.trans (isParent_iff.mp h'))

theorem exists_parent (hlisted : ∀ i, (ps i).ppid ≠ 0 → ∃ j, (ps j).pid = (ps i).ppid)
    (i : Fin n) : ∃ node, IsParent ps i node := by
  by_cases hzero : (ps i).ppid = 0
  · exact ⟨_, .ghost hzero⟩
  · cases hfind : findNodeInLl ps (ps i).ppid with
    | none =>
      obtain ⟨j, hj⟩ := hlisted i hzero
      have hno := List.find?_eq_none.mp hfind j (List.mem_finRange j)
      simp [hj] at hno
    | some j =>
      obtain ⟨hpid, hfirst⟩ := findNodeInLl_eq_some.mp hfind
      exact ⟨_, .process hzero hpid hfirst⟩

theorem isParent_process_iff : IsParent ps i (.process j) ↔ up ps i = some j := by
  rw [isParent_iff, parentOf, up]
  split <;> simp

theorem isParent_ghost_iff : IsParent ps i .ghost ↔ (ps i).ppid = 0 := by
  rw [isParent_iff, parentOf]
  split
  · simp_all
  · simp_all

theorem up_eq_none (hparents : ∀ i, ∃ node, IsParent ps i node) :
    up ps i = none ↔ (ps i).ppid = 0 := by
  constructor
  · intro hnone
    obtain ⟨node, hnode⟩ := hparents i
    cases node with
    | ghost => exact isParent_ghost_iff.mp hnode
    | process j => simp [isParent_process_iff.mp hnode] at hnone
  · intro hzero
    exact if_pos hzero

theorem reachesGhost_iff (hparents : ∀ i, ∃ node, IsParent ps i node) :
    ReachesGhost ps i ↔ ∃ d, AtDepth (up ps) d i := by
  constructor
  · intro h
    induction h with
    | here hzero => exact ⟨1, .root ((up_eq_none hparents).mpr hzero)⟩
    | parent hp _ ih =>
      obtain ⟨d, hd⟩ := ih
      exact ⟨d + 1, .child (isParent_process_iff.mp hp) hd⟩
  · rintro ⟨d, hd⟩
    induction hd with
    | root hup => exact .here ((up_eq_none hparents).mp hup)
    | child hup _ ih => exact .parent (isParent_process_iff.mpr hup) ih

end Parents

section Build

variable {n : ℕ} {ps : Fin n → Process} {tree : Tree n} {done : List (Fin n)} {i : Fin n}

structure Built (ps : Fin n → Process) (done : List (Fin n)) (tree : Tree n) : Prop where
  childs : ∀ node, (tree.childs node).entries = done.filter fun i => IsParent ps i node
  parent : ∀ i ∈ done, ∀ node, IsParent ps i node → tree.parent i = some node

theorem emptyTree_built (ps : Fin n → Process) : Built ps [] (emptyTree n) :=
  ⟨fun _ => rfl, by simp⟩

theorem attach_eq {node : Node n} (hnode : IsParent ps i node) :
    attach ps tree i = adopt tree node i := by
  cases hnode with
  | ghost hzero => exact if_pos hzero
  | process hne hpid hfirst =>
    rw [attach, if_neg hne, findNodeInLl_eq_some.mpr ⟨hpid, hfirst⟩]

theorem Built.attach (h : Built ps done tree) {node : Node n} (hnode : IsParent ps i node)
    (hroom : (tree.childs node).entries.length < 512) :
    ∃ grown, attach ps tree i = .ok grown ∧ Built ps (done ++ [i]) grown := by
  rw [attach_eq hnode, adopt, ChildArray.push, dif_pos hroom]
  refine ⟨_, rfl, ?_, ?_⟩
  · intro other
    rw [List.filter_append]
    by_cases hother : other = node
    · subst hother
      simp [hnode, h.childs]
    · have hno : ¬ IsParent ps i other := fun h' => hother (h'.unique hnode)
      simp [hother, hno, h.childs]
  · intro k hk other hother
    by_cases hki : k = i
    · subst hki
      simp [hnode.unique hother]
    · have hk : k ∈ done := by simpa [hki] using hk
      simpa [hki] using h.parent k hk other hother

/-- Every array of children has its processes in the order of the list. -/
theorem createTree_built (hparents : ∀ i, ∃ node, IsParent ps i node)
    (hroom : ∀ node, ((List.finRange n).filter fun i => IsParent ps i node).length ≤ 512) :
    ∃ tree, createTree ps true = .ok tree ∧ Built ps (List.finRange n) tree := by
  refine foldlM_succeeds (emptyTree_built ps) ?_
  intro done i rest tree hwhole hbuilt
  obtain ⟨node, hnode⟩ := hparents i
  apply hbuilt.attach hnode
  have hall := hroom node
  rw [hwhole, List.filter_append, List.filter_cons_of_pos (by simpa using hnode),
    List.length_append, List.length_cons, ← hbuilt.childs node] at hall
  omega

theorem adopt_ok {node : Node n} {grown : Tree n} (h : adopt tree node i = .ok grown) :
    (tree.childs node).entries.length < 512 := by
  rw [adopt, ChildArray.push] at h
  split at h
  · cases h
  · next hpush =>
    split at hpush
    · next hroom => exact hroom
    · cases hpush

theorem attach_ok {grown : Tree n} (h : attach ps tree i = .ok grown) :
    ∃ node, IsParent ps i node ∧ (tree.childs node).entries.length < 512 := by
  rw [attach] at h
  split at h
  · next hzero => exact ⟨_, .ghost hzero, adopt_ok h⟩
  · next hne =>
    split at h
    · cases h
    · next hfind =>
      obtain ⟨hpid, hfirst⟩ := findNodeInLl_eq_some.mp hfind
      exact ⟨_, .process hne hpid hfirst, adopt_ok h⟩

theorem createTree_parents (h : createTree ps true = .ok tree) :
    (∀ i ∈ List.finRange n, ∃ node, IsParent ps i node) ∧ Built ps (List.finRange n) tree := by
  refine foldlM_preserves (P := fun done tree =>
    (∀ i ∈ done, ∃ node, IsParent ps i node) ∧ Built ps done tree)
    ⟨by simp, emptyTree_built ps⟩ ?_ h
  rintro done i tree next ⟨hparents, hbuilt⟩ hstep
  obtain ⟨node, hnode, hroom⟩ := attach_ok hstep
  obtain ⟨next', hnext, hgrown⟩ := hbuilt.attach hnode hroom
  cases hstep.symm.trans hnext
  refine ⟨?_, hgrown⟩
  intro j hj
  rcases List.mem_append.mp hj with hj | hj
  · exact hparents j hj
  · rw [List.mem_singleton.mp hj]
    exact ⟨node, hnode⟩

theorem childs_fit_iff (hparents : ∀ i, ∃ node, IsParent ps i node) :
    (∀ node, ((List.finRange n).filter fun i => IsParent ps i node).length ≤ 512) ↔
      ∀ pid, ((List.finRange n).countP fun i => (ps i).ppid = pid) ≤ 512 := by
  simp only [← List.countP_eq_length_filter]
  constructor
  · intro hroom pid
    by_cases hnone : ∃ i, (ps i).ppid = pid
    · obtain ⟨i, hi⟩ := hnone
      obtain ⟨node, hnode⟩ := hparents i
      refine le_trans (List.countP_mono_left fun k _ hk => ?_) (hroom node)
      have hk : (ps k).ppid = (ps i).ppid := (by simpa using hk : (ps k).ppid = pid).trans hi.symm
      rw [decide_eq_true_eq, isParent_iff, parentOf, hk, ← parentOf]
      exact isParent_iff.mp hnode
    · have hzero : ((List.finRange n).countP fun i => (ps i).ppid = pid) = 0 := by
        simpa [List.countP_eq_zero] using hnone
      omega
  · intro hroom node
    cases node with
    | ghost =>
      refine le_trans (List.countP_mono_left fun k _ hk => ?_) (hroom 0)
      simpa [isParent_ghost_iff] using hk
    | process j =>
      refine le_trans (List.countP_mono_left fun k _ hk => ?_) (hroom (ps j).pid)
      rw [decide_eq_true_eq] at hk ⊢
      cases hk with
      | process _ hpid _ => exact hpid.symm

/-- When `create_tree` comes to its end: the ghost has its memory, every parent is listed, and no
process has more than 512 children. -/
theorem createTree_ok_iff {granted : Bool} : (∃ tree, createTree ps granted = .ok tree) ↔
    granted = true ∧ (∀ i, (ps i).ppid ≠ 0 → ∃ j, (ps j).pid = (ps i).ppid) ∧
      ∀ pid, ((List.finRange n).countP fun i => (ps i).ppid = pid) ≤ 512 := by
  constructor
  · rintro ⟨tree, htree⟩
    cases granted with
    | false => cases htree
    | true =>
      obtain ⟨hparents, hbuilt⟩ := createTree_parents htree
      have hall : ∀ i, ∃ node, IsParent ps i node := fun i => hparents i (List.mem_finRange i)
      refine ⟨rfl, ?_, (childs_fit_iff hall).mp fun node => ?_⟩
      · intro i hi
        obtain ⟨node, hnode⟩ := hall i
        cases hnode with
        | ghost hzero => exact absurd hzero hi
        | process _ hpid _ => exact ⟨_, hpid⟩
      · rw [← hbuilt.childs node]
        exact (tree.childs node).bound
  · rintro ⟨rfl, hlisted, hroom⟩
    have hparents := exists_parent hlisted
    obtain ⟨tree, htree, _⟩ := createTree_built hparents ((childs_fit_iff hparents).mpr hroom)
    exact ⟨tree, htree⟩

def nodeOf : Option (Fin n) → Node n
  | none => .ghost
  | some i => .process i

theorem Built.children (h : Built ps (List.finRange n) tree)
    (hparents : ∀ i, ∃ node, IsParent ps i node) :
    Children (up ps) (· < ·) fun p => (tree.childs (nodeOf p)).entries := by
  refine ⟨?_, ?_, lt_irrefl⟩
  · intro p i
    simp only [h.childs, List.mem_filter, List.mem_finRange, true_and, decide_eq_true_eq]
    cases p with
    | some j => exact isParent_process_iff
    | none => exact isParent_ghost_iff.trans (up_eq_none hparents).symm
  · intro p
    simp only [h.childs]
    exact (List.pairwise_lt_finRange n).filter _

end Build

section Print

variable {n : ℕ} {ps : Fin n → Process} {tree : Tree n}

def textOf (ps : Fin n → Process) (e : Entry (Fin n)) : List Byte := lineOf ps e.node e.depth e.last

theorem printChilds_eq {print : Fin n → Bool → Option (List Byte)}
    {list : Bool → Fin n → Option (List (Entry (Fin n)))}
    (h : ∀ child last, print child last = (list last child).map (·.flatMap (textOf ps)))
    (childs : List (Fin n)) :
    printChilds print childs = (each list childs).map (·.flatMap (textOf ps)) := by
  induction childs with
  | nil => rfl
  | cons child rest ih =>
    rw [printChilds, each, h, ih]
    cases list rest.isEmpty child with
    | none => rfl
    | some here =>
      cases each list rest with
      | none => rfl
      | some there => simp

theorem printTreeRecursive_eq (calls depth : ℕ) (node : Fin n) (isLast : Bool) :
    printTreeRecursive ps tree calls node depth isLast =
      (listing (fun p => (tree.childs (.process p)).entries) calls depth isLast node).map
        (·.flatMap (textOf ps)) := by
  induction calls generalizing depth node isLast with
  | zero => rfl
  | succ calls ih =>
    rw [printTreeRecursive, listing, printChilds_eq fun child last => ih (depth + 1) child last]
    cases each (listing _ calls (depth + 1)) (tree.childs (.process node)).entries with
    | none => rfl
    | some rest => simp [textOf]

theorem printTree_eq (calls : ℕ) : printTree ps tree calls =
    (each (listing (fun p => (tree.childs (.process p)).entries) calls 1)
      (tree.childs .ghost).entries).map fun es => header ++ es.flatMap (textOf ps) := by
  rw [printTree, printChilds_eq fun child last => printTreeRecursive_eq calls 1 child last]
  cases each _ (tree.childs .ghost).entries <;> rfl

end Print

/-- The tree and its listing, for every list in which the parents are listed and fit. -/
theorem tree_created_and_printed {n : ℕ} (ps : Fin n → Process)
    (hlisted : ∀ i, (ps i).ppid ≠ 0 → ∃ j, (ps j).pid = (ps i).ppid)
    (hroom : ∀ node, ((List.finRange n).filter fun i => IsParent ps i node).length ≤ 512) :
    ∃ tree, createTree ps true = .ok tree ∧
      (∀ i, ∃ node, IsParent ps i node ∧ tree.parent i = some node ∧
        (tree.childs node).entries.count i = 1 ∧
        ∀ other, i ∈ (tree.childs other).entries → other = node) ∧
      ∃ lines, Preorder (up ps) (· < ·) lines ∧
        (∀ i, i ∈ lines.map Entry.node ↔ ReachesGhost ps i) ∧
        ∀ calls, n ≤ calls → printTree ps tree calls =
          some (header ++ lines.flatMap fun e => lineOf ps e.node e.depth e.last) := by
  have hparents := exists_parent hlisted
  obtain ⟨tree, htree, hbuilt⟩ := createTree_built hparents hroom
  have hcard : Fintype.card (Fin n) ≤ n := (Fintype.card_fin n).le
  obtain ⟨lines, hlines, hpre⟩ := forest_lists (hbuilt.children hparents) hcard
  refine ⟨tree, htree, ?_, lines, hpre, ?_, ?_⟩
  · intro i
    obtain ⟨node, hnode⟩ := hparents i
    refine ⟨node, hnode, hbuilt.parent i (List.mem_finRange i) node hnode, ?_, ?_⟩
    · rw [hbuilt.childs]
      apply List.count_eq_one_of_mem ((List.nodup_finRange n).filter _)
      simpa using hnode
    · intro other hin
      have hother : IsParent ps i other := by simpa [hbuilt.childs] using hin
      exact hother.unique hnode
  · intro i
    rw [reachesGhost_iff hparents, List.mem_map]
    constructor
    · rintro ⟨e, he, rfl⟩
      exact ⟨e.depth, hpre.depth e he⟩
    · rintro ⟨d, hd⟩
      exact hpre.complete d i hd
  · intro calls hcalls
    rw [printTree_eq]
    have hmore := each_listing_mono hcalls hlines
    simp only [nodeOf] at hmore
    rw [hmore]
    rfl

/-- A shell under `init`, and a process that names itself as its parent. -/
def looped : Fin 3 → Process :=
  ![⟨stringOf (ascii "init"), 1, 0⟩, ⟨stringOf (ascii "loop"), 7, 7⟩,
    ⟨stringOf (ascii "sh"), 2, 1⟩]

theorem looped_created_and_printed : ∃ tree lines, createTree looped true = .ok tree ∧
    Preorder (up looped) (· < ·) lines ∧ printTree looped tree 3 =
      some (header ++ lines.flatMap fun e => lineOf looped e.node e.depth e.last) := by
  have hroom : ∀ node,
      ((List.finRange 3).filter fun i => IsParent looped i node).length ≤ 512 := by
    intro node
    exact (List.length_filter_le _ _).trans (by decide)
  obtain ⟨tree, htree, _, lines, hpre, _, hprint⟩ :=
    tree_created_and_printed looped (by decide) hroom
  exact ⟨tree, lines, htree, hpre, hprint 3 le_rfl⟩

example : (createTree looped true).toOption.bind (printTree looped · 3) =
    some (ascii "GHOST PROCESS(0)\n`-- init(1)\n    `-- sh(2)\n") := by
  decide +kernel

end ProcessTree
