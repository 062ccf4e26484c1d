import Mathlib.Data.List.Infix

/-! Trees as finite sets of paths from the root, and the walk over a tree that may grow
meanwhile: a node is visited first and its children are listed after that. What a walk has
still to do covers the paths below. -/
namespace TreeWalk

abbrev Path (α : Type u) := List α

structure PathTree (α : Type u) where
  paths : List (Path α)
  root : [] ∈ paths
  closed : ∀ p a, p ++ [a] ∈ paths → p ∈ paths

/-- What a walk has still to do at a path. -/
inductive Todo (α : Type u) where
  | visit (p : Path α)
  | list (p : Path α)
  deriving DecidableEq

section Trees

variable {α : Type u}

instance : Membership (Path α) (PathTree α) := ⟨fun t p => p ∈ t.paths⟩

instance [DecidableEq α] (t : PathTree α) (p : Path α) : Decidable (p ∈ t) :=
  inferInstanceAs (Decidable (p ∈ t.paths))

def PathTree.leaf : PathTree α where
  paths := [[]]
  root := List.mem_singleton_self []
  closed p a h := absurd (List.mem_singleton.mp h) (List.concat_ne_nil a p)

/-- The tree with another one below a path. -/
def PathTree.graft (t : PathTree α) (p : Path α) (a : α) (sub : PathTree α) (hp : p ∈ t) :
    PathTree α where
  paths := t.paths ++ sub.paths.map fun q => p ++ a :: q
  root := List.mem_append_left _ t.root
  closed := by
    intro q b hq
    rcases List.mem_append.mp hq with hq | hq
    · exact List.mem_append_left _ (t.closed q b hq)
    · obtain ⟨r, hr, heq⟩ := List.mem_map.mp hq
      rcases List.eq_nil_or_concat r with rfl | ⟨r, c, rfl⟩
      · obtain ⟨rfl, _⟩ := List.append_inj' heq rfl
        exact List.mem_append_left _ hp
      · have hsplit : p ++ a :: r ++ [c] = q ++ [b] := by simpa using heq
        obtain ⟨rfl, _⟩ := List.append_inj' hsplit rfl
        apply List.mem_append_right
        exact List.mem_map.mpr ⟨r, sub.closed r c (by simpa using hr), rfl⟩

def PathTree.children [DecidableEq α] (t : PathTree α) (p : Path α) : List (Path α) :=
  t.paths.filter fun d => d ≠ [] ∧ d.dropLast = p

variable {t sub : PathTree α} {p d e : Path α} {a : α}

theorem PathTree.mem_graft (hp : p ∈ t) :
    d ∈ t.graft p a sub hp ↔ d ∈ t ∨ ∃ q ∈ sub, d = p ++ a :: q := by
  have hmap : d ∈ sub.paths.map (fun q => p ++ a :: q) ↔ ∃ q ∈ sub, d = p ++ a :: q := by
    simp only [List.mem_map, eq_comm]
    rfl
  exact List.mem_append.trans (or_congr_right hmap)

theorem PathTree.mem_of_prefix (hd : d ∈ t) (h : e <+: d) : e ∈ t := by
  obtain ⟨r, rfl⟩ := h
  induction r using List.reverseRecOn with
  | nil => simpa using hd
  | append_singleton r b ih =>
    have hlonger : e ++ r ++ [b] ∈ t := by simpa using hd
    exact ih (t.closed _ b hlonger)

theorem PathTree.mem_children [DecidableEq α] : d ∈ t.children p ↔ d ∈ t ∧ ∃ a, d = p ++ [a] := by
  have hlast : d ≠ [] ∧ d.dropLast = p ↔ ∃ a, d = p ++ [a] := by
    constructor
    · rintro ⟨hne, rfl⟩
      exact ⟨d.getLast hne, (List.dropLast_append_getLast hne).symm⟩
    · rintro ⟨a, rfl⟩
      simp
  simp only [children, List.mem_filter, decide_eq_true_eq, hlast]
  rfl

theorem PathTree.bounded (t : PathTree α) : ∃ n, ∀ d ∈ t, d.length ≤ n := by
  suffices h : ∀ paths : List (Path α), ∃ n, ∀ d ∈ paths, d.length ≤ n from h t.paths
  intro paths
  induction paths with
  | nil => exact ⟨0, by simp⟩
  | cons p paths ih =>
    obtain ⟨n, hn⟩ := ih
    refine ⟨max p.length n, ?_⟩
    intro d hd
    rcases List.mem_cons.mp hd with rfl | hd
    · exact le_max_left _ _
    · exact (hn d hd).trans (le_max_right _ _)

end Trees

section Walks

variable {α : Type u} {t : PathTree α} {task : Todo α} {p q d e w : Path α} {a b : α}

def Todo.path : Todo α → Path α
  | .visit p => p
  | .list p => p

/-- The walk comes by the path from here. -/
def Todo.Covers : Todo α → Path α → Prop
  | .visit p, d => p <+: d
  | .list p, d => p <+: d ∧ p ≠ d

theorem Todo.Covers.longer (h : task.Covers d) (hd : d <+: e) : task.Covers e := by
  cases task with
  | visit p => exact h.trans hd
  | list p =>
    refine ⟨h.1.trans hd, ?_⟩
    rintro rfl
    exact h.2 (h.1.eq_of_length_le hd.length_le)

theorem covers_below (h : task.path <+: w) : task.Covers (w ++ a :: q) := by
  have hlonger : task.path <+: w ++ a :: q := h.trans (List.prefix_append w _)
  cases task with
  | visit p => exact hlonger
  | list p =>
    refine ⟨hlonger, ?_⟩
    intro heq
    have hle := h.length_le
    simp only [Todo.path, heq, List.length_append, List.length_cons] at hle
    omega

theorem covers_visited (h : (Todo.visit p).Covers d) : d = p ∨ (Todo.list p).Covers d := by
  by_cases hp : p = d
  · exact Or.inl hp.symm
  · exact Or.inr ⟨h, hp⟩

theorem covers_listed [DecidableEq α] (h : (Todo.list p).Covers d) (hd : d ∈ t) :
    ∃ c ∈ t.children p, (Todo.visit c).Covers d := by
  obtain ⟨⟨r, rfl⟩, hne⟩ := h
  cases r with
  | nil => simp at hne
  | cons b r =>
    have hprefix : p ++ [b] <+: p ++ b :: r := ⟨r, by simp⟩
    exact ⟨p ++ [b], PathTree.mem_children.mpr ⟨PathTree.mem_of_prefix hd hprefix, b, rfl⟩, hprefix⟩

/-- Neither on the way to the child nor below it. -/
def Todo.Apart (task : Todo α) (w : Path α) (a : α) : Prop :=
  ¬ task.path <+: w ∧ ¬ w ++ [a] <+: task.path

theorem apart_listed (h : (Todo.list p).Apart w a) : (Todo.visit (p ++ [b])).Apart w a := by
  refine ⟨?_, ?_⟩
  · intro hw
    exact h.1 ((List.prefix_append p [b]).trans hw)
  · intro hbelow
    rcases List.prefix_concat_iff.mp hbelow with heq | hp
    · obtain ⟨rfl, _⟩ := List.append_inj' heq rfl
      exact h.1 (List.prefix_refl w)
    · exact h.2 hp

end Walks

end TreeWalk
