import Mathlib.Data.List.Basic

/-! Memory as numbered blocks, and straight-line programs over it.
An address is the identity of a block, so a released block is never handed out again
and a pointer to it stays recognisable as dangling. -/
namespace BlockMemory

abbrev Addr := ℕ

structure Heap (α : Type u) where
  blocks : List (Option α)
  deriving DecidableEq

namespace Heap

variable {α : Type u}

def read (h : Heap α) (a : Addr) : Option α := (h.blocks[a]?).join
def write (h : Heap α) (a : Addr) (x : α) : Heap α := ⟨h.blocks.set a (some x)⟩
def fresh (h : Heap α) : ℕ := h.blocks.length
def alloc (h : Heap α) (x : α) : Heap α := ⟨h.blocks ++ [some x]⟩
def release (h : Heap α) (a : Addr) : Heap α := ⟨h.blocks.set a none⟩

/-- The same change made to every block. -/
def map (f : α → α) (h : Heap α) : Heap α := ⟨h.blocks.map (Option.map f)⟩

theorem lt_fresh {h : Heap α} {a : ℕ} {x : α} (hr : h.read a = some x) : a < h.fresh := by
  by_contra hn
  have hz : h.blocks[a]? = none := List.getElem?_eq_none (Nat.le_of_not_lt hn)
  simp [read, hz] at hr

@[simp] theorem read_fresh (h : Heap α) : h.read h.fresh = none := by simp [read, fresh]

theorem ne_fresh {h : Heap α} {a : Addr} {x : α} (hr : h.read a = some x) : a ≠ h.fresh :=
  Nat.ne_of_lt (lt_fresh hr)

theorem read_write {h : Heap α} {a : Addr} {old : α} (ha : h.read a = some old) (x : α)
    (b : Addr) : (h.write a x).read b = if b = a then some x else h.read b := by
  have hl : a < h.blocks.length := lt_fresh ha
  by_cases hb : b = a
  · subst b; simp [read, write, hl]
  · simp [read, write, hb, Ne.symm hb]

theorem read_alloc (h : Heap α) (x : α) (b : Addr) :
    (h.alloc x).read b = if b = h.fresh then some x else h.read b := by
  by_cases hb : b = h.fresh
  · subst b; simp [read, alloc, fresh]
  · rcases Nat.lt_or_gt_of_ne hb with hl | hl
    · simp [read, alloc, List.getElem?_append_left hl, hb]
    · have hz : h.blocks[b]? = none := List.getElem?_eq_none (Nat.le_of_lt hl)
      have hz' : (h.blocks ++ [some x])[b]? = none :=
        List.getElem?_eq_none (by simp only [List.length_append, List.length_singleton]; exact hl)
      simp [read, alloc, hz, hz', hb]

theorem read_release (h : Heap α) (a b : Addr) :
    (h.release a).read b = if b = a then none else h.read b := by
  by_cases hb : b = a
  · rw [if_pos hb, hb]
    by_cases hl : a < h.blocks.length
    · simp [read, release, hl]
    · have hz : (h.blocks.set a none)[a]? = none :=
        List.getElem?_eq_none (by simpa using hl)
      simp [read, release, hz]
  · simp [read, release, hb, Ne.symm hb]

/-- A heap is known by its size and what can be read from it. -/
theorem ext_read {h h' : Heap α} (hf : h.fresh = h'.fresh) (hr : ∀ a, h.read a = h'.read a) :
    h = h' := by
  obtain ⟨blocks⟩ := h
  obtain ⟨blocks'⟩ := h'
  congr 1
  refine List.ext_getElem hf ?_
  intro a ha ha'
  have hread := hr a
  simpa [read, ha, ha'] using hread

theorem read_map (f : α → α) (h : Heap α) (b : Addr) : (h.map f).read b = (h.read b).map f := by
  cases hb : h.blocks[b]? <;> simp [read, map, hb]

@[simp] theorem fresh_write (h : Heap α) (a : Addr) (x : α) : (h.write a x).fresh = h.fresh := by
  simp [fresh, write]

@[simp] theorem fresh_alloc (h : Heap α) (x : α) : (h.alloc x).fresh = h.fresh + 1 := by
  simp [fresh, alloc]

@[simp] theorem fresh_release (h : Heap α) (a : Addr) : (h.release a).fresh = h.fresh := by
  simp [fresh, release]

theorem read_write_self {h : Heap α} {a : Addr} {old : α} (ha : h.read a = some old) (x : α) :
    (h.write a x).read a = some x := by rw [read_write ha, if_pos rfl]

theorem live_write {h : Heap α} {a b : Addr} {old : α} (ha : h.read a = some old) (x : α)
    (hb : ∃ y, h.read b = some y) : ∃ y, (h.write a x).read b = some y := by
  rw [read_write ha]
  split
  · exact ⟨x, rfl⟩
  · exact hb

theorem live_alloc {h : Heap α} {b : Addr} (x : α) (hb : ∃ y, h.read b = some y) :
    ∃ y, (h.alloc x).read b = some y := by
  rw [read_alloc]
  split
  · exact ⟨x, rfl⟩
  · exact hb

theorem write_write (h : Heap α) (a : Addr) (x y : α) :
    (h.write a x).write a y = h.write a y := by simp [write, List.set_set]

theorem write_same {h : Heap α} {a : Addr} {x : α} (hr : h.read a = some x) :
    h.write a x = h := by
  have hl : a < h.blocks.length := lt_fresh hr
  have hb : h.blocks[a] = some x := by
    simpa [read, List.getElem?_eq_getElem hl] using hr
  simp [write, ← hb]

theorem write_alloc {h : Heap α} {a : Addr} {old : α} (ha : h.read a = some old) (x y : α) :
    (h.write a x).alloc y = (h.alloc y).write a x := by
  have hl : a < h.blocks.length := lt_fresh ha
  simp [write, alloc, List.set_append_left _ _ hl]

theorem alloc_write (h : Heap α) (x y : α) : (h.alloc x).write h.fresh y = h.alloc y := by
  simp [write, alloc, fresh, List.set_append_right]

end Heap

/-- What stops a program: a NULL, dangling or junk pointer, running past the end of an array,
locking a mutex that nobody will release, or (for the recursive functions) a recursion deeper
than allowed. -/
inductive Fault where
  | invalidPointer
  | outOfBounds
  | deadlock
  | outOfFuel
  deriving DecidableEq, Repr

abbrev Program (α : Type u) (β : Type u) := StateT (Heap α) (Except Fault) β

variable {α β γ : Type u}

def load (p : Option Addr) : Program α α := fun h =>
  match p.bind h.read with
  | some x => .ok (x, h)
  | none => .error .invalidPointer

def store (p : Option Addr) (f : α → α) : Program α PUnit := fun h =>
  match p with
  | none => .error .invalidPointer
  | some a =>
    match h.read a with
    | some x => .ok (⟨⟩, h.write a (f x))
    | none => .error .invalidPointer

def free (p : Option Addr) : Program α PUnit := fun h =>
  match p with
  | none => .ok (⟨⟩, h)
  | some a =>
    match h.read a with
    | some _ => .ok (⟨⟩, h.release a)
    | none => .error .invalidPointer

theorem load_ok {h : Heap α} {a : Addr} {x : α} (hr : h.read a = some x) :
    load (some a) h = .ok (x, h) := by simp [load, hr]

theorem store_ok {h : Heap α} {a : Addr} {x : α} (hr : h.read a = some x) (f : α → α) :
    store (some a) f h = .ok (⟨⟩, h.write a (f x)) := by simp [store, hr]

theorem free_ok {h : Heap α} {a : Addr} {x : α} (hr : h.read a = some x) :
    free (some a) h = .ok (⟨⟩, h.release a) := by simp [free, hr]

/-- A completed first part hands its result and its heap to the rest. -/
theorem bind_of_ok {m : Program α β} {h h' : Heap α} {b : β} (hm : m h = .ok (b, h'))
    (f : β → Program α γ) : (m >>= f) h = f b h' := by
  simp only [bind, StateT.bind, hm]
  rfl

theorem bind_of_error {m : Program α β} {h : Heap α} {e : Fault} (hm : m h = .error e)
    (f : β → Program α γ) : (m >>= f) h = .error e := by
  simp only [bind, StateT.bind, hm]
  rfl

theorem bind_eq_ok {m : Program α β} {f : β → Program α γ} {h h'' : Heap α} {c : γ} :
    (m >>= f) h = .ok (c, h'') ↔ ∃ b h', m h = .ok (b, h') ∧ f b h' = .ok (c, h'') := by
  constructor
  · intro hb
    cases hm : m h with
    | error e => rw [bind_of_error hm] at hb; cases hb
    | ok r =>
      obtain ⟨b, h'⟩ := r
      exact ⟨b, h', rfl, by rwa [bind_of_ok hm] at hb⟩
  · rintro ⟨b, h', hm, hf⟩
    rw [bind_of_ok hm, hf]

end BlockMemory
