import LinuxProgramming.BlockMemory
import Mathlib.Data.List.Perm.Subperm

/-! Doubly linked lists threaded through memory blocks. A block may be in several lists at once,
each with its own pair of link fields; a list is known by the addresses of its blocks in order.
The three operations that change links are programs, each with the list it leaves behind and
with what it does not touch. -/
namespace DoublyLinkedLists

open BlockMemory

variable {α : Type u} {β : Type v}

/-- The two link fields of one list. What is left of a block without them is its `core`. -/
structure Links (α : Type u) where
  prev : α → Option Addr
  next : α → Option Addr
  setPrev : Option Addr → α → α
  setNext : Option Addr → α → α
  core : α → α
  prev_setPrev : ∀ p x, prev (setPrev p x) = p
  next_setPrev : ∀ p x, next (setPrev p x) = next x
  prev_setNext : ∀ p x, prev (setNext p x) = prev x
  next_setNext : ∀ p x, next (setNext p x) = p
  core_setPrev : ∀ p x, core (setPrev p x) = core x
  core_setNext : ∀ p x, core (setNext p x) = core x

attribute [simp] Links.prev_setPrev Links.next_setPrev Links.prev_setNext Links.next_setNext
  Links.core_setPrev Links.core_setNext

/-- The blocks from `first` on are `items`; the first of them points back to `before`, the last
of them is `last` and points on to `after`. -/
def Segment (L : Links α) (h : Heap α) (before first : Option Addr) :
    List Addr → Option Addr → Option Addr → Prop
  | [], last, after => last = before ∧ first = after
  | a :: rest, last, after => first = some a ∧ ∃ x, h.read a = some x ∧ L.prev x = before ∧
      Segment L h (some a) (L.next x) rest last after

/-- A whole list, with NULL at both ends. -/
def Linked (L : Links α) (h : Heap α) (items : List Addr) : Prop :=
  Segment L h none items.head? items items.getLast? none

structure Relinked (L : Links α) (h h' : Heap α) : Prop where
  fresh : h'.fresh = h.fresh
  core : ∀ a, (h'.read a).map L.core = (h.read a).map L.core

variable {L : Links α} {h h' h'' : Heap α} {before first last after : Option Addr}
  {items : List Addr} {a b : Addr} {x : α}

theorem Relinked.refl (L : Links α) (h : Heap α) : Relinked L h h := ⟨rfl, fun _ => rfl⟩

theorem Relinked.trans (h₁ : Relinked L h h') (h₂ : Relinked L h' h'') : Relinked L h h'' :=
  ⟨h₂.fresh.trans h₁.fresh, fun a => (h₂.core a).trans (h₁.core a)⟩

theorem Relinked.write {y : α} (hx : h.read a = some x) (hc : L.core y = L.core x) :
    Relinked L h (h.write a y) := by
  refine ⟨h.fresh_write a y, ?_⟩
  intro b
  rw [Heap.read_write hx]
  split
  · next hb => simp [hb, hx, hc]
  · rfl

/-- What a block holds besides the links can be read off as before. -/
theorem Relinked.map (hr : Relinked L h h') {f : α → β} (hf : ∀ x, f (L.core x) = f x)
    (a : Addr) : (h'.read a).map f = (h.read a).map f := by
  have hcore := congrArg (Option.map f) (hr.core a)
  simpa only [Option.map_map, Function.comp_def, hf] using hcore

theorem Relinked.read (hr : Relinked L h h') (hx : h.read a = some x) :
    ∃ y, h'.read a = some y ∧ L.core y = L.core x := by
  have hcore := hr.core a
  rw [hx, Option.map_some, Option.map_eq_some_iff] at hcore
  exact hcore

theorem Segment.append {items rest : List Addr} :
    Segment L h before first (items ++ rest) last after ↔
      ∃ l p, Segment L h before first items l p ∧ Segment L h l p rest last after := by
  induction items generalizing before first with
  | nil => simp [Segment, and_assoc]
  | cons a items ih =>
    simp only [List.cons_append, Segment, ih]
    constructor
    · rintro ⟨hf, x, hx, hp, l, p, hs, hr⟩
      exact ⟨l, p, ⟨hf, x, hx, hp, hs⟩, hr⟩
    · rintro ⟨l, p, ⟨hf, x, hx, hp, hs⟩, hr⟩
      exact ⟨hf, x, hx, hp, l, p, hs, hr⟩

theorem Segment.congr (hs : Segment L h before first items last after)
    (hread : ∀ a ∈ items, ∀ x, h.read a = some x →
      ∃ y, h'.read a = some y ∧ L.prev y = L.prev x ∧ L.next y = L.next x) :
    Segment L h' before first items last after := by
  induction items generalizing before first with
  | nil => exact hs
  | cons a items ih =>
    obtain ⟨hf, x, hx, hp, hrest⟩ := hs
    obtain ⟨y, hy, hyp, hyn⟩ := hread a List.mem_cons_self x hx
    refine ⟨hf, y, hy, hyp.trans hp, ?_⟩
    rw [hyn]
    exact ih hrest fun b hb => hread b (List.mem_cons_of_mem a hb)

theorem Segment.live (hs : Segment L h before first items last after) (ha : a ∈ items) :
    ∃ x, h.read a = some x := by
  induction items generalizing before first with
  | nil => cases ha
  | cons b items ih =>
    obtain ⟨-, x, hx, -, hrest⟩ := hs
    rcases List.mem_cons.mp ha with rfl | ha
    · exact ⟨x, hx⟩
    · exact ih hrest ha

theorem Segment.first_eq (hs : Segment L h before first items last after) :
    first = items.head?.or after := by
  cases items with
  | nil => simpa using hs.2
  | cons a items => simpa using hs.1

theorem Segment.last_eq (hs : Segment L h before first items last after) :
    last = items.getLast?.or before := by
  induction items generalizing before first with
  | nil => simpa using hs.1
  | cons a items ih =>
    obtain ⟨-, x, -, -, hrest⟩ := hs
    rw [ih hrest, List.getLast?_cons]
    cases items.getLast? <;> rfl

theorem Segment.write_other {y : α} (hs : Segment L h before first items last after)
    (hx : h.read a = some x) (ha : a ∉ items) :
    Segment L (h.write a y) before first items last after := by
  refine hs.congr ?_
  intro b hb z hz
  have hne : b ≠ a := fun hba => ha (hba ▸ hb)
  exact ⟨z, by rw [Heap.read_write hx, if_neg hne, hz], rfl, rfl⟩

theorem Segment.setPrev {rest : List Addr} {p : Option Addr}
    (hs : Segment L h before first (a :: rest) last after) (hx : h.read a = some x)
    (ha : a ∉ rest) : Segment L (h.write a (L.setPrev p x)) p first (a :: rest) last after := by
  obtain ⟨hf, y, hy, -, hrest⟩ := hs
  rw [hx] at hy
  cases hy
  refine ⟨hf, _, Heap.read_write_self hx _, L.prev_setPrev p x, ?_⟩
  rw [L.next_setPrev]
  exact hrest.write_other hx ha

theorem Segment.setNext {init : List Addr} {p : Option Addr}
    (hs : Segment L h before first (init ++ [a]) last after) (hx : h.read a = some x)
    (ha : a ∉ init) :
    Segment L (h.write a (L.setNext p x)) before first (init ++ [a]) last p := by
  obtain ⟨l, q, hinit, hq, y, hy, hprev, hlast, -⟩ := Segment.append.mp hs
  rw [hx] at hy
  cases hy
  refine Segment.append.mpr ⟨l, q, hinit.write_other hx ha, hq, _, Heap.read_write_self hx _, ?_,
    hlast, L.next_setNext p x⟩
  rw [L.prev_setNext, hprev]

theorem linked_nil (L : Links α) (h : Heap α) : Linked L h [] := ⟨rfl, rfl⟩

theorem Linked.congr (hl : Linked L h items)
    (hread : ∀ a ∈ items, ∀ x, h.read a = some x →
      ∃ y, h'.read a = some y ∧ L.prev y = L.prev x ∧ L.next y = L.next x) : Linked L h' items :=
  Segment.congr hl hread

/-- Lists with other link fields stay as they are. -/
theorem Linked.relinked {L' : Links α} (hl : Linked L h items) (hr : Relinked L' h h')
    (hprev : ∀ x, L.prev (L'.core x) = L.prev x) (hnext : ∀ x, L.next (L'.core x) = L.next x) :
    Linked L h' items := by
  refine hl.congr ?_
  intro a _ x hx
  obtain ⟨y, hy, hcore⟩ := hr.read hx
  exact ⟨y, hy, by rw [← hprev y, hcore, hprev], by rw [← hnext y, hcore, hnext]⟩

theorem Linked.unchanged (hl : Linked L h items) (hread : ∀ a ∈ items, h'.read a = h.read a) :
    Linked L h' items :=
  hl.congr fun a ha x hx => ⟨x, (hread a ha).trans hx, rfl, rfl⟩

theorem Linked.live (hl : Linked L h items) (ha : a ∈ items) : ∃ x, h.read a = some x :=
  Segment.live hl ha

theorem Linked.length_le (hl : Linked L h items) (hnd : items.Nodup) :
    items.length ≤ h.fresh := by
  have hsub : items ⊆ List.range h.fresh := by
    intro a ha
    obtain ⟨x, hx⟩ := hl.live ha
    exact List.mem_range.mpr (Heap.lt_fresh hx)
  simpa using (List.subperm_of_subset hnd hsub).length_le

/-- The links of a block in the middle lead to its neighbours. -/
theorem Linked.neighbours {front back : List Addr} (hl : Linked L h (front ++ a :: back)) :
    ∃ x, h.read a = some x ∧ L.prev x = front.getLast? ∧ L.next x = back.head? := by
  obtain ⟨l, p, hfront, -, x, hx, hprev, hback⟩ := Segment.append.mp hl
  refine ⟨x, hx, ?_, ?_⟩
  · rw [hprev, hfront.last_eq, Option.or_none]
  · rw [hback.first_eq, Option.or_none]

section Programs

def relinkNext (L : Links α) (p q : Option Addr) : Program α PUnit :=
  if p.isSome then store p (L.setNext q) else pure ⟨⟩

def relinkPrev (L : Links α) (p q : Option Addr) : Program α PUnit :=
  if p.isSome then store p (L.setPrev q) else pure ⟨⟩

/-- The neighbours of a block are linked past it. -/
def bypass (L : Links α) (prev next : Option Addr) : Program α PUnit := do
  relinkNext L prev next
  relinkPrev L next prev

def pushFront (L : Links α) (a : Addr) (first : Option Addr) : Program α PUnit := do
  store (some a) (L.setNext first)
  store (some a) (L.setPrev none)
  relinkPrev L first (some a)

def pushBack (L : Links α) (a : Addr) (last : Option Addr) : Program α PUnit := do
  store (some a) (L.setNext none)
  store (some a) (L.setPrev last)
  store last (L.setNext (some a))

/-- Nothing has changed but links of the given blocks. -/
structure Touches (L : Links α) (h : Heap α) (items : List Addr) (h' : Heap α) : Prop where
  relinked : Relinked L h h'
  others : ∀ b, b ∉ items → h'.read b = h.read b

theorem Touches.refl (L : Links α) (h : Heap α) (items : List Addr) : Touches L h items h :=
  ⟨.refl L h, fun _ _ => rfl⟩

theorem Touches.trans {items' whole : List Addr} (h₁ : Touches L h items h')
    (h₂ : Touches L h' items' h'') (hsub : items ⊆ whole) (hsub' : items' ⊆ whole) :
    Touches L h whole h'' := by
  refine ⟨h₁.relinked.trans h₂.relinked, ?_⟩
  intro b hb
  rw [h₂.others b fun hi => hb (hsub' hi), h₁.others b fun hi => hb (hsub hi)]

theorem Touches.write {y : α} (hx : h.read a = some x) (hc : L.core y = L.core x)
    (ha : a ∈ items) : Touches L h items (h.write a y) := by
  refine ⟨.write hx hc, ?_⟩
  intro b hb
  have hne : b ≠ a := fun hba => hb (hba ▸ ha)
  rw [Heap.read_write hx, if_neg hne]

theorem relinkNext_segment (hs : Segment L h before first items last after)
    (hnd : items.Nodup) (q : Option Addr) :
    ∃ h', relinkNext L items.getLast? q h = .ok (⟨⟩, h') ∧ Touches L h items h' ∧
      Segment L h' before (items.head?.or q) items last q := by
  rcases List.eq_nil_or_concat items with rfl | ⟨init, c, rfl⟩
  · exact ⟨h, rfl, .refl L h [], hs.1, rfl⟩
  · rw [List.concat_eq_append] at hs hnd ⊢
    obtain ⟨x, hx⟩ := hs.live (List.mem_append_right init (List.mem_singleton_self c))
    have hc : c ∉ init := fun hi => (List.nodup_append.mp hnd).2.2 c hi c (by simp) rfl
    have hfirst : (init ++ [c]).head?.or q = first := by
      rw [hs.first_eq]
      cases init <;> rfl
    refine ⟨h.write c (L.setNext q x), ?_, .write hx (L.core_setNext q x) (by simp), ?_⟩
    · rw [List.getLast?_concat]
      exact store_ok hx _
    · rw [hfirst]
      exact hs.setNext hx hc

theorem relinkPrev_segment (hs : Segment L h before first items last after)
    (hnd : items.Nodup) (q : Option Addr) :
    ∃ h', relinkPrev L items.head? q h = .ok (⟨⟩, h') ∧ Touches L h items h' ∧
      Segment L h' q first items (items.getLast?.or q) after := by
  cases items with
  | nil => exact ⟨h, rfl, .refl L h [], rfl, hs.2⟩
  | cons c rest =>
    obtain ⟨x, hx⟩ := hs.live List.mem_cons_self
    have hlast : (c :: rest).getLast?.or q = last := by
      rw [hs.last_eq, List.getLast?_cons]
      rfl
    refine ⟨h.write c (L.setPrev q x), store_ok hx _,
      .write hx (L.core_setPrev q x) List.mem_cons_self, ?_⟩
    rw [hlast]
    exact hs.setPrev hx (List.nodup_cons.mp hnd).1

theorem bypass_linked {front back : List Addr} (hl : Linked L h (front ++ a :: back))
    (hnd : (front ++ a :: back).Nodup) :
    ∃ h', bypass L front.getLast? back.head? h = .ok (⟨⟩, h') ∧
      Touches L h (front ++ back) h' ∧ Linked L h' (front ++ back) := by
  obtain ⟨l, p, hfront, -, x, hx, -, hback⟩ := Segment.append.mp hl
  obtain ⟨hndf, hndb, hdisj⟩ := List.nodup_append.mp hnd
  have hndb := (List.nodup_cons.mp hndb).2
  have hne : ∀ c ∈ back, c ∉ front := fun c hc hf => hdisj c hf c (List.mem_cons_of_mem a hc) rfl
  obtain ⟨h₁, hrun₁, ht₁, hfront₁⟩ := relinkNext_segment hfront hndf back.head?
  have hback₁ : Segment L h₁ (some a) (L.next x) back (front ++ a :: back).getLast? none :=
    hback.congr fun c hc y hy => ⟨y, (ht₁.others c (hne c hc)).trans hy, rfl, rfl⟩
  obtain ⟨h₂, hrun₂, ht₂, hback₂⟩ := relinkPrev_segment hback₁ hndb front.getLast?
  have hfront₂ : Segment L h₂ none (front.head?.or back.head?) front l back.head? :=
    hfront₁.congr fun c hc y hy =>
      ⟨y, (ht₂.others c fun hb => hne c hb hc).trans hy, rfl, rfl⟩
  refine ⟨h₂, ?_, ht₁.trans ht₂ (List.subset_append_left ..) (List.subset_append_right ..), ?_⟩
  · rw [bypass, bind_of_ok hrun₁, hrun₂]
  · have hl : l = front.getLast? := by rw [hfront.last_eq, Option.or_none]
    have hp : L.next x = back.head? := by rw [hback.first_eq, Option.or_none]
    rw [hl] at hfront₂
    rw [hp] at hback₂
    rw [Linked, List.head?_append, List.getLast?_append]
    exact Segment.append.mpr ⟨_, _, hfront₂, hback₂⟩

theorem pushFront_linked (hl : Linked L h items) (hnd : items.Nodup) (hx : h.read a = some x)
    (ha : a ∉ items) :
    ∃ h', pushFront L a items.head? h = .ok (⟨⟩, h') ∧ Touches L h (a :: items) h' ∧
      Linked L h' (a :: items) := by
  set y := L.setPrev none (L.setNext items.head? x) with hy
  have hcore : L.core y = L.core x := by simp [hy]
  have hl₁ : Linked L (h.write a y) items := Segment.write_other hl hx ha
  obtain ⟨h₂, hrun, ht, hs⟩ := relinkPrev_segment hl₁ hnd (some a)
  have hread : h₂.read a = some y := (ht.others a ha).trans (Heap.read_write_self hx y)
  refine ⟨h₂, ?_, (Touches.write hx hcore (List.mem_singleton_self a)).trans ht
    (by simp) (List.subset_cons_self ..), ?_⟩
  · rw [pushFront, bind_of_ok (store_ok hx _),
      bind_of_ok (store_ok (Heap.read_write_self hx _) _), Heap.write_write, ← hy, hrun]
  · rw [Linked, List.getLast?_cons]
    refine ⟨rfl, y, hread, by simp [hy], ?_⟩
    have hlast : items.getLast?.or (some a) = some (items.getLast?.getD a) := by
      cases items.getLast? <;> rfl
    rw [← hlast, hy, L.next_setPrev, L.next_setNext]
    exact hs

theorem pushBack_linked (hl : Linked L h items) (hnd : items.Nodup) (hne : items ≠ [])
    (hx : h.read a = some x) (ha : a ∉ items) :
    ∃ h', pushBack L a items.getLast? h = .ok (⟨⟩, h') ∧ Touches L h (items ++ [a]) h' ∧
      Linked L h' (items ++ [a]) := by
  set y := L.setPrev items.getLast? (L.setNext none x) with hy
  have hcore : L.core y = L.core x := by simp [hy]
  have hl₁ : Linked L (h.write a y) items := Segment.write_other hl hx ha
  obtain ⟨h₂, hrun, ht, hs⟩ := relinkNext_segment hl₁ hnd (some a)
  have hread : h₂.read a = some y := (ht.others a ha).trans (Heap.read_write_self hx y)
  have hsome : items.getLast?.isSome := by simpa [List.getLast?_isSome] using hne
  rw [relinkNext, if_pos hsome] at hrun
  refine ⟨h₂, ?_, (Touches.write hx hcore (List.mem_singleton_self a)).trans ht
    (by simp) (List.subset_append_left ..), ?_⟩
  · rw [pushBack, bind_of_ok (store_ok hx _),
      bind_of_ok (store_ok (Heap.read_write_self hx _) _), Heap.write_write, ← hy, hrun]
  · rw [Linked, List.head?_append, List.getLast?_concat]
    refine Segment.append.mpr ⟨_, _, hs, rfl, y, hread, by simp [hy], rfl, by simp [hy]⟩

end Programs

end DoublyLinkedLists
