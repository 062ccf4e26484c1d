import LinuxProgramming.BlockMemory
import Mathlib.Data.List.Nodup
import Mathlib.Logic.Function.Basic

/-! A table whose entries are memory blocks that carry their own key. The table is the list
of its blocks; how a key is looked up is left open. Such a table stands for a finite map, and
each operation on it for an update of the map. -/
namespace LinkedTable

open BlockMemory

variable {α : Type u} {K : Type v}

def keyAt (keyOf : α → K) (h : Heap α) (a : Addr) : Option K := (h.read a).map keyOf

/-- A way to look keys up, right on every table: a hit is an entry with the key, and a miss
means that there is none. -/
structure Lookup (keyOf : α → K) where
  find : Heap α → List Addr → K → Option Addr
  find_some : ∀ h items k a, find h items k = some a → a ∈ items ∧ keyAt keyOf h a = some k
  find_none : ∀ h items k, find h items k = none → ∀ a ∈ items, keyAt keyOf h a ≠ some k

/-- Looking at the entries one after the other. -/
def firstMatch [DecidableEq K] (keyOf : α → K) : Lookup keyOf where
  find h items k := items.find? fun a => keyAt keyOf h a = some k
  find_some h items k a hf :=
    ⟨List.mem_of_find?_eq_some hf, by simpa using List.find?_some hf⟩
  find_none h items k hf a ha := by simpa using List.find?_eq_none.mp hf a ha

/-- The entries are live blocks with different keys, and their contents are the map. -/
structure Represents (keyOf : α → K) (h : Heap α) (items : List Addr) (m : K → Option α) :
    Prop where
  live : ∀ a ∈ items, ∃ x, h.read a = some x
  distinct : (items.map (keyAt keyOf h)).Nodup
  maps : ∀ k x, m k = some x ↔ ∃ a ∈ items, h.read a = some x ∧ keyOf x = k

variable {keyOf : α → K} {h : Heap α} {items : List Addr} {m : K → Option α}

theorem keyAt_read {a : Addr} {x : α} (hr : h.read a = some x) :
    keyAt keyOf h a = some (keyOf x) := by simp [keyAt, hr]

theorem keyAt_eq_some {a : Addr} {k : K} :
    keyAt keyOf h a = some k ↔ ∃ x, h.read a = some x ∧ keyOf x = k := by
  simp [keyAt, Option.map_eq_some_iff]

theorem represents_empty (h : Heap α) : Represents keyOf h [] (fun _ => none) := by
  refine ⟨?_, List.nodup_nil, ?_⟩
  · intro a ha
    cases ha
  · intro k x
    simp

theorem Represents.unique (hm : Represents keyOf h items m) {a b : Addr} (ha : a ∈ items)
    (hb : b ∈ items) (he : keyAt keyOf h a = keyAt keyOf h b) : a = b :=
  List.inj_on_of_nodup_map hm.distinct ha hb he

theorem Represents.nodup (hm : Represents keyOf h items m) : items.Nodup :=
  List.Nodup.of_map _ hm.distinct

theorem Represents.find_some (hm : Represents keyOf h items m) (l : Lookup keyOf) {k : K}
    {a : Addr} (hf : l.find h items k = some a) :
    ∃ x, a ∈ items ∧ h.read a = some x ∧ keyOf x = k ∧ m k = some x := by
  obtain ⟨ha, hk⟩ := l.find_some h items k a hf
  obtain ⟨x, hx, hxk⟩ := keyAt_eq_some.mp hk
  exact ⟨x, ha, hx, hxk, (hm.maps k x).mpr ⟨a, ha, hx, hxk⟩⟩

theorem Represents.find_none (hm : Represents keyOf h items m) (l : Lookup keyOf) {k : K}
    (hf : l.find h items k = none) : m k = none := by
  cases hk : m k with
  | none => rfl
  | some x =>
    obtain ⟨a, ha, hx, hxk⟩ := (hm.maps k x).mp hk
    exact absurd (keyAt_eq_some.mpr ⟨x, hx, hxk⟩) (l.find_none h items k hf a ha)

section Operations

variable [DecidableEq K]

theorem Represents.add (hm : Represents keyOf h items m) (x : α) (hk : m (keyOf x) = none) :
    Represents keyOf (h.alloc x) (items ++ [h.fresh])
      (Function.update m (keyOf x) (some x)) := by
  have old : ∀ a ∈ items, (h.alloc x).read a = h.read a := by
    intro a ha
    obtain ⟨y, hy⟩ := hm.live a ha
    rw [Heap.read_alloc, if_neg (Heap.ne_fresh hy)]
  have new : (h.alloc x).read h.fresh = some x := by rw [Heap.read_alloc, if_pos rfl]
  have keys : items.map (keyAt keyOf (h.alloc x)) = items.map (keyAt keyOf h) :=
    List.map_congr_left (fun a ha => by rw [keyAt, keyAt, old a ha])
  refine ⟨?_, ?_, ?_⟩
  · intro a ha
    rcases List.mem_append.mp ha with ha | ha
    · obtain ⟨y, hy⟩ := hm.live a ha
      exact ⟨y, (old a ha).trans hy⟩
    · exact ⟨x, List.mem_singleton.mp ha ▸ new⟩
  · rw [List.map_append, keys]
    refine List.Nodup.append hm.distinct (List.nodup_singleton _) ?_
    intro o ho ho'
    rw [List.map_singleton, List.mem_singleton, keyAt_read new] at ho'
    obtain ⟨a, ha, hao⟩ := List.mem_map.mp ho
    obtain ⟨y, hy, hyk⟩ := keyAt_eq_some.mp (hao.trans ho')
    rw [(hm.maps _ _).mpr ⟨a, ha, hy, hyk⟩] at hk
    cases hk
  · intro k y
    by_cases hkx : k = keyOf x
    · subst hkx
      rw [Function.update_self]
      constructor
      · intro hxy
        cases hxy
        exact ⟨h.fresh, by simp, new, rfl⟩
      · intro ⟨a, ha, hy, hyk⟩
        rcases List.mem_append.mp ha with ha | ha
        · rw [old a ha] at hy
          rw [(hm.maps _ _).mpr ⟨a, ha, hy, hyk⟩] at hk
          cases hk
        · rw [List.mem_singleton.mp ha, new] at hy
          exact hy
    · rw [Function.update_of_ne hkx, hm.maps]
      constructor
      · intro ⟨a, ha, hy, hyk⟩
        exact ⟨a, List.mem_append_left _ ha, (old a ha).trans hy, hyk⟩
      · intro ⟨a, ha, hy, hyk⟩
        rcases List.mem_append.mp ha with ha | ha
        · exact ⟨a, ha, (old a ha).symm.trans hy, hyk⟩
        · rw [List.mem_singleton.mp ha, new] at hy
          cases hy
          exact absurd hyk.symm hkx

theorem Represents.update (hm : Represents keyOf h items m) {a : Addr} {x y : α}
    (ha : a ∈ items) (hx : h.read a = some x) (hk : keyOf y = keyOf x) :
    Represents keyOf (h.write a y) items (Function.update m (keyOf x) (some y)) := by
  have keys : ∀ b, keyAt keyOf (h.write a y) b = keyAt keyOf h b := by
    intro b
    by_cases hb : b = a
    · subst hb; rw [keyAt_read (Heap.read_write_self hx y), keyAt_read hx, hk]
    · rw [keyAt, keyAt, Heap.read_write hx, if_neg hb]
  refine ⟨?_, ?_, ?_⟩
  · intro b hb
    obtain ⟨z, hz⟩ := hm.live b hb
    rw [Heap.read_write hx]
    split
    · exact ⟨y, rfl⟩
    · exact ⟨z, hz⟩
  · rw [show items.map (keyAt keyOf (h.write a y)) = items.map (keyAt keyOf h) from
      List.map_congr_left (fun b _ => keys b)]
    exact hm.distinct
  · intro k z
    by_cases hkx : k = keyOf x
    · subst hkx
      rw [Function.update_self]
      constructor
      · intro hyz
        cases hyz
        exact ⟨a, ha, Heap.read_write_self hx y, hk⟩
      · intro ⟨b, hb, hz, hzk⟩
        have hba : b = a := by
          apply hm.unique hb ha
          rw [← keys b, keyAt_read hz, keyAt_read hx, hzk]
        rw [hba, Heap.read_write_self hx] at hz
        exact hz
    · rw [Function.update_of_ne hkx, hm.maps]
      constructor
      · intro ⟨b, hb, hz, hzk⟩
        have hba : b ≠ a := by
          intro hba
          rw [hba, hx] at hz
          cases hz
          exact hkx hzk.symm
        exact ⟨b, hb, by rw [Heap.read_write hx, if_neg hba, hz], hzk⟩
      · intro ⟨b, hb, hz, hzk⟩
        have hba : b ≠ a := by
          intro hba
          rw [hba, Heap.read_write_self hx] at hz
          cases hz
          exact hkx (hzk.symm.trans hk)
        rw [Heap.read_write hx, if_neg hba] at hz
        exact ⟨b, hb, hz, hzk⟩

theorem Represents.remove (hm : Represents keyOf h items m) {a : Addr} {x : α}
    (ha : a ∈ items) (hx : h.read a = some x) :
    Represents keyOf (h.release a) (items.erase a) (Function.update m (keyOf x) none) := by
  have old : ∀ b ∈ items.erase a, b ∈ items ∧ b ≠ a ∧ (h.release a).read b = h.read b := by
    intro b hb
    have hba := (List.Nodup.mem_erase_iff hm.nodup).mp hb
    exact ⟨hba.2, hba.1, by rw [Heap.read_release, if_neg hba.1]⟩
  refine ⟨?_, ?_, ?_⟩
  · intro b hb
    obtain ⟨hb', _, hr⟩ := old b hb
    obtain ⟨z, hz⟩ := hm.live b hb'
    exact ⟨z, hr.trans hz⟩
  · rw [show (items.erase a).map (keyAt keyOf (h.release a)) = (items.erase a).map (keyAt keyOf h)
      from List.map_congr_left (fun b hb => by rw [keyAt, keyAt, (old b hb).2.2])]
    exact hm.distinct.sublist (List.erase_sublist.map _)
  · intro k z
    by_cases hkx : k = keyOf x
    · subst hkx
      rw [Function.update_self]
      constructor
      · intro hn
        cases hn
      · intro ⟨b, hb, hz, hzk⟩
        obtain ⟨hb', hba, hr⟩ := old b hb
        rw [hr] at hz
        exact absurd (hm.unique hb' ha (by rw [keyAt_read hz, keyAt_read hx, hzk])) hba
    · rw [Function.update_of_ne hkx, hm.maps]
      constructor
      · intro ⟨b, hb, hz, hzk⟩
        have hba : b ≠ a := by
          intro hba
          rw [hba, hx] at hz
          cases hz
          exact hkx hzk.symm
        exact ⟨b, (List.Nodup.mem_erase_iff hm.nodup).mpr ⟨hba, hb⟩,
          by rw [Heap.read_release, if_neg hba, hz], hzk⟩
      · intro ⟨b, hb, hz, hzk⟩
        obtain ⟨hb', _, hr⟩ := old b hb
        exact ⟨b, hb', hr.symm.trans hz, hzk⟩

end Operations

end LinkedTable
