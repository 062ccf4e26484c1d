import LinuxProgramming.LinkedTable
import LinuxProgramming.Uthash
import Mathlib.Algebra.BigOperators.Group.List.Basic
import Mathlib.Algebra.Order.Ring.Nat

/-! What holds of the hash table between any two operations: the elements are in the list of
insertion and, each by its hash value, in the list of one bucket, and all counters are right.
Every operation keeps this, doubling of the buckets included. -/
namespace Uthash

open BlockMemory CharStrings DoublyLinkedLists LinkedTable

variable {α : Type} {K : KeyField α} {hash : List Byte → UInt32} {h h' : Heap (Element α)}
  {buckets : List Bucket} {members items : List Addr} {chain : ℕ → List Addr} {a : Addr}
  {e : Element α}

theorem hashToBkt_eq (hashv : UInt32) (k : ℕ) : hashToBkt hashv (2 ^ k) = hashv.toNat % 2 ^ k :=
  Nat.and_two_pow_sub_one_eq_mod ..

theorem hashToBkt_lt (hashv : UInt32) (k : ℕ) : hashToBkt hashv (2 ^ k) < 2 ^ k := by
  rw [hashToBkt_eq]
  exact Nat.mod_lt _ (Nat.two_pow_pos k)

/-- The lists of the buckets: `chain i` has the members that belong to bucket `i`. -/
structure Chained (h : Heap (Element α)) (buckets : List Bucket) (members : List Addr)
    (chain : ℕ → List Addr) : Prop where
  linked : ∀ i < buckets.length, Linked bucketOrder h (chain i)
  nodup : ∀ i < buckets.length, (chain i).Nodup
  head : ∀ i b, buckets[i]? = some b → b.hhHead = (chain i).head?
  count : ∀ i b, buckets[i]? = some b → b.count = (chain i).length
  mem : ∀ i < buckets.length, ∀ a, a ∈ chain i ↔
    a ∈ members ∧ ∃ e, h.read a = some e ∧ hashToBkt e.hh.hashv buckets.length = i

theorem Chained.congr_members {members' : List Addr} (hc : Chained h buckets members chain)
    (hm : ∀ a, a ∈ members' ↔ a ∈ members) : Chained h buckets members' chain := by
  refine ⟨hc.linked, hc.nodup, hc.head, hc.count, ?_⟩
  intro i hi a
  rw [hm, hc.mem i hi]

theorem read_hashv (hr : Relinked bucketOrder h h') (a : Addr) :
    (h'.read a).map (fun e => e.hh.hashv) = (h.read a).map fun e => e.hh.hashv :=
  hr.map (fun _ => rfl) a

theorem hashv_iff (hr : Relinked bucketOrder h h') (a : Addr) (n i : ℕ) :
    (∃ e, h'.read a = some e ∧ hashToBkt e.hh.hashv n = i) ↔
      ∃ e, h.read a = some e ∧ hashToBkt e.hh.hashv n = i := by
  have hv := read_hashv hr a
  cases hx : h.read a <;> cases hy : h'.read a <;> simp_all

theorem Chained.disjoint (hc : Chained h buckets members chain) {i j : ℕ}
    (hi : i < buckets.length) (hj : j < buckets.length) (hne : i ≠ j) (ha : a ∈ chain i) :
    a ∉ chain j := by
  intro hb
  obtain ⟨-, e, he, hei⟩ := (hc.mem i hi a).mp ha
  obtain ⟨-, e', he', hej⟩ := (hc.mem j hj a).mp hb
  rw [he] at he'
  cases he'
  exact hne (hei.symm.trans hej)

theorem Chained.replace (hc : Chained h buckets members chain) (hr : Relinked bucketOrder h h')
    {i : ℕ} (hi : i < buckets.length)
    (hothers : ∀ j < buckets.length, j ≠ i → ∀ c ∈ chain j, h'.read c = h.read c)
    {l members' : List Addr} (hl : Linked bucketOrder h' l) (hnd : l.Nodup) {b : Bucket}
    (hhead : b.hhHead = l.head?) (hcount : b.count = l.length)
    (hmem : ∀ c, c ∈ l ↔ c ∈ members' ∧
      ∃ e, h.read c = some e ∧ hashToBkt e.hh.hashv buckets.length = i)
    (hrest : ∀ c e, h.read c = some e → hashToBkt e.hh.hashv buckets.length ≠ i →
      (c ∈ members' ↔ c ∈ members)) :
    Chained h' (buckets.set i b) members' (Function.update chain i l) := by
  refine ⟨?_, ?_, ?_, ?_, ?_⟩
  · intro j hj
    rw [List.length_set] at hj
    by_cases hji : j = i
    · rw [hji, Function.update_self]
      exact hl
    · rw [Function.update_of_ne hji]
      exact (hc.linked j hj).unchanged (hothers j hj hji)
  · intro j hj
    rw [List.length_set] at hj
    by_cases hji : j = i
    · rw [hji, Function.update_self]
      exact hnd
    · rw [Function.update_of_ne hji]
      exact hc.nodup j hj
  · intro j c hcj
    by_cases hji : j = i
    · rw [hji, List.getElem?_set_self hi] at hcj
      cases hcj
      rw [hji, Function.update_self, hhead]
    · rw [List.getElem?_set_ne (Ne.symm hji)] at hcj
      rw [Function.update_of_ne hji, hc.head j c hcj]
  · intro j c hcj
    by_cases hji : j = i
    · rw [hji, List.getElem?_set_self hi] at hcj
      cases hcj
      rw [hji, Function.update_self, hcount]
    · rw [List.getElem?_set_ne (Ne.symm hji)] at hcj
      rw [Function.update_of_ne hji, hc.count j c hcj]
  · intro j hj c
    rw [List.length_set] at hj ⊢
    rw [hashv_iff hr]
    by_cases hji : j = i
    · rw [hji, Function.update_self, hmem]
    · rw [Function.update_of_ne hji, hc.mem j hj]
      refine and_congr_left ?_
      rintro ⟨e, he, hej⟩
      exact (hrest c e he fun hei => hji (hej.symm.trans hei)).symm

theorem Chained.push (hc : Chained h buckets members chain) (hx : h.read a = some e)
    (ha : a ∉ members) {i : ℕ} (hi : hashToBkt e.hh.hashv buckets.length = i) {b : Bucket}
    (hb : buckets[i]? = some b) (b' : Bucket) (hhead : b'.hhHead = some a)
    (hcount : b'.count = b.count + 1) :
    ∃ h', pushFront bucketOrder a b.hhHead h = .ok (⟨⟩, h') ∧
      Touches bucketOrder h (a :: members) h' ∧
      Chained h' (buckets.set i b') (a :: members) (Function.update chain i (a :: chain i)) := by
  obtain ⟨hlt, -⟩ := List.getElem?_eq_some_iff.mp hb
  have hsub : chain i ⊆ members := fun c hc' => ((hc.mem i hlt c).mp hc').1
  have hnew : a ∉ chain i := fun hi => ha (hsub hi)
  obtain ⟨h', hrun, ht, hl⟩ := pushFront_linked (hc.linked i hlt) (hc.nodup i hlt) hx hnew
  rw [← hc.head i b hb] at hrun
  refine ⟨h', hrun, ⟨ht.relinked, ?_⟩, hc.replace ht.relinked hlt ?_ hl
    (List.nodup_cons.mpr ⟨hnew, hc.nodup i hlt⟩) hhead ?_ ?_ ?_⟩
  · intro c hcm
    exact ht.others c fun hi => hcm (List.cons_subset_cons a hsub hi)
  · intro j hj hji c hcj
    refine ht.others c ?_
    rintro (_ | ⟨_, hci⟩)
    · exact ha ((hc.mem j hj a).mp hcj).1
    · exact hc.disjoint hj hlt hji hcj hci
  · rw [List.length_cons, ← hc.count i b hb, hcount]
  · intro c
    rw [List.mem_cons, List.mem_cons, hc.mem i hlt]
    constructor
    · rintro (rfl | ⟨hm, he⟩)
      · exact ⟨.inl rfl, e, hx, hi⟩
      · exact ⟨.inr hm, he⟩
    · rintro ⟨rfl | hm, he⟩
      · exact .inl rfl
      · exact .inr ⟨hm, he⟩
  · intro c e' he' hne
    have hca : c ≠ a := by
      rintro rfl
      rw [hx] at he'
      cases he'
      exact hne hi
    simp [hca]

theorem erase_split {front back : List Addr} (hnd : (front ++ a :: back).Nodup) :
    (front ++ a :: back).erase a = front ++ back := by
  rw [List.erase_append_right _ fun hf =>
    (List.nodup_append.mp hnd).2.2 a hf a List.mem_cons_self rfl, List.erase_cons_head]

theorem Chained.remove (hc : Chained h buckets members chain) (hnd : members.Nodup)
    (hx : h.read a = some e) (ha : a ∈ members) {i : ℕ}
    (hi : hashToBkt e.hh.hashv buckets.length = i) {b : Bucket} (hb : buckets[i]? = some b) :
    ∃ h', bypass bucketOrder e.hh.hhPrev e.hh.hhNext h = .ok (⟨⟩, h') ∧
      Touches bucketOrder h members h' ∧
      Chained h' (buckets.set i { b with
          count := b.count - 1
          hhHead := if b.hhHead = some a then e.hh.hhNext else b.hhHead })
        (members.erase a) (Function.update chain i ((chain i).erase a)) := by
  obtain ⟨hlt, -⟩ := List.getElem?_eq_some_iff.mp hb
  have hin : a ∈ chain i := (hc.mem i hlt a).mpr ⟨ha, e, hx, hi⟩
  have hsub : chain i ⊆ members := fun c hc' => ((hc.mem i hlt c).mp hc').1
  have hndi := hc.nodup i hlt
  obtain ⟨front, back, hsplit⟩ := List.append_of_mem hin
  have hli := hc.linked i hlt
  rw [hsplit] at hli hndi
  have herase : (chain i).erase a = front ++ back := by
    rw [hsplit, erase_split hndi]
  obtain ⟨y, hy, hprev, hnext⟩ := hli.neighbours
  rw [hx] at hy
  cases hy
  obtain ⟨h', hrun, ht, hl⟩ := bypass_linked hli hndi
  have hwithin : front ++ back ⊆ chain i := by
    rw [← herase]
    exact List.erase_subset
  rw [← hprev, ← hnext] at hrun
  refine ⟨h', hrun, ⟨ht.relinked, fun c hcm => ht.others c fun hi => hcm (hsub (hwithin hi))⟩, ?_⟩
  rw [herase]
  refine hc.replace ht.relinked hlt ?_ hl (herase ▸ (hc.nodup i hlt).erase a) ?_ ?_ ?_ ?_
  · intro j hj hji c hcj
    exact ht.others c fun hi => hc.disjoint hj hlt hji hcj (hwithin hi)
  · change (if b.hhHead = some a then bucketOrder.next e else b.hhHead) = _
    rw [hc.head i b hb, hsplit, hnext]
    cases front with
    | nil => simp
    | cons c front =>
      have hca : c ≠ a := fun hca =>
        (List.nodup_append.mp hndi).2.2 a (hca ▸ List.mem_cons_self) a List.mem_cons_self rfl
      simp [hca]
  · change b.count - 1 = _
    rw [hc.count i b hb, hsplit]
    simp only [List.length_append, List.length_cons]
    omega
  · intro c
    rw [← herase, (hc.nodup i hlt).mem_erase_iff, hc.mem i hlt, hnd.mem_erase_iff, and_assoc]
  · intro c e' he' hne
    have hca : c ≠ a := by
      rintro rfl
      rw [hx] at he'
      cases he'
      exact hne hi
    exact List.mem_erase_of_ne hca

section Expansion

variable {ideal k : ℕ}

theorem idealChainLength_eq (n k : ℕ) :
    idealChainLength n k (2 ^ k) = (n + (2 ^ (k + 1) - 1)) / 2 ^ (k + 1) := by
  have hpos := Nat.two_pow_pos (k + 1)
  rw [idealChainLength, Nat.shiftRight_eq_div_pow, ← Nat.pow_succ, Nat.and_two_pow_sub_one_eq_mod]
  generalize hm : 2 ^ (k + 1) = m at hpos ⊢
  have hdiv := Nat.div_add_mod n m
  have hlt := Nat.mod_lt n hpos
  symm
  rw [Nat.div_eq_iff hpos, Nat.add_mul, Nat.mul_comm]
  split
  · omega
  · omega

theorem idealChainLength_pos {n : ℕ} (hn : 0 < n) (k : ℕ) :
    0 < idealChainLength n k (2 ^ k) := by
  rw [idealChainLength_eq]
  exact Nat.div_pos (by omega) (Nat.two_pow_pos _)

/-- `nonideal_items` is the number of items beyond the ideal length of their chains, and no chain
is longer than its multiplier announces or much shorter. -/
structure Tallied (ideal : ℕ) (buckets : List Bucket) (nonideal : ℕ) : Prop where
  total : nonideal = (buckets.map fun b => b.count - ideal).sum
  bound : ∀ b ∈ buckets, b.count ≤ (b.expandMult + 1) * ideal
  modest : ∀ b ∈ buckets, b.expandMult ≤ b.count ∧ b.expandMult * ideal ≤ b.count + ideal

theorem receive_count (b : Bucket) : (b.receive ideal).1.count = b.count + 1 := by
  unfold Bucket.receive
  split <;> [split; skip] <;> rfl

theorem receive_more (b : Bucket) :
    b.count - ideal + (b.receive ideal).2 = b.count + 1 - ideal := by
  unfold Bucket.receive
  split <;> [split; skip] <;> simp only [] <;> omega

theorem receive_bound {b : Bucket} (hideal : 0 < ideal)
    (hb : b.count ≤ (b.expandMult + 1) * ideal) :
    b.count + 1 ≤ ((b.receive ideal).1.expandMult + 1) * ideal := by
  have hmul : (b.expandMult + 1 + 1) * ideal = (b.expandMult + 1) * ideal + ideal := by
    rw [Nat.add_mul _ 1, Nat.one_mul]
  have hmul' : (b.expandMult + 1) * ideal = b.expandMult * ideal + ideal := by
    rw [Nat.add_mul, Nat.one_mul]
  unfold Bucket.receive
  split
  · split <;> simp only [] <;> omega
  · simp only []
    omega

theorem receive_modest {b : Bucket}
    (hb : b.expandMult ≤ b.count ∧ b.expandMult * ideal ≤ b.count + ideal) :
    (b.receive ideal).1.expandMult ≤ b.count + 1 ∧
      (b.receive ideal).1.expandMult * ideal ≤ b.count + 1 + ideal := by
  have hmul : (b.expandMult + 1) * ideal = b.expandMult * ideal + ideal := by
    rw [Nat.add_mul, Nat.one_mul]
  unfold Bucket.receive
  split
  · split <;> simp only [] <;> omega
  · simp only []
    omega

theorem receive_more_le (b : Bucket) : (b.receive ideal).2 ≤ 1 := by
  unfold Bucket.receive
  split <;> [split; skip] <;> simp

theorem sum_set {β : Type} (f : β → ℕ) {l : List β} {i : ℕ} {x y : β} (hx : l[i]? = some x)  :
    ((l.set i y).map f).sum + f x = (l.map f).sum + f y := by
  induction l generalizing i with
  | nil => cases hx
  | cons z l ih =>
    cases i with
    | zero =>
      simp only [List.getElem?_cons_zero, Option.some.injEq] at hx
      simp only [List.set_cons_zero, List.map_cons, List.sum_cons, hx]
      omega
    | succ i =>
      simp only [List.getElem?_cons_succ] at hx
      have := ih hx
      simp only [List.set_cons_succ, List.map_cons, List.sum_cons]
      omega

theorem Tallied.receive {nonideal i : ℕ} {b b' : Bucket} (ht : Tallied ideal buckets nonideal)
    (hideal : 0 < ideal) (hb : buckets[i]? = some b)
    (hcount : b'.count = (b.receive ideal).1.count)
    (hmult : b'.expandMult = (b.receive ideal).1.expandMult) :
    Tallied ideal (buckets.set i b') (nonideal + (b.receive ideal).2) := by
  rw [receive_count] at hcount
  refine ⟨?_, ?_, ?_⟩
  · have hsum := sum_set (fun b : Bucket => b.count - ideal) (y := b') hb
    have hmore : b.count - ideal + (b.receive ideal).2 = b.count + 1 - ideal := receive_more b
    have htotal := ht.total
    simp only [hcount] at hsum
    omega
  · intro c hc
    rcases List.mem_or_eq_of_mem_set hc with hc | rfl
    · exact ht.bound c hc
    · rw [hcount, hmult]
      exact receive_bound hideal (ht.bound b (List.mem_of_getElem? hb))
  · intro c hc
    rcases List.mem_or_eq_of_mem_set hc with hc | rfl
    · exact ht.modest c hc
    · rw [hcount, hmult]
      exact receive_modest (ht.modest b (List.mem_of_getElem? hb))

structure Distributed (ideal k : ℕ) (h : Heap (Element α)) (members : List Addr)
    (s : List Bucket × ℕ) : Prop where
  size : s.1.length = 2 ^ k
  chained : ∃ chain, Chained h s.1 members chain
  tallied : Tallied ideal s.1 s.2
  few : s.2 ≤ members.length

theorem bucketAt_ok {i : ℕ} {b : Bucket} (hb : buckets[i]? = some b) (h : Heap (Element α)) :
    bucketAt buckets i h = .ok (b, h) := by
  rw [bucketAt, hb]
  rfl

/-- Induction along the old chain: what is still to come keeps its links, since only elements
that are already in new buckets are written. -/
theorem expandChain_ok (hideal : 0 < ideal) {rest : List Addr} :
    ∀ {h : Heap (Element α)} {before first last : Option Addr} {fuel : ℕ} {members : List Addr}
      {s : List Bucket × ℕ}, Segment bucketOrder h before first rest last none → rest.Nodup →
      (∀ a ∈ rest, a ∉ members) → Distributed ideal k h members s → rest.length < fuel →
      ∃ h' s', expandChain ideal fuel first s h = .ok (s', h') ∧
        Touches bucketOrder h (rest ++ members) h' ∧
        Distributed ideal k h' (rest.reverse ++ members) s' := by
  induction rest with
  | nil =>
    intro h before first last fuel members s hs _ _ hd hf
    obtain ⟨fuel, rfl⟩ : ∃ n, fuel = n + 1 := ⟨fuel - 1, by simp at hf; omega⟩
    obtain ⟨-, rfl⟩ := hs
    exact ⟨h, s, rfl, .refl _ _ _, hd⟩
  | cons a rest ih =>
    intro h before first last fuel members s hs hnd hnew hd hf
    obtain ⟨fuel, rfl⟩ : ∃ n, fuel = n + 1 := ⟨fuel - 1, by simp at hf; omega⟩
    obtain ⟨new, nonideal⟩ := s
    obtain ⟨hsize, ⟨chain, hc⟩, ht, hfew⟩ := hd
    obtain ⟨rfl, e, he, -, hs⟩ := hs
    obtain ⟨hnotin, hnd⟩ := List.nodup_cons.mp hnd
    have ha : a ∉ members := hnew a List.mem_cons_self
    have hlt : hashToBkt e.hh.hashv new.length < new.length := by
      rw [show new.length = 2 ^ k from hsize]
      exact hashToBkt_lt ..
    obtain ⟨b, hb⟩ : ∃ b, new[hashToBkt e.hh.hashv new.length]? = some b :=
      ⟨_, List.getElem?_eq_getElem hlt⟩
    obtain ⟨h₁, hrun, ht₁, hc₁⟩ := hc.push he ha rfl hb
      { (b.receive ideal).1 with hhHead := some a } rfl (receive_count b)
    have hs₁ : Segment bucketOrder h₁ (some a) (bucketOrder.next e) rest last none := by
      refine hs.congr fun c hcr y hy => ⟨y, (ht₁.others c ?_).trans hy, rfl, rfl⟩
      rintro (_ | ⟨_, hcm⟩)
      · exact hnotin hcr
      · exact hnew c (List.mem_cons_of_mem a hcr) hcm
    have hd₁ : Distributed ideal k h₁ (a :: members)
        (new.set (hashToBkt e.hh.hashv new.length) { (b.receive ideal).1 with hhHead := some a },
          nonideal + (b.receive ideal).2) :=
      ⟨by rw [List.length_set]; exact hsize, ⟨_, hc₁⟩, ht.receive hideal hb rfl rfl,
        Nat.add_le_add hfew (receive_more_le b)⟩
    have hnew₁ : ∀ c ∈ rest, c ∉ a :: members := by
      intro c hcr
      rw [List.mem_cons, not_or]
      exact ⟨fun hca => hnotin (hca ▸ hcr), hnew c (List.mem_cons_of_mem a hcr)⟩
    obtain ⟨h', s', hrest, ht₂, hd'⟩ := ih hs₁ hnd hnew₁ hd₁ (by simp at hf; omega)
    refine ⟨h', s', ?_, ?_, ?_⟩
    · rw [expandChain, bind_of_ok (load_ok he), bind_of_ok (bucketAt_ok hb _)]
      simp only []
      rw [bind_of_ok hrun]
      exact hrest
    · refine ht₁.trans ht₂ ?_ ?_
      · intro c hcm
        simp only [List.mem_cons, List.mem_append] at hcm ⊢
        tauto
      · intro c hcm
        simp only [List.mem_cons, List.mem_append] at hcm ⊢
        tauto
    · simpa using hd'

theorem rounds_ok (h : Heap (Element α)) : rounds h = .ok (h.fresh + 1, h) := rfl

theorem expandChains_ok (hideal : 0 < ideal) {old : List (Bucket × List Addr)} :
    ∀ {h : Heap (Element α)} {members : List Addr} {s : List Bucket × ℕ},
      (∀ p ∈ old, p.1.hhHead = p.2.head? ∧ Linked bucketOrder h p.2) →
      (old.flatMap Prod.snd).Nodup → (∀ a ∈ old.flatMap Prod.snd, a ∉ members) →
      Distributed ideal k h members s →
      ∃ h' s' members', expandChains ideal (old.map Prod.fst) s h = .ok (s', h') ∧
        Touches bucketOrder h (old.flatMap Prod.snd ++ members) h' ∧
        Distributed ideal k h' members' s' ∧
        (∀ a, a ∈ members' ↔ a ∈ old.flatMap Prod.snd ++ members) ∧
        members'.length = (old.flatMap Prod.snd).length + members.length := by
  induction old with
  | nil =>
    intro h members s _ _ _ hd
    exact ⟨h, s, members, rfl, .refl _ _ _, hd, by simp, by simp⟩
  | cons p old ih =>
    intro h members s hold hnd hnew hd
    rw [List.flatMap_cons] at hnd hnew
    obtain ⟨hndp, hndr, hdisj⟩ := List.nodup_append.mp hnd
    obtain ⟨hhead, hl⟩ := hold p List.mem_cons_self
    obtain ⟨h₁, s₁, hrun, ht, hd₁⟩ := expandChain_ok hideal hl hndp
      (fun a ha => hnew a (List.mem_append_left _ ha)) hd
      (Nat.lt_succ_of_le (hl.length_le hndp))
    have hold₁ : ∀ q ∈ old, q.1.hhHead = q.2.head? ∧ Linked bucketOrder h₁ q.2 := by
      intro q hq
      obtain ⟨hqh, hql⟩ := hold q (List.mem_cons_of_mem p hq)
      refine ⟨hqh, hql.unchanged fun c hc => ht.others c ?_⟩
      have hcr : c ∈ old.flatMap Prod.snd := List.mem_flatMap.mpr ⟨q, hq, hc⟩
      rw [List.mem_append, not_or]
      exact ⟨fun hcp => hdisj c hcp c hcr rfl, hnew c (List.mem_append_right _ hcr)⟩
    have hnew₁ : ∀ a ∈ old.flatMap Prod.snd, a ∉ p.2.reverse ++ members := by
      intro a ha
      rw [List.mem_append, List.mem_reverse, not_or]
      exact ⟨fun hap => hdisj a hap a ha rfl, hnew a (List.mem_append_right _ ha)⟩
    obtain ⟨h', s', members', hrest, ht', hd', hmem, hlen⟩ := ih hold₁ hndr hnew₁ hd₁
    refine ⟨h', s', members', ?_, ht.trans ht' ?_ ?_, hd', ?_, ?_⟩
    · rw [List.map_cons, expandChains, bind_of_ok (rounds_ok h), hhead, bind_of_ok hrun]
      exact hrest
    · intro c hc
      simp only [List.flatMap_cons, List.mem_append] at hc ⊢
      tauto
    · intro c hc
      simp only [List.flatMap_cons, List.mem_append, List.mem_reverse] at hc ⊢
      tauto
    · intro c
      rw [hmem, List.flatMap_cons]
      simp only [List.mem_append, List.mem_reverse]
      tauto
    · rw [hlen, List.flatMap_cons]
      simp only [List.length_append, List.length_reverse]
      omega

def allChains (buckets : List Bucket) (chain : ℕ → List Addr) : List (Bucket × List Addr) :=
  buckets.mapIdx fun i b => (b, chain i)

theorem map_fst_allChains (buckets : List Bucket) (chain : ℕ → List Addr) :
    (allChains buckets chain).map Prod.fst = buckets := by
  apply List.ext_getElem <;> simp [allChains]

theorem mem_allChains {p : Bucket × List Addr} :
    p ∈ allChains buckets chain ↔ ∃ i, buckets[i]? = some p.1 ∧ p.2 = chain i := by
  rw [allChains, List.mem_mapIdx]
  constructor
  · rintro ⟨i, hi, rfl⟩
    exact ⟨i, List.getElem?_eq_getElem hi, rfl⟩
  · rintro ⟨i, hb, hc⟩
    obtain ⟨hi, hb⟩ := List.getElem?_eq_some_iff.mp hb
    exact ⟨i, hi, by rw [hb, ← hc]⟩

theorem Chained.mem_chains (hc : Chained h buckets members chain) (hsize : buckets.length = 2 ^ k)
    (hlive : ∀ a ∈ members, ∃ e, h.read a = some e) :
    a ∈ (allChains buckets chain).flatMap Prod.snd ↔ a ∈ members := by
  rw [List.mem_flatMap]
  constructor
  · rintro ⟨p, hp, ha⟩
    obtain ⟨i, hb, hpi⟩ := mem_allChains.mp hp
    obtain ⟨hi, -⟩ := List.getElem?_eq_some_iff.mp hb
    rw [hpi] at ha
    exact ((hc.mem i hi a).mp ha).1
  · intro ha
    obtain ⟨e, he⟩ := hlive a ha
    have hi : hashToBkt e.hh.hashv buckets.length < buckets.length := by
      rw [hsize]
      exact hashToBkt_lt ..
    exact ⟨(_, chain (hashToBkt e.hh.hashv buckets.length)),
      mem_allChains.mpr ⟨_, List.getElem?_eq_getElem hi, rfl⟩,
      (hc.mem _ hi a).mpr ⟨ha, e, he, rfl⟩⟩

theorem Chained.chains_nodup (hc : Chained h buckets members chain) :
    ((allChains buckets chain).flatMap Prod.snd).Nodup := by
  rw [List.nodup_flatMap]
  constructor
  · intro p hp
    obtain ⟨i, hb, hpi⟩ := mem_allChains.mp hp
    obtain ⟨hi, -⟩ := List.getElem?_eq_some_iff.mp hb
    rw [hpi]
    exact hc.nodup i hi
  · rw [List.pairwise_iff_getElem]
    intro i j hi hj hij
    simp only [allChains, List.length_mapIdx] at hi hj
    simp only [allChains, List.getElem_mapIdx, Function.onFun]
    intro a ha hb
    exact hc.disjoint hi hj (Nat.ne_of_lt hij) ha hb

theorem distributed_nil (ideal k : ℕ) (h : Heap (Element α)) :
    Distributed ideal k h [] (List.replicate (2 ^ k) ⟨none, 0, 0⟩, 0) := by
  refine ⟨List.length_replicate, ⟨fun _ => [], ?_, ?_, ?_, ?_, ?_⟩, ⟨?_, ?_, ?_⟩, le_rfl⟩
  · exact fun _ _ => linked_nil _ _
  · exact fun _ _ => List.nodup_nil
  · intro i b hb
    rw [List.eq_of_mem_replicate (List.mem_of_getElem? hb)]
    rfl
  · intro i b hb
    rw [List.eq_of_mem_replicate (List.mem_of_getElem? hb)]
    rfl
  · simp
  · simp
  · intro b hb
    rw [List.eq_of_mem_replicate hb]
    exact Nat.zero_le _
  · intro b hb
    rw [List.eq_of_mem_replicate hb]
    simp

theorem Chained.count_le (hc : Chained h buckets members chain) {b : Bucket}
    (hb : b ∈ buckets) : b.count ≤ members.length := by
  obtain ⟨i, hi, rfl⟩ := List.mem_iff_getElem.mp hb
  rw [hc.count i _ (List.getElem?_eq_getElem hi)]
  exact (List.subperm_of_subset (hc.nodup i hi) fun a ha => ((hc.mem i hi a).mp ha).1).length_le

structure Sound (h : Heap (Element α)) (tbl : Table) (members : List Addr) : Prop where
  size : tbl.buckets.length = 2 ^ tbl.log2NumBuckets
  chained : ∃ chain, Chained h tbl.buckets members chain

structure Expanded (tbl : Table) (h' : Heap (Element α)) (tbl' : Table) (members : List Addr) :
    Prop where
  sound : Sound h' tbl' members
  doubled : tbl'.numBuckets = 2 * tbl.numBuckets
  log2 : tbl'.log2NumBuckets = tbl.log2NumBuckets + 1
  numItems : tbl'.numItems = tbl.numItems
  tail : tbl'.tail = tbl.tail
  ideal : tbl'.idealChainMaxlen =
    (tbl.numItems + (tbl'.numBuckets - 1)) / tbl'.numBuckets
  tallied : Tallied tbl'.idealChainMaxlen tbl'.buckets tbl'.nonidealItems
  few : tbl'.nonidealItems ≤ members.length
  ineffective : tbl'.ineffExpands =
    if tbl.numItems / 2 < tbl'.nonidealItems then tbl.ineffExpands + 1 else 0
  noexpand : tbl'.noexpand = (tbl.noexpand || decide (1 < tbl'.ineffExpands))

/-- The table stops growing after two ineffective expansions in a row, and only then. -/
structure Regular (tbl : Table) : Prop where
  bounded : tbl.ineffExpands ≤ 2
  stopped : tbl.noexpand = true ↔ tbl.ineffExpands = 2

theorem Expanded.regular {tbl tbl' : Table} (hexp : Expanded tbl h' tbl' members)
    (hr : Regular tbl) (hgrows : tbl.noexpand = false) : Regular tbl' := by
  have hlt : tbl.ineffExpands ≤ 1 := by
    have hne : tbl.ineffExpands ≠ 2 := fun heq => by simp [hr.stopped.mpr heq] at hgrows
    have hbound := hr.bounded
    omega
  have hcount := hexp.ineffective
  constructor
  · rw [hcount]
    split <;> omega
  · rw [hexp.noexpand, hgrows, Bool.false_or, decide_eq_true_iff]
    split at hcount <;> omega

/-- Bounds on what a table notes, when there have never been more than `n` elements. -/
structure Within (n : ℕ) (tbl : Table) : Prop where
  log2 : tbl.log2NumBuckets ≤ 31
  ideal : tbl.idealChainMaxlen ≤ n
  nonideal : tbl.nonidealItems ≤ n
  multipliers : ∀ b ∈ tbl.buckets,
    b.expandMult ≤ n ∧ b.expandMult * tbl.idealChainMaxlen ≤ 2 * n

theorem Within.mono {m n : ℕ} {tbl : Table} (hw : Within m tbl) (hle : m ≤ n) : Within n tbl := by
  refine ⟨hw.log2, hw.ideal.trans hle, hw.nonideal.trans hle, fun b hb => ?_⟩
  obtain ⟨hmult, hprod⟩ := hw.multipliers b hb
  omega

/-- The counts of the buckets play no role, so a bucket may be replaced by one with the same
multiplier. -/
theorem Within.set {n i : ℕ} {tbl : Table} (hw : Within n tbl) {b b' : Bucket}
    (hb : tbl.buckets[i]? = some b) (hmult : b'.expandMult = b.expandMult) :
    Within n { tbl with buckets := tbl.buckets.set i b' } := by
  refine ⟨hw.log2, hw.ideal, hw.nonideal, fun c hc => ?_⟩
  rcases List.mem_or_eq_of_mem_set hc with hc | rfl
  · exact hw.multipliers c hc
  · rw [hmult]
    exact hw.multipliers b (List.mem_of_getElem? hb)

theorem ceil_div_le {m : ℕ} (hm : 0 < m) (n : ℕ) : (n + (m - 1)) / m ≤ n := by
  obtain ⟨k, rfl⟩ := Nat.exists_eq_succ_of_ne_zero hm.ne'
  apply Nat.le_of_lt_succ
  rw [Nat.div_lt_iff_lt_mul hm]
  simp only [Nat.succ_eq_add_one, Nat.add_mul, Nat.mul_add]
  omega

theorem Expanded.within {n : ℕ} {tbl tbl' : Table} (hexp : Expanded tbl h' tbl' members)
    (hlog : tbl.log2NumBuckets < 31) (hmem : members.length ≤ n) (hitems : tbl.numItems ≤ n) :
    Within n tbl' := by
  have hideal : tbl'.idealChainMaxlen ≤ n := by
    have hpos : 0 < tbl'.numBuckets := by
      rw [Table.numBuckets, hexp.sound.size]
      exact Nat.two_pow_pos _
    rw [hexp.ideal]
    exact (ceil_div_le hpos _).trans hitems
  refine ⟨?_, hideal, hexp.few.trans hmem, fun b hb => ?_⟩
  · rw [hexp.log2]
    exact hlog
  · obtain ⟨chain, hc⟩ := hexp.sound.chained
    have hcount := hc.count_le hb
    obtain ⟨hmult, hprod⟩ := hexp.tallied.modest b hb
    omega

theorem redistributed_ineffExpands (tbl : Table) (ideal : ℕ) (s : List Bucket × ℕ) :
    (tbl.redistributed ideal s).ineffExpands =
      if tbl.numItems / 2 < s.2 then tbl.ineffExpands + 1 else 0 := by
  simp [Table.redistributed, Nat.shiftRight_eq_div_pow]

theorem redistributed_noexpand (tbl : Table) (ideal : ℕ) (s : List Bucket × ℕ) :
    (tbl.redistributed ideal s).noexpand =
      (tbl.noexpand || decide (1 < (tbl.redistributed ideal s).ineffExpands)) := by
  change (if 1 < (tbl.redistributed ideal s).ineffExpands then true else tbl.noexpand) = _
  split
  · next hlt => simp [hlt]
  · next hge => simp [hge]

theorem hashExpandBuckets_ok {tbl : Table} (hs : Sound h tbl members)
    (hlive : ∀ a ∈ members, ∃ e, h.read a = some e) (hitems : 0 < tbl.numItems) :
    ∃ h' tbl', hashExpandBuckets tbl h = .ok (tbl', h') ∧ Touches bucketOrder h members h' ∧
      Expanded tbl h' tbl' members := by
  obtain ⟨hsize, chain, hc⟩ := hs
  set ideal := idealChainLength tbl.numItems tbl.log2NumBuckets tbl.numBuckets with hideal
  have hnum : tbl.numBuckets = 2 ^ tbl.log2NumBuckets := hsize
  have hpos : 0 < ideal := by
    rw [hideal, hnum]
    exact idealChainLength_pos hitems _
  have hold : ∀ p ∈ allChains tbl.buckets chain,
      p.1.hhHead = p.2.head? ∧ Linked bucketOrder h p.2 := by
    intro p hp
    obtain ⟨i, hb, hpi⟩ := mem_allChains.mp hp
    obtain ⟨hi, -⟩ := List.getElem?_eq_some_iff.mp hb
    rw [hpi]
    exact ⟨hc.head i p.1 hb, hc.linked i hi⟩
  obtain ⟨h', s', members', hrun, ht, hd, hmem, hlen⟩ := expandChains_ok hpos hold
    hc.chains_nodup (fun _ _ => List.not_mem_nil)
    (distributed_nil ideal (tbl.log2NumBuckets + 1) h)
  obtain ⟨hsize', ⟨chain', hc'⟩, htallied, hfew⟩ := hd
  have hshort : ((allChains tbl.buckets chain).flatMap Prod.snd).length ≤ members.length :=
    (List.subperm_of_subset hc.chains_nodup fun a ha =>
      (hc.mem_chains hsize hlive).mp ha).length_le
  simp only [List.append_nil, hc.mem_chains hsize hlive] at hmem
  rw [map_fst_allChains, Nat.pow_succ, ← hnum] at hrun
  refine ⟨h', tbl.redistributed ideal s', ?_, ⟨ht.relinked, ?_⟩,
    ⟨⟨hsize', chain', ?_⟩, ?_, rfl, rfl, rfl, ?_, htallied, ?_, ?_, ?_⟩⟩
  · rw [hashExpandBuckets, bind_of_ok hrun]
    rfl
  · intro b hb
    refine ht.others b ?_
    rw [List.append_nil, hc.mem_chains hsize hlive]
    exact hb
  · exact hc'.congr_members fun a => (hmem a).symm
  · change s'.1.length = _
    rw [hsize', Nat.pow_succ, hnum, Nat.mul_comm]
  · change ideal = (tbl.numItems + (s'.1.length - 1)) / s'.1.length
    rw [hideal, hsize', hnum, idealChainLength_eq]
  · change s'.2 ≤ _
    rw [List.length_nil] at hlen
    omega
  · exact redistributed_ineffExpands tbl ideal s'
  · exact redistributed_noexpand tbl ideal s'

end Expansion

end Uthash
