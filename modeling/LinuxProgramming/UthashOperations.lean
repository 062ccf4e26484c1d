import LinuxProgramming.UthashInvariant

/-! Lookup, insertion and deletion in the hash table, each on any table whose state is right,
whatever the hash function: the list of elements changes as the caller expects, the state is
right again, and the integrity check of the header finds nothing. -/
namespace Uthash

open BlockMemory CharStrings DoublyLinkedLists LinkedTable

variable {α : Type} {K : KeyField α} {hash : List Byte → UInt32} {h h' h'' : Heap (Element α)}
  {buckets : List Bucket} {members items : List Addr} {chain : ℕ → List Addr} {a : Addr}
  {e : Element α} {tbl : Table} {head : HashTable} {first : Addr}

def keyOf (K : KeyField α) (e : Element α) : List Byte := K.key e.item

structure Keyed (K : KeyField α) (hash : List Byte → UInt32) (e : Element α) : Prop where
  hashv : e.hh.hashv = hash (keyOf K e)
  keylen : e.hh.keylen = (keyOf K e).length

/-- The state of a table with the elements `items`, in the order of insertion. -/
structure Valid (K : KeyField α) (hash : List Byte → UInt32) (h : Heap (Element α)) (first : Addr)
    (tbl : Table) (items : List Addr) : Prop where
  first : items.head? = some first
  tail : tbl.tail = items.getLast?
  linked : Linked appOrder h items
  nodup : items.Nodup
  numItems : tbl.numItems = items.length
  sound : Sound h tbl items
  regular : Regular tbl
  within : Within h.fresh tbl
  keyed : ∀ a ∈ items, ∀ e, h.read a = some e → Keyed K hash e

def Holds (K : KeyField α) (hash : List Byte → UInt32) (h : Heap (Element α)) :
    HashTable → List Addr → Prop
  | none, items => items = []
  | some (first, tbl), items => Valid K hash h first tbl items

/-- The buckets can be doubled within the range of `num_buckets`, which is an `unsigned`. -/
def Roomy : HashTable → Prop
  | none => True
  | some (_, tbl) => tbl.numBuckets < 2 ^ 31

instance : DecidablePred Roomy
  | none => .isTrue trivial
  | some (_, tbl) => inferInstanceAs (Decidable (tbl.numBuckets < 2 ^ 31))

def fixed (e : Element α) : α × ℕ × UInt32 := (e.item, e.hh.keylen, e.hh.hashv)

structure Preserved (h h' : Heap (Element α)) : Prop where
  fresh : h'.fresh = h.fresh
  fixed : ∀ a, (h'.read a).map fixed = (h.read a).map fixed

theorem Preserved.trans (h₁ : Preserved h h') (h₂ : Preserved h' h'') : Preserved h h'' :=
  ⟨h₂.fresh.trans h₁.fresh, fun a => (h₂.fixed a).trans (h₁.fixed a)⟩

theorem Preserved.of_app (hr : Relinked appOrder h h') : Preserved h h' :=
  ⟨hr.fresh, hr.map fun _ => rfl⟩

theorem Preserved.of_bucket (hr : Relinked bucketOrder h h') : Preserved h h' :=
  ⟨hr.fresh, hr.map fun _ => rfl⟩

theorem Preserved.read (hp : Preserved h h') {e' : Element α} (he : h'.read a = some e') :
    ∃ e, h.read a = some e ∧ e'.item = e.item ∧ e'.hh.keylen = e.hh.keylen ∧
      e'.hh.hashv = e.hh.hashv := by
  have hf := hp.fixed a
  rw [he, Option.map_some, eq_comm, Option.map_eq_some_iff] at hf
  obtain ⟨e, hread, heq⟩ := hf
  simp only [Uthash.fixed, Prod.mk.injEq] at heq
  exact ⟨e, hread, heq.1.symm, heq.2.1.symm, heq.2.2.symm⟩

theorem Preserved.item (hp : Preserved h h') (a : Addr) :
    (h'.read a).map Element.item = (h.read a).map Element.item := by
  have hf := congrArg (Option.map Prod.fst) (hp.fixed a)
  simpa only [Option.map_map, Function.comp_def, Uthash.fixed] using hf

theorem Preserved.keyed (hp : Preserved h h')
    (hk : ∀ a ∈ items, ∀ e, h.read a = some e → Keyed K hash e) :
    ∀ a ∈ items, ∀ e, h'.read a = some e → Keyed K hash e := by
  intro a ha e' he'
  obtain ⟨e, he, hitem, hlen, hv⟩ := hp.read he'
  obtain ⟨hhash, hkeylen⟩ := hk a ha e he
  have hkey : keyOf K e' = keyOf K e := congrArg K.key hitem
  exact ⟨by rw [hv, hkey, hhash], by rw [hlen, hkey, hkeylen]⟩

def bucketPart (e : Element α) : Option Addr × Option Addr × UInt32 :=
  (e.hh.hhPrev, e.hh.hhNext, e.hh.hashv)

theorem read_of_map {β : Type} {f : Element α → β} {b : Addr}
    (hread : (h'.read b).map f = (h.read b).map f) {x : Element α} (hx : h.read b = some x) :
    ∃ y, h'.read b = some y ∧ f y = f x := by
  rw [hx, Option.map_some] at hread
  exact Option.map_eq_some_iff.mp hread

theorem Sound.congr (hs : Sound h tbl members)
    (hread : ∀ a ∈ members, (h'.read a).map bucketPart = (h.read a).map bucketPart) :
    Sound h' tbl members := by
  obtain ⟨hsize, chain, hc⟩ := hs
  refine ⟨hsize, chain, ?_, hc.nodup, hc.head, hc.count, ?_⟩
  · intro i hi
    refine (hc.linked i hi).congr fun b hb x hx => ?_
    obtain ⟨y, hy, hpart⟩ := read_of_map (hread b ((hc.mem i hi b).mp hb).1) hx
    simp only [bucketPart, Prod.mk.injEq] at hpart
    exact ⟨y, hy, hpart.1, hpart.2.1⟩
  · intro i hi b
    rw [hc.mem i hi]
    refine and_congr_right fun hb => ?_
    constructor
    · rintro ⟨x, hx, hbkt⟩
      obtain ⟨y, hy, hpart⟩ := read_of_map (hread b hb) hx
      simp only [bucketPart, Prod.mk.injEq] at hpart
      exact ⟨y, hy, hpart.2.2 ▸ hbkt⟩
    · rintro ⟨x, hx, hbkt⟩
      obtain ⟨y, hy, hpart⟩ := read_of_map (hread b hb).symm hx
      simp only [bucketPart, Prod.mk.injEq] at hpart
      exact ⟨y, hy, hpart.2.2 ▸ hbkt⟩

theorem Sound.relinked_app (hs : Sound h tbl members) (hr : Relinked appOrder h h') :
    Sound h' tbl members := hs.congr fun a _ => hr.map (fun _ => rfl) a

/-- The table sees nothing of an element but its handle and its key. -/
theorem Holds.congr (hh : Holds K hash h head items) (hfresh : h.fresh ≤ h'.fresh)
    (hread : ∀ a ∈ items, (h'.read a).map (fun e => (e.hh, keyOf K e)) =
      (h.read a).map fun e => (e.hh, keyOf K e)) : Holds K hash h' head items := by
  cases head with
  | none => exact hh
  | some p =>
    have hhandle : ∀ a ∈ items, ∀ x, h.read a = some x →
        ∃ y, h'.read a = some y ∧ y.hh = x.hh := by
      intro a ha x hx
      obtain ⟨y, hy, heq⟩ := read_of_map (hread a ha) hx
      exact ⟨y, hy, (Prod.mk.inj heq).1⟩
    refine ⟨hh.first, hh.tail, ?_, hh.nodup, hh.numItems, ?_, hh.regular, hh.within.mono hfresh,
      ?_⟩
    · refine hh.linked.congr fun a ha x hx => ?_
      obtain ⟨y, hy, heq⟩ := hhandle a ha x hx
      exact ⟨y, hy, congrArg Handle.prev heq, congrArg Handle.next heq⟩
    · refine hh.sound.congr fun a ha => ?_
      have hmap := congrArg (Option.map fun q : Handle × List Byte =>
        (q.1.hhPrev, q.1.hhNext, q.1.hashv)) (hread a ha)
      rw [Option.map_map, Option.map_map] at hmap
      exact hmap
    · intro a ha y hy
      obtain ⟨x, hx, heq⟩ := read_of_map (hread a ha).symm hy
      obtain ⟨hhand, hkey⟩ := Prod.mk.inj heq
      obtain ⟨hv, hlen⟩ := hh.keyed a ha x hx
      exact ⟨by rw [← hhand, ← hkey, hv], by rw [← hhand, ← hkey, hlen]⟩

theorem Holds.unchanged (hh : Holds K hash h head items) (hfresh : h.fresh ≤ h'.fresh)
    (hread : ∀ a ∈ items, h'.read a = h.read a) : Holds K hash h' head items :=
  hh.congr hfresh fun a ha => by rw [hread a ha]

theorem Holds.live (hh : Holds K hash h head items) (ha : a ∈ items) :
    ∃ e, h.read a = some e := by
  cases head with
  | none =>
    rw [show items = [] from hh] at ha
    cases ha
  | some p => exact hh.linked.live ha

theorem Holds.linked (hh : Holds K hash h head items) : Linked appOrder h items := by
  cases head with
  | none =>
    rw [show items = [] from hh]
    exact linked_nil _ _
  | some p => exact Valid.linked hh

theorem Holds.nodup (hh : Holds K hash h head items) : items.Nodup := by
  cases head with
  | none =>
    rw [show items = [] from hh]
    exact List.nodup_nil
  | some p => exact Valid.nodup hh

theorem Holds.keyed (hh : Holds K hash h head items) (ha : a ∈ items) (he : h.read a = some e) :
    Keyed K hash e := by
  cases head with
  | none =>
    rw [show items = [] from hh] at ha
    cases ha
  | some p => exact Valid.keyed hh a ha e he

section Find

/-- A key in a bucket is compared only where hash value and length agree, which is no loss. -/
theorem matches_iff (hk : Keyed K hash e) (key : List Byte) :
    (e.hh.hashv = hash key ∧ e.hh.keylen = key.length ∧
      (K.bytes e.item).take key.length = key) ↔ keyOf K e = key := by
  constructor
  · rintro ⟨-, hlen, hbytes⟩
    have hl : (K.key e.item).length = key.length := hk.keylen.symm.trans hlen
    rw [keyOf, ← K.key_bytes e.item, hl, hbytes]
  · rintro rfl
    exact ⟨hk.hashv, hk.keylen, K.key_bytes e.item⟩

def Finds (K : KeyField α) (h : Heap (Element α)) (l : List Addr) (key : List Byte) :
    Option Addr → Prop
  | some a => a ∈ l ∧ keyAt (keyOf K) h a = some key
  | none => ∀ a ∈ l, keyAt (keyOf K) h a ≠ some key

theorem hashFindInBkt_finds (key : List Byte) {l : List Addr} :
    ∀ {before first last : Option Addr} {fuel : ℕ},
      Segment bucketOrder h before first l last none →
      (∀ a ∈ l, ∀ e, h.read a = some e → Keyed K hash e) → l.length < fuel →
      ∃ r, hashFindInBkt K key (hash key) fuel first h = .ok (r, h) ∧ Finds K h l key r := by
  induction l with
  | nil =>
    intro before first last fuel hs _ hf
    obtain ⟨fuel, rfl⟩ : ∃ n, fuel = n + 1 := ⟨fuel - 1, by simp at hf; omega⟩
    obtain ⟨-, rfl⟩ := hs
    exact ⟨none, rfl, by simp [Finds]⟩
  | cons a l ih =>
    intro before first last fuel hs hk hf
    obtain ⟨fuel, rfl⟩ : ∃ n, fuel = n + 1 := ⟨fuel - 1, by simp at hf; omega⟩
    obtain ⟨rfl, e, he, -, hs⟩ := hs
    have hmatch := matches_iff (hk a List.mem_cons_self e he) key
    have hkey : keyAt (keyOf K) h a = some (keyOf K e) := keyAt_read he
    simp only [hashFindInBkt, bind_of_ok (load_ok he), hmatch]
    by_cases hfound : keyOf K e = key
    · rw [if_pos hfound]
      exact ⟨some a, rfl, List.mem_cons_self, hfound ▸ hkey⟩
    · rw [if_neg hfound]
      obtain ⟨r, hrun, hr⟩ := ih hs (fun b hb => hk b (List.mem_cons_of_mem a hb))
        (by simp at hf; omega)
      refine ⟨r, hrun, ?_⟩
      cases r with
      | some b => exact ⟨List.mem_cons_of_mem a hr.1, hr.2⟩
      | none =>
        intro b hb
        rcases List.mem_cons.mp hb with rfl | hb
        · rw [hkey]
          exact fun heq => hfound (Option.some.inj heq)
        · exact hr b hb

/-- Elements with the key are all in the bucket that is searched. -/
theorem hashFind_finds (hh : Holds K hash h head items) (key : List Byte) :
    ∃ r, hashFind K hash head key h = .ok (r, h) ∧ Finds K h items key r := by
  cases head with
  | none =>
    refine ⟨none, rfl, ?_⟩
    rw [show items = [] from hh]
    simp [Finds]
  | some p =>
    obtain ⟨first, tbl⟩ := p
    obtain ⟨hsize, chain, hc⟩ := hh.sound
    set bkt := hashToBkt (hash key) tbl.buckets.length with hbkt
    have hi : bkt < tbl.buckets.length := by
      rw [hbkt, hsize]
      exact hashToBkt_lt ..
    have hb : tbl.buckets[bkt]? = some tbl.buckets[bkt] := List.getElem?_eq_getElem hi
    have hsub : ∀ a ∈ chain bkt, a ∈ items := fun a ha => ((hc.mem bkt hi a).mp ha).1
    obtain ⟨r, hrun, hr⟩ := hashFindInBkt_finds key (hc.linked bkt hi)
      (fun a ha e he => hh.keyed (hsub a ha) he)
      (Nat.lt_succ_of_le ((hc.linked bkt hi).length_le (hc.nodup bkt hi)))
    rw [← hc.head bkt _ hb] at hrun
    refine ⟨r, ?_, ?_⟩
    · rw [hashFind]
      simp only [Table.numBuckets]
      rw [bind_of_ok (bucketAt_ok hb h), bind_of_ok (rounds_ok h), hrun]
    · cases r with
      | some a => exact ⟨hsub a hr.1, hr.2⟩
      | none =>
        intro a ha hkey
        obtain ⟨e, he, hek⟩ := keyAt_eq_some.mp hkey
        refine hr a ((hc.mem bkt hi a).mpr ⟨ha, e, he, ?_⟩) hkey
        rw [(hh.keyed ha he).hashv, hek]

end Find

section Add

theorem hashAddToBkt_ok (hs : Sound h tbl members) (hx : h.read a = some e) (ha : a ∉ members)
    (hlive : ∀ b ∈ members, ∃ e, h.read b = some e) (hitems : 0 < tbl.numItems) :
    ∃ h' tbl', hashAddToBkt true tbl (hashToBkt e.hh.hashv tbl.numBuckets) a h =
        .ok (some tbl', h') ∧
      Relinked bucketOrder h h' ∧ Sound h' tbl' (a :: members) ∧
      tbl'.numItems = tbl.numItems ∧ tbl'.tail = tbl.tail ∧ (Regular tbl → Regular tbl') ∧
      ∀ n, members.length + 1 ≤ n → tbl.numItems ≤ n → tbl.log2NumBuckets < 31 →
        Within n tbl → Within n tbl' := by
  obtain ⟨hsize, chain, hc⟩ := hs
  set bkt := hashToBkt e.hh.hashv tbl.buckets.length with hbkt
  have hi : bkt < tbl.buckets.length := by
    rw [hbkt, hsize]
    exact hashToBkt_lt ..
  have hb : tbl.buckets[bkt]? = some tbl.buckets[bkt] := List.getElem?_eq_getElem hi
  set b' : Bucket := { tbl.buckets[bkt] with
    count := tbl.buckets[bkt].count + 1, hhHead := some a } with hb'
  obtain ⟨h₁, hrun, ht, hc₁⟩ := hc.push hx ha hbkt.symm hb b' rfl rfl
  set tbl₁ : Table := { tbl with buckets := tbl.buckets.set bkt b' } with htbl₁
  have hs₁ : Sound h₁ tbl₁ (a :: members) := ⟨(List.length_set ..).trans hsize, _, hc₁⟩
  have hstep : hashAddToBkt true tbl bkt a h =
      (if (b'.expandMult + 1) * 10 ≤ b'.count ∧ tbl.noexpand = false then do
        return some (← hashExpandBuckets tbl₁) else return some tbl₁) h₁ := by
    rw [hashAddToBkt, bind_of_ok (bucketAt_ok hb h)]
    simp only []
    rw [bind_of_ok hrun]
    rfl
  rw [Table.numBuckets, ← hbkt, hstep]
  split
  · next hfull =>
    have hlive₁ : ∀ b ∈ a :: members, ∃ e, h₁.read b = some e := by
      intro b hb
      rcases List.mem_cons.mp hb with rfl | hb
      · exact (ht.relinked.read hx).imp fun _ hy => hy.1
      · obtain ⟨e', he'⟩ := hlive b hb
        exact (ht.relinked.read he').imp fun _ hy => hy.1
    obtain ⟨h₂, tbl₂, hexpand, ht₂, hexp⟩ := hashExpandBuckets_ok hs₁ hlive₁ hitems
    refine ⟨h₂, tbl₂, ?_, ht.relinked.trans ht₂.relinked, hexp.sound, hexp.numItems, hexp.tail,
      fun hr => hexp.regular ⟨hr.bounded, hr.stopped⟩ hfull.2,
      fun n hmem hitems hlog _ => hexp.within hlog hmem hitems⟩
    rw [bind_of_ok hexpand]
    rfl
  · exact ⟨h₁, tbl₁, rfl, ht.relinked, hs₁, rfl, rfl, fun hr => ⟨hr.bounded, hr.stopped⟩,
      fun _ _ _ _ hw => hw.set hb rfl⟩

theorem regular_makeTable (a : Addr) : Regular (hashMakeTable a) := by
  constructor <;> simp [hashMakeTable]

theorem within_makeTable (n : ℕ) (a : Addr) : Within n (hashMakeTable a) := by
  refine ⟨by simp [hashMakeTable], Nat.zero_le _, Nat.zero_le _, fun b hb => ?_⟩
  rw [List.eq_of_mem_replicate hb]
  simp

theorem log2_of_roomy (hs : Sound h tbl members) (hroom : Roomy (some (first, tbl))) :
    tbl.log2NumBuckets < 31 := by
  rw [Roomy, Table.numBuckets, hs.size] at hroom
  exact (Nat.pow_lt_pow_iff_right Nat.one_lt_two).mp hroom

theorem sound_makeTable (h : Heap (Element α)) (a : Addr) : Sound h (hashMakeTable a) [] := by
  obtain ⟨hsize, hchained, -⟩ := distributed_nil 0 5 h
  exact ⟨hsize, hchained⟩

theorem linked_singleton (h : Heap (Element α)) (he : h.read a = some e)
    (hprev : e.hh.prev = none) (hnext : e.hh.next = none) : Linked appOrder h [a] :=
  ⟨rfl, e, he, hprev, rfl, hnext⟩

theorem hashEnterList_ok (hh : Holds K hash h head items) (hroom : Roomy head)
    (hx : h.read a = some e) (ha : a ∉ items) :
    ∃ h' first tbl, hashEnterList true head a h = .ok (some (first, tbl), h') ∧
      Relinked appOrder h h' ∧ Linked appOrder h' (items ++ [a]) ∧
      (items ++ [a]).head? = some first ∧ tbl.tail = some a ∧ tbl.numItems = items.length ∧
      Sound h' tbl items ∧ Regular tbl ∧ tbl.log2NumBuckets < 31 ∧ Within h.fresh tbl := by
  cases head with
  | none =>
    obtain rfl : items = [] := hh
    set e₁ := appOrder.setPrev none (appOrder.setNext none e) with he₁
    have hwrite := Heap.read_write_self hx e₁
    refine ⟨h.write a e₁, a, hashMakeTable a, ?_, .write hx rfl,
      linked_singleton _ hwrite rfl rfl, rfl, rfl, rfl, sound_makeTable _ a, regular_makeTable a,
      by simp [hashMakeTable], within_makeTable _ a⟩
    rw [hashEnterList, bind_of_ok (store_ok hx _),
      bind_of_ok (store_ok (Heap.read_write_self hx _) _), Heap.write_write]
    rfl
  | some p =>
    obtain ⟨first, tbl⟩ := p
    have hne : items ≠ [] := by
      rintro rfl
      have hfirst := hh.first
      cases hfirst
    obtain ⟨h', hrun, ht, hl⟩ := pushBack_linked hh.linked hh.nodup hne hx ha
    have htail : tbl.tail = items.getLast? := hh.tail
    have hw : Within h.fresh tbl := hh.within
    have hlog : tbl.log2NumBuckets < 31 := log2_of_roomy hh.sound hroom
    refine ⟨h', first, { tbl with tail := some a }, ?_, ht.relinked, hl, ?_, rfl, hh.numItems, ?_,
      ⟨hh.regular.bounded, hh.regular.stopped⟩, hlog, hw.log2, hw.ideal, hw.nonideal,
      hw.multipliers⟩
    · rw [← htail] at hrun
      rw [hashEnterList, bind_of_ok hrun]
      rfl
    · rw [List.head?_append, show items.head? = some first from hh.first]
      rfl
    · obtain ⟨hsize, chain, hc⟩ := hh.sound.relinked_app ht.relinked
      exact ⟨hsize, chain, hc⟩

theorem hashAdd_ok (hh : Holds K hash h head items) (hroom : Roomy head)
    (hx : h.read a = some e) (ha : a ∉ items) :
    ∃ h' head', hashAdd K hash true head a h = .ok (some head', h') ∧ h'.fresh = h.fresh ∧
      (∀ b, (h'.read b).map Element.item = (h.read b).map Element.item) ∧
      Holds K hash h' head' (items ++ [a]) := by
  set key := K.key e.item with hkey
  set e₁ : Element α := { e with hh := { e.hh with hashv := hash key, keylen := key.length } }
    with he₁
  have hx₁ : (h.write a e₁).read a = some e₁ := Heap.read_write_self hx e₁
  have hold : ∀ b ∈ items, (h.write a e₁).read b = h.read b := by
    intro b hb
    have hne : b ≠ a := fun hba => ha (hba ▸ hb)
    rw [Heap.read_write hx, if_neg hne]
  have hitem₁ : ∀ b, ((h.write a e₁).read b).map Element.item = (h.read b).map Element.item := by
    intro b
    rw [Heap.read_write hx]
    split
    · next hb => rw [hb, hx]; rfl
    · rfl
  have hfresh₁ : h.fresh ≤ (h.write a e₁).fresh := (Heap.fresh_write ..).ge
  obtain ⟨h₂, first, tbl, henter, hr₂, hl₂, hfirst, htail, hcount, hs₂, hreg, hlog, hw⟩ :=
    hashEnterList_ok (hh.unchanged hfresh₁ hold) hroom hx₁ ha
  have hp₂ := Preserved.of_app hr₂
  obtain ⟨e₂, hx₂, hcore⟩ := hr₂.read hx₁
  have hv₂ : e₂.hh.hashv = hash key := congrArg (fun e : Element α => e.hh.hashv) hcore
  have hlive₂ : ∀ b ∈ items, ∃ e, h₂.read b = some e := fun b hb =>
    hl₂.live (List.mem_append_left _ hb)
  have hs₂' : Sound h₂ { tbl with numItems := tbl.numItems + 1 } items :=
    ⟨hs₂.size, hs₂.chained⟩
  obtain ⟨h₃, tbl₃, hbucket, hr₃, hs₃, hcount₃, htail₃, hreg₃, hw₃⟩ :=
    hashAddToBkt_ok hs₂' hx₂ ha hlive₂ (Nat.succ_pos _)
  have hnodup : (items ++ [a]).Nodup :=
    List.nodup_append.mpr ⟨hh.nodup, List.nodup_singleton a, fun b hb c hc hbc =>
      ha (List.mem_singleton.mp hc ▸ hbc ▸ hb)⟩
  have hlen : items.length + 1 ≤ h₂.fresh := by
    have hle := hl₂.length_le hnodup
    rwa [List.length_append, List.length_singleton] at hle
  have hp₃ := Preserved.of_bucket hr₃
  have hp := hp₂.trans hp₃
  rw [hv₂] at hbucket
  refine ⟨h₃, some (first, tbl₃), ?_, ?_, ?_, hfirst, ?_, ?_, hnodup, ?_, ?_,
    hreg₃ ⟨hreg.bounded, hreg.stopped⟩, ?_, ?_⟩
  · rw [hashAdd, bind_of_ok (load_ok hx), ← hkey]
    simp only []
    rw [bind_of_ok (store_ok hx _), bind_of_ok (store_ok (Heap.read_write_self hx _) _),
      Heap.write_write]
    change (hashEnterList true head a >>= _) (h.write a e₁) = _
    rw [bind_of_ok henter]
    simp only []
    rw [bind_of_ok hbucket]
    rfl
  · rw [hp.fresh, Heap.fresh_write]
  · intro b
    rw [hp.item b, hitem₁ b]
  · rw [htail₃, List.getLast?_concat]
    exact htail
  · exact hl₂.relinked hr₃ (fun _ => rfl) fun _ => rfl
  · rw [hcount₃, List.length_append]
    exact congrArg (· + 1) hcount
  · obtain ⟨hsize, chain, hc⟩ := hs₃
    exact ⟨hsize, chain, hc.congr_members fun b => by simp [or_comm]⟩
  · rw [hp₃.fresh]
    refine hw₃ _ hlen (by rw [hcount]; exact hlen) hlog ?_
    rw [hp₂.fresh]
    exact ⟨hw.log2, hw.ideal, hw.nonideal, hw.multipliers⟩
  · refine hp.keyed ?_
    intro b hb e' he'
    rcases List.mem_append.mp hb with hb | hb
    · exact (hh.unchanged hfresh₁ hold).keyed hb he'
    · obtain rfl := List.mem_singleton.mp hb
      rw [hx₁] at he'
      cases he'
      exact ⟨rfl, rfl⟩

end Add

section Delete

theorem head_after {front back : List Addr} (hfirst : (front ++ a :: back).head? = some first)
    (hne : ¬ (front.getLast? = none ∧ back.head? = none)) :
    (front ++ back).head? =
      some (if front.getLast? = none then back.head?.getD first else first) := by
  cases front with
  | nil =>
    cases back with
    | nil => simp at hne
    | cons b back => simp
  | cons c front => simpa [List.getLast?_cons] using hfirst

theorem tail_after {front back : List Addr} (hnd : (front ++ a :: back).Nodup) :
    (if (front ++ a :: back).getLast? = some a then front.getLast?
      else (front ++ a :: back).getLast?) = (front ++ back).getLast? := by
  rcases List.eq_nil_or_concat back with rfl | ⟨back, b, rfl⟩
  · simp
  · have hba : b ≠ a := by
      rintro rfl
      simp [List.nodup_append] at hnd
    have hlast : (front ++ a :: back.concat b).getLast? = some b := by
      rw [List.getLast?_append, List.getLast?_cons]
      simp
    rw [hlast, if_neg fun h => hba (Option.some.inj h), List.concat_eq_append,
      ← List.append_assoc, List.getLast?_concat]

theorem hashDelInBkt_ok (hs : Sound h tbl members) (hnd : members.Nodup)
    (hx : h.read a = some e) (ha : a ∈ members) :
    ∃ h' tbl', hashDelInBkt tbl (hashToBkt e.hh.hashv tbl.numBuckets) a h = .ok (tbl', h') ∧
      Relinked bucketOrder h h' ∧ Sound h' tbl' (members.erase a) ∧
      tbl'.numItems = tbl.numItems ∧ tbl'.tail = tbl.tail ∧ (Regular tbl → Regular tbl') ∧
      ∀ n, Within n tbl → Within n tbl' := by
  obtain ⟨hsize, chain, hc⟩ := hs
  set bkt := hashToBkt e.hh.hashv tbl.buckets.length with hbkt
  have hi : bkt < tbl.buckets.length := by
    rw [hbkt, hsize]
    exact hashToBkt_lt ..
  have hb : tbl.buckets[bkt]? = some tbl.buckets[bkt] := List.getElem?_eq_getElem hi
  obtain ⟨h', hrun, ht, hc'⟩ := hc.remove hnd hx ha hbkt.symm hb
  refine ⟨h', { tbl with buckets := tbl.buckets.set bkt { tbl.buckets[bkt] with
      count := tbl.buckets[bkt].count - 1
      hhHead := if tbl.buckets[bkt].hhHead = some a then e.hh.hhNext
        else tbl.buckets[bkt].hhHead } }, ?_, ht.relinked,
    ⟨(List.length_set ..).trans hsize, _, hc'⟩, rfl, rfl, fun hr => ⟨hr.bounded, hr.stopped⟩,
    fun _ hw => hw.set hb rfl⟩
  rw [Table.numBuckets, ← hbkt, hashDelInBkt, bind_of_ok (bucketAt_ok hb h),
    bind_of_ok (load_ok hx), bind_of_ok hrun]
  rfl

theorem hashDelete_ok (hh : Holds K hash h head items) (ha : a ∈ items) :
    ∃ h' head', hashDelete head a h = .ok (head', h') ∧ Preserved h h' ∧
      Holds K hash h' head' (items.erase a) := by
  obtain ⟨e, hx⟩ := hh.live ha
  obtain ⟨front, back, rfl⟩ := List.append_of_mem ha
  cases head with
  | none =>
    rw [show front ++ a :: back = [] from hh] at ha
    cases ha
  | some p =>
    obtain ⟨first, tbl⟩ := p
    obtain ⟨y, hy, hprev, hnext⟩ := hh.linked.neighbours
    rw [hx] at hy
    cases hy
    change e.hh.prev = front.getLast? at hprev
    change e.hh.next = back.head? at hnext
    rw [erase_split hh.nodup]
    by_cases hlone : e.hh.prev = none ∧ e.hh.next = none
    · refine ⟨h, none, ?_, ⟨rfl, fun _ => rfl⟩, ?_⟩
      · rw [hashDelete, bind_of_ok (load_ok hx)]
        simp only [if_pos hlone]
        rfl
      · rw [hprev, hnext, List.getLast?_eq_none_iff, List.head?_eq_none_iff] at hlone
        rw [hlone.1, hlone.2]
        rfl
    · obtain ⟨h₁, hrun₁, ht₁, hl₁⟩ := bypass_linked hh.linked hh.nodup
      have hr₁ := ht₁.relinked
      obtain ⟨e₁, hx₁, -⟩ := hr₁.read hx
      obtain ⟨e₀, hx₀, -, -, hv₁⟩ := (Preserved.of_app hr₁).read hx₁
      rw [hx] at hx₀
      cases hx₀
      have hs₁ : Sound h₁ { tbl with tail := if tbl.tail = some a then e.hh.prev else tbl.tail }
          (front ++ a :: back) := ⟨hh.sound.size, (hh.sound.relinked_app hr₁).chained⟩
      obtain ⟨h₂, tbl₂, hrun₂, hr₂, hs₂, hcount₂, htail₂, hreg₂, hw₂⟩ :=
        hashDelInBkt_ok hs₁ hh.nodup hx₁ ha
      have hw : Within h.fresh tbl := hh.within
      have hwithin := hw₂ h.fresh ⟨hw.log2, hw.ideal, hw.nonideal, hw.multipliers⟩
      rw [hv₁] at hrun₂
      rw [← hprev, ← hnext] at hrun₁
      have hp := (Preserved.of_app hr₁).trans (Preserved.of_bucket hr₂)
      refine ⟨h₂, some (if e.hh.prev = none then e.hh.next.getD first else first,
        { tbl₂ with numItems := tbl₂.numItems - 1 }), ?_, hp, ?_, ?_, ?_, ?_, ?_, ?_, ?_, ?_, ?_⟩
      · rw [hashDelete, bind_of_ok (load_ok hx)]
        simp only [if_neg hlone]
        rw [bind_of_ok hrun₁, bind_of_ok hrun₂]
        rfl
      · rw [hprev, hnext] at hlone ⊢
        exact head_after hh.first hlone
      · rw [← tail_after hh.nodup, ← show tbl.tail = _ from hh.tail, ← hprev]
        exact htail₂
      · exact hl₁.relinked hr₂ (fun _ => rfl) fun _ => rfl
      · rw [← erase_split hh.nodup]
        exact hh.nodup.erase a
      · change tbl₂.numItems - 1 = _
        rw [hcount₂, show tbl.numItems = _ from hh.numItems]
        simp
      · rw [erase_split hh.nodup] at hs₂
        exact ⟨hs₂.size, hs₂.chained⟩
      · have hreg := hreg₂ ⟨hh.regular.bounded, hh.regular.stopped⟩
        exact ⟨hreg.bounded, hreg.stopped⟩
      · rw [hp.fresh]
        exact ⟨hwithin.log2, hwithin.ideal, hwithin.nonideal, hwithin.multipliers⟩
      · refine hp.keyed ?_
        intro b hb e' he'
        refine Valid.keyed hh b ?_ e' he'
        simp only [List.mem_append, List.mem_cons] at hb ⊢
        tauto

end Delete

section Check

theorem checkLinks_ok {L : Links (Element α)} {l : List Addr} :
    ∀ (count : ℕ) {prev next last : Option Addr} {fuel : ℕ},
      Segment L h prev next l last none → l.length < fuel →
      checkLinks L fuel next prev count h = .ok (some (count + l.length), h) := by
  induction l with
  | nil =>
    intro count prev next last fuel hs hf
    obtain ⟨fuel, rfl⟩ : ∃ n, fuel = n + 1 := ⟨fuel - 1, by simp at hf; omega⟩
    obtain ⟨-, rfl⟩ := hs
    rfl
  | cons a l ih =>
    intro count prev next last fuel hs hf
    obtain ⟨fuel, rfl⟩ : ∃ n, fuel = n + 1 := ⟨fuel - 1, by simp at hf; omega⟩
    obtain ⟨rfl, e, he, hprev, hs⟩ := hs
    rw [checkLinks, bind_of_ok (load_ok he), if_pos hprev, ih _ hs (by simp at hf; omega),
      List.length_cons, Nat.add_assoc, Nat.add_comm 1]

theorem checkBuckets_ok {old : List (Bucket × List Addr)} :
    ∀ (count : ℕ), (∀ p ∈ old, p.1.hhHead = p.2.head? ∧ p.1.count = p.2.length ∧
        Linked bucketOrder h p.2 ∧ p.2.Nodup) →
      checkBuckets (old.map Prod.fst) count h =
        .ok (.ok (count + (old.flatMap Prod.snd).length), h) := by
  induction old with
  | nil => exact fun _ _ => rfl
  | cons p old ih =>
    intro count hold
    obtain ⟨hhead, hcount, hl, hnd⟩ := hold p List.mem_cons_self
    have hcheck := checkLinks_ok 0 hl (Nat.lt_succ_of_le (hl.length_le hnd))
    rw [Nat.zero_add] at hcheck
    rw [List.map_cons, checkBuckets, bind_of_ok (rounds_ok h), hhead, bind_of_ok hcheck]
    simp only [if_pos hcount]
    rw [ih _ fun q hq => hold q (List.mem_cons_of_mem p hq), List.flatMap_cons, List.length_append,
      Nat.add_assoc]

theorem hashFsck_ok (hh : Holds K hash h head items) : hashFsck head h = .ok (none, h) := by
  cases head with
  | none => rfl
  | some p =>
    obtain ⟨first, tbl⟩ := p
    obtain ⟨hsize, chain, hc⟩ := hh.sound
    have hold : ∀ p ∈ allChains tbl.buckets chain, p.1.hhHead = p.2.head? ∧
        p.1.count = p.2.length ∧ Linked bucketOrder h p.2 ∧ p.2.Nodup := by
      intro p hp
      obtain ⟨i, hb, hpi⟩ := mem_allChains.mp hp
      obtain ⟨hi, -⟩ := List.getElem?_eq_some_iff.mp hb
      rw [hpi]
      exact ⟨hc.head i p.1 hb, hc.count i p.1 hb, hc.linked i hi, hc.nodup i hi⟩
    have hperm : ((allChains tbl.buckets chain).flatMap Prod.snd).Perm items :=
      (List.perm_ext_iff_of_nodup hc.chains_nodup hh.nodup).mpr
        fun a => hc.mem_chains hsize fun b hb => hh.live hb
    have hbuckets := checkBuckets_ok 0 hold
    rw [map_fst_allChains, Nat.zero_add, hperm.length_eq] at hbuckets
    have hlist := checkLinks_ok 0 hh.linked
      (Nat.lt_succ_of_le (Linked.length_le hh.linked hh.nodup))
    rw [Nat.zero_add, show items.head? = some first from hh.first] at hlist
    have hcount : tbl.numItems = items.length := hh.numItems
    rw [hashFsck, bind_of_ok hbuckets]
    simp only [hcount, ne_eq, not_true_eq_false, if_false]
    rw [bind_of_ok (rounds_ok h), bind_of_ok hlist]
    simp only [if_true]
    rfl

end Check

section Range

/-- What is computed with the fields of the table stays in the range of an `unsigned`. -/
structure Table.InRange (tbl : Table) : Prop where
  numBuckets : tbl.numBuckets < 2 ^ 32
  numItems : tbl.numItems < 2 ^ 32
  idealChainMaxlen : tbl.idealChainMaxlen < 2 ^ 32
  nonidealItems : tbl.nonidealItems < 2 ^ 32
  counts : ∀ b ∈ tbl.buckets, b.count < 2 ^ 32
  thresholds : ∀ b ∈ tbl.buckets, (b.expandMult + 1) * 10 < 2 ^ 32 ∧
    b.expandMult * tbl.idealChainMaxlen < 2 ^ 32

theorem Holds.inRange (hh : Holds K hash h head items) (hfew : h.fresh < 2 ^ 28) :
    ∀ first tbl, head = some (first, tbl) → tbl.InRange := by
  rintro first tbl rfl
  have hw : Within h.fresh tbl := hh.within
  have hlen := Linked.length_le hh.linked hh.nodup
  have hideal := hw.ideal
  have hnonideal := hw.nonideal
  refine ⟨?_, ?_, by omega, by omega, fun b hb => ?_, fun b hb => ?_⟩
  · rw [Table.numBuckets, hh.sound.size]
    exact Nat.pow_lt_pow_right Nat.one_lt_two (Nat.lt_succ_of_le hw.log2)
  · rw [show tbl.numItems = items.length from hh.numItems]
    omega
  · obtain ⟨chain, hc⟩ := hh.sound.chained
    have hcount := hc.count_le hb
    omega
  · obtain ⟨hmult, hprod⟩ := hw.multipliers b hb
    omega

end Range

section Items

/-- The memory as a caller sees it who does not know of the handles. -/
def itemsOf (h : Heap (Element α)) : Heap α := ⟨h.blocks.map (Option.map Element.item)⟩

@[simp] theorem read_itemsOf (h : Heap (Element α)) (a : Addr) :
    (itemsOf h).read a = (h.read a).map Element.item := by
  cases hb : h.blocks[a]? <;> simp [itemsOf, Heap.read, hb]

@[simp] theorem fresh_itemsOf (h : Heap (Element α)) : (itemsOf h).fresh = h.fresh := by
  simp [itemsOf, Heap.fresh]

theorem itemsOf_alloc (h : Heap (Element α)) (e : Element α) :
    itemsOf (h.alloc e) = (itemsOf h).alloc e.item := by
  simp [itemsOf, Heap.alloc]

theorem itemsOf_write (h : Heap (Element α)) (a : Addr) (e : Element α) :
    itemsOf (h.write a e) = (itemsOf h).write a e.item := by
  simp [itemsOf, Heap.write, List.map_set]

theorem itemsOf_release (h : Heap (Element α)) (a : Addr) :
    itemsOf (h.release a) = (itemsOf h).release a := by
  simp [itemsOf, Heap.release, List.map_set]

theorem itemsOf_eq (hf : h'.fresh = h.fresh)
    (hr : ∀ a, (h'.read a).map Element.item = (h.read a).map Element.item) :
    itemsOf h' = itemsOf h :=
  Heap.ext_read (by simpa using hf) (by simpa using hr)

theorem Preserved.itemsOf_eq (hp : Preserved h h') : itemsOf h' = itemsOf h :=
  Uthash.itemsOf_eq hp.fresh hp.item

end Items

section Denied

variable {β γ : Type}

/-- The first program gives up, or it does what the second one does. -/
def GivesUpOr (p q : Program (Element α) (Option β)) : Prop :=
  ∀ h, (∃ h', p h = .ok (none, h')) ∨ p h = q h

theorem GivesUpOr.refl (p : Program (Element α) (Option β)) : GivesUpOr p p :=
  fun _ => .inr rfl

theorem GivesUpOr.after (m : Program (Element α) γ) {p q : γ → Program (Element α) (Option β)}
    (hpq : ∀ c, GivesUpOr (p c) (q c)) : GivesUpOr (m >>= p) (m >>= q) := by
  intro h
  cases hm : m h with
  | error f =>
    right
    rw [bind_of_error hm, bind_of_error hm]
  | ok r =>
    rw [bind_of_ok hm, bind_of_ok hm]
    exact hpq r.1 r.2

/-- What comes after a program that may give up. -/
theorem GivesUpOr.followed {p q : Program (Element α) (Option γ)} (hpq : GivesUpOr p q)
    {f f' : Option γ → Program (Element α) (Option β)} (hnone : f none = pure none)
    (hf : ∀ c, GivesUpOr (f c) (f' c)) : GivesUpOr (p >>= f) (q >>= f') := by
  intro h
  rcases hpq h with ⟨h', hp⟩ | hp
  · left
    refine ⟨h', ?_⟩
    rw [bind_of_ok hp, hnone]
    rfl
  · cases hq : q h with
    | error e =>
      right
      rw [bind_of_error hq, bind_of_error (hp.trans hq)]
    | ok r =>
      rw [bind_of_ok hq, bind_of_ok (hp.trans hq)]
      exact hf r.1 r.2

theorem hashAddToBkt_denied (tbl : Table) (bkt : ℕ) (a : Addr) :
    GivesUpOr (hashAddToBkt false tbl bkt a : Program (Element α) _)
      (hashAddToBkt true tbl bkt a) := by
  refine .after _ fun b => .after _ fun _ => ?_
  simp only []
  split
  · exact fun h => .inl ⟨h, rfl⟩
  · exact .refl _

theorem hashEnterList_denied (head : HashTable) (a : Addr) :
    GivesUpOr (hashEnterList false head a : Program (Element α) _)
      (hashEnterList true head a) := by
  cases head with
  | none => exact .after _ fun _ => .after _ fun _ h => .inl ⟨h, rfl⟩
  | some p => exact .refl _

theorem hashAdd_denied (K : KeyField α) (hash : List Byte → UInt32) (head : HashTable)
    (a : Addr) : GivesUpOr (hashAdd K hash false head a) (hashAdd K hash true head a) := by
  refine .after _ fun e => .after _ fun _ => .after _ fun _ => ?_
  refine (hashEnterList_denied head a).followed rfl ?_
  rintro (_ | ⟨first, tbl⟩)
  · exact .refl _
  · exact (hashAddToBkt_denied _ _ a).followed rfl fun _ => .refl _

end Denied

end Uthash
