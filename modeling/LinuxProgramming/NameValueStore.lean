import LinuxProgramming.NameValueServer

/-! The table of the name-value server as a map from keys to values with owners. The map is
stated on its own; `handle_refines` says that every request does to the table what it does
to the map. -/
namespace NameValueStore

open BlockMemory CharStrings LinkedTable NameValueServer

structure Entry where
  value : CString
  owner : Pid
  deriving DecidableEq

abbrev Store := CString → Option Entry

namespace Store

def empty : Store := fun _ => none

def upsert (m : Store) (key value : CString) (pid : Pid) : Store :=
  match m key with
  | none => Function.update m key (some ⟨value, pid⟩)
  | some e => if e.owner = pid then Function.update m key (some ⟨value, e.owner⟩) else m

def delete (m : Store) (key : CString) (pid : Pid) : Store :=
  match m key with
  | none => m
  | some e => if e.owner = pid then Function.update m key none else m

end Store

def IsUpsert (r : Scanned) : Prop := r.n = 4 ∧ (r.action = 99 ∨ r.action = 117)

def IsDelete (r : Scanned) : Prop := 3 ≤ r.n ∧ r.n ≠ 4 ∧ r.action = 100

def IsRead (r : Scanned) : Prop := 3 ≤ r.n ∧ r.n ≠ 4 ∧ r.action = 114

instance (r : Scanned) : Decidable (IsUpsert r) :=
  inferInstanceAs (Decidable (r.n = 4 ∧ (r.action = 99 ∨ r.action = 117)))

instance (r : Scanned) : Decidable (IsDelete r) :=
  inferInstanceAs (Decidable (3 ≤ r.n ∧ r.n ≠ 4 ∧ r.action = 100))

instance (r : Scanned) : Decidable (IsRead r) :=
  inferInstanceAs (Decidable (3 ≤ r.n ∧ r.n ≠ 4 ∧ r.action = 114))

def Store.step (m : Store) (r : Scanned) : Store :=
  if IsUpsert r then m.upsert r.key r.value r.creatorPid
  else if IsDelete r then m.delete r.key r.creatorPid
  else m

def Store.reply (m : Store) (r : Scanned) : Option CString :=
  if IsRead r then some ((m r.key).elim keyNotFound Entry.value) else none

def Store.run (m : Store) (requests : List Scanned) : Store := requests.foldl Store.step m

/-- The arrays can hold the key and the value, and `malloc` succeeds. -/
structure Served (a : Arrival) : Prop where
  key_short : a.request.key.bytes.length < 64
  value_short : a.request.value.bytes.length < 256
  memory : a.memory ≠ none

instance (a : Arrival) : Decidable (Served a) :=
  decidable_of_iff (a.request.key.bytes.length < 64 ∧ a.request.value.bytes.length < 256 ∧
      a.memory.isSome)
    ⟨fun h => ⟨h.1, h.2.1, Option.isSome_iff_ne_none.mp h.2.2⟩,
      fun h => ⟨h.key_short, h.value_short, Option.isSome_iff_ne_none.mpr h.memory⟩⟩

def pack (key : CString) (e : Entry) : KeyValue :=
  ⟨strncpy 64 key, strncpy 256 e.value, e.owner⟩

structure Refines (s : Server) (m : Store) : Prop where
  table : Represents KeyValue.name s.heap s.hashTable (fun k => (m k).map (pack k))
  short : ∀ k e, m k = some e → k.bytes.length < 64 ∧ e.value.bytes.length < 256

theorem start_refines : Refines .start Store.empty := by
  refine ⟨represents_empty _, ?_⟩
  intro k e he
  cases he

theorem name_pack {key : CString} (hk : key.bytes.length < 64) (e : Entry) :
    (pack key e).name = key := strncpy_text hk

theorem map_update (m : Store) (key : CString) (e : Option Entry) :
    (fun k => (Function.update m key e k).map (pack k)) =
      Function.update (fun k => (m k).map (pack k)) key (e.map (pack key)) := by
  funext k
  by_cases hk : k = key
  · subst hk
    simp
  · simp [hk]

section Step

variable {s : Server} {m : Store} (table : Uthash)

theorem find_absent (hr : Refines s m) {key : CString}
    (hf : table.find s.heap s.hashTable key = none) : m key = none := by
  have hnone := hr.table.find_none table hf
  simpa using hnone

theorem find_present (hr : Refines s m) {key : CString} {kv : Addr}
    (hf : table.find s.heap s.hashTable key = some kv) :
    ∃ e, m key = some e ∧ kv ∈ s.hashTable ∧ s.heap.read kv = some (pack key e) := by
  obtain ⟨x, hmem, hread, _, hx⟩ := hr.table.find_some table hf
  obtain ⟨e, he, hpack⟩ := Option.map_eq_some_iff.mp hx
  exact ⟨e, he, hmem, by rw [hread, hpack]⟩

theorem upsertValue_refines (hr : Refines s m) {key value : CString}
    (hk : key.bytes.length < 64) (hv : value.bytes.length < 256) (junk : KeyValue) (pid : Pid) :
    ∃ r h, upsertValue table (some junk) s.hashTable key value pid s.heap = .ok (r, h) ∧
      r.reply = none ∧ Refines ⟨h, r.hashTable⟩ (m.upsert key value pid) := by
  have short : ∀ o k e, Function.update m key (some ⟨value, o⟩) k = some e →
      k.bytes.length < 64 ∧ e.value.bytes.length < 256 := by
    intro o k e he
    by_cases hkk : k = key
    · subst hkk
      rw [Function.update_self] at he
      cases he
      exact ⟨hk, hv⟩
    · rw [Function.update_of_ne hkk] at he
      exact hr.short k e he
  cases hf : table.find s.heap s.hashTable key with
  | none =>
    have hm := find_absent table hr hf
    refine ⟨_, _, upsertValue_missing hf hk junk value pid, rfl, ?_⟩
    simp only [Store.upsert, hm]
    refine ⟨?_, short pid⟩
    rw [map_update]
    have hadd := hr.table.add (pack key ⟨value, pid⟩) (by rw [name_pack hk, hm]; rfl)
    rw [name_pack hk] at hadd
    exact hadd
  | some kv =>
    obtain ⟨e, he, hmem, hread⟩ := find_present table hr hf
    rw [upsertValue_found hf hread]
    simp only [Store.upsert, he]
    by_cases ho : e.owner = pid
    · rw [if_pos (show (pack key e).creatorPid = pid from ho), if_pos ho]
      refine ⟨_, _, rfl, rfl, ?_, short e.owner⟩
      rw [map_update]
      have hname : (pack key ⟨value, e.owner⟩).name = (pack key e).name := by
        rw [name_pack hk, name_pack hk]
      have hupd := hr.table.update hmem hread hname
      rw [name_pack hk] at hupd
      exact hupd
    · rw [if_neg (show (pack key e).creatorPid ≠ pid from ho), if_neg ho]
      exact ⟨_, _, rfl, rfl, hr⟩

theorem deleteKeyValue_refines (hr : Refines s m) {key : CString} (hk : key.bytes.length < 64)
    (pid : Pid) : ∃ r h, deleteKeyValue table s.hashTable key pid s.heap = .ok (r, h) ∧
      r.reply = none ∧ Refines ⟨h, r.hashTable⟩ (m.delete key pid) := by
  cases hf : table.find s.heap s.hashTable key with
  | none =>
    refine ⟨_, _, deleteKeyValue_missing hf pid, rfl, ?_⟩
    simp only [Store.delete, find_absent table hr hf]
    exact hr
  | some kv =>
    obtain ⟨e, he, hmem, hread⟩ := find_present table hr hf
    rw [deleteKeyValue_found hf hread]
    simp only [Store.delete, he]
    by_cases ho : e.owner = pid
    · rw [if_pos (show (pack key e).creatorPid = pid from ho), if_pos ho]
      have hrem := hr.table.remove hmem hread
      rw [name_pack hk] at hrem
      refine ⟨_, _, rfl, rfl, by rw [map_update]; exact hrem, ?_⟩
      intro k x hx
      by_cases hkk : k = key
      · rw [hkk, Function.update_self] at hx
        cases hx
      · rw [Function.update_of_ne hkk] at hx
        exact hr.short k x hx
    · rw [if_neg (show (pack key e).creatorPid ≠ pid from ho), if_neg ho]
      exact ⟨_, _, rfl, rfl, hr⟩

theorem getValue_result (hr : Refines s m) (key : CString) :
    getValue table s.hashTable key s.heap =
      .ok ((m key).map fun e => strncpy 256 e.value, s.heap) := by
  cases hf : table.find s.heap s.hashTable key with
  | none => rw [getValue_missing hf, find_absent table hr hf]; rfl
  | some kv =>
    obtain ⟨e, he, _, hread⟩ := find_present table hr hf
    rw [getValue_found hf hread, he]
    rfl

theorem getValue_reply (hr : Refines s m) (memory : Option KeyValue) (key : CString) :
    perform table memory s.hashTable (.getValue key) s.heap =
      .ok (⟨s.hashTable, some ((m key).elim keyNotFound Entry.value), none⟩, s.heap) := by
  rw [perform, bind_of_ok (getValue_result table hr key)]
  cases he : m key with
  | none => rfl
  | some e =>
    have hshort := (hr.short key e he).2
    simp only [Option.map_some, Option.elim_some]
    rw [if_pos (strncpy_terminated_iff.mpr hshort), strncpy_text hshort]
    rfl

/-- Every request does to the table what it does to the map, and answers from the map. -/
theorem handle_refines (hr : Refines s m) {a : Arrival} (ha : Served a) :
    ∃ s' r, handle table s a = .ok (s', r) ∧ Refines s' (m.step a.request) ∧
      r.reply = m.reply a.request := by
  obtain ⟨q, memory⟩ := a
  obtain ⟨junk, rfl⟩ := Option.ne_none_iff_exists'.mp ha.memory
  have of_perform : ∀ r h,
      perform table (some junk) s.hashTable (selectCall q) s.heap = .ok (r, h) →
      handle table s ⟨q, some junk⟩ = .ok (⟨h, r.hashTable⟩, r) := by
    intro r h hp
    rw [handle, hp]
  have unchanged : ∀ d, perform table (some junk) s.hashTable (selectCall q) s.heap =
        .ok (⟨s.hashTable, none, some d⟩, s.heap) → ¬ IsUpsert q → ¬ IsDelete q → ¬ IsRead q →
      ∃ s' r, handle table s ⟨q, some junk⟩ = .ok (s', r) ∧ Refines s' (m.step q) ∧
        r.reply = m.reply q := by
    intro d hp hu hd hq
    refine ⟨s, _, of_perform _ _ hp, ?_, ?_⟩
    · rw [Store.step, if_neg hu, if_neg hd]
      exact hr
    · rw [Store.reply, if_neg hq]
  by_cases hn : q.n < 3
  · refine unchanged .invalidFormat ?_ ?_ ?_ ?_
    · rw [selectCall, if_pos hn]
      rfl
    · intro hu
      have := hu.1
      omega
    · intro hd
      exact absurd hd.1 (not_le.mpr hn)
    · intro hq
      exact absurd hq.1 (not_le.mpr hn)
  · by_cases h4 : q.n = 4
    · by_cases hact : q.action = 99 ∨ q.action = 117
      · obtain ⟨r, h, hrun, hreply, href⟩ :=
          upsertValue_refines table hr ha.key_short ha.value_short junk q.creatorPid
        have hcall : selectCall q = .upsertValue q.key q.value q.creatorPid := by
          rw [selectCall, if_neg hn, if_pos h4, if_pos hact]
        refine ⟨_, r, of_perform r h (by rw [hcall]; exact hrun), ?_, ?_⟩
        · rw [Store.step, if_pos ⟨h4, hact⟩]
          exact href
        · rw [Store.reply, if_neg (fun hq => hq.2.1 h4)]
          exact hreply
      · refine unchanged .unknownAction ?_ (fun hu => hact hu.2) (fun hd => hd.2.1 h4)
          (fun hq => hq.2.1 h4)
        rw [selectCall, if_neg hn, if_pos h4, if_neg hact]
        rfl
    · have hge : 3 ≤ q.n := not_lt.mp hn
      have hu : ¬ IsUpsert q := fun hu => h4 hu.1
      by_cases hread : q.action = 114
      · have hcall : selectCall q = .getValue q.key := by
          rw [selectCall, if_neg hn, if_neg h4, if_pos hread]
        have hd : ¬ IsDelete q := by
          intro hd
          have hact := hd.2.2
          rw [hread] at hact
          revert hact
          decide
        refine ⟨s, _, of_perform _ _ (by rw [hcall]; exact getValue_reply table hr _ q.key), ?_, ?_⟩
        · rw [Store.step, if_neg hu, if_neg hd]
          exact hr
        · rw [Store.reply, if_pos ⟨hge, h4, hread⟩]
      · by_cases hdel : q.action = 100
        · obtain ⟨r, h, hrun, hreply, href⟩ :=
            deleteKeyValue_refines table hr ha.key_short q.creatorPid
          have hcall : selectCall q = .deleteKeyValue q.key q.creatorPid := by
            rw [selectCall, if_neg hn, if_neg h4, if_neg hread, if_pos hdel]
          refine ⟨_, r, of_perform r h (by rw [hcall]; exact hrun), ?_, ?_⟩
          · rw [Store.step, if_neg hu, if_pos ⟨hge, h4, hdel⟩]
            exact href
          · rw [Store.reply, if_neg (fun hq => hread hq.2.2)]
            exact hreply
        · refine unchanged .unknownAction ?_ hu (fun hd => hdel hd.2.2) (fun hq => hread hq.2.2)
          rw [selectCall, if_neg hn, if_neg h4, if_neg hread, if_neg hdel]
          rfl

theorem run_refines (hr : Refines s m) {arrivals : List Arrival}
    (hs : ∀ a ∈ arrivals, Served a) : ∃ s', run table s arrivals = .ok s' ∧
      Refines s' (m.run (arrivals.map Arrival.request)) := by
  induction arrivals generalizing s m with
  | nil => exact ⟨s, rfl, hr⟩
  | cons a as ih =>
    obtain ⟨s₁, r, hstep, hr₁, _⟩ := handle_refines table hr (hs a (List.mem_cons_self ..))
    obtain ⟨s', hrun, hr'⟩ := ih hr₁ (fun b hb => hs b (List.mem_cons_of_mem a hb))
    refine ⟨s', ?_, hr'⟩
    rw [run, hstep]
    exact hrun

end Step

def entry (s : Server) (key : CString) : Option KeyValue :=
  ((firstMatch KeyValue.name).find s.heap s.hashTable key).bind s.heap.read

/-- The map that the table stands for. -/
def contents (s : Server) : Store := fun key =>
  (entry s key).map fun x => ⟨x.value.text, x.creatorPid⟩

theorem entry_eq {s : Server} {m : Store} (hr : Refines s m) (key : CString) :
    entry s key = (m key).map (pack key) := by
  unfold entry
  cases hf : (firstMatch KeyValue.name).find s.heap s.hashTable key with
  | none =>
    rw [find_absent _ hr hf]
    rfl
  | some kv =>
    obtain ⟨e, he, _, hread⟩ := find_present _ hr hf
    rw [he]
    exact hread

theorem contents_eq {s : Server} {m : Store} (hr : Refines s m) : contents s = m := by
  funext key
  unfold contents
  rw [entry_eq hr]
  cases he : m key with
  | none => rfl
  | some e =>
    have hv := strncpy_text (hr.short key e he).2
    simp only [Option.map_some, pack, hv]

/-- What one request may do to the map. -/
structure Obeys (m : Store) (r : Scanned) (m' : Store) : Prop where
  created : IsUpsert r → m r.key = none → m' r.key = some ⟨r.value, r.creatorPid⟩
  updated : IsUpsert r → ∀ e, m r.key = some e →
    m' r.key = some ⟨if r.creatorPid = e.owner then r.value else e.value, e.owner⟩
  deleted : IsDelete r → ∀ e, m r.key = some e →
    m' r.key = if r.creatorPid = e.owner then none else some e
  missing : IsDelete r → m r.key = none → m' r.key = none
  read : IsRead r → m' = m
  ignored : ¬ IsUpsert r → ¬ IsDelete r → m' = m
  others : ∀ k, k ≠ r.key → m' k = m k

theorem not_upsert_of_delete {r : Scanned} (hd : IsDelete r) : ¬ IsUpsert r :=
  fun hu => hd.2.1 hu.1

theorem Store.step_upsert {r : Scanned} (hu : IsUpsert r) (m : Store) :
    m.step r = m.upsert r.key r.value r.creatorPid := if_pos hu

theorem Store.step_delete {r : Scanned} (hd : IsDelete r) (m : Store) :
    m.step r = m.delete r.key r.creatorPid := by
  rw [Store.step, if_neg (not_upsert_of_delete hd), if_pos hd]

theorem Store.step_ignored {r : Scanned} (hu : ¬ IsUpsert r) (hd : ¬ IsDelete r) (m : Store) :
    m.step r = m := by rw [Store.step, if_neg hu, if_neg hd]

theorem Store.upsert_other {k key value : CString} (hk : k ≠ key) (m : Store) (pid : Pid) :
    m.upsert key value pid k = m k := by
  unfold Store.upsert
  cases m key with
  | none => exact Function.update_of_ne hk ..
  | some e =>
    by_cases ho : e.owner = pid
    · simp only [if_pos ho]
      exact Function.update_of_ne hk ..
    · simp only [if_neg ho]

theorem Store.delete_other {k key : CString} (hk : k ≠ key) (m : Store) (pid : Pid) :
    m.delete key pid k = m k := by
  unfold Store.delete
  cases m key with
  | none => rfl
  | some e =>
    by_cases ho : e.owner = pid
    · simp only [if_pos ho]
      exact Function.update_of_ne hk ..
    · simp only [if_neg ho]

theorem Store.upsert_present {m : Store} {key : CString} {e : Entry} (he : m key = some e)
    (value : CString) (pid : Pid) : m.upsert key value pid key =
      some ⟨if pid = e.owner then value else e.value, e.owner⟩ := by
  unfold Store.upsert
  rw [he]
  by_cases ho : e.owner = pid
  · simp [ho]
  · simp only [if_neg ho, if_neg (Ne.symm ho)]
    exact he

theorem Store.step_other {r : Scanned} {k : CString} (hk : k ≠ r.key) (m : Store) :
    m.step r k = m k := by
  by_cases hu : IsUpsert r
  · rw [Store.step_upsert hu, Store.upsert_other hk]
  · by_cases hd : IsDelete r
    · rw [Store.step_delete hd, Store.delete_other hk]
    · rw [Store.step_ignored hu hd]

theorem step_obeys (m : Store) (r : Scanned) : Obeys m r (m.step r) := by
  refine ⟨?_, ?_, ?_, ?_, ?_, fun hu hd => Store.step_ignored hu hd m,
    fun k hk => Store.step_other hk m⟩
  · intro hu hm
    rw [Store.step_upsert hu, Store.upsert, hm]
    exact Function.update_self ..
  · intro hu e he
    rw [Store.step_upsert hu, Store.upsert_present he]
  · intro hd e he
    rw [Store.step_delete hd, Store.delete, he]
    by_cases ho : e.owner = r.creatorPid
    · simp [ho]
    · simp only [if_neg ho, if_neg (Ne.symm ho)]
      exact he
  · intro hd hm
    rw [Store.step_delete hd, Store.delete, hm]
    exact hm
  · intro hq
    apply Store.step_ignored
    · intro hu
      exact hq.2.1 hu.1
    · intro hd
      have hact := hd.2.2
      rw [hq.2.2] at hact
      revert hact
      decide

/-- After any requests the table stands for the map those requests make, every later request
acts on it as on the map, and `get_value` reads the map. -/
theorem table_refines_store (table : Uthash) (arrivals : List Arrival)
    (hs : ∀ a ∈ arrivals, Served a) : ∃ s, run table .start arrivals = .ok s ∧
    contents s = Store.empty.run (arrivals.map Arrival.request) ∧
    -- live entries, at most one for a key
    (∀ kv ∈ s.hashTable, ∃ x, s.heap.read kv = some x) ∧
    (s.hashTable.map (keyAt KeyValue.name s.heap)).Nodup ∧
    (∀ key, ∃ val, getValue table s.hashTable key s.heap = .ok (val, s.heap) ∧
      val.map CharArray.text = (contents s key).map Entry.value) ∧
    (∀ a, Served a → ∃ s' r, handle table s a = .ok (s', r) ∧
      Obeys (contents s) a.request (contents s')) := by
  obtain ⟨s, hrun, hr⟩ := run_refines table start_refines hs
  refine ⟨s, hrun, contents_eq hr, hr.table.live, hr.table.distinct, ?_, ?_⟩
  · intro key
    refine ⟨_, getValue_result table hr key, ?_⟩
    rw [contents_eq hr]
    cases he : Store.empty.run (arrivals.map Arrival.request) key with
    | none => rfl
    | some e => simp only [Option.map_some, strncpy_text (hr.short key e he).2]
  · intro a ha
    obtain ⟨s', r, hstep, hr', _⟩ := handle_refines table hr ha
    refine ⟨s', r, hstep, ?_⟩
    rw [contents_eq hr, contents_eq hr']
    exact step_obeys _ a.request

def nameA : CString := stringOf (ascii "a")

/-- Client 1 creates the name; client 2 tries to change and to delete it. -/
def contested : List Arrival :=
  [⟨⟨4, 99, 1, nameA, stringOf (ascii "one")⟩, some (pack nameA ⟨nameA, 0⟩)⟩,
    ⟨⟨4, 117, 2, nameA, stringOf (ascii "two")⟩, some (pack nameA ⟨nameA, 0⟩)⟩,
    ⟨⟨3, 100, 2, nameA, stringOf (ascii "")⟩, some (pack nameA ⟨nameA, 0⟩)⟩]

theorem contested_refines : ∃ s, run (firstMatch KeyValue.name) .start contested = .ok s ∧
    contents s nameA = some ⟨stringOf (ascii "one"), 1⟩ := by
  obtain ⟨s, hrun, hcontents, _⟩ :=
    table_refines_store (firstMatch KeyValue.name) contested (by decide)
  refine ⟨s, hrun, ?_⟩
  rw [hcontents]
  rfl

/-- A create or update of the key by its owner. -/
def OwnUpsert (p : Pid) (k : CString) (r : Scanned) : Prop :=
  IsUpsert r ∧ r.key = k ∧ r.creatorPid = p

def OwnDelete (p : Pid) (k : CString) (r : Scanned) : Prop :=
  IsDelete r ∧ r.key = k ∧ r.creatorPid = p

instance (p : Pid) (k : CString) (r : Scanned) : Decidable (OwnUpsert p k r) :=
  inferInstanceAs (Decidable (IsUpsert r ∧ r.key = k ∧ r.creatorPid = p))

instance (p : Pid) (k : CString) (r : Scanned) : Decidable (OwnDelete p k r) :=
  inferInstanceAs (Decidable (IsDelete r ∧ r.key = k ∧ r.creatorPid = p))

section Ownership

variable {p : Pid} {k : CString} {r : Scanned} {m : Store} {e : Entry}

theorem own_upsert_step (hm : m k = some e) (ho : e.owner = p) (hown : OwnUpsert p k r) :
    m.step r k = some ⟨r.value, p⟩ := by
  obtain ⟨hu, rfl, rfl⟩ := hown
  rw [(step_obeys m r).updated hu e hm, ho, if_pos rfl]

theorem foreign_step (hm : m k = some e) (ho : e.owner = p) (hu : ¬ OwnUpsert p k r)
    (hd : ¬ OwnDelete p k r) : m.step r k = some e := by
  have obeys := step_obeys m r
  by_cases hk : k = r.key
  · subst hk
    have foreign : IsUpsert r ∨ IsDelete r → r.creatorPid ≠ e.owner := by
      intro hreq hp
      rcases hreq with hreq | hreq
      · exact hu ⟨hreq, rfl, hp.trans ho⟩
      · exact hd ⟨hreq, rfl, hp.trans ho⟩
    by_cases hup : IsUpsert r
    · rw [obeys.updated hup e hm, if_neg (foreign (Or.inl hup))]
    · by_cases hdel : IsDelete r
      · rw [obeys.deleted hdel e hm, if_neg (foreign (Or.inr hdel))]
      · rw [obeys.ignored hup hdel, hm]
  · rw [obeys.others k hk, hm]

end Ownership

/-- Two runs side by side: all requests, and only the owner's own updates of the key. The
two maps may differ elsewhere, so the induction is over both of them. -/
theorem own_updates_decide {p : Pid} {k : CString} : ∀ (rs : List Scanned) (m₁ m₂ : Store)
    (e : Entry), m₁ k = some e → m₂ k = some e → e.owner = p →
    (∀ r ∈ rs, ¬ OwnDelete p k r) → ∃ e', e'.owner = p ∧ m₁.run rs k = some e' ∧
      m₂.run (rs.filter fun r => OwnUpsert p k r) k = some e' := by
  intro rs
  induction rs with
  | nil => intro m₁ m₂ e h₁ h₂ ho _; exact ⟨e, ho, h₁, h₂⟩
  | cons r rs ih =>
    intro m₁ m₂ e h₁ h₂ ho hkeep
    have hrest : ∀ q ∈ rs, ¬ OwnDelete p k q := fun q hq => hkeep q (List.mem_cons_of_mem r hq)
    by_cases hown : OwnUpsert p k r
    · obtain ⟨e', he', hr₁, hr₂⟩ := ih (m₁.step r) (m₂.step r) ⟨r.value, p⟩
        (own_upsert_step h₁ ho hown) (own_upsert_step h₂ ho hown) rfl hrest
      refine ⟨e', he', hr₁, ?_⟩
      rw [List.filter_cons_of_pos (by simpa using hown)]
      exact hr₂
    · have hsame := foreign_step h₁ ho hown (hkeep r (List.mem_cons_self ..))
      obtain ⟨e', he', hr₁, hr₂⟩ := ih (m₁.step r) m₂ e hsame h₂ ho hrest
      refine ⟨e', he', hr₁, ?_⟩
      rw [List.filter_cons_of_neg (by simpa using hown)]
      exact hr₂

/-- From any table that the server can have: the entry of a key after any requests is the
one that its owner's own updates leave, as long as the owner does not delete it. -/
theorem nonowners_do_not_interfere (table : Uthash) (before after : List Arrival)
    (hb : ∀ a ∈ before, Served a) (ha : ∀ a ∈ after, Served a) (s : Server)
    (hrun : run table .start before = .ok s) (k : CString) (x : KeyValue)
    (hx : entry s k = some x)
    (hkeep : ∀ a ∈ after, ¬ OwnDelete x.creatorPid k a.request) :
    ∃ s₁ s₂ y, run table s after = .ok s₁ ∧
      run table s (after.filter fun a => OwnUpsert x.creatorPid k a.request) = .ok s₂ ∧
      entry s₁ k = some y ∧ entry s₂ k = some y ∧ y.creatorPid = x.creatorPid := by
  obtain ⟨s', hrun', hr⟩ := run_refines table start_refines hb
  cases hrun.symm.trans hrun'
  rw [entry_eq hr] at hx
  obtain ⟨e, he, hpack⟩ := Option.map_eq_some_iff.mp hx
  have ho : e.owner = x.creatorPid := congrArg KeyValue.creatorPid hpack
  have hfilter : ∀ a ∈ after.filter (fun a => OwnUpsert x.creatorPid k a.request), Served a :=
    fun a h => ha a (List.mem_of_mem_filter h)
  obtain ⟨s₁, hrun₁, hr₁⟩ := run_refines table hr ha
  obtain ⟨s₂, hrun₂, hr₂⟩ := run_refines table hr hfilter
  have hrequests : ∀ r ∈ after.map Arrival.request, ¬ OwnDelete x.creatorPid k r := by
    intro r hmem
    obtain ⟨a, hin, rfl⟩ := List.mem_map.mp hmem
    exact hkeep a hin
  obtain ⟨e', ho', h₁, h₂⟩ := own_updates_decide _ _ _ e he he ho hrequests
  rw [List.filter_map] at h₂
  refine ⟨s₁, s₂, pack k e', hrun₁, hrun₂, ?_, ?_, ho'⟩
  · rw [entry_eq hr₁, h₁]
    rfl
  · rw [entry_eq hr₂]
    exact congrArg (Option.map (pack k)) h₂

theorem contested_entry_kept : ∃ s x,
    run (firstMatch KeyValue.name) .start (contested.take 1) = .ok s ∧
    entry s nameA = some x ∧ ∃ s₁ s₂ y,
      run (firstMatch KeyValue.name) s (contested.drop 1) = .ok s₁ ∧
      run (firstMatch KeyValue.name) s ((contested.drop 1).filter fun a =>
        OwnUpsert x.creatorPid nameA a.request) = .ok s₂ ∧
      entry s₁ nameA = some y ∧ entry s₂ nameA = some y ∧ y.creatorPid = x.creatorPid := by
  obtain ⟨s, hrun, hr⟩ := run_refines (firstMatch KeyValue.name) start_refines
    (show ∀ a ∈ contested.take 1, Served a by decide)
  have hx : entry s nameA = some (pack nameA ⟨stringOf (ascii "one"), 1⟩) := by
    rw [entry_eq hr]
    rfl
  exact ⟨s, _, hrun, hx, nonowners_do_not_interfere _ (contested.take 1) (contested.drop 1)
    (by decide) (by decide) s hrun nameA _ hx (by decide)⟩

end NameValueStore
