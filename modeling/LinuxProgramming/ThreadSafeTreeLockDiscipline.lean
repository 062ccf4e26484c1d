import LinuxProgramming.ThreadSafeTreeDelete

/-! Which calls of `add` and `delete` give every mutex back. An `add` whose `calloc` fails
returns with the mutex of the last node held, and a `delete` of an inner node never unlocks
the parent. The next call that comes by blocks for ever. -/
namespace ThreadSafeTreeLockDiscipline

open BlockMemory CharStrings SearchGraph ThreadSafeTree ThreadSafeTreeInvariant
open ThreadSafeTreeSequential ThreadSafeTreeDelete

variable {V : Type}

/-- One call on the root, with what `calloc` returns and what the uninitialized locals of
`delete` happen to hold. -/
inductive Operation (V : Type) where
  | add (callocOk : Bool) (c : Call V)
  | delete (key : CString) (parent self : Option Addr)

def perform : Operation V → TreeProgram V Int
  | .add callocOk c => ThreadSafeTree.add callocOk (some rootAddr) (some c.key) c.value
  | .delete key parent self => ThreadSafeTree.delete (some rootAddr) (some key) parent self

def performAll : List (Operation V) → TreeProgram V Unit
  | [] => return ()
  | op :: ops => do
    let _ ← perform op
    performAll ops

/-- `delete` is only called for keys below the root. -/
def Permitted (h : Heap (Node V)) : Operation V → Prop
  | .add _ _ => True
  | .delete key _ _ => ∃ s, s ≠ rootAddr ∧ Reach (graph h) rootAddr s ∧ (graph h).key s = some key

def ReturnsUnlocked (h : Heap (Node V)) (op : Operation V) : Prop :=
  ∃ r h', perform op h = .ok (r, h') ∧ Unlocked h'

def Disciplined : Heap (Node V) → List (Operation V) → Prop
  | _, [] => True
  | h, op :: ops => ∃ r h', perform op h = .ok (r, h') ∧ Unlocked h' ∧ Disciplined h' ops

/-- `add` gets its memory or needs none; `delete` meets a leaf. -/
def Balanced (h : Heap (Node V)) : Operation V → Prop
  | .add callocOk c =>
    callocOk = true ∨ (∃ v, Stored h c.key v) ∨ (graph h).key rootAddr = none
  | .delete key _ _ => ∃ s, (graph h).key s = some key ∧ ∀ e, (graph h).child s e = none

/-- `delete` must not cut off a part of the tree either. -/
def CarefulCall (h : Heap (Node V)) : Operation V → Prop
  | .add callocOk c => Balanced h (.add callocOk c)
  | .delete key _ _ => SameSideLeaf h key

def Careful : Heap (Node V) → List (Operation V) → Prop
  | _, [] => True
  | h, op :: ops => CarefulCall h op ∧ ∀ r h', perform op h = .ok (r, h') → Careful h' ops

section Add

variable {h : Heap (Node V)} {a : Addr} {n : Node V}

/-- Induction on the fuel, down the search path: either no frame needs memory, or the last
one returns with its mutex held and the others pass that on. -/
theorem addFrom_failed (hs : Settled h) (c : Call V) :
    ∀ (fuel a : ℕ) (n : Node V), h.read a = some n → Leads (graph h) c.key rootAddr a →
      h.fresh < a + fuel → ∃ r h',
        addFrom false fuel (some a) (some c.key) c.value h = .ok (r, h') ∧
        ((((∃ w, Holds h c.key w) ∨ (graph h).key rootAddr = none) ∧ AddOutcome h c h') ∨
          ((∀ w, ¬ Holds h c.key w) ∧ ∃ b nb, h.read b = some nb ∧
            Leads (graph h) c.key rootAddr b ∧ nb.key ≠ none ∧
            h' = h.write b { nb with nodeMutex := true })) := by
  intro fuel
  induction fuel with
  | zero => intro a n hr _ hl; have := Heap.lt_fresh hr; omega
  | succ fuel ih =>
    intro a n hr hp hl
    rcases addSection_branches false hr (hs.unlocked a n hr) c.key c.value with
      ⟨hk, he⟩ | ⟨hk, he⟩ | ⟨d, x, b, hk, hside, hb, he⟩ | ⟨d, x, hk, hside, hb, he⟩
    · have hroot : rootAddr = a := (hs.filled a n hr hk).symm
      refine ⟨0, _, by rw [addFrom, bind_of_ok he]; rfl, Or.inl ⟨Or.inr ?_, ?_⟩⟩
      · rw [hroot, graph_key hr, hk]
      · exact hs.filled_outcome hr hk hp
    · have hstored : ∃ w, Holds h c.key w := ⟨n.value, a, n, hr, hk, rfl⟩
      refine ⟨-1, h, by rw [addFrom, bind_of_ok he]; rfl, Or.inl ⟨Or.inl hstored, ?_⟩⟩
      exact Or.inl ⟨hstored, rfl⟩
    · have hlink := (graph_child hr d).trans hb
      obtain ⟨m, hm⟩ := hs.tree.child_live a d b hlink
      have hab := hs.tree.child_later a d b hlink
      obtain ⟨r, h', hrun, hout⟩ := ih b m hm
        (hp.tail ⟨d, x, (graph_key hr).trans hk, hside, hlink⟩) (by omega)
      refine ⟨0, h', ?_, hout⟩
      rw [addFrom, bind_of_ok he]
      change (load (some a) >>= _) h = _
      rw [bind_of_ok (load_ok hr), hb, bind_of_ok hrun]
      rfl
    · refine ⟨-1, _, by rw [addFrom, bind_of_ok (he.trans (addBelow_failed hr hb))]; rfl, ?_⟩
      refine Or.inr ⟨not_holds_of_missing hs.tree hp hr hk hside hb, a, n, hr, hp, ?_, rfl⟩
      rw [hk]
      simp

theorem stored_iff (hs : Settled h) (k : CString) :
    (∃ v, Stored h k v) ↔ ∃ v, Holds h k v :=
  exists_congr (stored_iff_holds hs.tree k)

theorem balanced_add (hs : Settled h) {callocOk : Bool} {c : Call V}
    (hb : Balanced h (.add callocOk c)) :
    ∃ r h', perform (.add callocOk c) h = .ok (r, h') ∧ Settled h' := by
  cases callocOk with
  | true =>
    obtain ⟨n, h', _, hrun, hout⟩ := add_outcome hs c
    exact ⟨_, h', hrun, hout.settled hs⟩
  | false =>
    obtain ⟨n, hn⟩ := hs.tree.root_live
    obtain ⟨r, h', hrun, ⟨_, hout⟩ | ⟨hno, b, nb, hr, hp, hkey, _⟩⟩ :=
      addFrom_failed hs c (h.fresh + 2) rootAddr n hn Relation.ReflTransGen.refl (by omega)
    · exact ⟨r, h', hrun, hout.settled hs⟩
    · rcases hb with hok | hstored | hempty
      · cases hok
      · obtain ⟨v, hv⟩ := (stored_iff hs c.key).mp hstored
        exact absurd hv (hno v)
      · -- an empty root is where every search ends
        have hroot := leads_from_empty hp hempty
        rw [← hroot, graph_key hr] at hempty
        exact absurd hempty hkey

theorem add_returnsUnlocked_iff (hs : Settled h) (callocOk : Bool) (c : Call V) :
    ReturnsUnlocked h (.add callocOk c) ↔ Balanced h (.add callocOk c) := by
  constructor
  · rintro ⟨r, h', hrun, hu⟩
    cases callocOk with
    | true => exact Or.inl rfl
    | false =>
      obtain ⟨n, hn⟩ := hs.tree.root_live
      obtain ⟨r', h'', hrun', ⟨hin, _⟩ | ⟨_, b, nb, hr, _, _, rfl⟩⟩ :=
        addFrom_failed hs c (h.fresh + 2) rootAddr n hn Relation.ReflTransGen.refl (by omega)
      · exact Or.inr (hin.imp_left (stored_iff hs c.key).mpr)
      · cases hrun.symm.trans hrun'
        cases hu b _ (Heap.read_write_self hr _)
  · intro hb
    obtain ⟨r, h', hrun, hs'⟩ := balanced_add hs hb
    exact ⟨r, h', hrun, hs'.unlocked⟩

end Add

section Delete

variable {h : Heap (Node V)} {s : Addr} {k : CString} {parent self : Option Addr}

theorem unlocked_unlinked {h' : Heap (Node V)} {p : Addr} {np : Node V} {d : Dir} (hu : Unlocked h)
    (hp : h.read p = some np) (hread : ∀ b, h'.read b = if b = p then some (np.setChild d none)
      else if b = s then none else h.read b) : Unlocked h' := by
  intro b m hm
  rw [hread] at hm
  split at hm
  · cases hm
    rw [mutex_setChild]
    exact hu p np hp
  · split at hm
    · cases hm
    · exact hu b m hm

theorem leaf_returnsUnlocked (hs : Settled h) (hbelow : s ≠ rootAddr)
    (hk : (graph h).key s = some k) (leaf : ∀ e, (graph h).child s e = none) :
    ReturnsUnlocked h (.delete k parent self) := by
  rcases getParent_found hs.tree hk parent with ⟨hroot, _⟩ | ⟨p, d, _, hl, hp⟩
  · exact absurd hroot.symm hbelow
  · obtain ⟨ns, hn, _⟩ := live_of_key hk
    obtain ⟨np, hnp, _⟩ := live_of_child hl
    obtain ⟨r, hr, _⟩ := root_key hs.tree hl hk
    obtain ⟨h', hrun, hread⟩ := deleteFound_leaf (k := k) hs hr hnp hn
      ((childless_iff hn).mp leaf) (parent_ne hs.tree hl)
    exact ⟨0, h', (delete_eq hs.tree hk self hp).trans hrun,
      unlocked_unlinked hs.unlocked hnp hread⟩

theorem inner_keeps_lock {h' : Heap (Node V)} {r : Int} (hs : Settled h) (hbelow : s ≠ rootAddr)
    (hk : (graph h).key s = some k) (inner : ¬ ∀ e, (graph h).child s e = none)
    (hrun : perform (.delete k parent self) h = .ok (r, h')) : ¬ Unlocked h' := by
  rcases getParent_found hs.tree hk parent with ⟨hroot, _⟩ | ⟨p, d, _, hl, hp⟩
  · exact absurd hroot.symm hbelow
  · obtain ⟨ns, hn, _⟩ := live_of_key hk
    have hrun' := (delete_eq hs.tree hk self hp).symm.trans hrun
    obtain ⟨q, nq, m, nm, c, e, hq, hnq, _, hlink, hcm, hread⟩ :=
      deleteFound_inner hs hn (fun leaf => inner ((childless_iff hn).mpr leaf)) hrun'
    cases hq
    -- the parent is neither the node nor anything below it
    have hps := hs.tree.child_later p d s hl
    have hsc := hs.tree.child_later s e c hlink
    have hcm' : c ≤ m := reach_rank_le id hs.tree.child_later hcm
    have hpm : p < m := hps.trans (hsc.trans_le hcm')
    have hlocked : h'.read p = some { nq with nodeMutex := true } := by
      rw [hread, if_neg hps.ne, if_neg hpm.ne, Heap.read_write_self hnq]
    intro hu
    cases hu p _ hlocked

theorem delete_returnsUnlocked_iff (hs : Settled h) (hp : Permitted h (.delete k parent self)) :
    ReturnsUnlocked h (.delete k parent self) ↔ Balanced h (.delete k parent self) := by
  obtain ⟨s, hbelow, _, hk⟩ := hp
  constructor
  · rintro ⟨r, h', hrun, hu⟩
    refine ⟨s, hk, ?_⟩
    by_contra inner
    exact inner_keeps_lock hs hbelow hk inner hrun hu
  · rintro ⟨t, ht, leaf⟩
    cases hs.tree.shape.stored_once hk ht
    exact leaf_returnsUnlocked hs hbelow hk leaf

theorem careful_delete (hs : Settled h) (hleaf : SameSideLeaf h k) :
    ∃ r h', perform (.delete k parent self) h = .ok (r, h') ∧ Settled h' := by
  obtain ⟨h', p, s, d, np, hrun, hl, hk, childless, hnp, hread⟩ :=
    delete_sameSideLeaf hs hleaf parent self
  refine ⟨0, h', hrun, unlinked_invariant hs.tree hl childless hnp hread,
    unlocked_unlinked hs.unlocked hnp hread, ?_⟩
  intro b m hm hkey
  rw [hread] at hm
  split at hm
  · next hb =>
    cases hm
    rw [key_setChild] at hkey
    exact hs.filled b np (hb ▸ hnp) hkey
  · split at hm
    · cases hm
    · exact hs.filled b m hm hkey

end Delete

theorem returnsUnlocked_iff {h : Heap (Node V)} (hs : Settled h) {op : Operation V}
    (hp : Permitted h op) : ReturnsUnlocked h op ↔ Balanced h op := by
  cases op with
  | add callocOk c => exact add_returnsUnlocked_iff hs callocOk c
  | delete key parent self => exact delete_returnsUnlocked_iff hs hp

theorem careful_call {h : Heap (Node V)} (hs : Settled h) {op : Operation V}
    (hc : CarefulCall h op) : ∃ r h', perform op h = .ok (r, h') ∧ Settled h' := by
  cases op with
  | add callocOk c => exact balanced_add hs hc
  | delete key parent self => exact careful_delete hs hc

theorem careful_run (ops : List (Operation V)) {h : Heap (Node V)} (hs : Settled h)
    (hc : Careful h ops) :
    Disciplined h ops ∧ ∃ h', performAll ops h = .ok ((), h') ∧ Settled h' := by
  induction ops generalizing h with
  | nil => exact ⟨trivial, h, rfl, hs⟩
  | cons op ops ih =>
    obtain ⟨hcall, hrest⟩ := hc
    obtain ⟨r, h₁, hrun, hs₁⟩ := careful_call hs hcall
    obtain ⟨hd, h', hall, hs'⟩ := ih hs₁ (hrest r h₁ hrun)
    refine ⟨⟨r, h₁, hrun, hs₁.unlocked, hd⟩, h', ?_, hs'⟩
    rw [performAll, bind_of_ok hrun, hall]

/-- A history of careful calls keeps the discipline, and after it the next call gives all
mutexes back exactly when `add` gets the memory it needs or `delete` meets a leaf. -/
theorem careful_calls_release (ops : List (Operation V)) (hc : Careful rooted ops) :
    Disciplined rooted ops ∧ ∃ h, performAll ops rooted = .ok ((), h) ∧
      ∀ op, Permitted h op → (ReturnsUnlocked h op ↔ Balanced h op) := by
  obtain ⟨hd, h, hrun, hs⟩ := careful_run ops rooted_settled hc
  exact ⟨hd, h, hrun, fun _ => returnsUnlocked_iff hs⟩

section Runs

/-- The last key is stored already, so it does not matter that memory has run out. -/
def carefulCalls : List (Operation ℕ) :=
  [.add true ⟨keyM, some 1⟩, .add true ⟨keyF, some 2⟩, .delete keyF none none,
    .add false ⟨keyM, some 3⟩]

theorem carefulCalls_release : Disciplined (rooted : Heap (Node ℕ)) carefulCalls := by
  refine (careful_calls_release carefulCalls ?_).1
  refine ⟨Or.inl rfl, ?_⟩
  intro r h₁ hrun₁
  cases hrun₁
  refine ⟨Or.inl rfl, ?_⟩
  intro r h₂ hrun₂
  cases hrun₂
  refine ⟨⟨rootAddr, 1, .left, keyM, rfl, rfl, ?_, rfl, strcmp_pos_iff.mp (by decide)⟩, ?_⟩
  · intro e
    cases e <;> rfl
  intro r h₃ hrun₃
  cases hrun₃
  refine ⟨Or.inr (Or.inl ⟨some 1, rootAddr, _, Relation.ReflTransGen.refl, rfl, rfl, rfl⟩), ?_⟩
  intro r h₄ _
  trivial

/-- Two ways to a dead end: memory runs out below the root, and an inner node is deleted.
Both leave the root locked, and the next call blocks on it. -/
theorem forgotten_unlocks_block :
    (∃ h : Heap (Node ℕ), performAll [.add true ⟨keyM, some 1⟩, .add false ⟨keyF, some 2⟩] rooted =
        .ok ((), h) ∧ (h.read rootAddr).map Node.nodeMutex = some true ∧
      perform (.add true ⟨keyH, some 3⟩) h = .error .deadlock) ∧
    (∃ h h' : Heap (Node ℕ), performAll [.add true ⟨keyM, some 1⟩, .add true ⟨keyH, some 2⟩,
        .add true ⟨keyF, some 3⟩] rooted = .ok ((), h) ∧ Permitted h (.delete keyH none none) ∧
      perform (.delete keyH none none) h = .ok (0, h') ∧
      (h'.read rootAddr).map Node.nodeMutex = some true ∧
      perform (.add true ⟨keyF, some 3⟩) h' = .error .deadlock) := by
  refine ⟨⟨_, rfl, rfl, rfl⟩, _, _, rfl, ⟨1, by decide, ?_, rfl⟩, rfl, rfl, rfl⟩
  exact Relation.ReflTransGen.single ⟨.left, rfl⟩

end Runs

end ThreadSafeTreeLockDiscipline
