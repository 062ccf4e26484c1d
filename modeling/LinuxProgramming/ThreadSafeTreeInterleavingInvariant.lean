import LinuxProgramming.ThreadSafeTreeInterleaving

/-! What holds between any two memory accesses. An `add` knows where it stands on the search
path of its key, which nobody can take away, and it claims that a field it is about to set is
still empty, which only the mutex of the node protects; for a child that is being set up the
protection is that no other `add` can have a way to it yet. -/
namespace ThreadSafeTreeInterleavingInvariant

open BlockMemory CharStrings SearchGraph TransitionSystems ThreadSafeTree
open ThreadSafeTreeInvariant ThreadSafeTreeInterleaving

variable {ι V : Type}

def heldBy : AddPc → Option Addr
  | .lock _ _ => none
  | .testKey a _ => some a
  | .storeKey a => some a
  | .storeValue a => some a
  | .unlockFilled a => some a
  | .compare a _ => some a
  | .testChild a _ => some a
  | .makeChild a _ => some a
  | .setUp a _ _ _ => some a
  | .unlockDescend a _ => some a
  | .descend _ _ => none
  | .unlockDuplicate a _ => some a

def held : Activity V → Option Addr
  | .adding _ pc => heldBy pc
  | _ => none

def settingUp : Activity V → Option Addr
  | .adding _ (.setUp _ _ b _) => some b
  | _ => none

def target (g : LinkGraph Addr CString) : Activity V → Option Addr
  | .adding _ (.lock a _) => some a
  | .adding _ (.descend a d) => g.child a d
  | x => held x

/-- The search for `k` comes to `a` and goes on to side `d`. -/
def Ahead (g : LinkGraph Addr CString) (k : CString) (a : Addr) (d : Dir) : Prop :=
  Leads g k rootAddr a ∧ ∃ x, g.key a = some x ∧ Side d x k

def AddOnPath (g : LinkGraph Addr CString) (k : CString) : AddPc → Prop
  | .lock a _ => Leads g k rootAddr a
  | .testKey a _ => Leads g k rootAddr a
  | .storeKey a => Leads g k rootAddr a
  | .storeValue a => g.key a = some k
  | .unlockFilled a => g.key a = some k
  | .compare a _ => Leads g k rootAddr a ∧ ∃ x, g.key a = some x
  | .testChild a d => Ahead g k a d
  | .makeChild a d => Ahead g k a d
  | .setUp a d b _ => Ahead g k a d ∧ g.child a d = some b
  | .unlockDescend a d => Ahead g k a d ∧ ∃ b, g.child a d = some b
  | .descend a d => Ahead g k a d ∧ ∃ b, g.child a d = some b
  | .unlockDuplicate a _ => g.key a = some k

def LookupOnPath (g : LinkGraph Addr CString) (k : CString) : LookupPc → Prop
  | .readKey none => True
  | .readKey (some a) => Leads g k rootAddr a
  | .compareKey a => Leads g k rootAddr a ∧ ∃ x, g.key a = some x
  | .follow a d => Ahead g k a d

def OnPath (g : LinkGraph Addr CString) : Activity V → Prop
  | .idle => True
  | .adding c pc => AddOnPath g c.key pc
  | .lookingUp k pc => LookupOnPath g k pc

def Claims (g : LinkGraph Addr CString) : Activity V → Prop
  | .adding _ (.storeKey a) => g.key a = none
  | .adding _ (.makeChild a d) => g.child a d = none
  | .adding _ (.setUp _ _ b _) => g.key b = none
  | _ => True

section Paths

variable {g g' : LinkGraph Addr CString} {k : CString}

theorem Ahead.grows {a : Addr} {d : Dir} (h : Ahead g k a d) (hg : Grows g g') :
    Ahead g' k a d := by
  obtain ⟨hl, x, hx, hs⟩ := h
  exact ⟨hg.leads hl, x, hg.key a x hx, hs⟩

theorem OnPath.grows {x : Activity V} (h : OnPath g x) (hg : Grows g g') : OnPath g' x := by
  cases x with
  | idle => trivial
  | adding c pc =>
    cases pc with
    | lock a | testKey a | storeKey a => exact hg.leads h
    | storeValue a | unlockFilled a | unlockDuplicate a => exact hg.key a _ h
    | compare a => exact ⟨hg.leads h.1, h.2.imp fun x => hg.key a x⟩
    | testChild a d | makeChild a d => exact Ahead.grows h hg
    | setUp a d b => exact ⟨h.1.grows hg, hg.child a d b h.2⟩
    | unlockDescend a d | descend a d => exact ⟨h.1.grows hg, h.2.imp fun b => hg.child a d b⟩
  | lookingUp k pc =>
    cases pc with
    | readKey p =>
      cases p with
      | none => trivial
      | some a => exact hg.leads h
    | compareKey a => exact ⟨hg.leads h.1, h.2.imp fun x => hg.key a x⟩
    | follow a d => exact Ahead.grows h hg

theorem target_of_held {x : Activity V} {a : Addr} (h : held x = some a) :
    target g x = some a := by
  cases x with
  | idle => cases h
  | lookingUp => cases h
  | adding c pc => cases pc <;> first | exact h | cases h

theorem setting_up_child {x : Activity V} {b : Addr} (hx : settingUp x = some b)
    (h : OnPath g x) : ∃ a d, held x = some a ∧ g.child a d = some b := by
  cases x with
  | idle => cases hx
  | lookingUp => cases hx
  | adding c pc =>
    cases pc with
    | setUp a d b' stage =>
      cases hx
      exact ⟨a, d, rfl, h.2⟩
    | _ => cases hx

end Paths

/-- What one access does to the heap: to the fields of the node whose mutex is held, to a
mutex that was free, and to the child being set up. -/
structure HeapChange (h : Heap (Node V)) (x : Activity V) (h' : Heap (Node V)) : Prop where
  tree : TreeInvariant h' rootAddr
  grows : Grows (graph h) (graph h')
  outside : ∀ a, held x ≠ some a →
    (graph h').key a = (graph h).key a ∧ ∀ d, (graph h').child a d = (graph h).child a d
  keyed : ∀ a k, (graph h').key a = some k → (graph h).key a = some k ∨
    ∃ c, x = .adding c (.storeKey a) ∧ c.key = k
  locked : ∀ a n, h.read a = some n → n.nodeMutex = true → held x ≠ some a →
    settingUp x ≠ some a → ∃ n', h'.read a = some n' ∧ n'.nodeMutex = true

section Changes

variable {h : Heap (Node V)} {x : Activity V} {a : Addr} {n m : Node V} {k : CString} {d : Dir}

theorem HeapChange.refl (hi : TreeInvariant h rootAddr) : HeapChange h x h :=
  ⟨hi, .refl _, fun _ _ => ⟨rfl, fun _ => rfl⟩, fun _ _ hk => Or.inl hk,
    fun _ n hn hm _ _ => ⟨n, hn, hm⟩⟩

theorem HeapChange.touch (hi : TreeInvariant h rootAddr) (hr : h.read a = some n)
    (hk : m.key = n.key) (hc : ∀ d, m.child d = n.child d)
    (hown : held x = some a ∨ settingUp x = some a ∨ m.nodeMutex = true) :
    HeapChange h x (h.write a m) := by
  have same := graph_touch hr hk hc
  refine ⟨hi.touch hr hk hc, same ▸ .refl _, ?_, ?_, ?_⟩
  · intro b _
    rw [same]
    exact ⟨rfl, fun _ => rfl⟩
  · intro b y hy
    rw [same] at hy
    exact Or.inl hy
  · intro b y hy hmutex hheld hsetting
    rw [Heap.read_write hr]
    by_cases hb : b = a
    · subst b
      rw [if_pos rfl]
      rcases hown with ho | ho | ho
      · exact absurd ho hheld
      · exact absurd ho hsetting
      · exact ⟨m, rfl, ho⟩
    · rw [if_neg hb]
      exact ⟨y, hy, hmutex⟩

theorem HeapChange.mutex (hi : TreeInvariant h rootAddr) (hr : h.read a = some n) {b : Bool}
    (hown : held x = some a ∨ b = true) : HeapChange h x (h.write a { n with nodeMutex := b }) :=
  .touch hi hr rfl (fun d => by cases d <;> rfl) (hown.imp_right Or.inr)

theorem HeapChange.setKey {c : Call V} (hi : TreeInvariant h rootAddr) (hr : h.read a = some n)
    (hk : n.key = none) (hp : Leads (graph h) c.key rootAddr a) :
    HeapChange h (.adding c (.storeKey a)) (h.write a { n with key := some c.key }) := by
  have hkey := (graph_key hr).trans hk
  have hgraph : graph (h.write a { n with key := some c.key }) = (graph h).setKey a c.key :=
    graph_fill hr c.key n.value
  refine ⟨hi.fill hr hk hp n.value, hgraph ▸ grows_setKey hkey c.key, ?_, ?_, ?_⟩
  · intro b hb
    have hne : b ≠ a := fun hba => hb (by rw [hba]; rfl)
    rw [hgraph]
    exact ⟨Function.update_of_ne hne _ _, fun _ => rfl⟩
  · intro b y hy
    rw [hgraph] at hy
    by_cases hb : b = a
    · subst b
      refine Or.inr ⟨c, rfl, ?_⟩
      simpa [LinkGraph.setKey] using hy
    · exact Or.inl (by simpa [LinkGraph.setKey, hb] using hy)
  · intro b y hy hmutex hheld _
    have hne : b ≠ a := fun hba => hheld (by rw [hba]; rfl)
    rw [Heap.read_write hr, if_neg hne]
    exact ⟨y, hy, hmutex⟩

theorem HeapChange.sprout (hi : TreeInvariant h rootAddr) (hr : h.read a = some n)
    (hk : n.key = some k) (hc : n.child d = none) (hown : held x = some a) :
    HeapChange h x (sprout h a n d) := by
  have hgraph := graph_sprout hr d
  refine ⟨hi.sprout hr hk hc, hgraph ▸ grows_setChild ((graph_child hr d).trans hc) _, ?_, ?_, ?_⟩
  · intro b hb
    have hne : b ≠ a := fun hba => hb (hba ▸ hown)
    rw [hgraph]
    refine ⟨rfl, fun e => ?_⟩
    rw [LinkGraph.setChild_child, if_neg (fun h => hne h.1)]
  · intro b y hy
    rw [hgraph] at hy
    exact Or.inl hy
  · intro b y hy hmutex hheld _
    have hne : b ≠ a := fun hba => hheld (hba ▸ hown)
    rw [read_sprout hr, if_neg hne, if_neg (Heap.ne_fresh hy)]
    exact ⟨y, hy, hmutex⟩

end Changes

/-- Everything one access does, to the heap and to the activity. -/
structure Advance (h : Heap (Node V)) (x : Activity V) (h' : Heap (Node V)) (x' : Activity V) :
    Prop where
  change : HeapChange h x h'
  path : OnPath (graph h') x'
  claims : Claims (graph h') x'
  owned : ∀ a, held x' = some a → ∃ n, h'.read a = some n ∧ n.nodeMutex = true
  taken : ∀ a, held x' = some a → held x = some a ∨ ∃ n, h.read a = some n ∧ n.nodeMutex = false
  targets : ∀ b, target (graph h') x' = some b → target (graph h) x = some b ∨ b = rootAddr ∨
    ∃ a d, held x = some a ∧ (graph h).child a d = some b
  setups : ∀ b, settingUp x' = some b → settingUp x = some b ∨ b = h.fresh

theorem Advance.inside {h h' : Heap (Node V)} {x x' : Activity V} {a : Addr}
    (change : HeapChange h x h') (path : OnPath (graph h') x') (claims : Claims (graph h') x')
    (hx : held x = some a) (hx' : held x' = some a)
    (owned : ∃ n, h'.read a = some n ∧ n.nodeMutex = true)
    (setups : ∀ b, settingUp x' = some b → settingUp x = some b ∨ b = h.fresh) :
    Advance h x h' x' := by
  refine ⟨change, path, claims, ?_, ?_, ?_, setups⟩
  · intro b hb
    cases hx'.symm.trans hb
    exact owned
  · intro b hb
    cases hx'.symm.trans hb
    exact Or.inl hx
  · intro b hb
    cases (target_of_held hx').symm.trans hb
    exact Or.inl (target_of_held hx)

theorem Advance.reading {h : Heap (Node V)} {x x' : Activity V} {a : Addr} {n : Node V}
    (hi : TreeInvariant h rootAddr) (path : OnPath (graph h) x') (claims : Claims (graph h) x')
    (hx : held x = some a) (hx' : held x' = some a) (hsetting : settingUp x' = none)
    (hn : h.read a = some n) (hm : n.nodeMutex = true) : Advance h x h x' := by
  refine .inside (.refl hi) path claims hx hx' ⟨n, hn, hm⟩ ?_
  intro b hb
  cases hsetting.symm.trans hb

theorem Advance.unheld {h h' : Heap (Node V)} {x x' : Activity V}
    (change : HeapChange h x h') (path : OnPath (graph h') x') (hheld : held x' = none)
    (targets : ∀ b, target (graph h') x' = some b → target (graph h) x = some b ∨ b = rootAddr ∨
      ∃ a d, held x = some a ∧ (graph h).child a d = some b)
    (claims : Claims (graph h') x') (hsetting : settingUp x' = none) : Advance h x h' x' := by
  refine ⟨change, path, claims, ?_, ?_, targets, ?_⟩
  · intro b hb
    cases hheld.symm.trans hb
  · intro b hb
    cases hheld.symm.trans hb
  · intro b hb
    cases hsetting.symm.trans hb

theorem Advance.outside {h h' : Heap (Node V)} {x x' : Activity V}
    (change : HeapChange h x h') (path : OnPath (graph h') x') (hheld : held x' = none)
    (htarget : ∀ g, target g x' = none) (claims : Claims (graph h') x')
    (hsetting : settingUp x' = none) : Advance h x h' x' := by
  refine .unheld change path hheld ?_ claims hsetting
  intro b hb
  cases (htarget _).symm.trans hb

def afterAdd (c : Call V) : Next AddPc Int → Activity V
  | .go pc => .adding c pc
  | .ret _ => .idle

def afterLookup (k : CString) : Next LookupPc Bool → Activity V
  | .go pc => .lookingUp k pc
  | .ret _ => .idle

theorem stage_blank {stage : Stage} {n m : Node V} (hs : stage.effect n = some m)
    (hk : n.key = none) (hc : ∀ d, n.child d = none) :
    m.key = n.key ∧ ∀ d, m.child d = n.child d := by
  have hl : n.left = none := hc .left
  have hr : n.right = none := hc .right
  have hblank : m.key = none ∧ m.left = none ∧ m.right = none := by
    cases stage with
    | mutexLock =>
      simp only [Stage.effect] at hs
      split at hs
      · cases hs
      · cases hs
        exact ⟨hk, hl, hr⟩
    | mutexInit | mutexUnlock | value => cases hs; exact ⟨hk, hl, hr⟩
    | key => cases hs; exact ⟨rfl, hl, hr⟩
    | left => cases hs; exact ⟨hk, rfl, hr⟩
    | right => cases hs; exact ⟨hk, hl, rfl⟩
  refine ⟨hblank.1.trans hk.symm, ?_⟩
  intro d
  rw [hc d]
  cases d with
  | left => exact hblank.2.1
  | right => exact hblank.2.2

/-- Everything an access of a `lookup` can do, in terms of the search. -/
inductive LookupMoves (g : LinkGraph Addr CString) (k : CString) :
    LookupPc → Next LookupPc Bool → Prop where
  | null : LookupMoves g k (.readKey none) (.ret false)
  | empty {a} : g.key a = none → LookupMoves g k (.readKey (some a)) (.ret false)
  | key {a x} : g.key a = some x → LookupMoves g k (.readKey (some a)) (.go (.compareKey a))
  | side {a d x} : g.key a = some x → Side d x k →
      LookupMoves g k (.compareKey a) (.go (.follow a d))
  | found {a} : g.key a = some k → LookupMoves g k (.compareKey a) (.ret true)
  | follow (a d) : LookupMoves g k (.follow a d) (.go (.readKey (g.child a d)))

theorem lookup_moves {h : Heap (Node V)} {k : CString} {pc : LookupPc} {r : Next LookupPc Bool}
    (hs : lookupStep k h pc = some r) : LookupMoves (graph h) k pc r := by
  cases pc with
  | readKey p =>
    cases p with
    | none =>
      cases hs
      exact .null
    | some a =>
      obtain ⟨n, hn, hr⟩ := Option.bind_eq_some_iff.mp hs
      cases hr
      cases hk : n.key with
      | none => exact .empty ((graph_key hn).trans hk)
      | some x => exact .key ((graph_key hn).trans hk)
  | compareKey a =>
    obtain ⟨n, hn, hr⟩ := Option.bind_eq_some_iff.mp hs
    obtain ⟨x, hk, hr⟩ := Option.bind_eq_some_iff.mp hr
    have hx := (graph_key hn).trans hk
    simp only [strcmp_pos_iff, strcmp_neg_iff] at hr
    cases hr
    rcases lt_trichotomy k x with hlt | rfl | hgt
    · rw [if_pos hlt]
      exact .side hx hlt
    · rw [if_neg (lt_irrefl k), if_neg (lt_irrefl k)]
      exact .found hx
    · rw [if_neg (lt_asymm hgt), if_pos hgt]
      exact .side hx hgt
  | follow a d =>
    obtain ⟨n, hn, hr⟩ := Option.bind_eq_some_iff.mp hs
    cases hr
    rw [← graph_child hn]
    exact .follow a d

section Accesses

variable {h h' : Heap (Node V)} {c : Call V} {pc : AddPc} {r : Next AddPc Int}

theorem live_at (hi : TreeInvariant h rootAddr) {k : CString} {a : Addr}
    (hl : Leads (graph h) k rootAddr a) : ∃ n, h.read a = some n :=
  hi.live (leads_reach hl)

theorem lock_advance {a : Addr} {nested : Bool} (hi : TreeInvariant h rootAddr)
    (hl : Leads (graph h) c.key rootAddr a)
    (hs : addStep c h (.lock a nested) = some (h', r)) :
    Advance h (.adding c (.lock a nested)) h' (afterAdd c r) := by
  obtain ⟨n, hn⟩ := live_at hi hl
  simp only [addStep, hn, Option.bind_some] at hs
  split at hs
  · cases hs
  · next hfree =>
    obtain ⟨rfl, rfl⟩ := Prod.mk.inj (Option.some.inj hs)
    refine ⟨.mutex hi hn (Or.inr rfl), ?_, trivial, ?_, ?_, fun _ => Or.inl,
      by simp [settingUp, afterAdd]⟩
    · rw [graph_mutex hn]
      exact hl
    · intro b hb
      cases hb
      exact ⟨_, Heap.read_write_self hn _, rfl⟩
    · intro b hb
      cases hb
      exact Or.inr ⟨n, hn, by simpa using hfree⟩

/-- The child is linked blank, and as a fresh address it is nobody's target. -/
theorem makeChild_advance {a : Addr} {d : Dir} (hi : TreeInvariant h rootAddr)
    (hahead : Ahead (graph h) c.key a d) (hnone : (graph h).child a d = none)
    (hlock : ∃ n, h.read a = some n ∧ n.nodeMutex = true)
    (hs : addStep c h (.makeChild a d) = some (h', r)) :
    Advance h (.adding c (.makeChild a d)) h' (afterAdd c r) := by
  obtain ⟨n, hn, hm⟩ := hlock
  obtain ⟨x, hx, _⟩ := hahead.2
  simp only [addStep, hn, Option.bind_some] at hs
  obtain ⟨rfl, rfl⟩ := Prod.mk.inj (Option.some.inj hs)
  change Advance h _ (sprout h a n d) _
  have hchange : HeapChange h (.adding c (.makeChild a d)) (sprout h a n d) :=
    .sprout hi hn ((graph_key hn).symm.trans hx) ((graph_child hn d).symm.trans hnone) rfl
  refine .inside hchange ⟨hahead.grows hchange.grows, ?_⟩ ?_ rfl rfl ?_ ?_
  · rw [graph_sprout hn, LinkGraph.setChild_child, if_pos ⟨rfl, rfl⟩]
  · change (graph (sprout h a n d)).key h.fresh = none
    rw [graph_sprout hn]
    change (graph h).key h.fresh = none
    simp [graph]
  · exact ⟨_, by rw [read_sprout hn, if_pos rfl], by simpa using hm⟩
  · intro b hb
    cases hb
    exact Or.inr rfl

theorem setUp_advance {a b : Addr} {d : Dir} {stage : Stage} (hi : TreeInvariant h rootAddr)
    (hpath : Ahead (graph h) c.key a d ∧ (graph h).child a d = some b)
    (hempty : (graph h).key b = none) (hlock : ∃ n, h.read a = some n ∧ n.nodeMutex = true)
    (hs : addStep c h (.setUp a d b stage) = some (h', r)) :
    Advance h (.adding c (.setUp a d b stage)) h' (afterAdd c r) := by
  obtain ⟨n, hn, hm⟩ := hlock
  obtain ⟨hahead, hchild⟩ := hpath
  obtain ⟨m, hread⟩ := hi.child_live a d b hchild
  simp only [addStep, hread, Option.bind_some] at hs
  obtain ⟨m', heffect, hs⟩ := Option.bind_eq_some_iff.mp hs
  obtain ⟨rfl, rfl⟩ := Prod.mk.inj (Option.some.inj hs)
  have hblank : ∀ e, m.child e = none := fun e =>
    (graph_child hread e).symm.trans (hi.shape.empty_childless b e hempty)
  obtain ⟨hkey, hchildren⟩ := stage_blank heffect ((graph_key hread).symm.trans hempty) hblank
  have hchange : HeapChange h (.adding c (.setUp a d b stage)) (h.write b m') :=
    .touch hi hread hkey hchildren (Or.inr (Or.inl rfl))
  have hsame := graph_touch hread hkey hchildren
  have hne : a ≠ b := Nat.ne_of_lt (hi.child_later a d b hchild)
  have howned : ∃ n, (h.write b m').read a = some n ∧ n.nodeMutex = true := by
    rw [Heap.read_write hread, if_neg hne]
    exact ⟨n, hn, hm⟩
  cases stage.next with
  | some stage' =>
    refine .inside hchange ?_ ?_ rfl rfl howned fun _ => Or.inl
    · rw [hsame]
      exact ⟨hahead, hchild⟩
    · rw [hsame]
      exact hempty
  | none =>
    refine .inside hchange ?_ trivial rfl rfl howned (by simp [settingUp, afterAdd])
    rw [hsame]
    exact ⟨hahead, b, hchild⟩

theorem compare_advance {a : Addr} {nested : Bool} (hi : TreeInvariant h rootAddr)
    (hpath : AddOnPath (graph h) c.key (.compare a nested))
    (hlock : ∃ n, h.read a = some n ∧ n.nodeMutex = true)
    (hs : addStep c h (.compare a nested) = some (h', r)) :
    Advance h (.adding c (.compare a nested)) h' (afterAdd c r) := by
  obtain ⟨n, hn, hm⟩ := hlock
  obtain ⟨hl, x, hx⟩ := hpath
  have hkey : n.key = some x := (graph_key hn).symm.trans hx
  simp only [addStep, hn, hkey, Option.bind_some, strcmp_neg_iff, strcmp_pos_iff] at hs
  obtain ⟨rfl, rfl⟩ := Prod.mk.inj (Option.some.inj hs)
  rcases lt_trichotomy c.key x with hlt | heq | hgt
  · rw [if_pos hlt]
    exact .reading hi ⟨hl, x, hx, hlt⟩ trivial rfl rfl rfl hn hm
  · rw [if_neg (by simp [heq]), if_neg (by simp [heq])]
    exact .reading hi (hx.trans (congrArg some heq.symm)) trivial rfl rfl rfl hn hm
  · rw [if_neg (lt_asymm hgt), if_pos hgt]
    exact .reading hi ⟨hl, x, hx, hgt⟩ trivial rfl rfl rfl hn hm

/-- The child becomes the target while its parent is still locked. -/
theorem unlockDescend_advance {a : Addr} {d : Dir} (hi : TreeInvariant h rootAddr)
    (hpath : AddOnPath (graph h) c.key (.unlockDescend a d))
    (hlock : ∃ n, h.read a = some n ∧ n.nodeMutex = true)
    (hs : addStep c h (.unlockDescend a d) = some (h', r)) :
    Advance h (.adding c (.unlockDescend a d)) h' (afterAdd c r) := by
  obtain ⟨n, hn, _⟩ := hlock
  simp only [addStep, hn, Option.bind_some] at hs
  obtain ⟨rfl, rfl⟩ := Prod.mk.inj (Option.some.inj hs)
  have hsame := graph_mutex hn false
  refine .unheld (.mutex hi hn (Or.inl rfl)) ?_ rfl ?_ trivial rfl
  · rw [hsame]
    exact hpath
  · intro b hb
    rw [hsame] at hb
    exact Or.inr (Or.inr ⟨a, d, rfl, hb⟩)

theorem descend_advance {a : Addr} {d : Dir} (hi : TreeInvariant h rootAddr)
    (hpath : AddOnPath (graph h) c.key (.descend a d))
    (hs : addStep c h (.descend a d) = some (h', r)) :
    Advance h (.adding c (.descend a d)) h' (afterAdd c r) := by
  obtain ⟨⟨hl, x, hx, hside⟩, b, hb⟩ := hpath
  obtain ⟨n, hn, hchild⟩ := live_of_child hb
  simp only [addStep, hn, hchild, Option.bind_some] at hs
  obtain ⟨rfl, rfl⟩ := Prod.mk.inj (Option.some.inj hs)
  refine .unheld (.refl hi) (hl.tail ⟨d, x, hx, hside, hb⟩) rfl ?_ trivial rfl
  intro e he
  cases he
  exact Or.inl hb

/-- One case for each position: a lock or unlock touches the mutex, the two stores need what
the position claims, all other accesses only read. -/
theorem add_advance (hi : TreeInvariant h rootAddr) (hpath : AddOnPath (graph h) c.key pc)
    (hclaims : Claims (graph h) (.adding c pc))
    (hlock : ∀ a, heldBy pc = some a → ∃ n, h.read a = some n ∧ n.nodeMutex = true)
    (hs : addStep c h pc = some (h', r)) : Advance h (.adding c pc) h' (afterAdd c r) := by
  cases pc with
  | lock a nested => exact lock_advance hi hpath hs
  | testKey a nested =>
    obtain ⟨n, hn, hm⟩ := hlock a rfl
    simp only [addStep, hn, Option.bind_some] at hs
    obtain ⟨rfl, rfl⟩ := Prod.mk.inj (Option.some.inj hs)
    by_cases hk : n.key = none
    · rw [if_pos hk]
      exact .reading hi hpath ((graph_key hn).trans hk) rfl rfl rfl hn hm
    · rw [if_neg hk]
      obtain ⟨x, hx⟩ := Option.ne_none_iff_exists'.mp hk
      exact .reading hi ⟨hpath, x, (graph_key hn).trans hx⟩ trivial rfl rfl rfl hn hm
  | storeKey a =>
    obtain ⟨n, hn, hm⟩ := hlock a rfl
    simp only [addStep, hn, Option.bind_some] at hs
    obtain ⟨rfl, rfl⟩ := Prod.mk.inj (Option.some.inj hs)
    have hk : n.key = none := (graph_key hn).symm.trans hclaims
    have hnew := Heap.read_write_self hn { n with key := some c.key }
    exact .inside (.setKey hi hn hk hpath) (graph_key hnew) trivial rfl rfl ⟨_, hnew, hm⟩
      (by simp [settingUp, afterAdd])
  | storeValue a =>
    obtain ⟨n, hn, hm⟩ := hlock a rfl
    simp only [addStep, hn, Option.bind_some] at hs
    obtain ⟨rfl, rfl⟩ := Prod.mk.inj (Option.some.inj hs)
    have hchange :
        HeapChange h (.adding c (.storeValue a)) (h.write a { n with value := c.value }) :=
      .touch hi hn rfl (fun d => by cases d <;> rfl) (Or.inl rfl)
    exact .inside hchange (hchange.grows.key a _ hpath) trivial rfl rfl
      ⟨_, Heap.read_write_self hn _, hm⟩ (by simp [settingUp, afterAdd])
  | unlockFilled a =>
    obtain ⟨n, hn, hm⟩ := hlock a rfl
    simp only [addStep, hn, Option.bind_some] at hs
    obtain ⟨rfl, rfl⟩ := Prod.mk.inj (Option.some.inj hs)
    exact .outside (.mutex hi hn (Or.inl rfl)) trivial rfl (fun _ => rfl) trivial rfl
  | compare a nested => exact compare_advance hi hpath (hlock a rfl) hs
  | testChild a d =>
    obtain ⟨n, hn, hm⟩ := hlock a rfl
    simp only [addStep, hn, Option.bind_some] at hs
    obtain ⟨rfl, rfl⟩ := Prod.mk.inj (Option.some.inj hs)
    by_cases hc : n.child d = none
    · rw [if_pos hc]
      exact .reading hi hpath ((graph_child hn d).trans hc) rfl rfl rfl hn hm
    · rw [if_neg hc]
      obtain ⟨b, hb⟩ := Option.ne_none_iff_exists'.mp hc
      exact .reading hi ⟨hpath, b, (graph_child hn d).trans hb⟩ trivial rfl rfl rfl hn hm
  | makeChild a d => exact makeChild_advance hi hpath hclaims (hlock a rfl) hs
  | setUp a d b stage => exact setUp_advance hi hpath hclaims (hlock a rfl) hs
  | unlockDescend a d => exact unlockDescend_advance hi hpath (hlock a rfl) hs
  | descend a d => exact descend_advance hi hpath hs
  | unlockDuplicate a nested =>
    obtain ⟨n, hn, hm⟩ := hlock a rfl
    simp only [addStep, hn, Option.bind_some] at hs
    obtain ⟨rfl, rfl⟩ := Prod.mk.inj (Option.some.inj hs)
    exact .outside (.mutex hi hn (Or.inl rfl)) trivial rfl (fun _ => rfl) trivial rfl

theorem lookup_advance {k : CString} {pc : LookupPc} {r : Next LookupPc Bool}
    (hi : TreeInvariant h rootAddr) (hpath : LookupOnPath (graph h) k pc)
    (hs : lookupStep k h pc = some r) : Advance h (.lookingUp k pc) h (afterLookup k r) := by
  have hmoves := lookup_moves hs
  cases hmoves with
  | null | empty | found => exact .outside (.refl hi) trivial rfl (fun _ => rfl) trivial rfl
  | key hx => exact .outside (.refl hi) ⟨hpath, _, hx⟩ rfl (fun _ => rfl) trivial rfl
  | side hx hside =>
    exact .outside (.refl hi) ⟨hpath.1, _, hx, hside⟩ rfl (fun _ => rfl) trivial rfl
  | follow a d =>
    refine .outside (.refl hi) ?_ rfl (fun _ => rfl) trivial rfl
    cases hc : (graph h).child a d with
    | none => trivial
    | some b =>
      obtain ⟨hl, x, hx, hside⟩ := hpath
      exact hl.tail ⟨d, x, hx, hside, hc⟩

end Accesses

def Verified (g : LinkGraph Addr CString) : Done V → Prop
  | .add c _ => ∃ a, g.key a = some c.key
  | .lookup k found => found = true → ∃ a, g.key a = some k

theorem Verified.grows {g g' : LinkGraph Addr CString} {d : Done V} (h : Verified g d)
    (hg : Grows g g') : Verified g' d := by
  cases d with
  | add c r => exact h.imp fun a => hg.key a _
  | lookup k found => exact fun hf => (h hf).imp fun a => hg.key a _

theorem add_verified {h h' : Heap (Node V)} {c : Call V} {pc : AddPc} {x : Int}
    (hpath : AddOnPath (graph h) c.key pc) (hs : addStep c h pc = some (h', .ret x)) :
    Verified (graph h) (.add c x) := by
  cases pc with
  | unlockFilled a => exact ⟨a, hpath⟩
  | unlockDuplicate a => exact ⟨a, hpath⟩
  | lock | testKey | storeKey | storeValue | compare | testChild | makeChild | setUp
  | unlockDescend | descend => simp [addStep, Option.bind_eq_some_iff] at hs

theorem lookup_verified {h : Heap (Node V)} {k : CString} {pc : LookupPc} {found : Bool}
    (hs : lookupStep k h pc = some (.ret found)) :
    Verified (graph h) (.lookup k found : Done V) := by
  intro hf
  subst hf
  cases lookup_moves hs with
  | found hk => exact ⟨_, hk⟩

def current : Activity V → List (Op V)
  | .idle => []
  | .adding c _ => [.add c]
  | .lookingUp k _ => [.lookup k]

def opsOf (t : Thread V) : List (Op V) :=
  t.returned.map Done.op ++ current t.activity ++ t.todo

structure Records (h : Heap (Node V)) (t : Thread V) (h' : Heap (Node V)) (t' : Thread V) :
    Prop where
  ops : opsOf t' = opsOf t
  returned : ∃ ds, t'.returned = t.returned ++ ds ∧ ∀ d ∈ ds, Verified (graph h) d
  stored : ∃ xs, t'.stored = t.stored ++ xs ∧ ∀ x ∈ xs, Op.add x.2 ∈ opsOf t
  keyed : ∀ a k, (graph h').key a = some k → (graph h).key a = some k ∨
    ∃ c, (a, c) ∈ t'.stored ∧ c.key = k

section ThreadSteps

variable {h h' : Heap (Node V)} {t t' : Thread V}

theorem threadStep_advance (hi : TreeInvariant h rootAddr) (hpath : OnPath (graph h) t.activity)
    (hclaims : Claims (graph h) t.activity)
    (hlock : ∀ a, held t.activity = some a → ∃ n, h.read a = some n ∧ n.nodeMutex = true)
    (hs : threadStep h t = some (h', t')) : Advance h t.activity h' t'.activity := by
  obtain ⟨todo, activity, returned, stored⟩ := t
  cases activity with
  | idle =>
    cases todo with
    | nil => cases hs
    | cons op rest =>
      cases hs
      cases op with
      | lookup k =>
        exact .outside (.refl hi) Relation.ReflTransGen.refl rfl (fun _ => rfl) trivial rfl
      | add c =>
        refine ⟨.refl hi, Relation.ReflTransGen.refl, trivial, ?_, ?_, ?_, ?_⟩
        · intro a ha
          cases ha
        · intro a ha
          cases ha
        · intro b hb
          cases hb
          exact Or.inr (Or.inl rfl)
        · intro b hb
          cases hb
  | adding c pc =>
    obtain ⟨⟨h₁, r⟩, hr, he⟩ := Option.map_eq_some_iff.mp hs
    obtain ⟨rfl, rfl⟩ := Prod.mk.inj he
    have hadv := add_advance hi hpath hclaims hlock hr
    cases r with
    | go pc' => exact hadv
    | ret x => exact hadv
  | lookingUp k pc =>
    obtain ⟨r, hr, he⟩ := Option.map_eq_some_iff.mp hs
    obtain ⟨rfl, rfl⟩ := Prod.mk.inj he
    have hadv := lookup_advance hi hpath hr
    cases r with
    | go pc' => exact hadv
    | ret found => exact hadv

theorem threadStep_records (hpath : OnPath (graph h) t.activity)
    (hchange : HeapChange h t.activity h') (hs : threadStep h t = some (h', t')) :
    Records h t h' t' := by
  obtain ⟨todo, activity, returned, stored⟩ := t
  have hkeyed := hchange.keyed
  cases activity with
  | idle =>
    cases todo with
    | nil => cases hs
    | cons op rest =>
      cases hs
      refine ⟨?_, ⟨[], by simp⟩, ⟨[], by simp⟩, fun _ _ => Or.inl⟩
      cases op <;> simp [opsOf, current, Op.start]
  | adding c pc =>
    obtain ⟨⟨h₁, r⟩, hr, he⟩ := Option.map_eq_some_iff.mp hs
    obtain ⟨rfl, rfl⟩ := Prod.mk.inj he
    cases r with
    | go pc' =>
      refine ⟨rfl, ⟨[], by simp⟩, ⟨storesOf c pc, rfl, ?_⟩, ?_⟩
      · intro x hx
        have hxc : x.2 = c := by
          cases pc with
          | storeKey a => rw [List.mem_singleton.mp hx]
          | _ => cases hx
        simp [opsOf, current, hxc]
      · intro a k hk
        rcases hkeyed a k hk with hold | ⟨c', hx, hck⟩
        · exact Or.inl hold
        · cases hx
          exact Or.inr ⟨c, by simp [storesOf], hck⟩
    | ret x =>
      refine ⟨by simp [opsOf, current, Done.op], ⟨[.add c x], rfl, ?_⟩, ⟨[], by simp⟩, ?_⟩
      · intro d hd
        rw [List.mem_singleton.mp hd]
        exact add_verified hpath hr
      · intro a k hk
        rcases hkeyed a k hk with hold | ⟨c', hx, _⟩
        · exact Or.inl hold
        · cases hx
          simp [addStep, Option.bind_eq_some_iff] at hr
  | lookingUp k pc =>
    obtain ⟨r, hr, he⟩ := Option.map_eq_some_iff.mp hs
    obtain ⟨rfl, rfl⟩ := Prod.mk.inj he
    cases r with
    | go pc' => exact ⟨rfl, ⟨[], by simp⟩, ⟨[], by simp⟩, fun _ _ => Or.inl⟩
    | ret found =>
      refine ⟨by simp [opsOf, current, Done.op], ⟨[.lookup k found], rfl, ?_⟩, ⟨[], by simp⟩,
        fun _ _ => Or.inl⟩
      intro d hd
      rw [List.mem_singleton.mp hd]
      exact lookup_verified hr

end ThreadSteps

structure Invariant (calls : ι → List (Op V)) (s : State ι V) : Prop where
  tree : TreeInvariant s.heap rootAddr
  path : ∀ i, OnPath (graph s.heap) (s.threads i).activity
  claims : ∀ i, Claims (graph s.heap) (s.threads i).activity
  locked : ∀ i a, held (s.threads i).activity = some a →
    ∃ n, s.heap.read a = some n ∧ n.nodeMutex = true
  exclusive : ∀ i j a, held (s.threads i).activity = some a →
    held (s.threads j).activity = some a → i = j
  secluded : ∀ i j b, settingUp (s.threads i).activity = some b →
    target (graph s.heap) (s.threads j).activity ≠ some b
  history : ∀ i, opsOf (s.threads i) = calls i
  verified : ∀ i, ∀ d ∈ (s.threads i).returned, Verified (graph s.heap) d
  origin : ∀ a k, (graph s.heap).key a = some k → ∃ j c, (a, c) ∈ (s.threads j).stored ∧ c.key = k
  called : ∀ j, ∀ x ∈ (s.threads j).stored, Op.add x.2 ∈ calls j

theorem initial_invariant (calls : ι → List (Op V)) : Invariant calls (initial calls) := by
  refine ⟨rooted_invariant, fun _ => trivial, fun _ => trivial, ?_, ?_, ?_, ?_, ?_, ?_, ?_⟩
  · intro i a ha
    cases ha
  · intro i j a ha
    cases ha
  · intro i j b hb
    cases hb
  · intro i
    simp [initial, opsOf, current]
  · intro i d hd
    cases hd
  · intro a k hk
    obtain ⟨n, hn, hkey⟩ := live_of_key hk
    rw [(read_rooted hn).2] at hkey
    cases hkey
  · intro j x hx
    cases hx

section Exclusion

variable {calls : ι → List (Op V)} {s u : State ι V} {i j k : ι}

theorem target_stable {g g' : LinkGraph Addr CString} {x : Activity V} (hp : OnPath g x)
    (hg : Grows g g') : target g' x = target g x := by
  cases x with
  | idle => rfl
  | lookingUp => rfl
  | adding c pc =>
    cases pc with
    | descend a d =>
      obtain ⟨b, hb⟩ := hp.2
      exact (hg.child a d b hb).trans hb.symm
    | _ => rfl

theorem Invariant.target_live (hs : Invariant calls s) {b : Addr}
    (hb : target (graph s.heap) (s.threads j).activity = some b) : ∃ n, s.heap.read b = some n := by
  have hpath := hs.path j
  have hlock := hs.locked j
  generalize (s.threads j).activity = x at hb hpath hlock
  cases hheld : held x with
  | some a =>
    cases (target_of_held hheld).symm.trans hb
    exact (hlock _ hheld).imp fun n h => h.1
  | none =>
    cases x with
    | idle => cases hb
    | lookingUp => cases hb
    | adding c pc =>
      cases pc with
      | lock a nested => cases hb; exact live_at hs.tree hpath
      | descend a d => exact hs.tree.child_live a d b hb
      | _ => cases hheld

theorem Invariant.untaken (hs : Invariant calls s)
    (adv : Advance s.heap (s.threads i).activity u.heap (u.threads i).activity) (hj : j ≠ i)
    {a : Addr} (ha : held (u.threads i).activity = some a) :
    held (s.threads j).activity ≠ some a := by
  intro hja
  rcases adv.taken a ha with hi | ⟨n, hn, hfree⟩
  · exact hj (hs.exclusive j i a hja hi)
  · obtain ⟨m, hm, hlocked⟩ := hs.locked j a hja
    cases hn.symm.trans hm
    rw [hfree] at hlocked
    cases hlocked

/-- What another thread claims is at a node that the step does not change. -/
theorem Invariant.claims_kept (hs : Invariant calls s)
    (change : HeapChange s.heap (s.threads i).activity u.heap) (hj : j ≠ i) :
    Claims (graph u.heap) (s.threads j).activity := by
  have hheld : ∀ a, held (s.threads j).activity = some a → held (s.threads i).activity ≠ some a :=
    fun a ha hi => hj (hs.exclusive j i a ha hi)
  have hsetting : ∀ b, settingUp (s.threads j).activity = some b →
      held (s.threads i).activity ≠ some b :=
    fun b hb hi => hs.secluded j i b hb (target_of_held hi)
  have hclaims := hs.claims j
  generalize (s.threads j).activity = x at hheld hsetting hclaims
  cases x with
  | idle => trivial
  | lookingUp => trivial
  | adding c pc =>
    cases pc with
    | storeKey a => exact (change.outside a (hheld a rfl)).1.trans hclaims
    | makeChild a d => exact ((change.outside a (hheld a rfl)).2 d).trans hclaims
    | setUp a d b stage => exact (change.outside b (hsetting b rfl)).1.trans hclaims
    | _ => trivial

/-- Nobody else gets to a child while it is set up: the only way to it leads through the
mutex of its parent. -/
theorem Invariant.secluded_from (hs : Invariant calls s)
    (adv : Advance s.heap (s.threads i).activity u.heap (u.threads i).activity) (hj : j ≠ i)
    {b : Addr} (hb : settingUp (s.threads j).activity = some b) :
    target (graph u.heap) (u.threads i).activity ≠ some b := by
  intro ht
  obtain ⟨a, d, ha, hchild⟩ := setting_up_child hb (hs.path j)
  rcases adv.targets b ht with hsame | rfl | ⟨a', d', ha', hchild'⟩
  · exact hs.secluded j i b hb hsame
  · exact hs.tree.shape.root_parentless a d hchild
  · obtain ⟨rfl, _⟩ := hs.tree.shape.parent_unique a a' b d d' hchild hchild'
    exact hj (hs.exclusive j i a ha ha')

theorem Invariant.secluded_own (hs : Invariant calls s)
    (adv : Advance s.heap (s.threads i).activity u.heap (u.threads i).activity)
    {b : Addr} (hb : settingUp (u.threads i).activity = some b)
    (hk : target (graph s.heap) (s.threads k).activity = some b) : False := by
  rcases adv.setups b hb with hold | rfl
  · exact hs.secluded i k b hold hk
  · obtain ⟨n, hn⟩ := hs.target_live hk
    exact Heap.ne_fresh hn rfl

theorem Invariant.exclusive_kept (hs : Invariant calls s)
    (adv : Advance s.heap (s.threads i).activity u.heap (u.threads i).activity)
    (others : ∀ j, j ≠ i → u.threads j = s.threads j) {a : Addr}
    (hja : held (u.threads j).activity = some a) (hka : held (u.threads k).activity = some a) :
    j = k := by
  by_cases hj : j = i <;> by_cases hk : k = i
  · rw [hj, hk]
  · rw [hj] at hja
    rw [others k hk] at hka
    exact absurd hka (hs.untaken adv hk hja)
  · rw [hk] at hka
    rw [others j hj] at hja
    exact absurd hja (hs.untaken adv hj hka)
  · rw [others j hj] at hja
    rw [others k hk] at hka
    exact hs.exclusive j k a hja hka

theorem Invariant.secluded_kept (hs : Invariant calls s)
    (adv : Advance s.heap (s.threads i).activity u.heap (u.threads i).activity)
    (others : ∀ j, j ≠ i → u.threads j = s.threads j) {b : Addr}
    (hjb : settingUp (u.threads j).activity = some b) :
    target (graph u.heap) (u.threads k).activity ≠ some b := by
  intro hkb
  have hgrows := adv.change.grows
  by_cases hj : j = i <;> by_cases hk : k = i
  · rw [hj] at hjb
    rw [hk] at hkb
    obtain ⟨a, d, ha, hchild⟩ := setting_up_child hjb adv.path
    cases (target_of_held ha).symm.trans hkb
    exact Nat.lt_irrefl _ (adv.change.tree.child_later _ _ _ hchild)
  · rw [hj] at hjb
    rw [others k hk, target_stable (hs.path k) hgrows] at hkb
    exact hs.secluded_own adv hjb hkb
  · rw [hk] at hkb
    rw [others j hj] at hjb
    exact hs.secluded_from adv hj hjb hkb
  · rw [others j hj] at hjb
    rw [others k hk, target_stable (hs.path k) hgrows] at hkb
    exact hs.secluded j k b hjb hkb

end Exclusion

section Steps

variable [DecidableEq ι] {calls : ι → List (Op V)} {s u : State ι V} {i : ι}

theorem step_advance (hs : Invariant calls s) (st : Step s i u) :
    Advance s.heap (s.threads i).activity u.heap (u.threads i).activity ∧
    Records s.heap (s.threads i) u.heap (u.threads i) ∧ ∀ j, j ≠ i → u.threads j = s.threads j := by
  obtain ⟨h, t, ht, rfl⟩ := st
  have hadv := threadStep_advance hs.tree (hs.path i) (hs.claims i) (hs.locked i) ht
  refine ⟨?_, ?_, ?_⟩
  · simpa using hadv
  · simpa using threadStep_records (hs.path i) hadv.change ht
  · intro j hj
    exact Function.update_of_ne hj _ _

theorem each_thread {P : ι → Thread V → Prop} (others : ∀ j, j ≠ i → u.threads j = s.threads j)
    (own : P i (u.threads i)) (rest : ∀ j, j ≠ i → P j (s.threads j)) (j : ι) :
    P j (u.threads j) := by
  by_cases hj : j = i
  · rw [hj]
    exact own
  · rw [others j hj]
    exact rest j hj

theorem step_preserves_invariant (hs : Invariant calls s) (st : Step s i u) :
    Invariant calls u := by
  obtain ⟨adv, hrec, others⟩ := step_advance hs st
  obtain ⟨ds, hds, hver⟩ := hrec.returned
  obtain ⟨xs, hxs, hcalled⟩ := hrec.stored
  have hgrows := adv.change.grows
  refine ⟨adv.change.tree, ?_, ?_, ?_, ?_, ?_, ?_, ?_, ?_, ?_⟩
  · exact each_thread (P := fun _ t => OnPath (graph u.heap) t.activity) others adv.path
      fun j _ => (hs.path j).grows hgrows
  · exact each_thread (P := fun _ t => Claims (graph u.heap) t.activity) others adv.claims
      fun j hj => hs.claims_kept adv.change hj
  · refine each_thread (P := fun _ t => ∀ a, held t.activity = some a →
      ∃ n, u.heap.read a = some n ∧ n.nodeMutex = true) others adv.owned ?_
    intro j hj a ha
    obtain ⟨n, hn, hm⟩ := hs.locked j a ha
    refine adv.change.locked a n hn hm ?_ ?_
    · exact fun hi => hj (hs.exclusive j i a ha hi)
    · exact fun hi => hs.secluded i j a hi (target_of_held ha)
  · exact fun j k a => hs.exclusive_kept adv others
  · exact fun j k b => hs.secluded_kept adv others
  · exact each_thread (P := fun j t => opsOf t = calls j) others (hrec.ops.trans (hs.history i))
      fun j _ => hs.history j
  · refine each_thread (P := fun _ t => ∀ d ∈ t.returned, Verified (graph u.heap) d) others ?_ ?_
    · intro d hd
      rw [hds, List.mem_append] at hd
      rcases hd with hold | hnew
      · exact (hs.verified i d hold).grows hgrows
      · exact (hver d hnew).grows hgrows
    · intro j _ d hd
      exact (hs.verified j d hd).grows hgrows
  · intro a k hk
    rcases hrec.keyed a k hk with hold | ⟨c, hc, hck⟩
    · obtain ⟨j, c, hc, hck⟩ := hs.origin a k hold
      refine ⟨j, c, ?_, hck⟩
      by_cases hj : j = i
      · rw [hj] at hc ⊢
        rw [hxs]
        exact List.mem_append_left _ hc
      · rw [others j hj]
        exact hc
    · exact ⟨i, c, hc, hck⟩
  · refine each_thread (P := fun j t => ∀ x ∈ t.stored, Op.add x.2 ∈ calls j) others ?_ ?_
    · intro x hx
      rw [hxs, List.mem_append] at hx
      rcases hx with hold | hnew
      · exact hs.called i x hold
      · rw [← hs.history i]
        exact hcalled x hnew
    · intro j _
      exact hs.called j

theorem reachable_invariant (hr : Reachable Step (initial calls) s) : Invariant calls s := by
  obtain ⟨_, he⟩ := hr
  exact he.invariant (fun _ _ _ => step_preserves_invariant) (initial_invariant calls)

end Steps

end ThreadSafeTreeInterleavingInvariant
