import LinuxProgramming.ThreadSafeTreeInterleavingInvariant

/-! `lookup` without a mutex, against any number of concurrent adds. Once a key is stored,
its search path is complete and stays so; a `lookup` that starts afterwards cannot leave it. -/
namespace ThreadSafeTreeUnlockedLookup

open BlockMemory CharStrings SearchGraph TransitionSystems ThreadSafeTree
open ThreadSafeTreeInvariant ThreadSafeTreeInterleaving ThreadSafeTreeInterleavingInvariant

variable {ι V : Type}

/-- An upper bound for the accesses that a search which ends at `t` still makes; addresses
grow on the way down. -/
def budget (t : ℕ) : LookupPc → ℕ
  | .readKey none => 0
  | .readKey (some a) => 3 * (t - a) + 3
  | .compareKey a => 3 * (t - a) + 2
  | .follow a _ => 3 * (t - a) + 1

section Search

variable {h : Heap (Node V)} {k : CString} {t : ℕ}

theorem leads_on (hi : TreeInvariant h rootAddr) (hk : (graph h).key t = some k) {a : ℕ}
    (ha : Leads (graph h) k rootAddr a) : Leads (graph h) k a t ∧ a ≤ t := by
  have hat : Leads (graph h) k a t := by
    rcases leads_total ha (hi.shape.stored_on_path t k hk) with hl | hl
    · exact hl
    · rw [leads_stop hl hk]
      exact Relation.ReflTransGen.refl
  exact ⟨hat, reach_rank_le id hi.child_later (leads_reach hat)⟩

theorem lookup_closer (hi : TreeInvariant h rootAddr) (hk : (graph h).key t = some k)
    {pc : LookupPc} (hpath : LookupOnPath (graph h) k pc) (hpc : pc ≠ .readKey none)
    {r : Next LookupPc Bool} (hs : lookupStep k h pc = some r) :
    r = .ret true ∨ ∃ pc', r = .go pc' ∧ pc' ≠ .readKey none ∧ budget t pc' < budget t pc := by
  have hmoves := lookup_moves hs
  cases hmoves with
  | null => exact absurd rfl hpc
  | empty hnone =>
    obtain ⟨hat, _⟩ := leads_on hi hk hpath
    rw [leads_from_empty hat hnone, hnone] at hk
    cases hk
  | key => exact Or.inr ⟨_, rfl, by simp, by simp [budget]⟩
  | side => exact Or.inr ⟨_, rfl, by simp, by simp [budget]⟩
  | found => exact Or.inl rfl
  | follow a d =>
    obtain ⟨hl, x, hx, hside⟩ := hpath
    obtain ⟨hat, _⟩ := leads_on hi hk hl
    -- the node that holds the key is further down, so the link on this side is there
    rcases Relation.ReflTransGen.cases_head hat with rfl | ⟨b, ⟨e, y, hy, he, hb⟩, hbt⟩
    · cases hx.symm.trans hk
      exact absurd hside (not_side_self d _)
    · cases hx.symm.trans hy
      cases side_unique hside he
      have hab := hi.child_later a d b hb
      have hble := reach_rank_le id hi.child_later (leads_reach hbt)
      rw [hb]
      refine Or.inr ⟨_, rfl, by simp, ?_⟩
      simp only [budget, id_eq] at hble ⊢
      omega

theorem lookup_enabled (hi : TreeInvariant h rootAddr) {pc : LookupPc}
    (hpath : LookupOnPath (graph h) k pc) : ∃ r, lookupStep k h pc = some r := by
  cases pc with
  | readKey p =>
    cases p with
    | none => exact ⟨_, rfl⟩
    | some a =>
      obtain ⟨n, hn⟩ := live_at hi hpath
      simp [lookupStep, hn]
  | compareKey a =>
    obtain ⟨_, x, hx⟩ := hpath
    obtain ⟨n, hn, hkey⟩ := live_of_key hx
    simp [lookupStep, hn, hkey]
  | follow a d =>
    obtain ⟨_, x, hx, _⟩ := hpath
    obtain ⟨n, hn, _⟩ := live_of_key hx
    simp [lookupStep, hn]

end Search

def Pending (k : CString) (t : ℕ) (rs : List (Done V)) (th : Thread V) (left : ℕ) : Prop :=
  th.returned = rs ∧
    ((th.activity = .idle ∧ (∃ rest, th.todo = .lookup k :: rest) ∧ left = 3 * t + 4) ∨
      ∃ pc, th.activity = .lookingUp k pc ∧ pc ≠ .readKey none ∧ left = budget t pc)

theorem pending_step {h h' : Heap (Node V)} {k : CString} {t left : ℕ} {rs : List (Done V)}
    {th th' : Thread V} (hi : TreeInvariant h rootAddr) (hk : (graph h).key t = some k)
    (hpath : OnPath (graph h) th.activity) (hp : Pending k t rs th left)
    (hs : threadStep h th = some (h', th')) :
    th'.returned = rs ++ [.lookup k true] ∨ ∃ left', left' < left ∧ Pending k t rs th' left' := by
  obtain ⟨todo, activity, returned, stored⟩ := th
  obtain ⟨rfl, ⟨hidle, ⟨rest, htodo⟩, rfl⟩ | ⟨pc, hactivity, hpc, rfl⟩⟩ := hp
  · cases hidle
    cases htodo
    cases hs
    refine Or.inr ⟨_, ?_, rfl, Or.inr ⟨_, rfl, by simp, rfl⟩⟩
    simp [budget, rootAddr]
  · cases hactivity
    obtain ⟨r, hr, he⟩ := Option.map_eq_some_iff.mp hs
    obtain ⟨rfl, rfl⟩ := Prod.mk.inj he
    rcases lookup_closer hi hk hpath hpc hr with rfl | ⟨pc', rfl, hpc', hlt⟩
    · exact Or.inl rfl
    · exact Or.inr ⟨_, hlt, rfl, Or.inr ⟨pc', rfl, hpc', rfl⟩⟩

theorem pending_left {k : CString} {t left : ℕ} {rs : List (Done V)} {th : Thread V}
    (hp : Pending k t rs th left) : 0 < left := by
  obtain ⟨_, ⟨_, _, rfl⟩ | ⟨pc, _, hpc, rfl⟩⟩ := hp
  · omega
  · cases pc with
    | readKey p =>
      cases p with
      | none => exact absurd rfl hpc
      | some a => simp [budget]
    | compareKey a => simp [budget]
    | follow a d => simp [budget]

section Runs

variable [DecidableEq ι] {calls : ι → List (Op V)} {s : State ι V} {i : ι} {k : CString} {t : ℕ}

/-- Along every run the stored key stays where it is, and the lookup either has returned true
or has used up part of its budget with each of its own steps. -/
theorem lookup_run (hs : Invariant calls s) (hk : (graph s.heap).key t = some k)
    (hp : Pending k t (s.threads i).returned (s.threads i) (3 * t + 4)) {es : List ι}
    {u : State ι V} (hrun : Execution Step s es u) :
    Invariant calls u ∧ (graph u.heap).key t = some k ∧
      ((∃ ds, (u.threads i).returned = (s.threads i).returned ++ .lookup k true :: ds) ∨
        ∃ left, es.count i + left ≤ 3 * t + 4 ∧
          Pending k t (s.threads i).returned (u.threads i) left) := by
  induction hrun with
  | refl => exact ⟨hs, hk, Or.inr ⟨_, by simp, hp⟩⟩
  | @tail es u j v _ hstep ih =>
    obtain ⟨hu, hku, hprogress⟩ := ih
    obtain ⟨adv, hrec, others⟩ := step_advance hu hstep
    refine ⟨step_preserves_invariant hu hstep, adv.change.grows.key t k hku, ?_⟩
    rw [List.count_append, List.count_singleton]
    by_cases hj : i = j
    · subst hj
      rcases hprogress with ⟨ds, hds⟩ | ⟨left, hleft, hpending⟩
      · obtain ⟨new, hnew, _⟩ := hrec.returned
        exact Or.inl ⟨ds ++ new, by rw [hnew, hds, List.append_assoc, List.cons_append]⟩
      · obtain ⟨h, th, hth, rfl⟩ := hstep
        rcases pending_step hu.tree hku (hu.path i) hpending hth with hdone | ⟨left', hlt, hp'⟩
        · exact Or.inl ⟨[], by simpa using hdone⟩
        · refine Or.inr ⟨left', ?_, by simpa using hp'⟩
          simp only [beq_self_eq_true, if_true]
          omega
    · rw [others i hj, if_neg (by simpa using Ne.symm hj)]
      exact hprogress

end Runs

/-- Every interleaving of adds and lookups, one memory access a step. A `lookup` that starts
when some `add` of its key has returned never returns false, and it returns after a number
of its own steps that does not depend on what the other threads do; a `lookup` returns true
only when an `add` of its key has stored it in a node; and no `lookup` is ever stuck. -/
theorem unlocked_lookup_correct [DecidableEq ι] (calls : ι → List (Op V)) {s : State ι V}
    (hr : Reachable Step (initial calls) s) :
    (∀ i j c r rest, .add c r ∈ (s.threads j).returned → (s.threads i).activity = .idle →
      (s.threads i).todo = .lookup c.key :: rest →
      (∀ u found ds, Reachable Step s u →
        (u.threads i).returned = (s.threads i).returned ++ .lookup c.key found :: ds →
        found = true) ∧
      ∃ n, ∀ es u, Execution Step s es u → n ≤ es.count i →
        ∃ ds, (u.threads i).returned = (s.threads i).returned ++ .lookup c.key true :: ds) ∧
    (∀ i k, .lookup k true ∈ (s.threads i).returned →
      ∃ a j c, (graph s.heap).key a = some k ∧ (a, c) ∈ (s.threads j).stored ∧ c.key = k ∧
        .add c ∈ calls j) ∧
    (∀ i k pc, (s.threads i).activity = .lookingUp k pc → ∃ u, Step s i u) := by
  have hs := reachable_invariant hr
  refine ⟨?_, ?_, ?_⟩
  · intro i j c r rest hadd hidle htodo
    obtain ⟨t, ht⟩ := hs.verified j _ hadd
    have hp : Pending c.key t (s.threads i).returned (s.threads i) (3 * t + 4) :=
      ⟨rfl, Or.inl ⟨hidle, ⟨rest, htodo⟩, rfl⟩⟩
    refine ⟨?_, 3 * t + 4, ?_⟩
    · intro u found ds ⟨es, hrun⟩ hreturned
      obtain ⟨_, _, ⟨ds', hds'⟩ | ⟨left, _, hpending⟩⟩ := lookup_run hs ht hp hrun
      · rw [hreturned] at hds'
        have hsame := (List.cons.inj (List.append_cancel_left hds')).1
        exact (Done.lookup.inj hsame).2
      · rw [hpending.1] at hreturned
        simp at hreturned
    · intro es u hrun hcount
      obtain ⟨_, _, hdone | ⟨left, hleft, hpending⟩⟩ := lookup_run hs ht hp hrun
      · exact hdone
      · have hpos := pending_left hpending
        omega
  · intro i k hk
    obtain ⟨a, ha⟩ := hs.verified i _ hk rfl
    obtain ⟨j, c, hc, hck⟩ := hs.origin a k ha
    exact ⟨a, j, c, ha, hc, hck, hs.called j _ hc⟩
  · intro i k pc hactivity
    have hpath := hs.path i
    rw [hactivity] at hpath
    obtain ⟨r, hr⟩ := lookup_enabled hs.tree hpath
    have hstep : ∃ x, threadStep s.heap (s.threads i) = some x := by
      simp only [threadStep, hactivity, hr, Option.map_some]
      exact ⟨_, rfl⟩
    obtain ⟨⟨h, t⟩, ht⟩ := hstep
    exact ⟨_, h, t, ht, rfl⟩

def keyA : CString := stringOf (ascii "a")

inductive Role where
  | adder
  | reader
  deriving DecidableEq

def adderAndReader : Role → List (Op ℕ)
  | .adder => [.add ⟨stringOf (ascii "b"), some 1⟩, .add ⟨keyA, some 2⟩]
  | .reader => [.lookup keyA, .lookup keyA]

/-- The first lookup comes while the new node is in the tree and not yet set up. -/
def readDuringSetUp : Option (State Role ℕ) :=
  follow next (initial adderAndReader)
    (List.replicate 12 .adder ++ List.replicate 5 .reader ++ List.replicate 14 .adder)

theorem read_during_set_up_correct : ∃ s : State Role ℕ,
    Reachable Step (initial adderAndReader) s ∧
    (s.threads .reader).returned = [.lookup keyA false] ∧
    ∃ n, ∀ es u, Execution Step s es u → n ≤ es.count .reader →
      ∃ ds, (u.threads .reader).returned = .lookup keyA false :: .lookup keyA true :: ds := by
  have hrun : readDuringSetUp.any (fun s => decide (
      (s.threads .reader).returned = [.lookup keyA false] ∧
      .add ⟨keyA, some 2⟩ 0 ∈ (s.threads .adder).returned ∧
      (s.threads .reader).activity = .idle ∧
      (s.threads .reader).todo = [.lookup keyA])) = true := by decide
  obtain ⟨s, hs, hall⟩ := (Option.any_eq_true _ _).mp hrun
  obtain ⟨hreturned, hadded, hidle, htodo⟩ := of_decide_eq_true hall
  have hreach : Reachable Step (initial adderAndReader) s :=
    ⟨_, (follow_execution hs).mono fun _ _ _ => step_of_next⟩
  obtain ⟨hlookup, _, _⟩ := unlocked_lookup_correct adderAndReader hreach
  obtain ⟨_, n, hn⟩ := hlookup .reader .adder ⟨keyA, some 2⟩ 0 [] hadded hidle htodo
  refine ⟨s, hreach, hreturned, n, ?_⟩
  intro es u hes hcount
  obtain ⟨ds, hds⟩ := hn es u hes hcount
  exact ⟨ds, by rw [hds, hreturned]; rfl⟩

end ThreadSafeTreeUnlockedLookup
