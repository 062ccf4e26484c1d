import LinuxProgramming.TransitionSystems
import Mathlib.Logic.Function.Basic

/-! `one_time_init`, called by any number of threads on one control. Each lock, test, store,
step of `init`, unlock and return is a step of its own. The flag is set before `init` has run;
what keeps the other callers back until then is the mutex. -/
namespace OneTimeInit

open TransitionSystems

variable {τ : Type}

/-- The function that the calls pass on, by the number of its steps. -/
structure Init where
  steps : ℕ
  positive : 0 < steps

/-- The mutex is given by its owner. -/
structure Control (τ : Type) where
  fired : Bool
  controlMtx : Option τ
  deriving DecidableEq

inductive Pc where
  | caller
  | lock
  | test
  | setFired
  | init (done : ℕ)
  | unlock
  | ret
  deriving DecidableEq

/-- How often `init` had been started and had run to its end when a call returned. -/
structure Return (τ : Type) where
  thread : τ
  started : ℕ
  completed : ℕ
  deriving DecidableEq

/-- The counts and the returns are a history that no step reads. -/
structure State (τ : Type) where
  ctrl : Control τ
  pc : τ → Pc
  started : ℕ
  completed : ℕ
  returns : List (Return τ)

def initial : State τ := ⟨⟨false, none⟩, fun _ => .caller, 0, 0, []⟩

def Pc.Inside : Pc → Prop
  | .test | .setFired | .init _ | .unlock => True
  | .caller | .lock | .ret => False

def State.progress (s : State τ) : Bool × ℕ × ℕ := (s.ctrl.fired, s.started, s.completed)

def Fresh (s : State τ) : Prop := s.progress = (false, 0, 0)

def Done (s : State τ) : Prop := s.progress = (true, 1, 1)

/-- What the place of a thread tells about the initialisation. -/
def Agrees (s : State τ) : Pc → Prop
  | .setFired => Fresh s
  | .init done => s.progress = (true, min done 1, 0)
  | .unlock | .ret => Done s
  | .caller | .lock | .test => True

structure Invariant (s : State τ) : Prop where
  owner_iff : ∀ i, s.ctrl.controlMtx = some i ↔ (s.pc i).Inside
  agrees : ∀ i, Agrees s (s.pc i)
  settled : Fresh s ∨ Done s ∨ ∃ i done, s.pc i = .init done
  returned : ∀ r ∈ s.returns, r.started = 1 ∧ r.completed = 1
  return_done : s.returns ≠ [] → Done s

theorem invariant_initial : Invariant (initial : State τ) where
  owner_iff i := by simp [initial, Pc.Inside]
  agrees i := trivial
  settled := .inl rfl
  returned r hr := by simp [initial] at hr
  return_done h := by simp [initial] at h

section Threads

variable {s : State τ} {i j : τ}

theorem inside_unique (h : Invariant s) (hi : (s.pc i).Inside) (hj : (s.pc j).Inside) :
    i = j := by
  have howner := (h.owner_iff i).mpr hi
  rw [(h.owner_iff j).mpr hj] at howner
  exact (Option.some.inj howner).symm

theorem other_outside (h : Invariant s) (hi : (s.pc i).Inside) (hj : j ≠ i) :
    ¬ (s.pc j).Inside := fun hin => hj (inside_unique h hin hi)

theorem agrees_of_outside {p : Pc} (hp : ¬ p.Inside) (hd : ¬ Done s) (h : Agrees s p)
    (t : State τ) : Agrees t p := by
  cases p with
  | caller => trivial
  | lock => trivial
  | test => exact (hp trivial).elim
  | setFired => exact (hp trivial).elim
  | init done => exact (hp trivial).elim
  | unlock => exact (hp trivial).elim
  | ret => exact (hd h).elim

/-- Whoever tests the flag finds the initialisation not begun or over. -/
theorem settled_at_test (h : Invariant s) (hi : s.pc i = .test) : Fresh s ∨ Done s := by
  rcases h.settled with hf | hd | ⟨j, done, hj⟩
  · exact .inl hf
  · exact .inr hd
  · have hin : (s.pc i).Inside := by simp [hi, Pc.Inside]
    have hjn : (s.pc j).Inside := by simp [hj, Pc.Inside]
    rw [inside_unique h hin hjn, hj] at hi
    cases hi

theorem started_le_one (h : Invariant s) : s.started ≤ 1 := by
  change s.progress.2.1 ≤ 1
  rcases h.settled with hfresh | hdone | ⟨j, done, hj⟩
  · simp [show s.progress = _ from hfresh]
  · simp [show s.progress = _ from hdone]
  · have hagrees := h.agrees j
    rw [hj] at hagrees
    rw [show s.progress = _ from hagrees]
    exact Nat.min_le_right _ _

end Threads

variable [DecidableEq τ]

def State.goto (s : State τ) (i : τ) (pc : Pc) : State τ :=
  { s with pc := Function.update s.pc i pc }

def initStep (init : Init) (s : State τ) (i : τ) (done : ℕ) : State τ :=
  let s := if done = 0 then { s with started := s.started + 1 } else s
  if done + 1 < init.steps then s.goto i (.init (done + 1))
  else { s.goto i .unlock with completed := s.completed + 1 }

def step (init : Init) (s : State τ) (i : τ) : Option (State τ) :=
  match s.pc i with
  | .caller => some (s.goto i .lock)
  | .lock =>
    match s.ctrl.controlMtx with
    | none => some { s.goto i .test with ctrl := { s.ctrl with controlMtx := some i } }
    | some _ => none
  | .test => some (s.goto i (if !s.ctrl.fired then .setFired else .unlock))
  | .setFired => some { s.goto i (.init 0) with ctrl := { s.ctrl with fired := true } }
  | .init done => some (initStep init s i done)
  | .unlock => some { s.goto i .ret with ctrl := { s.ctrl with controlMtx := none } }
  | .ret =>
    some { s.goto i .caller with returns := s.returns ++ [⟨i, s.started, s.completed⟩] }

def Step (init : Init) (s : State τ) (i : τ) (t : State τ) : Prop := step init s i = some t

section Moves

variable {init : Init} {s t : State τ} {i : τ}

inductive Moves (init : Init) (s : State τ) (i : τ) : State τ → Prop where
  | call : s.pc i = .caller → Moves init s i (s.goto i .lock)
  | lock : s.pc i = .lock → s.ctrl.controlMtx = none →
      Moves init s i { s.goto i .test with ctrl := { s.ctrl with controlMtx := some i } }
  | notFired : s.pc i = .test → s.ctrl.fired = false → Moves init s i (s.goto i .setFired)
  | fired : s.pc i = .test → s.ctrl.fired = true → Moves init s i (s.goto i .unlock)
  | setFired : s.pc i = .setFired →
      Moves init s i { s.goto i (.init 0) with ctrl := { s.ctrl with fired := true } }
  | init {done} : s.pc i = .init done → Moves init s i (initStep init s i done)
  | unlock : s.pc i = .unlock →
      Moves init s i { s.goto i .ret with ctrl := { s.ctrl with controlMtx := none } }
  | ret : s.pc i = .ret → Moves init s i
      { s.goto i .caller with returns := s.returns ++ [⟨i, s.started, s.completed⟩] }

theorem moves_of_step (h : Step init s i t) : Moves init s i t := by
  simp only [Step, step] at h
  split at h
  · next hpc => cases h; exact .call hpc
  · next hpc =>
    split at h
    · next hfree => cases h; exact .lock hpc hfree
    · cases h
  · next hpc =>
    cases h
    cases hf : s.ctrl.fired with
    | false => exact .notFired hpc hf
    | true => exact .fired hpc hf
  · next hpc => cases h; exact .setFired hpc
  · next done hpc => cases h; exact .init hpc
  · next hpc => cases h; exact .unlock hpc
  · next hpc => cases h; exact .ret hpc

theorem owner_iff_move {p : Pc} (h : Invariant s) (hpc : t.pc = Function.update s.pc i p)
    (hown : t.ctrl.controlMtx = some i ↔ p.Inside)
    (hothers : ∀ j, j ≠ i → (t.ctrl.controlMtx = some j ↔ s.ctrl.controlMtx = some j)) (j : τ) :
    t.ctrl.controlMtx = some j ↔ (t.pc j).Inside := by
  by_cases hj : j = i
  · subst j
    rw [hpc, Function.update_self, hown]
  · rw [hpc, Function.update_of_ne hj, hothers j hj, h.owner_iff j]

theorem agrees_move {p : Pc} (hpc : t.pc = Function.update s.pc i p) (hi : Agrees t p)
    (hagrees : ∀ j, j ≠ i → Agrees t (s.pc j)) (j : τ) : Agrees t (t.pc j) := by
  by_cases hj : j = i
  · subst j
    rwa [hpc, Function.update_self]
  · rw [hpc, Function.update_of_ne hj]
    exact hagrees j hj

theorem invariant_aside {p : Pc} (h : Invariant s) (hpc : t.pc = Function.update s.pc i p)
    (hown : t.ctrl.controlMtx = some i ↔ p.Inside)
    (hothers : ∀ j, j ≠ i → (t.ctrl.controlMtx = some j ↔ s.ctrl.controlMtx = some j))
    (hsame : t.progress = s.progress) (hinit : ∀ done, s.pc i ≠ .init done) (hi : Agrees s p)
    (hret : ∀ r ∈ t.returns, r ∈ s.returns ∨ r = ⟨i, s.started, s.completed⟩ ∧ Done s) :
    Invariant t where
  owner_iff := owner_iff_move h hpc hown hothers
  agrees := by
    have hagrees : ∀ p, Agrees s p → Agrees t p := by
      intro p hp
      unfold Agrees Fresh Done at *
      rwa [hsame]
    exact agrees_move hpc (hagrees _ hi) fun j _ => hagrees _ (h.agrees j)
  settled := by
    rcases h.settled with hfresh | hdone | ⟨j, done, hj⟩
    · exact .inl (hsame.trans hfresh)
    · exact .inr (.inl (hsame.trans hdone))
    · have hji : j ≠ i := fun he => hinit done (he ▸ hj)
      exact .inr (.inr ⟨j, done, by rw [hpc, Function.update_of_ne hji, hj]⟩)
  returned r hr := by
    rcases hret r hr with hold | ⟨hnew, hdone⟩
    · exact h.returned r hold
    · simp only [Done, State.progress, Prod.mk.injEq] at hdone
      rw [hnew]
      exact hdone.2
  return_done hne := by
    have hdone : Done s := by
      obtain ⟨r, hr⟩ := List.exists_mem_of_ne_nil _ hne
      rcases hret r hr with hold | ⟨-, hdone⟩
      · exact h.return_done (List.ne_nil_of_mem hold)
      · exact hdone
    exact hsame.trans hdone

theorem invariant_goto {p : Pc} (h : Invariant s) (hinside : p.Inside ↔ (s.pc i).Inside)
    (hinit : ∀ done, s.pc i ≠ .init done) (hi : Agrees s p) : Invariant (s.goto i p) := by
  refine invariant_aside h rfl ?_ (fun _ _ => Iff.rfl) rfl hinit hi fun r hr => .inl hr
  exact (h.owner_iff i).trans hinside.symm

/-- A step of the initialisation: the other threads wait, and no call has returned. -/
theorem invariant_work {p : Pc} (h : Invariant s) (hin : (s.pc i).Inside) (hd : ¬ Done s)
    (hpc : t.pc = Function.update s.pc i p) (hp : p.Inside)
    (hown : t.ctrl.controlMtx = s.ctrl.controlMtx) (hret : t.returns = s.returns)
    (hi : Agrees t p) (hsettled : Done t ∨ ∃ done, p = .init done) : Invariant t where
  owner_iff := by
    refine owner_iff_move h hpc ?_ fun j _ => by rw [hown]
    rw [hown, h.owner_iff i]
    exact iff_of_true hin hp
  agrees := agrees_move hpc hi fun j hj =>
    agrees_of_outside (other_outside h hin hj) hd (h.agrees j) t
  settled := by
    rcases hsettled with hdone | ⟨done, hp⟩
    · exact .inr (.inl hdone)
    · exact .inr (.inr ⟨i, done, by rw [hpc, Function.update_self, hp]⟩)
  returned r hr := h.returned r (hret ▸ hr)
  return_done hne := (hd (h.return_done (hret ▸ hne))).elim

section InitStep

variable (init : Init) (s : State τ) (i : τ) (done : ℕ)

@[simp] theorem initStep_ctrl : (initStep init s i done).ctrl = s.ctrl := by
  unfold initStep
  split_ifs <;> rfl

@[simp] theorem initStep_returns : (initStep init s i done).returns = s.returns := by
  unfold initStep
  split_ifs <;> rfl

@[simp] theorem initStep_started : (initStep init s i done).started =
    if done = 0 then s.started + 1 else s.started := by
  unfold initStep
  split_ifs <;> rfl

@[simp] theorem initStep_completed : (initStep init s i done).completed =
    if done + 1 < init.steps then s.completed else s.completed + 1 := by
  unfold initStep
  split_ifs <;> rfl

@[simp] theorem initStep_pc : (initStep init s i done).pc = Function.update s.pc i
    (if done + 1 < init.steps then .init (done + 1) else .unlock) := by
  unfold initStep
  split_ifs <;> rfl

end InitStep

theorem invariant_initStep {done : ℕ} (h : Invariant s) (hpc : s.pc i = .init done) :
    Invariant (initStep init s i done) := by
  have hin : (s.pc i).Inside := by simp [hpc, Pc.Inside]
  have hagrees := h.agrees i
  rw [hpc] at hagrees
  simp only [Agrees, State.progress, Prod.mk.injEq] at hagrees
  obtain ⟨hf, hs, hc⟩ := hagrees
  have hd : ¬ Done s := by simp [Done, State.progress, hc]
  have hstarted : (if done = 0 then s.started + 1 else s.started) = 1 := by
    split <;> omega
  by_cases hmore : done + 1 < init.steps
  · refine invariant_work (p := .init (done + 1)) h hin hd ?_ trivial ?_ ?_ ?_ (.inr ⟨_, rfl⟩)
    all_goals simp [hmore, hf, hstarted, hc, Agrees, State.progress]
  · have hdone : Done (initStep init s i done) := by
      simp [Done, State.progress, hmore, hf, hstarted, hc]
    refine invariant_work (p := .unlock) h hin hd ?_ trivial ?_ ?_ hdone (.inl hdone)
    all_goals simp [hmore]

theorem invariant_step (h : Invariant s) (hstep : Step init s i t) : Invariant t := by
  have hagrees := h.agrees i
  cases moves_of_step hstep with
  | call hpc =>
    apply invariant_goto h
    · simp [hpc, Pc.Inside]
    · simp [hpc]
    · trivial
  | lock hpc hfree =>
    refine invariant_aside h rfl (by simp [Pc.Inside]) ?_ rfl (by simp [hpc]) trivial
      fun r hr => .inl hr
    intro j hj
    simp [hfree, Ne.symm hj]
  | notFired hpc hf =>
    apply invariant_goto h
    · simp [hpc, Pc.Inside]
    · simp [hpc]
    · exact (settled_at_test h hpc).resolve_right (by simp [Done, State.progress, hf])
  | fired hpc hf =>
    apply invariant_goto h
    · simp [hpc, Pc.Inside]
    · simp [hpc]
    · exact (settled_at_test h hpc).resolve_left (by simp [Fresh, State.progress, hf])
  | setFired hpc =>
    have hin : (s.pc i).Inside := by simp [hpc, Pc.Inside]
    rw [hpc] at hagrees
    simp only [Agrees, Fresh, State.progress, Prod.mk.injEq] at hagrees
    have hd : ¬ Done s := by simp [Done, State.progress, hagrees]
    refine invariant_work h hin hd rfl trivial rfl rfl ?_ (.inr ⟨0, rfl⟩)
    simp [Agrees, State.progress, State.goto, hagrees]
  | init hpc => exact invariant_initStep h hpc
  | unlock hpc =>
    have hin : s.ctrl.controlMtx = some i := (h.owner_iff i).mpr (by simp [hpc, Pc.Inside])
    rw [hpc] at hagrees
    refine invariant_aside h rfl (by simp [Pc.Inside]) ?_ rfl (by simp [hpc]) hagrees
      fun r hr => .inl hr
    intro j hj
    simp [hin, Ne.symm hj]
  | ret hpc =>
    have hout : s.ctrl.controlMtx ≠ some i := by simp [h.owner_iff i, hpc, Pc.Inside]
    rw [hpc] at hagrees
    refine invariant_aside h rfl (iff_of_false hout not_false) (fun _ _ => Iff.rfl) rfl
      (by simp [hpc]) trivial ?_
    intro r hr
    rcases List.mem_append.mp hr with hold | hnew
    · exact .inl hold
    · exact .inr ⟨List.mem_singleton.mp hnew, hagrees⟩

theorem invariant_reachable (hs : Reachable (Step init) initial s) : Invariant s := by
  obtain ⟨es, hrun⟩ := hs
  exact hrun.invariant (fun _ _ _ h hstep => invariant_step h hstep) invariant_initial

/-- As long as a call is under way, some thread in a call can go on. -/
theorem call_not_stuck (hs : Reachable (Step init) initial s) (hi : s.pc i ≠ .caller) :
    ∃ j, s.pc j ≠ .caller ∧ (step init s j).isSome := by
  have h := invariant_reachable hs
  cases hfree : s.ctrl.controlMtx with
  | none =>
    refine ⟨i, hi, ?_⟩
    simp only [step, hfree]
    split <;> rfl
  | some j =>
    have hin := (h.owner_iff j).mp hfree
    refine ⟨j, ?_, ?_⟩
    · intro hpc
      rw [hpc] at hin
      exact hin
    · simp only [step]
      cases hpc : s.pc j with
      | lock =>
        rw [hpc] at hin
        exact hin.elim
      | _ => rfl

theorem init_runs_once (hs : Reachable (Step init) initial s) :
    s.started ≤ 1 ∧ (∀ r ∈ s.returns, r.started = 1 ∧ r.completed = 1) ∧
      (s.returns ≠ [] → s.started = 1 ∧ s.completed = 1) := by
  have h := invariant_reachable hs
  refine ⟨started_le_one h, h.returned, fun hne => ?_⟩
  have hdone := h.return_done hne
  simp only [Done, State.progress, Prod.mk.injEq] at hdone
  exact hdone.2

end Moves

/-- Two calls, the second of them waiting at the mutex while the first runs `init`. -/
theorem init_runs_once_two_calls : ∃ s : State Bool,
    Reachable (Step ⟨2, Nat.two_pos⟩) initial s ∧
      s.returns.map Return.thread = [true, false] ∧ s.started = 1 ∧ s.completed = 1 := by
  let schedule := [true, false, true, true, true, true, true, true, false, false, true, false,
    false, false]
  have hrun : (follow (step ⟨2, Nat.two_pos⟩) initial schedule).map State.returns =
      some [⟨true, 1, 1⟩, ⟨false, 1, 1⟩] := by decide +kernel
  obtain ⟨s, hs, hreturns⟩ := Option.map_eq_some_iff.mp hrun
  have hreach : Reachable (Step ⟨2, Nat.two_pos⟩) initial s := ⟨_, follow_execution hs⟩
  exact ⟨s, hreach, by simp [hreturns], (init_runs_once hreach).2.2 (by simp [hreturns])⟩

end OneTimeInit
