import Mathlib.Data.List.Basic

/-! Finite executions of a labelled transition relation and the two rules that every
safety argument below uses: an invariant of the steps is an invariant of the runs, and a
preorder that every step respects relates the ends of every run. -/
namespace TransitionSystems

variable {σ : Type u} {ε : Type v} {step : σ → ε → σ → Prop}

inductive Execution (step : σ → ε → σ → Prop) : σ → List ε → σ → Prop where
  | refl (s) : Execution step s [] s
  | tail {s es t e u} : Execution step s es t → step t e u → Execution step s (es ++ [e]) u

def Reachable (step : σ → ε → σ → Prop) (s t : σ) : Prop := ∃ es, Execution step s es t

theorem Execution.single {s e t} (h : step s e t) : Execution step s [e] t :=
  .tail (.refl s) h

theorem Execution.trans {s t u : σ} {es fs : List ε} (h : Execution step s es t)
    (k : Execution step t fs u) : Execution step s (es ++ fs) u := by
  induction k with
  | refl => simpa using h
  | tail _ hs ih => simpa only [List.append_assoc] using ih.tail hs

theorem Execution.head {s t u : σ} {e : ε} {es : List ε} (h : step s e t)
    (k : Execution step t es u) : Execution step s (e :: es) u :=
  (Execution.single h).trans k

theorem Execution.mono {step' : σ → ε → σ → Prop} (h : ∀ s e t, step s e t → step' s e t)
    {s t : σ} {es : List ε} (hrun : Execution step s es t) : Execution step' s es t := by
  induction hrun with
  | refl => exact .refl _
  | tail _ hstep ih => exact ih.tail (h _ _ _ hstep)

theorem Reachable.trans {s t u : σ} (h : Reachable step s t) (k : Reachable step t u) :
    Reachable step s u := by
  obtain ⟨es, h⟩ := h
  obtain ⟨fs, k⟩ := k
  exact ⟨_, h.trans k⟩

/-- The run of a step function on a list of events. -/
def follow (next : σ → ε → Option σ) (s : σ) : List ε → Option σ
  | [] => some s
  | e :: es => (next s e).bind fun t => follow next t es

theorem follow_append {next : σ → ε → Option σ} (s : σ) (es fs : List ε) :
    follow next s (es ++ fs) = (follow next s es).bind fun t => follow next t fs := by
  induction es generalizing s with
  | nil => rfl
  | cons e es ih => simp only [List.cons_append, follow, ih, Option.bind_assoc]

theorem follow_execution {next : σ → ε → Option σ} {s t : σ} {es : List ε}
    (h : follow next s es = some t) : Execution (fun s e t => next s e = some t) s es t := by
  induction es generalizing s with
  | nil =>
    cases h
    exact .refl _
  | cons e es ih =>
    obtain ⟨u, hu, ht⟩ := Option.bind_eq_some_iff.mp h
    exact Execution.head hu (ih ht)

theorem follow_guarded {next : σ → ε → Option σ} {allowed : σ → ε → Prop} {s t : σ}
    {es : List ε} (h : follow next s es = some t) (hes : ∀ e ∈ es, ∀ s, allowed s e) :
    Execution (fun s e t => next s e = some t ∧ allowed s e) s es t := by
  induction es generalizing s with
  | nil =>
    cases h
    exact .refl _
  | cons e es ih =>
    obtain ⟨u, hu, ht⟩ := Option.bind_eq_some_iff.mp h
    have hrest := ih ht fun f hf => hes f (List.mem_cons_of_mem e hf)
    exact Execution.head ⟨hu, hes e List.mem_cons_self s⟩ hrest

theorem Execution.invariant {P : σ → Prop} (preserved : ∀ s e t, P s → step s e t → P t)
    {s t : σ} {es : List ε} (h : Execution step s es t) (hs : P s) : P t := by
  induction h with
  | refl => exact hs
  | tail _ k ih => exact preserved _ _ _ ih k

/-- Where the runs cannot grow beyond a bound, one of them ends in a state without a step. -/
theorem Execution.exists_stuck {s : σ} {bound : ℕ}
    (hbound : ∀ es t, Execution step s es t → es.length ≤ bound) :
    ∃ es t, Execution step s es t ∧ ∀ e u, ¬ step t e u := by
  have hrest : ∀ k es t, Execution step s es t → es.length + k = bound →
      ∃ es t, Execution step s es t ∧ ∀ e u, ¬ step t e u := by
    intro k
    induction k with
    | zero =>
      intro es t hrun hlen
      refine ⟨es, t, hrun, fun e u hstep => ?_⟩
      have := hbound _ _ (hrun.tail hstep)
      simp only [List.length_append, List.length_singleton] at this
      omega
    | succ k ih =>
      intro es t hrun hlen
      by_cases hstuck : ∀ e u, ¬ step t e u
      · exact ⟨es, t, hrun, hstuck⟩
      · simp only [not_forall, not_not] at hstuck
        obtain ⟨e, u, hstep⟩ := hstuck
        exact ih _ u (hrun.tail hstep) (by simp; omega)
  exact hrest bound [] s (.refl s) (by simp)

/-- The step may use the invariant, which is established along the way. -/
theorem Execution.related {P : σ → Prop} {R : σ → σ → Prop}
    (preserved : ∀ s e t, P s → step s e t → P t) (refl : ∀ s, R s s)
    (trans : ∀ s t u, R s t → R t u → R s u) (respects : ∀ s e t, P s → step s e t → R s t)
    {s t : σ} {es : List ε} (h : Execution step s es t) (hs : P s) : R s t := by
  induction h with
  | refl => exact refl _
  | tail h k ih => exact trans _ _ _ ih (respects _ _ _ (h.invariant preserved hs) k)

end TransitionSystems
