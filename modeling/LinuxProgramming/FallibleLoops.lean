import Mathlib.Data.List.Basic

/-! Loops over a list whose body may fail. Two rules with an invariant of what has been done: a
body that never fails under the invariant takes the loop to its end, and a loop that came to its
end has kept the invariant. -/
namespace FallibleLoops

universe u v w

variable {ε : Type u} {α : Type w} {σ β : Type v}

theorem bind_ok_iff {x : Except ε σ} {f : σ → Except ε β} {b : β} :
    (x >>= f) = .ok b ↔ ∃ a, x = .ok a ∧ f a = .ok b := by
  cases x with
  | error e => exact ⟨nofun, nofun⟩
  | ok a => exact ⟨fun h => ⟨a, rfl, h⟩, fun ⟨_, ha, h⟩ => by cases ha; exact h⟩

theorem mapError_ok_iff {ε' : Type u} {x : Except ε σ} {f : ε → ε'} {a : σ} :
    x.mapError f = .ok a ↔ x = .ok a := by
  cases x with
  | error e => exact ⟨nofun, nofun⟩
  | ok b => exact ⟨fun h => by cases h; rfl, fun h => by cases h; rfl⟩

variable {step : σ → α → Except ε σ} {P : List α → σ → Prop} {whole : List α}

theorem foldlM_cons_ok {a : α} {l : List α} {s t : σ} :
    (a :: l).foldlM step s = .ok t ↔ ∃ u, step s a = .ok u ∧ l.foldlM step u = .ok t := by
  rw [List.foldlM_cons]
  exact bind_ok_iff

/-- Progress: the invariant lets every round succeed. -/
theorem foldlM_succeeds {s : σ} (start : P [] s)
    (round : ∀ done a rest s, whole = done ++ a :: rest → P done s →
      ∃ t, step s a = .ok t ∧ P (done ++ [a]) t) :
    ∃ t, whole.foldlM step s = .ok t ∧ P whole t := by
  suffices h : ∀ todo done s, whole = done ++ todo → P done s →
      ∃ t, todo.foldlM step s = .ok t ∧ P whole t from h whole [] s rfl start
  intro todo
  induction todo with
  | nil =>
    intro done s hw hp
    rw [List.append_nil] at hw
    exact ⟨s, rfl, hw ▸ hp⟩
  | cons a todo ih =>
    intro done s hw hp
    obtain ⟨t, ht, hpt⟩ := round done a todo s hw hp
    obtain ⟨u, hu, hpu⟩ := ih (done ++ [a]) t (by simpa using hw) hpt
    exact ⟨u, foldlM_cons_ok.mpr ⟨t, ht, hu⟩, hpu⟩

/-- Preservation: a loop that came to its end has kept the invariant. -/
theorem foldlM_preserves {s t : σ} (start : P [] s)
    (round : ∀ done a s t, P done s → step s a = .ok t → P (done ++ [a]) t)
    (hrun : whole.foldlM step s = .ok t) : P whole t := by
  suffices h : ∀ todo done s, P done s → todo.foldlM step s = .ok t → P (done ++ todo) t from
    h whole [] s start hrun
  intro todo
  induction todo with
  | nil =>
    intro done s hp hrun
    cases hrun
    simpa using hp
  | cons a todo ih =>
    intro done s hp hrun
    obtain ⟨u, hu, hrest⟩ := foldlM_cons_ok.mp hrun
    simpa using ih (done ++ [a]) u (round done a s u hp hu) hrest

end FallibleLoops
