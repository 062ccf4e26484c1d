import LinuxProgramming.TransitionSystems
import Mathlib.Algebra.Order.Ring.Int
import Mathlib.Logic.Function.Basic

/-! Two threads that increment a global variable without a lock, as in `thread_incr.c`. Each
read and each write of `glob` is a step of its own, so is each line printed. The values the
program can end with are determined exactly. -/
namespace ThreadIncrement

open TransitionSystems

inductive Tid where
  | first
  | second
  deriving DecidableEq

inductive Phase where
  | absent
  | entered
  | greeting (shown : ℤ)
  | testing
  | loaded (loc : ℤ)
  | incremented (loc : ℤ)
  | stored
  | reporting (shown : ℤ)
  | returned
  deriving DecidableEq

structure Thread where
  phase : Phase
  j : ℕ
  deriving DecidableEq

inductive Main where
  | createFirst
  | createSecond
  | joinFirst
  | joinSecond
  | print
  | exited
  deriving DecidableEq

inductive Line where
  | current (tid : Tid) (value : ℤ)
  | final (value : ℤ)
  deriving DecidableEq

structure State where
  glob : ℤ
  threads : Tid → Thread
  main : Main
  stdout : List Line

def start : State := ⟨0, fun _ => ⟨.absent, 0⟩, .createFirst, []⟩

def toInt (z : ℤ) : ℤ := Int.bmod z (2 ^ 32)

def State.setThread (s : State) (tid : Tid) (t : Thread) : State :=
  { s with threads := Function.update s.threads tid t }

def State.putLine (s : State) (l : Line) : State := { s with stdout := s.stdout ++ [l] }

/-- `threadFunc`. The loop test is taken together with what follows it, as it touches nothing
that the other thread sees. -/
def threadFunc (loops : ℕ) (tid : Tid) (s : State) : Option State :=
  let t := s.threads tid
  match t.phase with
  | .absent => none
  | .entered => some (s.setThread tid { t with phase := .greeting s.glob })
  | .greeting shown =>
    some ((s.putLine (.current tid shown)).setThread tid { t with phase := .testing })
  | .testing =>
    if t.j < loops then some (s.setThread tid { t with phase := .loaded s.glob })
    else some (s.setThread tid { t with phase := .returned })
  | .loaded loc => some (s.setThread tid { t with phase := .incremented (toInt (loc + 1)) })
  | .incremented loc => some ({ s with glob := loc }.setThread tid { t with phase := .stored })
  | .stored => some (s.setThread tid { t with phase := .reporting s.glob })
  | .reporting shown =>
    some ((s.putLine (.current tid shown)).setThread tid ⟨.testing, t.j + 1⟩)
  | .returned => none

def main (s : State) : Option State :=
  match s.main with
  | .createFirst => some { s.setThread .first ⟨.entered, 0⟩ with main := .createSecond }
  | .createSecond => some { s.setThread .second ⟨.entered, 0⟩ with main := .joinFirst }
  | .joinFirst =>
    if (s.threads .first).phase = .returned then some { s with main := .joinSecond } else none
  | .joinSecond =>
    if (s.threads .second).phase = .returned then some { s with main := .print } else none
  | .print => some { s.putLine (.final s.glob) with main := .exited }
  | .exited => none

inductive Actor where
  | main
  | thread (tid : Tid)
  deriving DecidableEq

def next (loops : ℕ) (s : State) : Actor → Option State
  | .main => main s
  | .thread tid => threadFunc loops tid s

abbrev Step (loops : ℕ) (s : State) (a : Actor) (s' : State) : Prop := next loops s a = some s'

section Invariant

variable {loops : ℕ} {s s' : State} {tid : Tid} {t : Thread}

def Thread.stores (t : Thread) : ℕ :=
  match t.phase with
  | .stored | .reporting _ => t.j + 1
  | _ => t.j

def State.stores (s : State) : ℕ := (s.threads .first).stores + (s.threads .second).stores

/-- What a thread holds is no more than the number of writes so far; after its own first write it
is no longer the value from the start. -/
def Thread.Fits (loops stores : ℕ) (t : Thread) : Prop :=
  match t.phase with
  | .absent | .entered | .greeting _ => t.j = 0
  | .testing => t.j ≤ loops
  | .loaded loc => t.j < loops ∧ 0 ≤ loc ∧ loc ≤ stores ∧ (1 ≤ t.j → 1 ≤ loc)
  | .incremented loc => t.j < loops ∧ 1 ≤ loc ∧ loc ≤ stores + 1 ∧ (1 ≤ t.j → 2 ≤ loc)
  | .stored | .reporting _ => t.j < loops
  | .returned => t.j = loops

theorem Thread.Fits.mono {n m : ℕ} (hf : t.Fits loops n) (hnm : n ≤ m) : t.Fits loops m := by
  unfold Thread.Fits at hf ⊢
  split at hf <;> simp_all <;> omega

theorem Thread.Fits.stores_le {n : ℕ} (hf : t.Fits loops n) : t.stores ≤ loops := by
  unfold Thread.Fits at hf
  unfold Thread.stores
  split at hf <;> simp_all <;> omega

def Ordered (s : State) : Prop :=
  match s.main with
  | .createFirst => (s.threads .first).phase = .absent ∧ (s.threads .second).phase = .absent
  | .createSecond => (s.threads .second).phase = .absent
  | .joinFirst => True
  | .joinSecond => (s.threads .first).phase = .returned
  | .print | .exited =>
    (s.threads .first).phase = .returned ∧ (s.threads .second).phase = .returned

/-- A write of the value 1 is the first one of its thread. -/
structure Counted (loops : ℕ) (s : State) : Prop where
  fits : ∀ tid, (s.threads tid).Fits loops s.stores
  lower : 0 ≤ s.glob
  upper : s.glob ≤ s.stores
  written : ∀ tid, 1 ≤ (s.threads tid).stores → 1 ≤ s.glob
  twice : 2 ≤ s.glob ∨ ∃ tid, (s.threads tid).stores ≤ 1

structure Inv (loops : ℕ) (s : State) : Prop extends Counted loops s where
  ordered : Ordered s

theorem start_inv (loops : ℕ) : Inv loops start := by
  refine ⟨⟨fun _ => rfl, le_refl _, le_refl _, ?_, .inr ⟨.first, Nat.zero_le 1⟩⟩, rfl, rfl⟩
  intro tid h
  simp [start, Thread.stores] at h

theorem threads_setThread (s : State) (tid u : Tid) (t : Thread) :
    (s.setThread tid t).threads u = if u = tid then t else s.threads u := by
  simp [State.setThread, Function.update_apply]

theorem stores_setThread (s : State) (tid : Tid) (t : Thread) :
    (s.setThread tid t).stores + (s.threads tid).stores = s.stores + t.stores := by
  cases tid <;> simp [State.stores, threads_setThread] <;> omega

theorem Ordered.setThread (ho : Ordered s) (ha : (s.threads tid).phase ≠ .absent)
    (hr : (s.threads tid).phase ≠ .returned) (t : Thread) : Ordered (s.setThread tid t) := by
  have hmain : (s.setThread tid t).main = s.main := rfl
  unfold Ordered at ho ⊢
  rw [hmain]
  cases tid <;> split at ho <;> simp_all [threads_setThread]

theorem Counted.advance (hi : Counted loops s) (hstores : t.stores = (s.threads tid).stores)
    (hfits : t.Fits loops s.stores) : Counted loops (s.setThread tid t) := by
  have hsame : (s.setThread tid t).stores = s.stores := by
    have hset := stores_setThread s tid t
    omega
  have heach : ∀ u, ((s.setThread tid t).threads u).stores = (s.threads u).stores := by
    intro u
    rw [threads_setThread]
    split
    · next hu => rw [hu, hstores]
    · rfl
  refine ⟨?_, hi.lower, ?_, ?_, ?_⟩
  · intro u
    rw [hsame, threads_setThread]
    split
    · exact hfits
    · exact hi.fits u
  · rw [hsame]
    exact hi.upper
  · intro u hu
    rw [heach] at hu
    exact hi.written u hu
  · exact hi.twice.imp_right (.imp fun u hu => by rwa [heach])

theorem Inv.putLine (hi : Inv loops s) (l : Line) : Inv loops (s.putLine l) :=
  ⟨⟨hi.fits, hi.lower, hi.upper, hi.written, hi.twice⟩, hi.ordered⟩

theorem Inv.store {loc : ℤ} (hi : Inv loops s) (hp : (s.threads tid).phase = .incremented loc) :
    Inv loops ({ s with glob := loc }.setThread tid { s.threads tid with phase := .stored }) := by
  set u : State := { s with glob := loc } with hu
  set t : Thread := { s.threads tid with phase := .stored } with ht
  have hfits := hi.fits tid
  simp only [Thread.Fits, hp] at hfits
  obtain ⟨hj, hlow, hup, hlate⟩ := hfits
  have hold : (s.threads tid).stores = (s.threads tid).j := by simp [Thread.stores, hp]
  have hnew : t.stores = (s.threads tid).j + 1 := by simp [Thread.stores, ht]
  have hcount : (u.setThread tid t).stores = s.stores + 1 := by
    have hset := stores_setThread u tid t
    change _ + (s.threads tid).stores = s.stores + _ at hset
    omega
  refine ⟨⟨?_, ?_, ?_, ?_, ?_⟩, ?_⟩
  · intro v
    rw [hcount, threads_setThread]
    split
    · simpa [Thread.Fits, ht] using hj
    · exact (hi.fits v).mono (Nat.le_succ _)
  · change 0 ≤ loc
    omega
  · change loc ≤ _
    rw [hcount]
    exact_mod_cast hup
  · intro _ _
    exact hlow
  · by_cases hfirst : 1 ≤ (s.threads tid).j
    · exact .inl (hlate hfirst)
    · refine .inr ⟨tid, ?_⟩
      rw [threads_setThread, if_pos rfl, hnew]
      omega
  · have ho : Ordered u := hi.ordered
    refine ho.setThread ?_ ?_ t
    · change (s.threads tid).phase ≠ _
      simp [hp]
    · change (s.threads tid).phase ≠ _
      simp [hp]

theorem toInt_eq {z : ℤ} (hlow : 0 ≤ z) (hup : z < 2 ^ 31) : toInt z = z :=
  Int.bmod_eq_of_le (by omega) (by omega)

@[simp] theorem threads_putLine (s : State) (line : Line) :
    (s.putLine line).threads = s.threads := rfl

theorem Inv.move {t : Thread} (hi : Inv loops s) (ha : (s.threads tid).phase ≠ .absent)
    (hr : (s.threads tid).phase ≠ .returned) (hstores : t.stores = (s.threads tid).stores)
    (hfits : t.Fits loops s.stores) : Inv loops (s.setThread tid t) :=
  ⟨hi.advance hstores hfits, hi.ordered.setThread ha hr t⟩

theorem Inv.stores_lt {loc : ℤ} (hi : Inv loops s) (hp : (s.threads tid).phase = .loaded loc) :
    s.stores < 2 * loops := by
  have h₁ := (hi.fits .first).stores_le
  have h₂ := (hi.fits .second).stores_le
  have hown : (s.threads tid).stores = (s.threads tid).j := by simp [Thread.stores, hp]
  have hfits := hi.fits tid
  simp only [Thread.Fits, hp] at hfits
  have hj := hfits.1
  cases tid <;> simp only [State.stores] <;> omega

/-- One case for each point of the loop. No value leaves the range of an `int`. -/
theorem threadFunc_inv (hmax : 2 * loops < 2 ^ 31) (hi : Inv loops s)
    (hstep : threadFunc loops tid s = some s') : Inv loops s' := by
  have hfits := hi.fits tid
  cases hp : (s.threads tid).phase with
  | absent => simp [threadFunc, hp] at hstep
  | returned => simp [threadFunc, hp] at hstep
  | incremented loc =>
    simp only [threadFunc, hp, Option.some.injEq] at hstep
    subst hstep
    exact hi.store hp
  | entered =>
    simp only [Thread.Fits, hp] at hfits
    simp only [threadFunc, hp, Option.some.injEq] at hstep
    subst hstep
    exact hi.move (by simp [hp]) (by simp [hp]) (by simp [Thread.stores, hp]) hfits
  | greeting shown =>
    simp only [Thread.Fits, hp] at hfits
    simp only [threadFunc, hp, Option.some.injEq] at hstep
    subst hstep
    exact (hi.putLine _).move (by simp [hp]) (by simp [hp]) (by simp [Thread.stores, hp])
      (show (s.threads tid).j ≤ loops by omega)
  | testing =>
    simp only [Thread.Fits, hp] at hfits
    simp only [threadFunc, hp] at hstep
    split at hstep
    · next hj =>
      cases hstep
      refine hi.move (by simp [hp]) (by simp [hp]) (by simp [Thread.stores, hp])
        ⟨hj, hi.lower, hi.upper, fun hlate => hi.written tid ?_⟩
      simpa [Thread.stores, hp] using hlate
    · next hj =>
      cases hstep
      exact hi.move (by simp [hp]) (by simp [hp]) (by simp [Thread.stores, hp])
        (show (s.threads tid).j = loops by omega)
  | loaded loc =>
    simp only [Thread.Fits, hp] at hfits
    obtain ⟨hj, hlow, hup, hlate⟩ := hfits
    simp only [threadFunc, hp, Option.some.injEq] at hstep
    subst hstep
    have hcount := hi.stores_lt hp
    rw [toInt_eq (by omega) (by omega)]
    refine hi.move (by simp [hp]) (by simp [hp]) (by simp [Thread.stores, hp])
      ⟨hj, by omega, by omega, ?_⟩
    intro h
    have := hlate h
    omega
  | stored =>
    simp only [Thread.Fits, hp] at hfits
    simp only [threadFunc, hp, Option.some.injEq] at hstep
    subst hstep
    exact hi.move (by simp [hp]) (by simp [hp]) (by simp [Thread.stores, hp]) hfits
  | reporting shown =>
    simp only [Thread.Fits, hp] at hfits
    simp only [threadFunc, hp, Option.some.injEq] at hstep
    subst hstep
    exact (hi.putLine _).move (by simp [hp]) (by simp [hp]) (by simp [Thread.stores, hp])
      (show (s.threads tid).j + 1 ≤ loops by omega)

theorem Counted.create (hi : Counted loops s) (ha : (s.threads tid).phase = .absent) :
    Counted loops (s.setThread tid ⟨.entered, 0⟩) := by
  have hfits := hi.fits tid
  simp only [Thread.Fits, ha] at hfits
  refine hi.advance ?_ rfl
  simp [Thread.stores, ha, hfits]

theorem main_inv (hi : Inv loops s) (hstep : main s = some s') : Inv loops s' := by
  obtain ⟨hc, ho⟩ := hi
  unfold Ordered at ho
  have hframe : ∀ {u : State}, Counted loops u → ∀ m out,
      Counted loops { u with main := m, stdout := out } := by
    intro u hu m out
    exact ⟨hu.fits, hu.lower, hu.upper, hu.written, hu.twice⟩
  cases hm : s.main with
  | createFirst =>
    rw [hm] at ho
    simp only [main, hm, Option.some.injEq] at hstep
    subst hstep
    exact ⟨hframe (hc.create ho.1) _ _, ho.2⟩
  | createSecond =>
    rw [hm] at ho
    simp only [main, hm, Option.some.injEq] at hstep
    subst hstep
    exact ⟨hframe (hc.create ho) _ _, trivial⟩
  | joinFirst =>
    simp only [main, hm] at hstep
    split at hstep
    · next hr =>
      cases hstep
      exact ⟨hframe hc _ _, hr⟩
    · cases hstep
  | joinSecond =>
    rw [hm] at ho
    simp only [main, hm] at hstep
    split at hstep
    · next hr =>
      cases hstep
      exact ⟨hframe hc _ _, ho, hr⟩
    · cases hstep
  | print =>
    rw [hm] at ho
    simp only [main, hm, Option.some.injEq] at hstep
    subst hstep
    exact ⟨hframe hc _ _, ho⟩
  | exited => simp [main, hm] at hstep

theorem reachable_inv (hmax : 2 * loops < 2 ^ 31) (hr : Reachable (Step loops) start s) :
    Inv loops s := by
  obtain ⟨es, hrun⟩ := hr
  refine hrun.invariant (fun s a s' hi hstep => ?_) (start_inv loops)
  cases a with
  | main => exact main_inv hi hstep
  | thread tid => exact threadFunc_inv hmax hi hstep

theorem Inv.finished (hi : Inv loops s) (hm : s.main = .exited) (tid : Tid) :
    s.threads tid = ⟨.returned, loops⟩ := by
  have ho := hi.ordered
  unfold Ordered at ho
  rw [hm] at ho
  have hp : (s.threads tid).phase = .returned := by
    cases tid
    · exact ho.1
    · exact ho.2
  have hfits := hi.fits tid
  simp only [Thread.Fits, hp] at hfits
  rw [← hp, ← hfits]

/-- Both threads have done all their writes, so the last of them was not a first one. -/
theorem final_bounds (hloops : 0 < loops) (hi : Inv loops s) (hm : s.main = .exited) :
    min 2 (loops : ℤ) ≤ s.glob ∧ s.glob ≤ 2 * loops := by
  have hall : ∀ tid, (s.threads tid).stores = loops := by
    intro tid
    rw [hi.finished hm tid]
    rfl
  constructor
  · have hone := hi.written .first (by rw [hall]; exact hloops)
    rcases hi.twice with htwo | ⟨tid, htid⟩
    · exact min_le_of_left_le htwo
    · rw [hall] at htid
      exact min_le_of_right_le (by omega)
  · have hup := hi.upper
    rw [State.stores, hall, hall] at hup
    push_cast at hup
    omega

end Invariant

section Output

variable {loops : ℕ} {s s' : State} {tid : Tid}

def Line.isFrom (tid : Tid) : Line → Bool
  | .current u _ => u = tid
  | .final _ => false

def Thread.lines (t : Thread) : ℕ :=
  match t.phase with
  | .absent | .entered | .greeting _ => 0
  | _ => t.j + 1

structure Printed (s : State) : Prop where
  lines : ∀ tid, s.stdout.countP (Line.isFrom tid) = (s.threads tid).lines
  last : s.main = .exited → s.stdout.getLast? = some (.final s.glob)

theorem Printed.silent {t : Thread} (hp : Printed s) (hmain : s.main ≠ .exited)
    (hlines : t.lines = (s.threads tid).lines) (g : ℤ) :
    Printed ({ s with glob := g }.setThread tid t) := by
  refine ⟨fun u => ?_, fun hm => absurd hm hmain⟩
  rw [threads_setThread]
  split
  · next hu =>
    rw [hlines, ← hu]
    exact hp.lines u
  · exact hp.lines u

theorem Printed.printing {t : Thread} (hp : Printed s) (hmain : s.main ≠ .exited)
    (hlines : t.lines = (s.threads tid).lines + 1) (shown : ℤ) :
    Printed ((s.putLine (.current tid shown)).setThread tid t) := by
  refine ⟨fun u => ?_, fun hm => absurd hm hmain⟩
  change (s.stdout ++ [Line.current tid shown]).countP _ = _
  rw [threads_setThread, List.countP_append, hp.lines u]
  split
  · next hu =>
    rw [hlines, hu]
    simp [Line.isFrom]
  · next hu =>
    have hother : ¬ tid = u := fun heq => hu heq.symm
    simp [Line.isFrom, State.putLine, hother]

theorem threadFunc_printed (hi : Inv loops s) (hp : Printed s)
    (hstep : threadFunc loops tid s = some s') : Printed s' := by
  have hmain : s.main ≠ .exited := by
    intro hm
    have ho := hi.ordered
    simp only [Ordered, hm] at ho
    cases tid <;> simp [threadFunc, ho] at hstep
  cases hph : (s.threads tid).phase with
  | absent => simp [threadFunc, hph] at hstep
  | returned => simp [threadFunc, hph] at hstep
  | greeting shown =>
    simp only [threadFunc, hph, Option.some.injEq] at hstep
    subst hstep
    have hfits := hi.fits tid
    simp only [Thread.Fits, hph] at hfits
    exact hp.printing hmain (by simp [Thread.lines, hph, hfits]) shown
  | reporting shown =>
    simp only [threadFunc, hph, Option.some.injEq] at hstep
    subst hstep
    exact hp.printing hmain (by simp [Thread.lines, hph]) shown
  | testing =>
    simp only [threadFunc, hph] at hstep
    split at hstep <;> cases hstep <;>
      exact hp.silent hmain (by simp [Thread.lines, hph]) s.glob
  | _ =>
    simp only [threadFunc, hph, Option.some.injEq] at hstep
    subst hstep
    exact hp.silent hmain (by simp [Thread.lines, hph]) _

theorem main_printed (hi : Inv loops s) (hp : Printed s) (hstep : main s = some s') :
    Printed s' := by
  have ho := hi.ordered
  unfold Ordered at ho
  cases hm : s.main with
  | createFirst =>
    rw [hm] at ho
    simp only [main, hm, Option.some.injEq] at hstep
    subst hstep
    have hlines : Thread.lines ⟨.entered, 0⟩ = (s.threads .first).lines := by
      simp [Thread.lines, ho.1]
    have hcreated := hp.silent (by simp [hm]) hlines s.glob
    exact ⟨hcreated.lines, fun h => by cases h⟩
  | createSecond =>
    rw [hm] at ho
    simp only [main, hm, Option.some.injEq] at hstep
    subst hstep
    have hlines : Thread.lines ⟨.entered, 0⟩ = (s.threads .second).lines := by
      simp [Thread.lines, show (s.threads .second).phase = .absent from ho]
    have hcreated := hp.silent (by simp [hm]) hlines s.glob
    exact ⟨hcreated.lines, fun h => by cases h⟩
  | joinFirst =>
    simp only [main, hm] at hstep
    split at hstep <;> cases hstep
    exact ⟨hp.lines, fun h => by cases h⟩
  | joinSecond =>
    simp only [main, hm] at hstep
    split at hstep <;> cases hstep
    exact ⟨hp.lines, fun h => by cases h⟩
  | print =>
    simp only [main, hm, Option.some.injEq] at hstep
    subst hstep
    refine ⟨fun u => ?_, fun _ => List.getLast?_concat⟩
    change (s.stdout ++ [Line.final s.glob]).countP _ = _
    rw [List.countP_append, hp.lines u]
    rfl
  | exited => simp [main, hm] at hstep

theorem reachable_printed (hmax : 2 * loops < 2 ^ 31) (hr : Reachable (Step loops) start s) :
    Printed s := by
  obtain ⟨es, hrun⟩ := hr
  have hstart : Printed start := ⟨fun _ => rfl, fun h => by cases h⟩
  have hboth : Inv loops s ∧ Printed s := by
    refine hrun.invariant (P := fun s => Inv loops s ∧ Printed s) (fun s a s' hs hstep => ?_)
      ⟨start_inv loops, hstart⟩
    obtain ⟨hi, hp⟩ := hs
    cases a with
    | main => exact ⟨main_inv hi hstep, main_printed hi hp hstep⟩
    | thread tid => exact ⟨threadFunc_inv hmax hi hstep, threadFunc_printed hi hp hstep⟩
  exact hboth.2

end Output

section Schedules

variable {loops : ℕ}

def both (a b : Thread) : Tid → Thread
  | .first => a
  | .second => b

@[simp] theorem both_first (a b : Thread) : both a b .first = a := rfl

@[simp] theorem both_second (a b : Thread) : both a b .second = b := rfl

@[simp] theorem update_first (a b c : Thread) :
    Function.update (both a b) .first c = both c b := by
  funext tid
  cases tid <;> rfl

@[simp] theorem update_second (a b c : Thread) :
    Function.update (both a b) .second c = both a c := by
  funext tid
  cases tid <;> rfl

theorem start_eq : start = ⟨0, both ⟨.absent, 0⟩ ⟨.absent, 0⟩, .createFirst, []⟩ := by
  have hthreads : start.threads = both ⟨.absent, 0⟩ ⟨.absent, 0⟩ := by
    funext tid
    cases tid <;> rfl
  rw [← hthreads]
  rfl

/-- A schedule leads from one state to the other, whatever has been printed. -/
def Leads (loops : ℕ) (s s' : State) : Prop :=
  ∀ out, ∃ out', Reachable (Step loops) { s with stdout := out } { s' with stdout := out' }

theorem Leads.trans {s t u : State} (h : Leads loops s t) (k : Leads loops t u) :
    Leads loops s u := by
  intro out
  obtain ⟨out₁, h₁⟩ := h out
  obtain ⟨out₂, h₂⟩ := k out₁
  exact ⟨out₂, h₁.trans h₂⟩

theorem Leads.refl (s : State) : Leads loops s s := fun out => ⟨out, [], .refl _⟩

theorem leads_of_follow {s s' : State} (as : List Actor)
    (hrun : ∀ out, ∃ out', follow (next loops) { s with stdout := out } as =
      some { s' with stdout := out' }) : Leads loops s s' := by
  intro out
  obtain ⟨out', hout⟩ := hrun out
  exact ⟨out', as, follow_execution hout⟩

def State.placed (s : State) (tid : Tid) (g : ℤ) (t : Thread) : State :=
  { s with glob := g }.setThread tid t

theorem placed_first (g g' : ℤ) (a a' b : Thread) (m : Main) (out : List Line) :
    State.placed ⟨g, both a b, m, out⟩ .first g' a' = ⟨g', both a' b, m, out⟩ := by
  simp [State.placed, State.setThread]

theorem placed_second (g g' : ℤ) (a b b' : Thread) (m : Main) (out : List Line) :
    State.placed ⟨g, both a b, m, out⟩ .second g' b' = ⟨g', both a b', m, out⟩ := by
  simp [State.placed, State.setThread]

section Alone

variable (loops) (s : State) (tid : Tid)

theorem load_leads (g : ℤ) {j : ℕ} (hj : j < loops) :
    Leads loops (s.placed tid g ⟨.testing, j⟩) (s.placed tid g ⟨.loaded g, j⟩) := by
  refine leads_of_follow [.thread tid] fun out => ⟨out, ?_⟩
  simp [follow, next, threadFunc, hj, State.placed, State.setThread]

theorem complete_leads (g loc : ℤ) (j : ℕ) (hlow : 0 ≤ loc) (hup : loc + 1 < 2 ^ 31) :
    Leads loops (s.placed tid g ⟨.loaded loc, j⟩)
      (s.placed tid (loc + 1) ⟨.testing, j + 1⟩) := by
  have hint : toInt (loc + 1) = loc + 1 := toInt_eq (by omega) hup
  refine leads_of_follow [.thread tid, .thread tid, .thread tid, .thread tid]
    fun out => ⟨out ++ [.current tid (loc + 1)], ?_⟩
  simp [follow, next, threadFunc, State.placed, State.setThread, State.putLine, hint]

theorem rounds_leads {g : ℤ} {j : ℕ} (k : ℕ) (hj : j + k ≤ loops) (hlow : 0 ≤ g)
    (hup : g + k < 2 ^ 31) :
    Leads loops (s.placed tid g ⟨.testing, j⟩) (s.placed tid (g + k) ⟨.testing, j + k⟩) := by
  induction k with
  | zero => simpa using Leads.refl _
  | succ k ih =>
    push_cast at hup
    have hround := (load_leads loops s tid (g + k) (by omega : j + k < loops)).trans
      (complete_leads loops s tid (g + k) (g + k) (j + k) (by omega) (by omega))
    rw [Nat.cast_succ, ← Int.add_assoc]
    exact (ih (by omega) (by omega)).trans hround

end Alone

theorem start_leads (loops : ℕ) :
    Leads loops start ⟨0, both ⟨.testing, 0⟩ ⟨.testing, 0⟩, .joinFirst, []⟩ := by
  rw [start_eq]
  refine leads_of_follow [.main, .main, .thread .first, .thread .first, .thread .second,
    .thread .second] fun out => ⟨out ++ [.current .first 0, .current .second 0], ?_⟩
  simp [follow, next, main, threadFunc, State.setThread, State.putLine]

theorem leads_exited (g : ℤ) : Leads loops
    ⟨g, both ⟨.testing, loops⟩ ⟨.testing, loops⟩, .joinFirst, []⟩
    ⟨g, both ⟨.returned, loops⟩ ⟨.returned, loops⟩, .exited, []⟩ := by
  refine leads_of_follow [.thread .first, .thread .second, .main, .main, .main]
    fun out => ⟨out ++ [.final g], ?_⟩
  simp [follow, next, main, threadFunc, State.setThread, State.putLine]

/-- The first thread sleeps between its first read and its first write, while the second one
makes `d` rounds; these are lost, and no others. -/
theorem leads_some_lost {d : ℕ} (hloops : 0 < loops) (hmax : 2 * loops < 2 ^ 31)
    (hd : d ≤ loops) : Leads loops start
      ⟨2 * loops - d, both ⟨.returned, loops⟩ ⟨.returned, loops⟩, .exited, []⟩ := by
  have hload := load_leads loops ⟨0, both ⟨.testing, 0⟩ ⟨.testing, 0⟩, .joinFirst, []⟩ .first
    0 hloops
  have hlost := rounds_leads loops ⟨0, both ⟨.loaded 0, 0⟩ ⟨.testing, 0⟩, .joinFirst, []⟩ .second
    (g := 0) (j := 0) d (by omega) (by omega) (by omega)
  have hwrite := complete_leads loops ⟨0, both ⟨.loaded 0, 0⟩ ⟨.testing, 0 + d⟩, .joinFirst, []⟩
    .first (0 + d) 0 0 (by omega) (by omega)
  have hfirst := rounds_leads loops ⟨0, both ⟨.testing, 1⟩ ⟨.testing, 0 + d⟩, .joinFirst, []⟩
    .first (g := 0 + 1) (j := 0 + 1) (loops - 1) (by omega) (by omega) (by omega)
  have hsecond := rounds_leads loops ⟨0, both ⟨.testing, 0 + 1 + (loops - 1)⟩ ⟨.testing, 0⟩,
    .joinFirst, []⟩ .second (g := 0 + 1 + (loops - 1 : ℕ)) (j := 0 + d) (loops - d)
    (by omega) (by omega) (by omega)
  simp only [placed_first, placed_second] at hload hlost hwrite hfirst hsecond
  have hall := ((((start_leads loops).trans hload).trans hlost).trans hwrite).trans
    (hfirst.trans hsecond)
  have hj : 0 + 1 + (loops - 1) = loops := by omega
  have hj' : 0 + d + (loops - d) = loops := by omega
  have hg : (0 + 1 + (loops - 1 : ℕ) + (loops - d : ℕ) : ℤ) = 2 * loops - d := by omega
  rw [hj, hj', hg] at hall
  exact hall.trans (leads_exited _)

/-- Both threads sleep between a read and a write: the first one in its first round, the second
one in its last, after the first has made `x` more rounds. -/
theorem leads_most_lost {x : ℕ} (hmax : 2 * loops < 2 ^ 31) (hx : x + 2 ≤ loops) :
    Leads loops start
      ⟨x + 2, both ⟨.returned, loops⟩ ⟨.returned, loops⟩, .exited, []⟩ := by
  have hload := load_leads loops ⟨0, both ⟨.testing, 0⟩ ⟨.testing, 0⟩, .joinFirst, []⟩ .first
    (j := 0) 0 (by omega)
  have hlost := rounds_leads loops ⟨0, both ⟨.loaded 0, 0⟩ ⟨.testing, 0⟩, .joinFirst, []⟩ .second
    (g := 0) (j := 0) (loops - 1) (by omega) (by omega) (by omega)
  have hwrite := complete_leads loops ⟨0, both ⟨.loaded 0, 0⟩ ⟨.testing, 0 + (loops - 1)⟩,
    .joinFirst, []⟩ .first (0 + (loops - 1 : ℕ)) 0 0 (by omega) (by omega)
  have hmore := rounds_leads loops ⟨0, both ⟨.testing, 1⟩ ⟨.testing, 0 + (loops - 1)⟩,
    .joinFirst, []⟩ .first (g := 0 + 1) (j := 0 + 1) x (by omega) (by omega) (by omega)
  have hread := load_leads loops ⟨0, both ⟨.testing, 0 + 1 + x⟩ ⟨.testing, 0⟩, .joinFirst, []⟩
    .second (j := 0 + (loops - 1)) (0 + 1 + x) (by omega)
  have hfirst := rounds_leads loops ⟨0, both ⟨.testing, 1⟩
    ⟨.loaded (0 + 1 + x), 0 + (loops - 1)⟩, .joinFirst, []⟩ .first (g := 0 + 1 + x)
    (j := 0 + 1 + x) (loops - 1 - x) (by omega) (by omega) (by omega)
  have hlast := complete_leads loops ⟨0, both ⟨.testing, 0 + 1 + x + (loops - 1 - x)⟩
    ⟨.testing, 0⟩, .joinFirst, []⟩ .second (0 + 1 + x + (loops - 1 - x : ℕ)) (0 + 1 + x)
    (0 + (loops - 1)) (by omega) (by omega)
  simp only [placed_first, placed_second] at hload hlost hwrite hmore hread hfirst hlast
  have hall := (((((start_leads loops).trans hload).trans hlost).trans hwrite).trans
    (hmore.trans hread)).trans (hfirst.trans hlast)
  have hj : 0 + 1 + x + (loops - 1 - x) = loops := by omega
  have hj' : 0 + (loops - 1) + 1 = loops := by omega
  have hg : (0 + 1 + x + 1 : ℤ) = x + 2 := by omega
  rw [hj, hj', hg] at hall
  exact hall.trans (leads_exited _)

end Schedules

/-- What the program can end with: every value from two (or one, if each thread makes only one
round) up to the number of increments, and no other. At every end each thread has printed a line
more than it made rounds, and the last line is the final value. -/
theorem final_values (loops : ℕ) (hloops : 0 < loops) (hmax : 2 * loops < 2 ^ 31) :
    (∀ s, Reachable (Step loops) start s → s.main = .exited →
      (min 2 (loops : ℤ) ≤ s.glob ∧ s.glob ≤ 2 * loops) ∧
      s.stdout.getLast? = some (.final s.glob) ∧
      ∀ tid, s.stdout.countP (Line.isFrom tid) = loops + 1) ∧
    ∀ v : ℤ, (∃ s, Reachable (Step loops) start s ∧ s.main = .exited ∧
      s.stdout.getLast? = some (.final v) ∧
      ∀ tid, s.stdout.countP (Line.isFrom tid) = loops + 1) ↔
      min 2 (loops : ℤ) ≤ v ∧ v ≤ 2 * loops := by
  have hend : ∀ s, Reachable (Step loops) start s → s.main = .exited →
      (min 2 (loops : ℤ) ≤ s.glob ∧ s.glob ≤ 2 * loops) ∧
      s.stdout.getLast? = some (.final s.glob) ∧
      ∀ tid, s.stdout.countP (Line.isFrom tid) = loops + 1 := by
    intro s hr hm
    have hi := reachable_inv hmax hr
    have hp := reachable_printed hmax hr
    refine ⟨final_bounds hloops hi hm, hp.last hm, fun tid => ?_⟩
    rw [hp.lines, hi.finished hm tid]
    rfl
  refine ⟨hend, fun v => ⟨?_, ?_⟩⟩
  · rintro ⟨s, hr, hm, hlast, -⟩
    obtain ⟨hbounds, hglob, -⟩ := hend s hr hm
    rw [hlast] at hglob
    cases hglob
    exact hbounds
  · rintro ⟨hlow, hup⟩
    have hreach : Leads loops start
        ⟨v, both ⟨.returned, loops⟩ ⟨.returned, loops⟩, .exited, []⟩ := by
      by_cases hmany : (loops : ℤ) ≤ v
      · have hlost := leads_some_lost (d := (2 * loops - v).toNat) hloops hmax (by omega)
        rwa [show (2 * loops - ((2 * loops - v).toNat : ℕ) : ℤ) = v by omega] at hlost
      · have hlost := leads_most_lost (x := (v - 2).toNat) hmax (by omega)
        rwa [show (((v - 2).toNat : ℕ) + 2 : ℤ) = v by omega] at hlost
    obtain ⟨out, hr⟩ := hreach []
    obtain ⟨-, hlast, hlines⟩ := hend _ hr rfl
    exact ⟨_, hr, rfl, hlast, hlines⟩

/-- With the default of ten million rounds, all but two increments may be lost. -/
theorem ten_million_rounds_end_with_two : ∃ s, Reachable (Step 10000000) start s ∧
    s.main = .exited ∧ s.stdout.getLast? = some (.final 2) ∧
    ∀ tid, s.stdout.countP (Line.isFrom tid) = 10000000 + 1 :=
  ((final_values 10000000 (by decide) (by decide)).2 2).mpr (by decide)

end ThreadIncrement
