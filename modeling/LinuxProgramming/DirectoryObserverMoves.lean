import LinuxProgramming.DirectoryObserver

/-! Trees that are moved into the tree of the directory observer. The kernel tells of them with
`IN_MOVED_TO`, which the program only displays, so they get their watches only from a walk that is
on its way anyway. -/
namespace DirectoryObserverMoves

open TreeWalk TransitionSystems DirectoryObserver

section MovedTrees

variable {Name : Type u} [DecidableEq Name] {s t : Observer Name} {e : Event Name}
variable {w : Path Name} {a : Name} {tree : PathTree Name}

/-- The walk has still to list a directory on the way, or another walk will come. -/
def WalkAhead (s : Observer Name) (w : Path Name) : Prop :=
  CreatePending s ∨ ∃ task ∈ s.walk, task.path <+: w

theorem moved_kept (h : WalkAhead s w) (hw : w ∈ s.dirs) (q : Path Name) :
    Kept (place s w a tree hw (inMovedTo ||| inIsDir)) (w ++ a :: q) := by
  rcases h with hpending | ⟨task, htask, hpath⟩
  · exact Kept.place (Or.inr (Or.inl hpending)) hw _
  · exact Kept.place (Or.inr (Or.inr ⟨task, htask, covers_below hpath⟩)) hw _

theorem later_kept {d : Path Name} (h : Kept s d) (hd : d ∈ s.dirs)
    (hrun : Reachable LaterStep s t) : Kept t d := by
  obtain ⟨es, hrun⟩ := hrun
  have hboth : d ∈ t.dirs ∧ Kept t d := by
    apply hrun.invariant (P := fun s => d ∈ s.dirs ∧ Kept s d) _ ⟨hd, h⟩
    rintro s e t ⟨hd, hkept⟩ ⟨hstep, hcreate, hmove⟩
    have hm := moves_of_step hstep
    refine ⟨?_, kept_step hkept hd hm⟩
    cases hm with
    | create => exact absurd rfl (hcreate _ _)
    | moveIn => exact absurd rfl (hmove _ _ _)
    | _ => exact hd
  exact hboth.2

structure Missed (s : Observer Name) (w : Path Name) (a : Name) : Prop where
  pending : ¬ CreatePending s
  tasks : ∀ task ∈ s.walk, task.Apart w a
  watched : ∀ d ∈ s.watched, ¬ w ++ [a] <+: d

theorem moved_missed (hs : Sound s) (h : ¬ WalkAhead s w) (hw : w ∈ s.dirs)
    (hnew : w ++ [a] ∉ s.dirs) : Missed (place s w a tree hw (inMovedTo ||| inIsDir)) w a := by
  obtain ⟨hpending, htasks⟩ := not_or.mp h
  refine ⟨?_, ?_, ?_⟩
  · rintro ⟨m, hm, hcreate⟩
    have hm : m ∈ s.batch ++ s.queue ∨ m = inMovedTo ||| inIsDir := by
      simp only [place] at hm
      split at hm
      · simpa [or_assoc] using hm
      · exact Or.inl hm
    rcases hm with hm | rfl
    · exact hpending ⟨m, hm, hcreate⟩
    · exact absurd hcreate (by decide)
  · intro task htask
    refine ⟨fun hpath => htasks ⟨task, htask, hpath⟩, ?_⟩
    intro hbelow
    exact hnew (PathTree.mem_of_prefix (hs.tasks task htask) hbelow)
  · intro d hd hbelow
    exact hnew (PathTree.mem_of_prefix (hs.watched d hd) hbelow)

omit [DecidableEq Name] in
theorem Missed.events (h : Missed s w a) (hwatched : t.watched = s.watched)
    (hwalk : t.walk = s.walk)
    (hmasks : ∀ m ∈ t.batch ++ t.queue, isCreateDir m = true → m ∈ s.batch ++ s.queue) :
    Missed t w a := by
  refine ⟨?_, hwalk ▸ h.tasks, hwatched ▸ h.watched⟩
  rintro ⟨m, hm, hmask⟩
  exact h.pending ⟨m, hmasks m hm hmask, hmask⟩

theorem missed_step (h : Missed s w a) (hstep : LaterStep s e t) : Missed t w a := by
  obtain ⟨hstep, hcreate, hmove⟩ := hstep
  cases moves_of_step hstep with
  | @directoryAction p rest hwalk =>
    have hapart : (Todo.visit p).Apart w a := h.tasks _ (by simp [hwalk])
    refine ⟨h.pending, ?_, ?_⟩
    · intro task htask
      rcases List.mem_cons.mp htask with rfl | htask
      · exact hapart
      · exact h.tasks task (by simp [hwalk, htask])
    · intro d hd
      rcases List.mem_cons.mp hd with rfl | hd
      · exact hapart.2
      · exact h.watched d hd
  | @entries p rest order hwalk hperm =>
    refine ⟨h.pending, ?_, h.watched⟩
    intro task htask
    rcases List.mem_append.mp htask with htask | htask
    · obtain ⟨c, hc, rfl⟩ := List.mem_map.mp htask
      obtain ⟨_, b, rfl⟩ := PathTree.mem_children.mp (hperm.mem_iff.mp hc)
      exact apart_listed (h.tasks (.list p) (by simp [hwalk]))
    · exact h.tasks task (by simp [hwalk, htask])
  | read _ hbatch =>
    refine h.events rfl rfl ?_
    intro m hm _
    simpa [hbatch, List.take_append_drop] using hm
  | @rewalk mask rest _ hbatch hmask =>
    exact absurd ⟨mask, by simp [hbatch], hmask⟩ h.pending
  | @display mask rest _ hbatch _ =>
    refine h.events rfl rfl ?_
    intro m hm _
    rw [hbatch, List.cons_append]
    exact List.mem_cons_of_mem mask hm
  | create => exact absurd rfl (hcreate _ _)
  | moveIn => exact absurd rfl (hmove _ _ _)
  | @other mask hno =>
    refine h.events rfl rfl ?_
    intro m hm hmask
    rw [← List.append_assoc] at hm
    rcases List.mem_append.mp hm with hm | hm
    · exact hm
    · rw [List.mem_singleton.mp hm, hno] at hmask
      cases hmask

theorem later_missed (h : Missed s w a) (hrun : Reachable LaterStep s t) : Missed t w a := by
  obtain ⟨es, hrun⟩ := hrun
  exact hrun.invariant (P := fun s => Missed s w a) (fun s e t => missed_step) h

/-- A tree that is moved in gets its watches, whatever comes later, exactly if at that time the
current walk has still to list a directory on the way to it or an event for a new directory
waits. Otherwise not even its root gets one. -/
theorem moved_in_watched_iff (dirs : PathTree Name) (s moved : Observer Name) (w : Path Name)
    (a : Name) (tree : PathTree Name) (hs : Reachable Step (initial dirs) s)
    (hmove : Step s (.moveIn w a tree) moved) :
    ((∀ t, Reachable LaterStep moved t → Quiet t → ∀ q ∈ tree, w ++ a :: q ∈ t.watched) ↔
      WalkAhead s w) ∧
    (¬ WalkAhead s w → ∀ t, Reachable LaterStep moved t → w ++ [a] ∉ t.watched) := by
  cases moves_of_step hmove with
  | moveIn hw hnew =>
    have hmissed : ¬ WalkAhead s w → ∀ t,
        Reachable LaterStep (place s w a tree hw (inMovedTo ||| inIsDir)) t →
        w ++ [a] ∉ t.watched := by
      intro hnot t hrun hin
      have hmissed := later_missed (moved_missed (reachable_sound hs) hnot hw hnew) hrun
      exact hmissed.watched _ hin (List.prefix_refl _)
    refine ⟨⟨?_, ?_⟩, hmissed⟩
    · intro hall
      by_contra hnot
      obtain ⟨t, hrun, hq⟩ := comes_to_rest (place s w a tree hw (inMovedTo ||| inIsDir))
      exact hmissed hnot t hrun (hall t hrun hq [] tree.root)
    · intro hahead t hrun hq q hin
      have hd : w ++ a :: q ∈ (place s w a tree hw (inMovedTo ||| inIsDir)).dirs :=
        (PathTree.mem_graft hw).mpr (Or.inr ⟨q, hin, rfl⟩)
      exact hq.watched (later_kept (moved_kept hahead hw q) hd hrun)

theorem moved_in_early_watched : ∃ s moved t : Observer ℕ, Reachable Step (initial .leaf) s ∧
    Step s (.moveIn [] 1 .leaf) moved ∧ Reachable LaterStep moved t ∧ Quiet t ∧
    [1] ∈ t.watched := by
  have hs : step (initial (PathTree.leaf : PathTree ℕ)) .directoryAction =
      some ⟨.leaf, [[]], [.list []], [], []⟩ := rfl
  have hreach : Reachable Step (initial .leaf) (⟨.leaf, [[]], [.list []], [], []⟩ : Observer ℕ) :=
    ⟨_, .single hs⟩
  have hrun : ((step (⟨.leaf, [[]], [.list []], [], []⟩ : Observer ℕ) (.moveIn [] 1 .leaf)).bind
      (follow step · [.entries [[1]], .directoryAction, .entries [], .read 1, .handle])).map
      (fun t => decide (Quiet t)) = some true := by decide +kernel
  obtain ⟨t, hmt, hend⟩ := Option.map_eq_some_iff.mp hrun
  obtain ⟨moved, hmove, ht⟩ := Option.bind_eq_some_iff.mp hmt
  have hq : Quiet t := of_decide_eq_true hend
  have hlater : Reachable LaterStep moved t := ⟨_, follow_guarded ht (by simp)⟩
  have hiff := (moved_in_watched_iff .leaf _ moved [] 1 .leaf hreach hmove).1
  have hall := hiff.mpr (Or.inr ⟨.list [], by simp, List.prefix_refl []⟩) t hlater hq
  exact ⟨_, moved, t, hreach, hmove, hlater, hq, hall [] PathTree.leaf.root⟩

/-- A directory is moved into the watched root when the program has nothing to do: its event
is displayed, and it never gets a watch. -/
theorem moved_in_unwatched : ∃ s moved t : Observer ℕ, Reachable Step (initial .leaf) s ∧
    [] ∈ s.watched ∧ Step s (.moveIn [] 1 .leaf) moved ∧ Reachable LaterStep moved t ∧
    Quiet t ∧ [1] ∈ t.dirs ∧ [1] ∉ t.watched := by
  have hs : follow step (initial (PathTree.leaf : PathTree ℕ)) [.directoryAction, .entries []] =
      some ⟨.leaf, [[]], [], [], []⟩ := rfl
  have hreach : Reachable Step (initial .leaf) (⟨.leaf, [[]], [], [], []⟩ : Observer ℕ) :=
    ⟨_, follow_execution hs⟩
  have hrun : ((step (⟨.leaf, [[]], [], [], []⟩ : Observer ℕ) (.moveIn [] 1 .leaf)).bind
      (follow step · [.read 1, .handle])).map
      (fun t => (t.dirs.paths, t.watched, decide (Quiet t))) = some ([[], [1]], [[]], true) := by
    decide +kernel
  obtain ⟨t, hmt, hend⟩ := Option.map_eq_some_iff.mp hrun
  obtain ⟨moved, hmove, ht⟩ := Option.bind_eq_some_iff.mp hmt
  obtain ⟨hdirs, hwatched, hq⟩ : t.dirs.paths = [[], [1]] ∧ t.watched = [[]] ∧ Quiet t := by
    simpa using hend
  have hin : [1] ∈ t.dirs := by
    change [1] ∈ t.dirs.paths
    simp [hdirs]
  exact ⟨_, moved, t, hreach, by simp, hmove, ⟨_, follow_guarded ht (by simp)⟩, hq, hin,
    by simp [hwatched]⟩

end MovedTrees

end DirectoryObserverMoves
