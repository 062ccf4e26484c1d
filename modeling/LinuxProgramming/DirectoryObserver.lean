import Mathlib.Data.List.Perm.Basic
import LinuxProgramming.TreeWalk
import LinuxProgramming.TransitionSystems

/-! The directory observer of `directory_observer.c`: `nftw` puts a watch on every directory
below the root, and each event for a directory that was created makes the program walk the whole
tree again. Other processes add directories at any time, by `mkdir` or by moving a tree in. Of an
event only its mask is kept; no call fails, and there are no symbolic links. -/
namespace DirectoryObserver

open TreeWalk TransitionSystems

abbrev Mask := BitVec 32

def inMovedTo : Mask := 0x00000080
def inCreate : Mask := 0x00000100
def inIsDir : Mask := 0x40000000

def isCreateDir (mask : Mask) : Bool := mask &&& inCreate ≠ 0 && mask &&& inIsDir ≠ 0

/-- The directories below the root, those with a watch, what the current `nftw` has still to do,
the rest of the buffer, and the events that wait to be read. -/
structure Observer (Name : Type u) where
  dirs : PathTree Name
  watched : List (Path Name)
  walk : List (Todo Name)
  batch : List Mask
  queue : List Mask

inductive Event (Name : Type u) where
  | directoryAction
  | entries (order : List (Path Name))
  | read (count : ℕ)
  | handle
  | create (parent : Path Name) (name : Name)
  | moveIn (parent : Path Name) (name : Name) (tree : PathTree Name)
  | other (mask : Mask)

section Source

variable {Name : Type u} [DecidableEq Name]

def initial (dirs : PathTree Name) : Observer Name := ⟨dirs, [], [.visit []], [], []⟩

/-- The callback of `nftw`, which then lists the directory. -/
def directoryAction (s : Observer Name) : Option (Observer Name) :=
  match s.walk with
  | .visit p :: rest => some { s with watched := p :: s.watched, walk := .list p :: rest }
  | _ => none

/-- `nftw` finds the entries that are there now, in some order. -/
def entries (s : Observer Name) (order : List (Path Name)) : Option (Observer Name) :=
  match s.walk with
  | .list p :: rest =>
    if order.Perm (s.dirs.children p) then some { s with walk := order.map .visit ++ rest }
    else none
  | _ => none

/-- `read` waits for an event and returns some of those that are there. -/
def readEvents (s : Observer Name) (count : ℕ) : Option (Observer Name) :=
  if s.walk = [] ∧ s.batch = [] ∧ 0 < count ∧ count ≤ s.queue.length then
    some { s with batch := s.queue.take count, queue := s.queue.drop count }
  else none

def handleEvent (s : Observer Name) : Option (Observer Name) :=
  match s.walk, s.batch with
  | [], mask :: rest =>
    if isCreateDir mask then some { s with batch := rest, walk := [.visit []] }
    else some { s with batch := rest }
  | _, _ => none

/-- A new tree below a directory; the kernel tells so if there is a watch. -/
def place (s : Observer Name) (p : Path Name) (a : Name) (tree : PathTree Name) (hp : p ∈ s.dirs)
    (mask : Mask) : Observer Name :=
  { s with
    dirs := s.dirs.graft p a tree hp
    queue := if s.watched.contains p then s.queue ++ [mask] else s.queue }

def step (s : Observer Name) : Event Name → Option (Observer Name)
  | .directoryAction => directoryAction s
  | .entries order => entries s order
  | .read count => readEvents s count
  | .handle => handleEvent s
  | .create p a =>
    if h : p ∈ s.dirs ∧ p ++ [a] ∉ s.dirs then some (place s p a .leaf h.1 (inCreate ||| inIsDir))
    else none
  | .moveIn p a tree =>
    if h : p ∈ s.dirs ∧ p ++ [a] ∉ s.dirs then some (place s p a tree h.1 (inMovedTo ||| inIsDir))
    else none
  | .other mask => if isCreateDir mask then none else some { s with queue := s.queue ++ [mask] }

def Step (s : Observer Name) (e : Event Name) (t : Observer Name) : Prop := step s e = some t

def Quiet (s : Observer Name) : Prop := s.walk = [] ∧ s.batch = [] ∧ s.queue = []

instance (s : Observer Name) : Decidable (Quiet s) := inferInstanceAs (Decidable (_ ∧ _))

end Source

section Steps

variable {Name : Type u} [DecidableEq Name] {s t : Observer Name} {e : Event Name}

inductive Moves (s : Observer Name) : Event Name → Observer Name → Prop where
  | directoryAction {p rest} : s.walk = .visit p :: rest →
      Moves s .directoryAction { s with watched := p :: s.watched, walk := .list p :: rest }
  | entries {p rest order} : s.walk = .list p :: rest → order.Perm (s.dirs.children p) →
      Moves s (.entries order) { s with walk := order.map .visit ++ rest }
  | read {count} : s.walk = [] → s.batch = [] →
      Moves s (.read count) { s with batch := s.queue.take count, queue := s.queue.drop count }
  | rewalk {mask rest} : s.walk = [] → s.batch = mask :: rest → isCreateDir mask = true →
      Moves s .handle { s with batch := rest, walk := [.visit []] }
  | display {mask rest} : s.walk = [] → s.batch = mask :: rest → isCreateDir mask = false →
      Moves s .handle { s with batch := rest }
  | create {p a} (hp : p ∈ s.dirs) : p ++ [a] ∉ s.dirs →
      Moves s (.create p a) (place s p a .leaf hp (inCreate ||| inIsDir))
  | moveIn {p a tree} (hp : p ∈ s.dirs) : p ++ [a] ∉ s.dirs →
      Moves s (.moveIn p a tree) (place s p a tree hp (inMovedTo ||| inIsDir))
  | other {mask} : isCreateDir mask = false →
      Moves s (.other mask) { s with queue := s.queue ++ [mask] }

theorem moves_of_step (h : Step s e t) : Moves s e t := by
  cases e with
  | directoryAction =>
    simp only [Step, step, DirectoryObserver.directoryAction] at h
    split at h
    · next hwalk => cases h; exact .directoryAction hwalk
    · cases h
  | entries order =>
    simp only [Step, step, DirectoryObserver.entries] at h
    split at h
    · next hwalk =>
      split at h
      · next hperm => cases h; exact .entries hwalk hperm
      · cases h
    · cases h
  | read count =>
    simp only [Step, step, readEvents] at h
    split at h
    · next hread => cases h; exact .read hread.1 hread.2.1
    · cases h
  | handle =>
    simp only [Step, step, handleEvent] at h
    split at h
    · next hwalk hbatch =>
      split at h
      · next hmask => cases h; exact .rewalk hwalk hbatch hmask
      · next hmask => cases h; exact .display hwalk hbatch (by simpa using hmask)
    · cases h
  | create p a =>
    simp only [Step, step] at h
    split at h
    · next hp => cases h; exact .create hp.1 hp.2
    · cases h
  | moveIn p a tree =>
    simp only [Step, step] at h
    split at h
    · next hp => cases h; exact .moveIn hp.1 hp.2
    · cases h
  | other mask =>
    simp only [Step, step] at h
    split at h
    · cases h
    · next hmask => cases h; exact .other (by simpa using hmask)

structure Sound (s : Observer Name) : Prop where
  watched : ∀ d ∈ s.watched, d ∈ s.dirs
  tasks : ∀ task ∈ s.walk, task.path ∈ s.dirs

omit [DecidableEq Name] in
theorem initial_sound (dirs : PathTree Name) : Sound (initial dirs) := by
  refine ⟨by simp [initial], ?_⟩
  intro task htask
  cases List.mem_singleton.mp htask
  exact dirs.root

theorem Sound.place (h : Sound s) {p : Path Name} {a : Name} {tree : PathTree Name}
    (hp : p ∈ s.dirs) (mask : Mask) : Sound (place s p a tree hp mask) := by
  refine ⟨?_, ?_⟩
  · intro d hd
    exact (PathTree.mem_graft hp).mpr (Or.inl (h.watched d hd))
  · intro task htask
    exact (PathTree.mem_graft hp).mpr (Or.inl (h.tasks task htask))

theorem sound_step (h : Sound s) (hm : Moves s e t) : Sound t := by
  cases hm with
  | @directoryAction p rest hwalk =>
    have hp : p ∈ s.dirs := h.tasks (.visit p) (by simp [hwalk])
    refine ⟨?_, ?_⟩
    · intro d hd
      rcases List.mem_cons.mp hd with rfl | hd
      · exact hp
      · exact h.watched d hd
    · intro task htask
      rcases List.mem_cons.mp htask with rfl | htask
      · exact hp
      · exact h.tasks task (by simp [hwalk, htask])
  | @entries p rest order hwalk hperm =>
    refine ⟨h.watched, ?_⟩
    intro task htask
    rcases List.mem_append.mp htask with htask | htask
    · obtain ⟨c, hc, rfl⟩ := List.mem_map.mp htask
      exact (PathTree.mem_children.mp (hperm.mem_iff.mp hc)).1
    · exact h.tasks task (by simp [hwalk, htask])
  | read _ _ => exact ⟨h.watched, h.tasks⟩
  | rewalk hwalk _ _ =>
    refine ⟨h.watched, ?_⟩
    intro task htask
    cases List.mem_singleton.mp htask
    exact s.dirs.root
  | display _ _ _ => exact ⟨h.watched, h.tasks⟩
  | create hp _ => exact h.place hp _
  | moveIn hp _ => exact h.place hp _
  | other _ => exact ⟨h.watched, h.tasks⟩

theorem reachable_sound {dirs : PathTree Name} (h : Reachable Step (initial dirs) s) : Sound s := by
  obtain ⟨es, hrun⟩ := h
  apply hrun.invariant _ (initial_sound dirs)
  intro s e t hs hstep
  exact sound_step hs (moves_of_step hstep)

end Steps

section Accounts

variable {Name : Type u} [DecidableEq Name] {s t : Observer Name} {e : Event Name}
variable {d : Path Name}

def CreatePending (s : Observer Name) : Prop := ∃ mask ∈ s.batch ++ s.queue, isCreateDir mask = true

/-- The directory has its watch, or something is still to come that will put it there. -/
def Kept (s : Observer Name) (d : Path Name) : Prop :=
  d ∈ s.watched ∨ CreatePending s ∨ ∃ task ∈ s.walk, task.Covers d

omit [DecidableEq Name] in
theorem Kept.events (h : Kept s d) (hwatched : t.watched = s.watched) (hwalk : t.walk = s.walk)
    (hmasks : ∀ m ∈ s.batch ++ s.queue, isCreateDir m = true → m ∈ t.batch ++ t.queue) :
    Kept t d := by
  rcases h with hin | ⟨m, hm, hcreate⟩ | hcovers
  · exact Or.inl (hwatched ▸ hin)
  · exact Or.inr (Or.inl ⟨m, hmasks m hm hcreate, hcreate⟩)
  · exact Or.inr (Or.inr (hwalk ▸ hcovers))

theorem Kept.place (h : Kept s d) {p : Path Name} {a : Name} {tree : PathTree Name}
    (hp : p ∈ s.dirs) (mask : Mask) : Kept (place s p a tree hp mask) d := by
  refine h.events rfl rfl ?_
  intro m hm _
  simp only [DirectoryObserver.place]
  split
  · rw [← List.append_assoc]
    exact List.mem_append_left _ hm
  · exact hm

theorem kept_step (h : Kept s d) (hd : d ∈ s.dirs) (hm : Moves s e t) : Kept t d := by
  cases hm with
  | @directoryAction p rest hwalk =>
    rcases h with hwatched | hpending | ⟨task, htask, hcovers⟩
    · exact Or.inl (List.mem_cons_of_mem p hwatched)
    · exact Or.inr (Or.inl hpending)
    · rw [hwalk] at htask
      rcases List.mem_cons.mp htask with rfl | htask
      · rcases covers_visited hcovers with rfl | hlist
        · exact Or.inl List.mem_cons_self
        · exact Or.inr (Or.inr ⟨_, List.mem_cons_self, hlist⟩)
      · exact Or.inr (Or.inr ⟨task, List.mem_cons_of_mem _ htask, hcovers⟩)
  | @entries p rest order hwalk hperm =>
    rcases h with hwatched | hpending | ⟨task, htask, hcovers⟩
    · exact Or.inl hwatched
    · exact Or.inr (Or.inl hpending)
    · rw [hwalk] at htask
      rcases List.mem_cons.mp htask with rfl | htask
      · -- the next directory on the way exists, so it is among the entries
        obtain ⟨c, hc, hvisit⟩ := covers_listed hcovers hd
        have hin := List.mem_map_of_mem (f := Todo.visit) (hperm.mem_iff.mpr hc)
        exact Or.inr (Or.inr ⟨_, List.mem_append_left rest hin, hvisit⟩)
      · exact Or.inr (Or.inr ⟨task, List.mem_append_right _ htask, hcovers⟩)
  | read _ hbatch =>
    refine h.events rfl rfl ?_
    intro m hm _
    simpa [hbatch, List.take_append_drop] using hm
  | rewalk =>
    -- the event is used up, but the new walk starts at the root
    exact Or.inr (Or.inr ⟨_, List.mem_singleton_self _, List.nil_prefix⟩)
  | display _ hbatch hmask =>
    refine h.events rfl rfl ?_
    intro m hm hcreate
    rw [hbatch, List.cons_append] at hm
    rcases List.mem_cons.mp hm with rfl | hm
    · simp [hmask] at hcreate
    · exact hm
  | create hp _ => exact h.place hp _
  | moveIn hp _ => exact h.place hp _
  | other _ =>
    refine h.events rfl rfl ?_
    intro m hm _
    rw [← List.append_assoc]
    exact List.mem_append_left _ hm

/-- A directory that appears below one that is kept is kept itself: its parent has a watch and
the kernel tells, or what leads to the parent leads to it. -/
theorem kept_created {p : Path Name} {a : Name} (h : Kept s p) (hp : p ∈ s.dirs) :
    Kept (place s p a .leaf hp (inCreate ||| inIsDir)) (p ++ [a]) := by
  by_cases hwatched : p ∈ s.watched
  · refine Or.inr (Or.inl ⟨inCreate ||| inIsDir, ?_, by decide⟩)
    simp [place, hwatched]
  · rcases h with hin | ⟨m, hm, hcreate⟩ | ⟨task, htask, hcovers⟩
    · exact absurd hin hwatched
    · refine Or.inr (Or.inl ⟨m, ?_, hcreate⟩)
      simpa [place, hwatched] using hm
    · exact Or.inr (Or.inr ⟨task, htask, hcovers.longer (List.prefix_append p [a])⟩)

omit [DecidableEq Name] in
theorem Quiet.watched (hq : Quiet s) (h : Kept s d) : d ∈ s.watched := by
  obtain ⟨hwalk, hbatch, hqueue⟩ := hq
  rcases h with hwatched | ⟨m, hm, _⟩ | ⟨task, htask, _⟩
  · exact hwatched
  · simp [hbatch, hqueue] at hm
  · simp [hwalk] at htask

end Accounts

section Rest

variable {Name : Type u} [DecidableEq Name] {s t u : Observer Name} {p : Path Name}
variable {rest rest' : List (Todo Name)} {n : ℕ}

def LaterStep (s : Observer Name) (e : Event Name) (t : Observer Name) : Prop :=
  Step s e t ∧ (∀ p a, e ≠ .create p a) ∧ ∀ p a tree, e ≠ .moveIn p a tree

/-- The walk comes down to the rest while nothing else changes. -/
structure WalksTo (s : Observer Name) (rest : List (Todo Name)) (t : Observer Name) : Prop where
  run : Reachable LaterStep s t
  walk : t.walk = rest
  dirs : t.dirs = s.dirs
  batch : t.batch = s.batch
  queue : t.queue = s.queue

theorem WalksTo.trans (h : WalksTo s rest t) (h' : WalksTo t rest' u) : WalksTo s rest' u :=
  ⟨h.run.trans h'.run, h'.walk, h'.dirs.trans h.dirs, h'.batch.trans h.batch,
    h'.queue.trans h.queue⟩

theorem visited (h : s.walk = .visit p :: rest) : ∃ t, WalksTo s (.list p :: rest) t := by
  have hstep : step s .directoryAction =
      some { s with watched := p :: s.watched, walk := .list p :: rest } := by
    simp [step, directoryAction, h]
  exact ⟨_, ⟨_, .single ⟨hstep, by simp, by simp⟩⟩, rfl, rfl, rfl, rfl⟩

theorem listed (h : s.walk = .list p :: rest) :
    ∃ t, WalksTo s ((s.dirs.children p).map .visit ++ rest) t := by
  have hstep : step s (.entries (s.dirs.children p)) =
      some { s with walk := (s.dirs.children p).map .visit ++ rest } := by
    simp [step, entries, h]
  exact ⟨_, ⟨_, .single ⟨hstep, by simp, by simp⟩⟩, rfl, rfl, rfl, rfl⟩

theorem visits_done {dirs : PathTree Name} {cs : List (Path Name)} (hone : ∀ c ∈ cs,
      ∀ (t : Observer Name) rest, t.dirs = dirs → t.walk = .list c :: rest → ∃ u, WalksTo t rest u)
    (hdirs : t.dirs = dirs) (hwalk : t.walk = cs.map .visit ++ rest) : ∃ u, WalksTo t rest u := by
  induction cs generalizing t with
  | nil => exact ⟨t, ⟨[], .refl t⟩, hwalk, rfl, rfl, rfl⟩
  | cons c cs ih =>
    obtain ⟨u, hu⟩ := visited hwalk
    have hdirs' := hu.dirs.trans hdirs
    obtain ⟨v, hv⟩ := hone c List.mem_cons_self u _ hdirs' hu.walk
    obtain ⟨last, hlast⟩ := ih (fun c' hc' => hone c' (List.mem_cons_of_mem c hc'))
      (hv.dirs.trans hdirs') hv.walk
    exact ⟨last, (hu.trans hv).trans hlast⟩

theorem children_done (h : s.walk = .list p :: rest) (hone : ∀ c ∈ s.dirs.children p,
      ∀ (t : Observer Name) rest, t.dirs = s.dirs → t.walk = .list c :: rest →
        ∃ u, WalksTo t rest u) : ∃ t, WalksTo s rest t := by
  obtain ⟨t, ht⟩ := listed h
  obtain ⟨u, hu⟩ := visits_done hone ht.dirs ht.walk
  exact ⟨u, ht.trans hu⟩

/-- The directory and all below it, up to a depth that nothing exceeds. -/
theorem list_done (h : s.walk = .list p :: rest)
    (hdeep : ∀ d ∈ s.dirs, p <+: d → d.length ≤ p.length + n) : ∃ t, WalksTo s rest t := by
  induction n generalizing s p rest with
  | zero =>
    apply children_done h
    intro c hc
    obtain ⟨hin, a, rfl⟩ := PathTree.mem_children.mp hc
    have hle := hdeep _ hin (List.prefix_append p [a])
    simp only [List.length_append, List.length_singleton] at hle
    omega
  | succ n ih =>
    apply children_done h
    intro c hc t rest hdirs hwalk
    obtain ⟨_, a, rfl⟩ := PathTree.mem_children.mp hc
    apply ih hwalk
    intro d hd hbelow
    have hle := hdeep d (hdirs ▸ hd) ((List.prefix_append p [a]).trans hbelow)
    simp only [List.length_append, List.length_singleton]
    omega

theorem walk_done (s : Observer Name) : ∃ t, WalksTo s [] t := by
  obtain ⟨todo, htodo⟩ : ∃ todo, s.walk = todo := ⟨_, rfl⟩
  induction todo generalizing s with
  | nil => exact ⟨s, ⟨[], .refl s⟩, htodo, rfl, rfl, rfl⟩
  | cons task rest ih =>
    have hlist : ∀ (s : Observer Name) p, s.walk = .list p :: rest → ∃ t, WalksTo s rest t := by
      intro s p hs
      obtain ⟨n, hn⟩ := s.dirs.bounded
      exact list_done hs fun d hd _ => (hn d hd).trans (Nat.le_add_left n p.length)
    have hfirst : ∃ t, WalksTo s rest t := by
      cases task with
      | visit p =>
        obtain ⟨t, ht⟩ := visited htodo
        obtain ⟨u, hu⟩ := hlist t p ht.walk
        exact ⟨u, ht.trans hu⟩
      | list p => exact hlist s p htodo
    obtain ⟨t, ht⟩ := hfirst
    obtain ⟨u, hu⟩ := ih t ht.walk
    exact ⟨u, ht.trans hu⟩

theorem batch_done (s : Observer Name) :
    ∃ t, Reachable LaterStep s t ∧ t.walk = [] ∧ t.batch = [] ∧ t.queue = s.queue := by
  obtain ⟨masks, hmasks⟩ : ∃ masks, s.batch = masks := ⟨_, rfl⟩
  induction masks generalizing s with
  | nil =>
    obtain ⟨t, ht⟩ := walk_done s
    exact ⟨t, ht.run, ht.walk, ht.batch.trans hmasks, ht.queue⟩
  | cons mask masks ih =>
    obtain ⟨t, ht⟩ := walk_done s
    have hhandle : ∃ u, step t .handle = some u ∧ u.batch = masks ∧ u.queue = t.queue := by
      simp only [step, handleEvent, ht.walk, ht.batch.trans hmasks]
      split
      · exact ⟨_, rfl, rfl, rfl⟩
      · exact ⟨_, rfl, rfl, rfl⟩
    obtain ⟨u, hu, hbatch, hqueue⟩ := hhandle
    obtain ⟨v, hrun, hwalk, hdone, hsame⟩ := ih u hbatch
    refine ⟨v, ht.run.trans (Reachable.trans ⟨_, .single ⟨hu, by simp, by simp⟩⟩ hrun), hwalk,
      hdone, ?_⟩
    exact hsame.trans (hqueue.trans ht.queue)

theorem comes_to_rest (s : Observer Name) : ∃ t, Reachable LaterStep s t ∧ Quiet t := by
  obtain ⟨t, hrun, hwalk, hbatch, _⟩ := batch_done s
  by_cases hempty : t.queue = []
  · exact ⟨t, hrun, hwalk, hbatch, hempty⟩
  · have hread : step t (.read t.queue.length) =
        some { t with batch := t.queue, queue := [] } := by
      have hpos : 0 < t.queue.length := List.length_pos_iff.mpr hempty
      simp [step, readEvents, hwalk, hbatch, hpos]
    obtain ⟨u, hrest, hwalk', hbatch', hqueue'⟩ :=
      batch_done { t with batch := t.queue, queue := [] }
    refine ⟨u, hrun.trans (Reachable.trans ⟨_, .single ⟨hread, by simp, by simp⟩⟩ hrest), ?_⟩
    exact ⟨hwalk', hbatch', hqueue'⟩

end Rest

section NewSubdirectories

variable {Name : Type u} [DecidableEq Name] {s t : Observer Name} {e : Event Name}

/-- Directories appear only by `mkdir`. -/
def CreatingStep (s : Observer Name) (e : Event Name) (t : Observer Name) : Prop :=
  Step s e t ∧ ∀ p a tree, e ≠ .moveIn p a tree

theorem all_kept_step (h : ∀ d ∈ s.dirs, Kept s d) (hstep : CreatingStep s e t) :
    ∀ d ∈ t.dirs, Kept t d := by
  obtain ⟨hstep, hno⟩ := hstep
  have hm := moves_of_step hstep
  intro d hd
  by_cases hold : d ∈ s.dirs
  · exact kept_step (h d hold) hold hm
  · cases hm with
    | @create p a hp _ =>
      rcases (PathTree.mem_graft hp).mp hd with hd | ⟨q, hq, rfl⟩
      · exact absurd hd hold
      · cases List.mem_singleton.mp hq
        exact kept_created (h p hp) hp
    | moveIn => exact absurd rfl (hno _ _ _)
    | _ => exact absurd hd hold

theorem creating_all_kept {dirs : PathTree Name} (h : Reachable CreatingStep (initial dirs) s) :
    ∀ d ∈ s.dirs, Kept s d := by
  obtain ⟨es, hrun⟩ := h
  apply hrun.invariant (P := fun s => ∀ d ∈ s.dirs, Kept s d) fun s e t => all_kept_step
  intro d _
  exact Or.inr (Or.inr ⟨_, List.mem_singleton_self _, List.nil_prefix⟩)

/-- Whenever the program has nothing left to do, every directory has its watch; and when no more
directories appear, it comes to that. -/
theorem quiet_all_watched (dirs : PathTree Name) (s : Observer Name)
    (h : Reachable CreatingStep (initial dirs) s) :
    (Quiet s → ∀ d ∈ s.dirs, d ∈ s.watched) ∧ ∃ t, Reachable LaterStep s t ∧ Quiet t :=
  ⟨fun hq d hd => hq.watched (creating_all_kept h d hd), comes_to_rest s⟩

/-- A directory that is created between the watch and the listing of its parent, and another
one below it before it has a watch itself. -/
theorem nested_creation_watched : ∃ s : Observer ℕ, Reachable CreatingStep (initial .leaf) s ∧
    [1, 2] ∈ s.dirs ∧ [1, 2] ∈ s.watched := by
  have hrun : (follow step (initial (PathTree.leaf : PathTree ℕ)) [.directoryAction, .create [] 1,
      .create [1] 2, .entries [[1]], .directoryAction, .entries [[1, 2]], .directoryAction,
      .entries [], .read 1, .handle, .directoryAction, .entries [[1]], .directoryAction,
      .entries [[1, 2]], .directoryAction, .entries []]).map
      (fun s => (s.dirs.paths, decide (Quiet s))) = some ([[], [1], [1, 2]], true) := by
    decide +kernel
  obtain ⟨s, hs, hend⟩ := Option.map_eq_some_iff.mp hrun
  obtain ⟨hdirs, hq⟩ : s.dirs.paths = [[], [1], [1, 2]] ∧ Quiet s := by simpa using hend
  have hreach : Reachable CreatingStep (initial (PathTree.leaf : PathTree ℕ)) s :=
    ⟨_, follow_guarded hs (by simp)⟩
  have hin : [1, 2] ∈ s.dirs := by
    change [1, 2] ∈ s.dirs.paths
    simp [hdirs]
  exact ⟨s, hreach, hin, (quiet_all_watched _ s hreach).1 hq _ hin⟩

end NewSubdirectories

end DirectoryObserver
