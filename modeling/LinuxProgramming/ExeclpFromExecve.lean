import LinuxProgramming.PosixPaths

/-! `my_execlp` of `execlp_from_execve.c`. It copies the environment, collects its arguments in a
vector that grows by five, and then tries the components of `PATH` in turn. Every access is
checked against the size of its block. -/
namespace ExeclpFromExecve

open CharStrings PosixPaths

variable {α : Type}

inductive Fault where
  | readOutside (index : ℕ)
  | storeOutside (index : ℕ)
  | readUnset
  | noArgument
  | overflow (size : ℕ)
  | freeUnset
  deriving DecidableEq

/-- An element of a vector of pointers. What `realloc` adds to a block has no value yet. -/
inductive Slot (α : Type) where
  | unset
  | null
  | ptr (a : α)
  deriving DecidableEq

def slotOf : Option α → Slot α
  | none => .null
  | some a => .ptr a

def terminated (entries : List α) : List (Option α) := entries.map some ++ [none]

section EnvironmentCopy

/-- `for (envSize = i; environ[envSize] != NULL;) envSize++;`, given the pointers from `i` on. -/
def countFrom : List (Option α) → ℕ → Except Fault ℕ
  | [], i => .error (.readOutside i)
  | none :: _, i => .ok i
  | some _ :: rest, i => countFrom rest (i + 1)

def store (block : List (Slot α)) (i : ℕ) (v : Option α) : Except Fault (List (Slot α)) :=
  if i < block.length then .ok (block.set i (slotOf v)) else .error (.storeOutside i)

def copyFrom : List (Option α) → ℕ → List (Slot α) → Except Fault (List (Slot α))
  | [], i, _ => .error (.readOutside i)
  | none :: _, i, envp => store envp i none
  | some e :: rest, i, envp => (store envp i (some e)).bind (copyFrom rest (i + 1))

/-- The count begins at 1. -/
def duplicateEnviron (environ : List (Option α)) : Except Fault (List (Slot α)) :=
  (countFrom (environ.drop 1) 1).bind fun envSize =>
    copyFrom environ 0 (List.replicate envSize .null)

theorem countFrom_terminated (entries : List α) (i : ℕ) :
    countFrom (terminated entries) i = .ok (i + entries.length) := by
  induction entries generalizing i with
  | nil => rfl
  | cons e entries ih =>
    have hstep : countFrom (terminated (e :: entries)) i = countFrom (terminated entries) (i + 1) :=
      rfl
    rw [hstep, ih, List.length_cons]
    congr 1
    omega

theorem copyFrom_terminated (entries : List α) (i : ℕ) (envp : List (Slot α))
    (hsize : envp.length = i + entries.length) :
    copyFrom (terminated entries) i envp = .error (.storeOutside envp.length) := by
  induction entries generalizing i envp with
  | nil =>
    have hi : i = envp.length := hsize.symm
    subst i
    exact if_neg (Nat.lt_irrefl _)
  | cons e entries ih =>
    rw [List.length_cons] at hsize
    have hstore : store envp i (some e) = .ok (envp.set i (.ptr e)) := if_pos (by omega)
    have hstep : copyFrom (terminated (e :: entries)) i envp =
        (store envp i (some e)).bind (copyFrom (terminated entries) (i + 1)) := rfl
    rw [hstep, hstore, Except.bind, ih, List.length_set]
    rw [List.length_set]
    omega

theorem duplicateEnviron_empty :
    duplicateEnviron (terminated ([] : List α)) = .error (.readOutside 1) := rfl

theorem duplicateEnviron_nonempty (e : α) (entries : List α) :
    duplicateEnviron (terminated (e :: entries)) =
      .error (.storeOutside (entries.length + 1)) := by
  have hdrop : (terminated (e :: entries)).drop 1 = terminated entries := rfl
  rw [duplicateEnviron, hdrop, countFrom_terminated, Except.bind, copyFrom_terminated]
  · rw [List.length_replicate, Nat.add_comm]
  · rw [List.length_replicate, List.length_cons]
    omega

theorem duplicateEnviron_fails (env : List α) :
    ∃ fault, duplicateEnviron (terminated env) = .error fault := by
  cases env with
  | nil => exact ⟨_, duplicateEnviron_empty⟩
  | cons e entries => exact ⟨_, duplicateEnviron_nonempty e entries⟩

end EnvironmentCopy

structure Collector (α : Type) where
  argv : List (Slot α)
  argvCap : ℕ
  argc : ℕ
  sized : argv.length = argvCap

namespace Collector

def empty : Collector α := ⟨List.replicate 10 .null, 10, 0, List.length_replicate⟩

def grow (s : Collector α) : Collector α where
  argv := s.argv ++ List.replicate 5 .unset
  argvCap := s.argvCap + 5
  argc := s.argc
  sized := by rw [List.length_append, List.length_replicate, s.sized]

def store (s : Collector α) (v : Option α) : Except Fault (Collector α) :=
  if s.argc < s.argvCap then
    .ok {
      argv := s.argv.set s.argc (slotOf v)
      argvCap := s.argvCap
      argc := s.argc + 1
      sized := by rw [List.length_set, s.sized] }
  else .error (.storeOutside s.argc)

def append (s : Collector α) (v : Option α) : Except Fault (Collector α) :=
  (if s.argc + 1 > s.argvCap then s.grow else s).store v

def last (s : Collector α) : Option (Slot α) := s.argv[s.argc - 1]?

end Collector

/-- The loop over the variadic arguments, with those that it has not read. -/
def collectLoop : List (Option α) → Collector α →
    Except Fault (Collector α × List (Option α))
  | [], s =>
    match s.last with
    | some .null => .ok (s, [])
    | some (.ptr _) => .error .noArgument
    | _ => .error .readUnset
  | v :: rest, s =>
    match s.last with
    | some .null => .ok (s, v :: rest)
    | some (.ptr _) => (s.append v).bind (collectLoop rest)
    | _ => .error .readUnset

def collect (arg : Option α) (rest : List (Option α)) :
    Except Fault (Collector α × List (Option α)) :=
  (Collector.empty.store arg).bind (collectLoop rest)

def passed : List (Slot α) → Option (List α)
  | [] => none
  | .unset :: _ => none
  | .null :: _ => some []
  | .ptr a :: slots => (passed slots).map fun args => a :: args

section Arguments

variable {s : Collector α} {given : List (Option α)} {v : Option α}

structure Holds (s : Collector α) (given : List (Option α)) : Prop where
  count : s.argc = given.length
  room : s.argc ≤ s.argvCap
  stored : s.argv.take s.argc = given.map slotOf

theorem holds_empty : Holds (Collector.empty : Collector α) [] := ⟨rfl, Nat.zero_le _, rfl⟩

theorem Holds.grow (h : Holds s given) : Holds s.grow given := by
  refine ⟨h.count, Nat.le_add_right_of_le h.room, ?_⟩
  have hle : s.argc ≤ s.argv.length := by
    rw [s.sized]
    exact h.room
  rw [← h.stored]
  exact List.take_append_of_le_length hle

theorem Holds.store (h : Holds s given) (hroom : s.argc < s.argvCap) (v : Option α) :
    ∃ t, s.store v = .ok t ∧ Holds t (given ++ [v]) := by
  refine ⟨_, if_pos hroom, ?_, hroom, ?_⟩
  · simp [h.count]
  · have hlt : s.argc < s.argv.length := by rw [s.sized]; exact hroom
    simp only [List.map_append, List.map_cons, List.map_nil, ← h.stored]
    rw [List.take_add_one, List.take_set_of_le (Nat.le_refl _), List.getElem?_set_self hlt]
    rfl

theorem Holds.append (h : Holds s given) (v : Option α) :
    ∃ t, s.append v = .ok t ∧ Holds t (given ++ [v]) := by
  rw [Collector.append]
  split
  · have hroom : s.argc < s.argvCap + 5 := Nat.lt_of_le_of_lt h.room (by omega)
    exact h.grow.store hroom v
  · exact h.store (by omega) v

theorem Holds.last (h : Holds s (given ++ [v])) : s.last = some (slotOf v) := by
  have hcount : s.argc = given.length + 1 := by simpa using h.count
  have hget := congrArg (fun l : List (Slot α) => l[given.length]?) h.stored
  rw [hcount] at hget
  rw [Collector.last, hcount, Nat.add_sub_cancel]
  simpa [List.getElem?_take] using hget

theorem collectLoop_null (hlast : s.last = some .null) (rest : List (Option α)) :
    collectLoop rest s = .ok (s, rest) := by
  cases rest <;> simp only [collectLoop, hlast]

theorem collectLoop_spec (args : List α) (more : List (Option α)) {a : α}
    (h : Holds s (given ++ [some a])) :
    ∃ t, collectLoop (args.map some ++ none :: more) s = .ok (t, more) ∧
      Holds t (given ++ some a :: (args.map some ++ [none])) := by
  have hlast : s.last = some (.ptr a) := h.last
  induction args generalizing s given a with
  | nil =>
    obtain ⟨t, ht, hnull⟩ := h.append none
    refine ⟨t, ?_, by simpa using hnull⟩
    rw [List.map_nil, List.nil_append, collectLoop]
    simp only [hlast, ht, Except.bind]
    exact collectLoop_null hnull.last more
  | cons b args ih =>
    obtain ⟨t, ht, hnext⟩ := h.append (some b)
    obtain ⟨u, hu, hall⟩ := ih hnext hnext.last
    refine ⟨u, ?_, by simpa using hall⟩
    rw [List.map_cons, List.cons_append, collectLoop]
    simp only [hlast, ht, Except.bind]
    exact hu

theorem passed_terminated (args : List α) (slots : List (Slot α)) :
    passed (args.map .ptr ++ .null :: slots) = some args := by
  induction args with
  | nil => rfl
  | cons a args ih => simp [passed, ih]

/-- Whatever follows the `NULL` is not read, no store is outside the vector, and the vector is
the arguments and a `NULL`. -/
theorem collect_arguments (arg : Option α) (rest more : List (Option α)) (args : List α)
    (hlist : arg :: rest = args.map some ++ none :: more) :
    ∃ s, collect arg rest = .ok (s, more) ∧ s.argc ≤ s.argvCap ∧
      s.argv.take s.argc = args.map .ptr ++ [.null] ∧ passed s.argv = some args := by
  have hcollect : ∃ s, collect arg rest = .ok (s, more) ∧ Holds s (args.map some ++ [none]) := by
    obtain ⟨t, ht, hfirst⟩ := holds_empty.store (Nat.zero_lt_succ 9) arg
    rw [collect, ht, Except.bind]
    cases args with
    | nil =>
      obtain ⟨rfl, rfl⟩ := List.cons.inj hlist
      exact ⟨t, collectLoop_null (hfirst.last) _, hfirst⟩
    | cons a args =>
      obtain ⟨rfl, rfl⟩ := List.cons.inj hlist
      exact collectLoop_spec args more hfirst
  obtain ⟨s, hs, hholds⟩ := hcollect
  have hslots : (args.map some ++ [none]).map slotOf = args.map Slot.ptr ++ [.null] := by
    simp [slotOf, Function.comp_def]
  have htake := hholds.stored.trans hslots
  refine ⟨s, hs, hholds.room, htake, ?_⟩
  rw [← List.take_append_drop s.argc s.argv, htake, List.append_assoc, List.singleton_append]
  exact passed_terminated args _

/-- Twelve arguments, so that the vector has to grow, and one behind the `NULL`. -/
theorem collect_twelve :
    ∃ s, collect (some 0) ((List.range' 1 11).map some ++ [none, some 99]) =
        .ok (s, [some 99]) ∧ s.argc ≤ s.argvCap ∧
      s.argv.take s.argc = (List.range 12).map .ptr ++ [.null] ∧
      passed s.argv = some (List.range 12) :=
  collect_arguments (some 0) _ [some 99] (List.range 12) (by decide)

end Arguments

section Pathnames

def colon : Byte := 58

def components (path : Option (List Byte)) : List (List Byte) :=
  let PATH := if path.getD [] = [] then ascii "/usr/bin" else path.getD []
  (PATH.splitOn colon).filter (· ≠ [])

def strncat (size : ℕ) (text added : List Byte) : Except Fault (List Byte) :=
  if text.length + added.length < size then .ok (text ++ added) else .error (.overflow size)

/-- The text that is put together in a block of `strlen(token) + strlen(file) + 1` bytes. -/
def pathname (token file : List Byte) : Except Fault (List Byte) :=
  let size := token.length + file.length + 1
  (strncat size [] token).bind fun text =>
    (if token.getLast? ≠ some slash then strncat size text [slash] else .ok text).bind
      fun text => strncat size text file

def tryComponents (runs : List Byte → Bool) (file : List Byte) :
    List (List Byte) → Except Fault (Option (List Byte))
  | [] => .ok none
  | token :: tokens => (pathname token file).bind fun text =>
      if runs text then .ok (some text) else tryComponents runs file tokens

variable {token file : List Byte}

theorem strncat_token (token file : List Byte) :
    strncat (token.length + file.length + 1) [] token = .ok token := by
  apply if_pos
  rw [List.length_nil]
  omega

theorem pathname_of_slash (file : List Byte) (hlast : token.getLast? = some slash) :
    pathname token file = .ok (token ++ file) := by
  have hnot : ¬ token.getLast? ≠ some slash := not_not.mpr hlast
  simp only [pathname, strncat_token, if_neg hnot, Except.bind]
  exact if_pos (Nat.lt_succ_self _)

/-- The slash that is added has no place in the block. -/
theorem pathname_overflow (file : List Byte) (hlast : token.getLast? ≠ some slash) :
    pathname token file = .error (.overflow (token.length + file.length + 1)) := by
  simp only [pathname, strncat_token, if_pos hlast, Except.bind]
  by_cases hslash : token.length + [slash].length < token.length + file.length + 1
  · have hadd : strncat (token.length + file.length + 1) token [slash] =
        .ok (token ++ [slash]) := if_pos hslash
    simp only [hadd]
    apply if_neg
    rw [List.length_append, List.length_singleton]
    omega
  · have hadd : strncat (token.length + file.length + 1) token [slash] =
        .error (.overflow (token.length + file.length + 1)) := if_neg hslash
    simp only [hadd]

theorem pathname_fits_iff :
    (∃ text, pathname token file = .ok text) ↔ token.getLast? = some slash := by
  constructor
  · rintro ⟨text, htext⟩
    by_contra hlast
    rw [pathname_overflow file hlast] at htext
    cases htext
  · intro hlast
    exact ⟨_, pathname_of_slash file hlast⟩

end Pathnames

inductive Outcome (α : Type) where
  | executed (pathname : List Byte) (argv envp : List (Slot α))
  | returned

/-- `runs` tells which pathnames `execve` can run; `path` is the value of `PATH`. Without a single
component the pointer that is released at the end has no value. -/
def myExeclp (environ : List (Option α)) (path : Option (List Byte)) (runs : List Byte → Bool)
    (file : List Byte) (arg : Option α) (rest : List (Option α)) : Except Fault (Outcome α) :=
  (duplicateEnviron environ).bind fun envp =>
    (collect arg rest).bind fun (s, _) =>
      if slash ∈ file then
        .ok (if runs file then .executed file s.argv envp else .returned)
      else (tryComponents runs file (components path)).bind fun
        | some text => .ok (.executed text s.argv envp)
        | none => if components path = [] then .error .freeUnset else .ok .returned

section Calls

structure BuffersFit (env : List α) (path : Option (List Byte)) (file : List Byte) : Prop where
  environ : ∃ envp, duplicateEnviron (terminated env) = .ok envp
  pathnames : ∀ token ∈ components path, ∃ text, pathname token file = .ok text

theorem buffers_never_fit (env : List α) (path : Option (List Byte)) (file : List Byte) :
    ¬ BuffersFit env path file := by
  intro hfit
  obtain ⟨envp, henvp⟩ := hfit.environ
  obtain ⟨fault, hfault⟩ := duplicateEnviron_fails env
  rw [hfault] at henvp
  cases henvp

/-- One variable, none, and the default path: an element, a pointer and a byte too many. -/
theorem buffers_too_small :
    duplicateEnviron (terminated [ascii "HOME=/"]) = .error (.storeOutside 1) ∧
      duplicateEnviron (terminated ([] : List (List Byte))) = .error (.readOutside 1) ∧
      components none = [ascii "/usr/bin"] ∧
      pathname (ascii "/usr/bin") (ascii "vim") = .error (.overflow 12) := by
  decide

/-- No call gets as far as `execve` without a fault. -/
theorem myExeclp_faults (env : List α) (path : Option (List Byte)) (runs : List Byte → Bool)
    (file : List Byte) (arg : Option α) (rest : List (Option α)) :
    ∃ fault, myExeclp (terminated env) path runs file arg rest = .error fault := by
  obtain ⟨fault, hfault⟩ := duplicateEnviron_fails env
  refine ⟨fault, ?_⟩
  rw [myExeclp, hfault, Except.bind]

end Calls

end ExeclpFromExecve
