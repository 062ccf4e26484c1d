import LinuxProgramming.BlockMemory
import LinuxProgramming.DecimalText

/-! `nice.c`, which should run a command with another nice value. `getopt` moves all options to the
front of the arguments, also those that belong to the command, while `main` looks for the command
at a fixed place. Which command lines come out right. -/
namespace NiceCommand

open BlockMemory CharStrings DecimalText

section Getopt

/-- What `getopt` takes for options. A single `-` is none. -/
def IsOption (arg : CString) : Prop := arg.bytes.head? = some 45 ∧ 2 ≤ arg.bytes.length

instance (arg : CString) : Decidable (IsOption arg) := inferInstanceAs (Decidable (_ ∧ _))

inductive Wanted where
  | nothing
  | here (value : List Byte)
  | next
  deriving DecidableEq

/-- The letters of an argument; whether one of them is not `n`, and the value. -/
def letters : List Byte → Bool × Wanted
  | [] => (false, .nothing)
  | c :: cs =>
    if c = 110 then (false, if cs = [] then .next else .here cs)
    else (true, (letters cs).2)

/-- What all calls of `getopt` give: whether one returned `'?'`, the values of `n` in order, and the
arguments as they are left, first those that were moved to the front. -/
structure Parsed where
  unknown : Bool
  values : List CString
  moved : List CString
  others : List CString
  deriving DecidableEq

def Parsed.option (moved : List CString) (unknown : Bool) (values : List CString) (p : Parsed) :
    Parsed :=
  ⟨unknown || p.unknown, values ++ p.values, moved ++ p.moved, p.others⟩

def Parsed.other (arg : CString) (p : Parsed) : Parsed := { p with others := arg :: p.others }

def getopt : List CString → Parsed
  | [] => ⟨false, [], [], []⟩
  | arg :: rest =>
    if arg.bytes = ascii "--" then ⟨false, [], [arg], rest⟩
    else if IsOption arg then
      match letters arg.bytes.tail with
      | (unknown, .nothing) => (getopt rest).option [arg] unknown []
      | (unknown, .here value) => (getopt rest).option [arg] unknown [stringOf value]
      | (unknown, .next) =>
        match rest with
        | [] => ⟨true, [], [arg], []⟩
        | value :: rest => (getopt rest).option [arg, value] unknown [value]
    else (getopt rest).other arg

end Getopt

section Program

/-- How `main` ends; `exec` is the call of `execvp`, with the nice value in effect. -/
inductive Outcome where
  | shown
  | usage
  | failed
  | exec (nice : ℤ) (command : CString) (args : List CString)
  deriving DecidableEq

def einval : ℤ := 22

variable (permitted : ℤ → Bool)

/-- The kernel takes the nearest value from -20 to 19, if the process may have it. -/
def setpriority (priority : ℤ) : Option ℤ :=
  let nice := max (-20) (min priority 19)
  if permitted nice then some nice else none

def run (priority : ℤ) (command : CString) (args : List CString) : Outcome :=
  match setpriority permitted priority with
  | some nice => .exec nice command args
  | none => .failed

/-- `main` for the arguments after the name of the program. With `-n` the command is `argv[3]`,
which may be `NULL` or lie behind the array. -/
def nice (args : List CString) : Except Fault Outcome :=
  if args = [] then .ok .shown
  else
    let parsed := getopt args
    let argv := parsed.moved ++ parsed.others
    if parsed.unknown then .ok .usage
    else match parsed.values.getLast? with
      | some priorityValue =>
        match argv.drop 2 with
        | [] => .error .invalidPointer
        | command :: rest =>
          let priority := (BitVec.ofInt 32 (strtol priorityValue)).toInt
          if priority = einval then .ok .failed
          else .ok (run permitted priority command (command :: rest))
      | none =>
        match argv with
        | [] => .error .invalidPointer
        | command :: rest => .ok (run permitted 10 command (command :: rest))

end Program

section Permutation

theorem isOption_dashes {arg : CString} (h : arg.bytes = ascii "--") : IsOption arg := by
  rw [IsOption, h]
  decide

theorem getopt_other {arg : CString} (h : ¬ IsOption arg) (rest : List CString) :
    getopt (arg :: rest) = (getopt rest).other arg := by
  rw [getopt, if_neg (mt isOption_dashes h), if_neg h]

theorem getopt_plain {args : List CString} (h : ∀ a ∈ args, ¬ IsOption a) :
    getopt args = ⟨false, [], [], args⟩ := by
  induction args with
  | nil => rfl
  | cons arg rest ih =>
    rw [getopt_other (h arg List.mem_cons_self),
      ih fun a ha => h a (List.mem_cons_of_mem arg ha)]
    rfl

/-- No argument gets lost. Induction along the calls of `getopt`, which may take two at once. -/
theorem getopt_length (args : List CString) :
    (getopt args).moved.length + (getopt args).others.length = args.length := by
  fun_induction getopt args <;> simp_all [Parsed.option, Parsed.other] <;> omega

theorem getopt_moved {args : List CString} (h : ∃ a ∈ args, IsOption a) :
    ∃ o moved, (getopt args).moved = o :: moved ∧ IsOption o := by
  fun_induction getopt args with
  | case1 => simp at h
  | case2 arg rest hdashes => exact ⟨arg, [], rfl, isOption_dashes hdashes⟩
  | case3 arg rest _ harg unknown hletters ih => exact ⟨arg, _, rfl, harg⟩
  | case4 arg rest _ harg unknown value hletters ih => exact ⟨arg, _, rfl, harg⟩
  | case5 arg _ harg unknown hletters => exact ⟨arg, _, rfl, harg⟩
  | case6 arg _ harg unknown hletters value rest ih => exact ⟨arg, _, rfl, harg⟩
  | case7 arg rest _ harg ih =>
    apply ih
    obtain ⟨a, ha, hoption⟩ := h
    rcases List.mem_cons.mp ha with rfl | ha
    · exact absurd hoption harg
    · exact ⟨a, ha, hoption⟩

end Permutation

section Runs

variable {permitted : ℤ → Bool} {args executed : List CString} {level : ℤ} {command : CString}

theorem run_exec {p : ℤ} {c : CString} {l : List CString}
    (h : run permitted p c l = .exec level command executed) :
    setpriority permitted p = some level ∧ command = c ∧ executed = l := by
  rw [run] at h
  split at h
  · next hset =>
    cases h
    exact ⟨hset, rfl, rfl⟩
  · cases h

theorem nice_exec (h : nice permitted args = .ok (.exec level command executed)) :
    executed.head? = some command ∧
      ((getopt args).values = [] ∧ setpriority permitted 10 = some level ∧
          executed = (getopt args).moved ++ (getopt args).others ∨
        ∃ value, (getopt args).values.getLast? = some value ∧
          (BitVec.ofInt 32 (strtol value)).toInt ≠ einval ∧
          setpriority permitted (BitVec.ofInt 32 (strtol value)).toInt = some level ∧
          executed = ((getopt args).moved ++ (getopt args).others).drop 2) := by
  simp only [nice] at h
  split at h
  · cases h
  · split at h
    · cases h
    · split at h
      · next value hvalue =>
        split at h
        · cases h
        · next c rest hargv =>
          split at h
          · cases h
          · next hpriority =>
            obtain ⟨hset, rfl, rfl⟩ := run_exec (Except.ok.inj h)
            exact ⟨rfl, .inr ⟨value, hvalue, hpriority, hset, hargv.symm⟩⟩
      · next hvalue =>
        split at h
        · cases h
        · next c rest hargv =>
          obtain ⟨hset, rfl, rfl⟩ := run_exec (Except.ok.inj h)
          exact ⟨rfl, .inl ⟨List.getLast?_eq_none_iff.mp hvalue, hset, hargv.symm⟩⟩

def dashN : CString := ⟨ascii "-n", by decide⟩

def numeral (n : ℤ) : CString := ⟨formatInt n, formatInt_nul_free n⟩

def attached (n : ℤ) : CString :=
  ⟨45 :: 110 :: formatInt n, by simp [formatInt_nul_free n]⟩

theorem getopt_dashN (value : CString) (rest : List CString) :
    getopt (dashN :: value :: rest) = (getopt rest).option [dashN, value] false [value] := by
  rw [getopt, if_neg (by decide), if_pos (by decide)]
  rfl

theorem getopt_attached (n : ℤ) (rest : List CString) :
    getopt (attached n :: rest) =
      (getopt rest).option [attached n] false [stringOf (formatInt n)] := by
  have hne := formatInt_ne_nil n
  have hdashes : (attached n).bytes ≠ ascii "--" := by simp [attached, ascii]
  have hoption : IsOption (attached n) := ⟨rfl, by simp [attached]⟩
  have hletters : letters (attached n).bytes.tail = (false, .here (formatInt n)) := by
    simp [attached, letters, hne]
  rw [getopt, if_neg hdashes, if_pos hoption, hletters]

theorem toInt_strtol_numeral {n : ℤ} (hlo : -2 ^ 31 ≤ n) (hhi : n < 2 ^ 31) :
    (BitVec.ofInt 32 (strtol (numeral n))).toInt = n := by
  rw [numeral, strtol_formatInt (by omega) (by omega), BitVec.toInt_ofInt,
    Int.bmod_eq_of_le (by omega) (by omega)]

/-- If the arguments are left as they were, none is an option: it would stand where the command
is. -/
theorem plain_of_executed (hcommand : ¬ IsOption command)
    (h : command :: args =
      (getopt (command :: args)).moved ++ (getopt (command :: args)).others) :
    ∀ a ∈ args, ¬ IsOption a := by
  intro a ha hoption
  obtain ⟨o, moved, hmoved, ho⟩ := getopt_moved ⟨a, List.mem_cons_of_mem command ha, hoption⟩
  rw [hmoved, List.cons_append, List.cons.injEq] at h
  exact hcommand (h.1 ▸ ho)

theorem getopt_command (hcommand : ¬ IsOption command) (hplain : ∀ a ∈ args, ¬ IsOption a) :
    getopt (command :: args) = ⟨false, [], [], command :: args⟩ :=
  getopt_plain (List.forall_mem_cons.mpr ⟨hcommand, hplain⟩)

theorem nice_value_iff {n : ℤ} (hlo : -2 ^ 31 ≤ n) (hhi : n < 2 ^ 31)
    (hcommand : ¬ IsOption command) :
    nice permitted (dashN :: numeral n :: command :: args) =
        .ok (.exec level command (command :: args)) ↔
      setpriority permitted n = some level ∧ n ≠ einval ∧ ∀ a ∈ args, ¬ IsOption a := by
  constructor
  · intro h
    obtain ⟨-, hcase⟩ := nice_exec h
    rw [getopt_dashN] at hcase
    rcases hcase with ⟨hvalues, -, -⟩ | ⟨value, hvalue, hpriority, hset, hargv⟩
    · cases hvalues
    · have hplain := plain_of_executed hcommand hargv
      -- the last value is the first, for the command has no option
      rw [getopt_command hcommand hplain] at hvalue
      obtain rfl : numeral n = value := Option.some.inj hvalue
      rw [toInt_strtol_numeral hlo hhi] at hpriority hset
      exact ⟨hset, hpriority, hplain⟩
  · rintro ⟨hset, hpriority, hplain⟩
    have hparsed : getopt (dashN :: numeral n :: command :: args) =
        ⟨false, [numeral n], [dashN, numeral n], command :: args⟩ := by
      rw [getopt_dashN, getopt_command hcommand hplain]
      rfl
    simp [nice, hparsed, toInt_strtol_numeral hlo hhi, hpriority, run, hset]

theorem nice_default_iff (hcommand : ¬ IsOption command) :
    nice permitted (command :: args) = .ok (.exec level command (command :: args)) ↔
      setpriority permitted 10 = some level ∧ ∀ a ∈ args, ¬ IsOption a := by
  constructor
  · intro h
    obtain ⟨-, hcase⟩ := nice_exec h
    rcases hcase with ⟨-, hset, hargv⟩ | ⟨_, -, -, -, hargv⟩
    · exact ⟨hset, plain_of_executed hcommand hargv⟩
    · -- two arguments are taken off for an option that the command was meant to get
      have hlength := congrArg List.length hargv
      simp only [List.length_drop, List.length_append, getopt_length, List.length_cons] at hlength
      omega
  · rintro ⟨hset, hplain⟩
    simp [nice, getopt_command hcommand hplain, run, hset]

theorem nice_attached_ne (n : ℤ) :
    nice permitted (attached n :: command :: args) ≠
      .ok (.exec level command (command :: args)) := by
  intro h
  obtain ⟨-, hcase⟩ := nice_exec h
  rcases hcase with ⟨hvalues, -, -⟩ | ⟨_, -, -, -, hargv⟩
  · rw [getopt_attached] at hvalues
    cases hvalues
  · have hlength := congrArg List.length hargv
    simp only [List.length_drop, List.length_append, getopt_length, List.length_cons] at hlength
    omega

theorem setpriority_eq_some {p : ℤ} : setpriority permitted p = some level ↔
    level = max (-20) (min p 19) ∧ permitted level = true := by
  simp only [setpriority]
  split
  · next h =>
    constructor
    · intro heq
      cases heq
      exact ⟨rfl, h⟩
    · rintro ⟨rfl, -⟩
      rfl
  · next h => exact iff_of_false nofun fun ⟨heq, hp⟩ => h (heq ▸ hp)

/-- A command is run as it was given, with `-n` and a value before it or without, just when the
kernel grants the priority, which it takes for the nearest one from -20 to 19, none of its own
arguments is taken for an option, and the value is not that of `EINVAL`. With the value in the same
argument as `-n` it never is. -/
theorem nice_runs_command_iff (permitted : ℤ → Bool) (n level : ℤ) (hlo : -2 ^ 31 ≤ n)
    (hhi : n < 2 ^ 31) (command : CString) (args : List CString)
    (hcommand : ¬ IsOption command) :
    (nice permitted (dashN :: numeral n :: command :: args) =
          .ok (.exec level command (command :: args)) ↔
        (level = max (-20) (min n 19) ∧ permitted level = true) ∧ n ≠ 22 ∧
          ∀ a ∈ args, ¬ IsOption a) ∧
      (nice permitted (command :: args) = .ok (.exec level command (command :: args)) ↔
        (level = 10 ∧ permitted level = true) ∧ ∀ a ∈ args, ¬ IsOption a) ∧
      nice permitted (attached n :: command :: args) ≠
        .ok (.exec level command (command :: args)) := by
  refine ⟨?_, ?_, nice_attached_ne n⟩
  · rw [nice_value_iff hlo hhi hcommand, setpriority_eq_some]
    rfl
  · rw [nice_default_iff hcommand, setpriority_eq_some]
    rfl

/-- `nice -n 100 ls -l` does not run `ls -l`; `nice -n 100 ls /` runs `ls /`, at 19. -/
theorem listing_without_option :
    nice (fun _ => true) [dashN, numeral 100, stringOf (ascii "ls"), stringOf (ascii "-l")] ≠
        .ok (.exec 19 (stringOf (ascii "ls")) [stringOf (ascii "ls"), stringOf (ascii "-l")]) ∧
      nice (fun _ => true) [dashN, numeral 100, stringOf (ascii "ls"), stringOf (ascii "/")] =
        .ok (.exec 19 (stringOf (ascii "ls")) [stringOf (ascii "ls"), stringOf (ascii "/")]) := by
  have hcommand : ¬ IsOption (stringOf (ascii "ls")) := by decide
  constructor
  · intro h
    have hplain := ((nice_runs_command_iff (fun _ => true) 100 19 (by decide) (by decide) _
      [stringOf (ascii "-l")] hcommand).1.mp h).2.2
    exact hplain _ List.mem_cons_self (by decide)
  · exact (nice_runs_command_iff (fun _ => true) 100 19 (by decide) (by decide) _
      [stringOf (ascii "/")] hcommand).1.mpr ⟨⟨by decide, rfl⟩, by decide, by decide⟩

end Runs

end NiceCommand
