import LinuxProgramming.ProcessScan

/-! `users_processes` as a whole: `main` looks up the user, goes through `/proc` and prints a line
for each process of that user. Which lines these are, for every command line and every `/proc` that
the kernel presents, and what becomes of a process that vanishes meanwhile. -/
namespace UserProcessScan

open BlockMemory CharStrings DecimalText FallibleLoops UserProcesses
open ProcessScan (DirEntry IsProcess fieldText field_token strtok_last)

/-- The lines printed so far and an entry. A file that cannot be opened is closed all the same:
`fclose(NULL)`. -/
def visit (idStr user : List Byte) (lines : List (List Byte)) (e : DirEntry) :
    Except Fault (List (List Byte)) :=
  if IsProcess e then
    match e.status with
    | none => .error .invalidPointer
    | some text => do
      let shown ← checkProcess idStr e.name.bytes user text
      .ok (lines ++ shown.toList)
  else .ok lines

inductive Outcome where
  | usage (text : List Byte)
  | noProc
  | listed (lines : List (List Byte))
  deriving DecidableEq

def usage (program : CString) : List Byte :=
  ascii "Usage: " ++ program.bytes ++ ascii " <user_name>\n"

section StatusFiles

structure Task where
  name : CString
  real : Uid
  effective : Uid
  saved : Uid
  fs : Uid

/-- A piece of another line: it has a token, which is none of the two keys. -/
def Unread (piece : List Byte) : Prop :=
  ∃ token rest, strtok (stringOf piece).bytes = some (token, rest) ∧
    token ≠ ascii "Name:" ∧ token ≠ ascii "Uid:"

inductive Line where
  | name
  | uid
  | other (text : List Byte) (unread : ∀ piece ∈ pieces (text ++ [10]), Unread piece)

def Line.text (t : Task) : Line → List Byte
  | .name => fieldText "Name:" t.name.bytes
  | .uid => uidFields t.real t.effective t.saved t.fs
  | .other text _ => text

/-- The status file of a process, here with its name and its uids. The kernel escapes newlines in
the name, but not tabs. -/
structure TaskFile where
  task : Task
  lines : List Line
  name_plain : 10 ∉ task.name.bytes
  name_short : task.name.bytes.length ≤ 64
  complete : .name ∈ lines ∧ .uid ∈ lines

def TaskFile.text (file : TaskFile) : List Byte :=
  file.lines.flatMap fun l => l.text file.task ++ [10]

/-- What `main` takes for the name: up to a tab, and then without the last byte. -/
def shownName (name : List Byte) : List Byte :=
  match strtok (name ++ [10]) with
  | none => []
  | some (value, _) => value.dropLast

theorem strtok_newline (name : List Byte) :
    ∃ value rest, strtok (name ++ [10]) = some (value, rest) := by
  have hstart : (name ++ [10]).dropWhile (· = 9) ≠ [] := by
    rw [Ne, List.dropWhile_eq_nil_iff]
    intro hall
    exact absurd (hall 10 (by simp)) (by decide)
  rw [strtok, if_neg hstart]
  exact ⟨_, _, rfl⟩

def Line.set (t : Task) (values : Values) : Line → Values
  | .name => { values with cmdName := some (shownName t.name.bytes) }
  | .uid => { values with cmdUID := some (formatNat t.real.toNat) }
  | .other _ _ => values

theorem readPieces_unread {l : List (List Byte)} (h : ∀ piece ∈ l, Unread piece)
    (values : Values) : l.foldlM readPiece values = .ok values := by
  induction l with
  | nil => rfl
  | cons piece l ih =>
    obtain ⟨token, rest, hfirst, hname, huid⟩ := h piece List.mem_cons_self
    refine foldlM_cons_ok.mpr ⟨values, ?_, ih fun q hq => h q (List.mem_cons_of_mem piece hq)⟩
    simp only [readPiece, hfirst, if_neg hname, if_neg huid]

theorem pieces_uidLine (t : Task) : pieces (uidFields t.real t.effective t.saved t.fs ++ [10]) =
    [uidLine t.real t.effective t.saved t.fs] :=
  piecesFrom_line [] _ [] (not_mem_uidFields (by decide) (by decide) (by decide) _ _ _ _)
    (by simpa using uidFields_length t.real t.effective t.saved t.fs)

theorem TaskFile.line_read (file : TaskFile) (values : Values) (l : Line) :
    (pieces (l.text file.task ++ [10])).foldlM readPiece values = .ok (l.set file.task values) := by
  cases l with
  | name =>
    obtain ⟨hpieces, htoken⟩ := field_token "Name:" (by decide) (by decide)
      ⟨file.name_plain, file.task.name.nul_free⟩ file.name_short
    obtain ⟨value, rest, hvalue⟩ := strtok_newline file.task.name.bytes
    rw [Line.text, hpieces, List.foldlM_cons]
    simp only [readPiece, htoken, hvalue, Line.set, shownName]
    rfl
  | uid =>
    rw [Line.text, pieces_uidLine, List.foldlM_cons, readPiece_uidLine]
    rfl
  | other text unread => exact readPieces_unread unread values

theorem foldl_set (t : Task) (lines : List Line) (values : Values)
    (hname : .name ∈ lines ∨ values.cmdName = some (shownName t.name.bytes))
    (huid : .uid ∈ lines ∨ values.cmdUID = some (formatNat t.real.toNat)) :
    lines.foldl (Line.set t) values =
      ⟨some (shownName t.name.bytes), some (formatNat t.real.toNat)⟩ := by
  induction lines generalizing values with
  | nil =>
    cases values
    simp_all
  | cons l lines ih =>
    rw [List.foldl_cons]
    apply ih
    all_goals cases l <;> simp_all [Line.set]

theorem TaskFile.checked (file : TaskFile) (idStr pid user : List Byte) :
    checkProcess idStr pid user file.text =
      .ok (if idStr = formatNat file.task.real.toNat then
        some (reportLine (shownName file.task.name.bytes) pid user
          (formatNat file.task.real.toNat))
      else none) := by
  rw [checkProcess, TaskFile.text, ProcessScan.lines_read file.line_read,
    foldl_set file.task file.lines _ (.inl file.complete.1) (.inl file.complete.2)]
  rfl

/-- The entries of `/proc`: a directory with its status file for every process, and others. The
scan comes to its end, or to a process that is gone, so that its file cannot be opened or read. -/
inductive Listing : List DirEntry → List (CString × Task) → Bool → Prop where
  | nil : Listing [] [] false
  | process {e entries tasks gone} (file : TaskFile) : IsProcess e → e.status = some file.text →
      Listing entries tasks gone → Listing (e :: entries) ((e.name, file.task) :: tasks) gone
  | other {e entries tasks gone} : ¬ IsProcess e → Listing entries tasks gone →
      Listing (e :: entries) tasks gone
  | gone {e entries} : IsProcess e → e.status = none ∨ e.status = some [] →
      Listing (e :: entries) [] true

end StatusFiles

section Runs

variable {entries : List DirEntry} {tasks : List (CString × Task)} {gone : Bool}

def shownLines (idStr user : List Byte) (tasks : List (CString × Task)) : List (List Byte) :=
  (tasks.filter fun t => idStr = formatNat t.2.real.toNat).map fun t =>
    reportLine (shownName t.2.name.bytes) t.1.bytes user idStr

theorem shownLines_cons (idStr user : List Byte) (t : CString × Task)
    (tasks : List (CString × Task)) :
    shownLines idStr user (t :: tasks) =
      shownLines idStr user [t] ++ shownLines idStr user tasks := by
  rw [shownLines, shownLines, shownLines, ← List.map_append, ← List.filter_append]
  rfl

theorem visit_process {e : DirEntry} (file : TaskFile) (hp : IsProcess e)
    (hs : e.status = some file.text) (idStr user : List Byte) (lines : List (List Byte)) :
    visit idStr user lines e = .ok (lines ++ shownLines idStr user [(e.name, file.task)]) := by
  simp only [visit, if_pos hp, hs, file.checked]
  by_cases hid : idStr = formatNat file.task.real.toNat
  · rw [if_pos hid, shownLines, List.filter_cons_of_pos (by simpa using hid), hid]
    rfl
  · rw [if_neg hid, shownLines, List.filter_cons_of_neg (by simpa using hid)]
    rfl

theorem visit_gone {e : DirEntry} (hp : IsProcess e) (hs : e.status = none ∨ e.status = some [])
    (idStr user : List Byte) (lines : List (List Byte)) :
    visit idStr user lines e = .error .invalidPointer := by
  rcases hs with hs | hs
  · simp only [visit, if_pos hp, hs]
  · simp only [visit, if_pos hp, hs]
    rfl

theorem Listing.scan (h : Listing entries tasks gone) (idStr user : List Byte)
    (lines : List (List Byte)) : entries.foldlM (visit idStr user) lines =
      if gone then .error .invalidPointer else .ok (lines ++ shownLines idStr user tasks) := by
  induction h generalizing lines with
  | nil => exact congrArg Except.ok (List.append_nil lines).symm
  | @process e entries tasks gone file hp hs _ ih =>
    rw [List.foldlM_cons, visit_process file hp hs idStr user lines]
    refine (ih _).trans ?_
    rw [shownLines_cons idStr user (e.name, file.task) tasks, List.append_assoc]
  | other hp _ ih =>
    rw [List.foldlM_cons, visit, if_neg hp]
    exact ih lines
  | gone hp hs =>
    rw [List.foldlM_cons, visit_gone hp hs]
    rfl

def briefFile (name : String) (u : Uid) (hplain : 10 ∉ (stringOf (ascii name)).bytes)
    (hshort : (stringOf (ascii name)).bytes.length ≤ 64) : TaskFile :=
  ⟨⟨stringOf (ascii name), u, u, u, u⟩, [.name, .uid], hplain, hshort, by simp⟩

def smallProc : List DirEntry :=
  [⟨stringOf (ascii "1"), true, some (ascii "Name:\tinit\nUid:\t0\t0\t0\t0\n")⟩,
    ⟨stringOf (ascii "2"), true, some (ascii "Name:\tsh\nUid:\t1000\t1000\t1000\t1000\n")⟩,
    ⟨stringOf (ascii "self"), false, none⟩]

end Runs

end UserProcessScan
