import LinuxProgramming.ProcessList
import LinuxProgramming.UserProcesses
import Mathlib.Data.List.OfFn

/-! `pstree` as a whole: `main` reads a status file for every numbered directory of `/proc`, the
list and the tree are built from what it finds, printed and freed. What the program needs of
`/proc` to come to its end, and what it then prints. -/
namespace ProcessScan

open BlockMemory CharStrings DecimalText FallibleLoops ParentForest ProcessTree ProcessList
open UserProcesses (pieces strtok)

/-- `CmdNameValue`, `CmdPIDValue` and `CmdPPIDValue`. Before their lines are met they are not set,
or still point to what was freed for the file before. -/
structure Values where
  cmdName : Option (List Byte)
  cmdPID : Option (List Byte)
  cmdPPID : Option (List Byte)

def nextValue (rest : List Byte) : Except Fault (List Byte) :=
  match strtok rest with
  | none => .error .invalidPointer
  | some (value, _) => .ok value.dropLast

def readPiece (values : Values) (piece : List Byte) : Except Fault Values :=
  match strtok (stringOf piece).bytes with
  | none => .error .invalidPointer
  | some (token, rest) =>
    if token = ascii "Name:" then do
      let value ← nextValue rest
      .ok { values with cmdName := some value }
    else if token = ascii "Pid:" then do
      let value ← nextValue rest
      .ok { values with cmdPID := some value }
    else if token = ascii "PPid:" then do
      let value ← nextValue rest
      .ok { values with cmdPPID := some value }
    else .ok values

def pidOfText (text : List Byte) : Pid := BitVec.ofInt 32 (strtol (stringOf text))

def readProcess (text : List Byte) : Except Fault Process := do
  let values ← (pieces text).foldlM readPiece ⟨none, none, none⟩
  match values.cmdName, values.cmdPID, values.cmdPPID with
  | some name, some pid, some ppid => .ok ⟨stringOf name, pidOfText pid, pidOfText ppid⟩
  | _, _, _ => .error .invalidPointer

/-- An entry of `/proc`; `status` is what can be read from its status file. -/
structure DirEntry where
  name : CString
  isDir : Bool
  status : Option (List Byte)

/-- `strtol` stops at the end of the name. Without a numeral `endptr` is the name itself. -/
def isNumber (text : List Byte) : Bool :=
  match scanNumeral text with
  | some (_, rest) => rest.isEmpty
  | none => text.isEmpty

def IsProcess (e : DirEntry) : Prop :=
  e.name.bytes ≠ ascii "." ∧ e.name.bytes ≠ ascii ".." ∧ e.isDir = true ∧
    isNumber e.name.bytes = true

instance (e : DirEntry) : Decidable (IsProcess e) := inferInstanceAs (Decidable (_ ∧ _ ∧ _ ∧ _))

inductive Crash where
  | fault (f : Fault)
  | failure (f : Failure)
  deriving DecidableEq

/-- A file that cannot be opened is reported, and then closed: `fclose(NULL)`. -/
def visit (s : ProcessLl) (e : DirEntry) : Except Crash ProcessLl :=
  if IsProcess e then
    match e.status with
    | none => .error (.fault .invalidPointer)
    | some text => do
      let p ← (readProcess text).mapError .fault
      (createAndInsertProcessNodeLl true s p).mapError .failure
  else .ok s

/-- The nodes in the order in which they are freed. `next` is read before that; either of the two
needs a node that is not freed yet. -/
def freeEverything (s : ProcessLl) (rounds : ℕ) : Option (Except Fault (List ℕ)) :=
  follow s (fun freed i => some
    (if i < s.nodes.length ∧ i ∉ freed then .ok (freed ++ [i]) else .error .invalidPointer))
    rounds s.start []

/-- What `main` prints, and the nodes that it frees. No result means that the bounds on rounds and
nested calls are exceeded. -/
def pstree (entries : List DirEntry) (rounds calls : ℕ) :
    Option (Except Crash (List Byte × List ℕ)) :=
  match entries.foldlM visit noProcesses with
  | .error e => some (.error e)
  | .ok s =>
    match createTree s true rounds with
    | none => none
    | some (.error f) => some (.error (.failure f))
    | some (.ok tree) => do
      let text ← printTree (processes s) tree calls
      let freed ← freeEverything s rounds
      some ((freed.mapError .fault).map fun freed => (text, freed))

section Reading

inductive Reads : List DirEntry → List Process → Prop where
  | nil : Reads [] []
  | process {e entries text p ps} : IsProcess e → e.status = some text →
      readProcess text = .ok p → Reads entries ps → Reads (e :: entries) (p :: ps)
  | other {e entries ps} : ¬ IsProcess e → Reads entries ps → Reads (e :: entries) ps

variable {e : DirEntry} {entries : List DirEntry} {ps : List Process} {s t : ProcessLl}

theorem visit_ok (h : visit s e = .ok t) :
    (¬ IsProcess e ∧ t = s) ∨ ∃ text p, IsProcess e ∧ e.status = some text ∧
      readProcess text = .ok p ∧ createAndInsertProcessNodeLl true s p = .ok t := by
  rw [visit] at h
  split at h
  · next hp =>
    split at h
    · cases h
    · next text hs =>
      obtain ⟨p, hread, hinsert⟩ := bind_ok_iff.mp h
      exact .inr ⟨text, p, hp, hs, mapError_ok_iff.mp hread, mapError_ok_iff.mp hinsert⟩
  · next hp =>
    cases h
    exact .inl ⟨hp, rfl⟩

theorem Reads.scan (h : Reads entries ps) (s : ProcessLl) : entries.foldlM visit s = .ok t ↔
    ps.foldlM (createAndInsertProcessNodeLl true) s = .ok t := by
  induction h generalizing s with
  | nil => exact ⟨fun h => by cases h; rfl, fun h => by cases h; rfl⟩
  | @process e entries text p ps hp hs hread _ ih =>
    have hvisit : ∀ u, visit s e = .ok u ↔ createAndInsertProcessNodeLl true s p = .ok u := by
      intro u
      simp only [visit, if_pos hp, hs, hread]
      exact mapError_ok_iff
    simp only [foldlM_cons_ok, hvisit, ih]
  | other hp _ ih =>
    simp only [foldlM_cons_ok, visit, if_neg hp, ih]
    exact ⟨fun ⟨u, hu, h⟩ => by cases hu; exact h, fun h => ⟨s, rfl, h⟩⟩

theorem reads_of_scan (h : entries.foldlM visit s = .ok t) : ∃ ps, Reads entries ps := by
  induction entries generalizing s with
  | nil => exact ⟨[], .nil⟩
  | cons e entries ih =>
    obtain ⟨u, hu, hrest⟩ := foldlM_cons_ok.mp h
    obtain ⟨ps, hps⟩ := ih hrest
    rcases visit_ok hu with ⟨hp, -⟩ | ⟨text, p, hp, hs, hread, -⟩
    · exact ⟨ps, .other hp hps⟩
    · exact ⟨p :: ps, .process hp hs hread hps⟩

end Reading

section Building

variable {n : ℕ} {f : Fin n → Process} {ps : List Process} {s : ProcessLl}

/-- What `create_tree` and the arrays of a node need of the processes. -/
structure Printable (ps : List Process) : Prop where
  several : ps.length ≠ 1
  names : ∀ p ∈ ps, p.name.bytes.length < 128
  parents : ∀ p ∈ ps, p.ppid ≠ 0 → ∃ q ∈ ps, q.pid = p.ppid
  childs : ∀ pid, (ps.countP fun p => p.ppid = pid) ≤ 512

theorem createTree_ofFn : (∃ tree, ProcessTree.createTree f true = .ok tree) ↔
    (∀ p ∈ List.ofFn f, p.ppid ≠ 0 → ∃ q ∈ List.ofFn f, q.pid = p.ppid) ∧
      ∀ pid, ((List.ofFn f).countP fun p => p.ppid = pid) ≤ 512 := by
  have hcount : ∀ pid, ((List.ofFn f).countP fun p => p.ppid = pid) =
      (List.finRange n).countP fun i => (f i).ppid = pid := by
    intro pid
    rw [List.ofFn_eq_map, List.countP_map]
    rfl
  rw [createTree_ok_iff]
  simp [hcount, List.mem_ofFn]

theorem printTree_lists {tree : Tree n} (htree : ProcessTree.createTree f true = .ok tree) :
    ∃ lines, Preorder (up f) (· < ·) lines ∧
      (∀ i, i ∈ lines.map Entry.node ↔ ReachesGhost f i) ∧
      ∀ calls, n ≤ calls → printTree f tree calls =
        some (header ++ lines.flatMap fun e => lineOf f e.node e.depth e.last) := by
  obtain ⟨hall, hbuilt⟩ := createTree_parents htree
  have hparents : ∀ i, ∃ node, IsParent f i node := fun i => hall i (List.mem_finRange i)
  obtain ⟨lines, hlines, hpre⟩ :=
    forest_lists (hbuilt.children hparents) (Fintype.card_fin n).le
  refine ⟨lines, hpre, fun i => ?_, fun calls hcalls => ?_⟩
  · rw [reachesGhost_iff hparents, List.mem_map]
    constructor
    · rintro ⟨e, he, rfl⟩
      exact ⟨e.depth, hpre.depth e he⟩
    · rintro ⟨d, hd⟩
      exact hpre.complete d i hd
  · have hmore := each_listing_mono hcalls hlines
    simp only [nodeOf] at hmore
    rw [printTree_eq, hmore]
    rfl

theorem chained_freeEverything (hs : Chained s) {rounds : ℕ} (hr : s.nodes.length < rounds) :
    freeEverything s rounds = some (.ok (List.range s.nodes.length)) := by
  rw [freeEverything, hs.follow_start (fun _ _ _ => rfl) [] hr]
  have hloop : ∃ freed, (List.range s.nodes.length).foldlM (fun freed i =>
      (if i < s.nodes.length ∧ i ∉ freed then .ok (freed ++ [i]) else .error .invalidPointer :
        Except Fault (List ℕ))) [] = .ok freed ∧ freed = List.range s.nodes.length := by
    refine foldlM_succeeds (P := fun done freed => freed = done) rfl ?_
    rintro done i rest freed hwhole rfl
    have hi : i < s.nodes.length := List.mem_range.mp (by simp [hwhole])
    have hfresh : i ∉ freed := by
      have hnodup := hwhole ▸ List.nodup_range (n := s.nodes.length)
      intro hmem
      exact (List.nodup_append.mp hnodup).2.2 i hmem i List.mem_cons_self rfl
    exact ⟨freed ++ [i], if_pos ⟨hi, hfresh⟩, rfl⟩
  obtain ⟨freed, hrun, rfl⟩ := hloop
  exact congrArg some hrun

theorem inserted_eq_ofFn (h : Inserted ps s) : ps = List.ofFn (processes s) := by
  rw [← h.created, List.ofFn_eq_map]
  apply List.ext_getElem
  · simp
  · intro i h₁ h₂
    simp [processes]

end Building

section Runs

variable {entries : List DirEntry} {ps : List Process} {s : ProcessLl}

theorem pstree_of_tree (hscan : entries.foldlM visit noProcesses = .ok s) (hs : Chained s)
    {tree : Tree s.nodes.length} (htree : ProcessTree.createTree (processes s) true = .ok tree) :
    ∃ lines, Preorder (up (processes s)) (· < ·) lines ∧
      (∀ i, i ∈ lines.map Entry.node ↔ ReachesGhost (processes s) i) ∧
      ∀ rounds calls, s.nodes.length < rounds → s.nodes.length ≤ calls →
        pstree entries rounds calls = some (.ok (header ++ lines.flatMap fun e =>
          lineOf (processes s) e.node e.depth e.last, List.range s.nodes.length)) := by
  obtain ⟨lines, hpre, hreach, hprint⟩ := printTree_lists htree
  refine ⟨lines, hpre, hreach, fun rounds calls hrounds hcalls => ?_⟩
  simp only [pstree, hscan, hs.createTree true hrounds, htree, hprint calls hcalls,
    chained_freeEverything hs hrounds]
  rfl

theorem pstree_ok {rounds calls : ℕ} {result : List Byte × List ℕ}
    (h : pstree entries rounds calls = some (.ok result)) :
    ∃ s tree, entries.foldlM visit noProcesses = .ok s ∧
      createTree s true rounds = some (.ok tree) := by
  rw [pstree] at h
  split at h
  · cases h
  · next s hscan =>
    split at h
    · cases h
    · cases h
    · next tree htree => exact ⟨s, tree, hscan, htree⟩

/-- The program comes to its end just when every numbered directory has a status file from which a
process can be read, there is not only one process, the names fit, every parent is listed and
no process has more than 512 children. -/
theorem pstree_succeeds_iff (entries : List DirEntry) :
    (∃ rounds calls result, pstree entries rounds calls = some (.ok result)) ↔
      ∃ ps, Reads entries ps ∧ Printable ps := by
  constructor
  · rintro ⟨rounds, calls, result, hrun⟩
    obtain ⟨s, tree, hscan, htree⟩ := pstree_ok hrun
    obtain ⟨ps, hreads⟩ := reads_of_scan hscan
    obtain ⟨hnames, hins⟩ := insertAll_inserted ((hreads.scan noProcesses).mp hscan)
    have hseveral : ps.length ≠ 1 := fun hone => hins.circular hone _ _ _ _ htree
    have hbuilt : ProcessTree.createTree (processes s) true = .ok tree := by
      have hmore := createTree_mono (Nat.le_add_right rounds (s.nodes.length + 1)) htree
      rw [(hins.chained hseveral).createTree true (by omega)] at hmore
      exact Option.some.inj hmore
    obtain ⟨hparents, hchilds⟩ := createTree_ofFn.mp ⟨tree, hbuilt⟩
    rw [← inserted_eq_ofFn hins] at hparents hchilds
    exact ⟨ps, hreads, hseveral, hnames, hparents, hchilds⟩
  · rintro ⟨ps, hreads, hp⟩
    obtain ⟨s, hrun, hins⟩ := insertAll_succeeds hp.names
    have hfn := inserted_eq_ofFn hins
    obtain ⟨tree, htree⟩ := createTree_ofFn.mpr ⟨hfn ▸ hp.parents, hfn ▸ hp.childs⟩
    obtain ⟨lines, -, -, hresult⟩ :=
      pstree_of_tree ((hreads.scan noProcesses).mpr hrun) (hins.chained hp.several) htree
    exact ⟨_, _, _, hresult _ _ (Nat.lt_succ_self _) le_rfl⟩

end Runs

section StatusFiles

def Unread (piece : List Byte) : Prop :=
  ∃ token rest, strtok (stringOf piece).bytes = some (token, rest) ∧
    token ≠ ascii "Name:" ∧ token ≠ ascii "Pid:" ∧ token ≠ ascii "PPid:"

inductive Line where
  | name
  | pid
  | ppid
  | other (text : List Byte) (unread : ∀ piece ∈ pieces (text ++ [10]), Unread piece)

def fieldText (key : String) (value : List Byte) : List Byte := ascii key ++ 9 :: value

def Line.text (p : Process) : Line → List Byte
  | .name => fieldText "Name:" p.name.bytes
  | .pid => fieldText "Pid:" (formatInt p.pid.toInt)
  | .ppid => fieldText "PPid:" (formatInt p.ppid.toInt)
  | .other text _ => text

/-- The status file of a process. The kernel escapes newlines in the name; a name has up to 64
characters. -/
structure StatusFile where
  process : Process
  lines : List Line
  name_plain : 9 ∉ process.name.bytes ∧ 10 ∉ process.name.bytes
  name_short : process.name.bytes.length ≤ 64
  complete : .name ∈ lines ∧ .pid ∈ lines ∧ .ppid ∈ lines

def StatusFile.text (file : StatusFile) : List Byte :=
  file.lines.flatMap fun l => l.text file.process ++ [10]

theorem strtok_last {token : List Byte} (hne : token ≠ []) (htab : 9 ∉ token) :
    strtok token = some (token, []) := by
  have hall : ∀ b ∈ token, decide (b ≠ 9) = true := fun b hb =>
    decide_eq_true fun h => htab (h ▸ hb)
  have htake : token.takeWhile (fun b => decide (b ≠ 9)) = token :=
    List.takeWhile_eq_self_iff.mpr hall
  have hdrop : token.dropWhile (fun b => decide (b ≠ 9)) = [] :=
    List.dropWhile_eq_nil_iff.mpr hall
  obtain ⟨c, cs, rfl⟩ := List.exists_cons_of_ne_nil hne
  have hc : c ≠ 9 := fun h => htab (h ▸ List.mem_cons_self)
  have hstart : (c :: cs).dropWhile (· = 9) = c :: cs := by simp [hc]
  rw [strtok, hstart]
  simp only [htake, hdrop]
  rfl

theorem field_token (key : String) {value : List Byte}
    (hkey : ascii key ≠ [] ∧ (ascii key).length ≤ 5)
    (hplain : 9 ∉ ascii key ∧ 10 ∉ ascii key ∧ 0 ∉ ascii key)
    (hvalue : 10 ∉ value ∧ 0 ∉ value) (hshort : value.length ≤ 64) :
    pieces (fieldText key value ++ [10]) = [fieldText key value ++ [10]] ∧
      strtok (stringOf (fieldText key value ++ [10])).bytes =
        some (ascii key, value ++ [10]) := by
  constructor
  · exact UserProcesses.piecesFrom_line [] (fieldText key value) []
      (by simp [fieldText, hplain, hvalue]) (by simp [fieldText]; omega)
  · rw [stringOf_bytes (by simp [fieldText, hplain, hvalue]), fieldText, List.append_assoc,
      List.cons_append]
    exact UserProcesses.strtok_token hkey.1 hplain.1

theorem nextValue_newline {value : List Byte} (htab : 9 ∉ value) :
    nextValue (value ++ [10]) = .ok value := by
  rw [nextValue, strtok_last (by simp) (by simp [htab])]
  simp

theorem formatInt_plain (z : ℤ) : 9 ∉ formatInt z ∧ 10 ∉ formatInt z ∧ 0 ∉ formatInt z :=
  ⟨not_mem_formatInt (by decide) (by decide) z, not_mem_formatInt (by decide) (by decide) z,
    formatInt_nul_free z⟩

theorem toInt_bounds (pid : Pid) : -2147483648 ≤ pid.toInt ∧ pid.toInt < 2147483648 :=
  ⟨BitVec.le_toInt pid, BitVec.toInt_lt⟩

theorem formatInt_pid_length (pid : Pid) : (formatInt pid.toInt).length ≤ 64 := by
  have hbounds := toInt_bounds pid
  have hlength := formatInt_length (z := pid.toInt) (w := 10) (by decide) (by omega)
  omega

theorem pidOfText_formatInt (pid : Pid) : pidOfText (formatInt pid.toInt) = pid := by
  have hbounds := toInt_bounds pid
  have htext : stringOf (formatInt pid.toInt) =
      ⟨formatInt pid.toInt, formatInt_nul_free pid.toInt⟩ :=
    CString.ext_bytes (stringOf_bytes (formatInt_nul_free pid.toInt))
  rw [pidOfText, htext, strtol_formatInt (by omega) (by omega), BitVec.ofInt_toInt]

def Line.set (p : Process) (values : Values) : Line → Values
  | .name => { values with cmdName := some p.name.bytes }
  | .pid => { values with cmdPID := some (formatInt p.pid.toInt) }
  | .ppid => { values with cmdPPID := some (formatInt p.ppid.toInt) }
  | .other _ _ => values

theorem readPieces_unread {l : List (List Byte)} (h : ∀ piece ∈ l, Unread piece)
    (values : Values) : l.foldlM readPiece values = .ok values := by
  induction l with
  | nil => rfl
  | cons piece l ih =>
    obtain ⟨token, rest, hfirst, hname, hpid, hppid⟩ := h piece List.mem_cons_self
    refine foldlM_cons_ok.mpr ⟨values, ?_, ih fun q hq => h q (List.mem_cons_of_mem piece hq)⟩
    simp only [readPiece, hfirst, if_neg hname, if_neg hpid, if_neg hppid]

theorem StatusFile.line_read (file : StatusFile) (values : Values) (l : Line) :
    (pieces (l.text file.process ++ [10])).foldlM readPiece values =
      .ok (l.set file.process values) := by
  cases l with
  | name =>
    obtain ⟨hpieces, htoken⟩ := field_token "Name:" (by decide) (by decide)
      ⟨file.name_plain.2, file.process.name.nul_free⟩ file.name_short
    rw [Line.text, hpieces, List.foldlM_cons]
    simp only [readPiece, htoken, nextValue_newline file.name_plain.1]
    rfl
  | pid =>
    obtain ⟨htab, hplain⟩ := formatInt_plain file.process.pid.toInt
    obtain ⟨hpieces, htoken⟩ := field_token "Pid:" (by decide) (by decide) hplain
      (formatInt_pid_length file.process.pid)
    rw [Line.text, hpieces, List.foldlM_cons]
    simp only [readPiece, htoken, nextValue_newline htab]
    rfl
  | ppid =>
    obtain ⟨htab, hplain⟩ := formatInt_plain file.process.ppid.toInt
    obtain ⟨hpieces, htoken⟩ := field_token "PPid:" (by decide) (by decide) hplain
      (formatInt_pid_length file.process.ppid)
    rw [Line.text, hpieces, List.foldlM_cons]
    simp only [readPiece, htoken, nextValue_newline htab]
    rfl
  | other text unread => exact readPieces_unread unread values

/-- Whatever is read from each line, it is read from the lines of a file one after the other. -/
theorem lines_read {V L : Type} {read : V → List Byte → Except Fault V} {text : L → List Byte}
    {set : V → L → V}
    (h : ∀ values l, (pieces (text l ++ [10])).foldlM read values = .ok (set values l))
    (lines : List L) (values : V) :
    (pieces (lines.flatMap fun l => text l ++ [10])).foldlM read values =
      .ok (lines.foldl set values) := by
  induction lines generalizing values with
  | nil => rfl
  | cons l lines ih =>
    rw [List.flatMap_cons, UserProcesses.pieces_append (.inr ⟨text l, rfl⟩),
      List.foldlM_append, h, List.foldl_cons]
    exact ih (set values l)

theorem foldl_set (p : Process) (lines : List Line) (values : Values)
    (hname : .name ∈ lines ∨ values.cmdName = some p.name.bytes)
    (hpid : .pid ∈ lines ∨ values.cmdPID = some (formatInt p.pid.toInt))
    (hppid : .ppid ∈ lines ∨ values.cmdPPID = some (formatInt p.ppid.toInt)) :
    lines.foldl (Line.set p) values =
      ⟨some p.name.bytes, some (formatInt p.pid.toInt), some (formatInt p.ppid.toInt)⟩ := by
  induction lines generalizing values with
  | nil =>
    cases values
    simp_all
  | cons l lines ih =>
    rw [List.foldl_cons]
    apply ih
    all_goals cases l <;> simp_all [Line.set]

theorem StatusFile.read_back (file : StatusFile) : readProcess file.text = .ok file.process := by
  obtain ⟨hname, hpid, hppid⟩ := file.complete
  rw [readProcess, StatusFile.text, lines_read file.line_read,
    foldl_set file.process file.lines _ (.inl hname) (.inl hpid) (.inl hppid)]
  change Except.ok (Process.mk _ _ _) = _
  rw [pidOfText_formatInt, pidOfText_formatInt,
    CString.ext_bytes (stringOf_bytes file.process.name.nul_free)]

/-- The entries of `/proc`: a directory with its status file for every process, and others. -/
inductive Listing : List DirEntry → List Process → Prop where
  | nil : Listing [] []
  | process {e entries ps} (file : StatusFile) : IsProcess e → e.status = some file.text →
      Listing entries ps → Listing (e :: entries) (file.process :: ps)
  | other {e entries ps} : ¬ IsProcess e → Listing entries ps → Listing (e :: entries) ps

theorem Listing.reads {entries : List DirEntry} {ps : List Process} (h : Listing entries ps) :
    Reads entries ps ∧ ∀ p ∈ ps, p.name.bytes.length < 128 := by
  induction h with
  | nil => exact ⟨.nil, by simp⟩
  | process file hp hs _ ih =>
    refine ⟨.process hp hs file.read_back ih.1, ?_⟩
    intro p hmem
    rcases List.mem_cons.mp hmem with rfl | hmem
    · have := file.name_short
      omega
    · exact ih.2 p hmem
  | other hp _ ih => exact ⟨.other hp ih.1, ih.2⟩

/-- For a system with more than one process, whose parents are all listed with at most 512 children
each, the program prints every process that descends from a process without parent, on a line of
its own under its parent, and frees every node once. -/
theorem pstree_prints_listing {n : ℕ} {f : Fin n → Process} {entries : List DirEntry}
    (hlisting : Listing entries (List.ofFn f)) (hseveral : n ≠ 1)
    (hparents : ∀ i, (f i).ppid ≠ 0 → ∃ j, (f j).pid = (f i).ppid)
    (hchilds : ∀ pid, ((List.finRange n).countP fun i => (f i).ppid = pid) ≤ 512) :
    ∃ lines, Preorder (up f) (· < ·) lines ∧
      (∀ i, i ∈ lines.map Entry.node ↔ ReachesGhost f i) ∧
      ∀ rounds calls, n < rounds → n ≤ calls → pstree entries rounds calls =
        some (.ok (header ++ lines.flatMap fun e => lineOf f e.node e.depth e.last,
          List.range n)) := by
  obtain ⟨hreads, hnames⟩ := hlisting.reads
  obtain ⟨s, hrun, hins⟩ := insertAll_succeeds hnames
  have hsame := inserted_eq_ofFn hins
  have hlength : n = s.nodes.length := by simpa using congrArg List.length hsame
  subst hlength
  rw [List.ofFn_inj] at hsame
  subst hsame
  obtain ⟨tree, htree⟩ := createTree_ok_iff.mpr ⟨rfl, hparents, hchilds⟩
  exact pstree_of_tree ((hreads.scan noProcesses).mpr hrun)
    (hins.chained (by simpa using hseveral)) htree

def briefFile (p : Process) (hplain : 9 ∉ p.name.bytes ∧ 10 ∉ p.name.bytes)
    (hshort : p.name.bytes.length ≤ 64) : StatusFile :=
  ⟨p, [.name, .pid, .ppid], hplain, hshort, by simp⟩

def twoProcesses : Fin 2 → Process :=
  ![⟨stringOf (ascii "init"), 1, 0⟩, ⟨stringOf (ascii "sh"), 2, 1⟩]

def smallProc : List DirEntry :=
  [⟨stringOf (ascii "1"), true, some (ascii "Name:\tinit\nPid:\t1\nPPid:\t0\n")⟩,
    ⟨stringOf (ascii "2"), true, some (ascii "Name:\tsh\nPid:\t2\nPPid:\t1\n")⟩,
    ⟨stringOf (ascii "self"), false, none⟩]

theorem small_proc_printed : ∃ lines : List (Entry (Fin 2)),
    Preorder (up twoProcesses) (· < ·) lines ∧ pstree smallProc 3 2 =
      some (.ok (header ++ lines.flatMap fun e => lineOf twoProcesses e.node e.depth e.last,
        [0, 1])) := by
  have hlisting : Listing smallProc (List.ofFn twoProcesses) :=
    .process (briefFile (twoProcesses 0) (by decide) (by decide)) (by decide) (by decide +kernel)
      (.process (briefFile (twoProcesses 1) (by decide) (by decide)) (by decide)
        (by decide +kernel) (.other (by decide) .nil))
  have hchilds : ∀ pid, ((List.finRange 2).countP fun i => (twoProcesses i).ppid = pid) ≤ 512 :=
    fun pid => List.countP_le_length.trans (by decide)
  obtain ⟨lines, hpre, -, hprint⟩ :=
    pstree_prints_listing hlisting (by decide) (by decide) hchilds
  exact ⟨lines, hpre, hprint 3 2 (by decide) le_rfl⟩

example : pstree smallProc 3 2 = some (.ok
    (ascii "GHOST PROCESS(0)\n`-- init(1)\n    `-- sh(2)\n", [0, 1])) := by
  decide +kernel

end StatusFiles

end ProcessScan
