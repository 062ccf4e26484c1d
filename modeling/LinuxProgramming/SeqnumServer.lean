import LinuxProgramming.DecimalText
import LinuxProgramming.TransitionSystems

/-! The FIFO sequence-number server of `fifo_seqnum_server.c`, one system call a step.
It may be killed between any two calls and started again on the same backup file; what is in
its memory is then lost. Computations between two calls belong to the earlier one. -/
namespace SeqnumServer

open CharStrings DecimalText TransitionSystems

/-- `int` and `pid_t`; addition wraps around. -/
abbrev CInt := BitVec 32

structure Request where
  pid : CInt
  seqLen : CInt
  deriving DecidableEq

structure Response where
  seqNum : CInt
  deriving DecidableEq

def clientFifoNameLen : ℕ := 19 + 20

def clientFIFO (pid : CInt) : CString :=
  stringOf ((ascii "/tmp/seqnum_cl." ++ formatInt pid.toInt).take (clientFifoNameLen - 1))

/-- The next system call. `sent` tells whether the response of this turn was written. -/
inductive Pc where
  | readBackup
  | readRequest
  | openClient (req : Request)
  | writeResponse (req : Request)
  | closeClient (req : Request) (sent : Bool)
  | seek (req : Request) (sent : Bool)
  | writeBackup (req : Request) (sent : Bool)
  deriving DecidableEq

structure Process where
  pc : Pc
  seqNum : CInt
  backupFileContent : CharArray 21
  offset : ℕ
  deriving DecidableEq

/-- A range handed out: the request, the number in its response, and whether the response
got into the FIFO of the client. -/
structure Grant where
  request : Request
  seqNum : CInt
  delivered : Bool
  deriving DecidableEq

/-- The backup file, the running server, what was written into each client FIFO, and the
history of the ranges handed out, which no step reads. -/
structure System where
  file : Option (List Byte)
  server : Option Process
  fifos : CString → List Response
  granted : List Grant

inductive Event where
  | start (junk : CharArray 21)
  | readBackup
  | discard
  | request (req : Request)
  | openClient (ok : Bool)
  | writeResponse (ok : Bool)
  | closeClient
  | seek
  | writeBackup (ok : Bool)
  | kill
  deriving DecidableEq

def readAt (file : List Byte) (offset : ℕ) : List Byte := (file.drop offset).take 21

def writeAt (file : List Byte) (offset : ℕ) (bytes : List Byte) : List Byte :=
  file.take offset ++ List.replicate (offset - file.length) 0 ++ bytes ++
    file.drop (offset + bytes.length)

/-- Nothing in the file leaves the counter at 0, else it is what `strtol` makes of the buffer;
a buffer without a terminator would be read past its end. -/
def Process.readBackup (p : Process) (file : List Byte) : Option Process :=
  let bytes := readAt file p.offset
  let content := p.backupFileContent.fill bytes
  if bytes = [] then some { p with pc := .readRequest }
  else if content.Terminated then
    some { p with
      pc := .readRequest
      seqNum := BitVec.ofInt 32 (strtol content.text)
      backupFileContent := content
      offset := p.offset + bytes.length }
  else none

def serverStep (s : System) (p : Process) : Event → Option System
  | .readBackup =>
    match p.pc, s.file with
    | .readBackup, some file =>
      (p.readBackup file).map fun p' => { s with server := some p' }
    | _, _ => none
  | .discard =>
    match p.pc with
    | .readRequest => some s
    | _ => none
  | .request req =>
    match p.pc with
    | .readRequest => some { s with server := some { p with pc := .openClient req } }
    | _ => none
  | .openClient ok =>
    match p.pc with
    | .openClient req =>
      some { s with server := some { p with
        pc := if ok then .writeResponse req else .readRequest } }
    | _ => none
  | .writeResponse ok =>
    match p.pc with
    | .writeResponse req =>
      some { s with
        server := some { p with pc := .closeClient req ok }
        fifos := if ok then Function.update s.fifos (clientFIFO req.pid)
            (s.fifos (clientFIFO req.pid) ++ [⟨p.seqNum⟩]) else s.fifos
        granted := s.granted ++ [⟨req, p.seqNum, ok⟩] }
    | _ => none
  | .closeClient =>
    match p.pc with
    | .closeClient req sent =>
      some { s with server := some { p with
        pc := .seek req sent
        seqNum := p.seqNum + req.seqLen } }
    | _ => none
  | .seek =>
    match p.pc with
    | .seek req sent =>
      some { s with server := some { p with
        pc := .writeBackup req sent
        backupFileContent := snprintf p.backupFileContent (formatInt p.seqNum.toInt)
        offset := 0 } }
    | _ => none
  | .writeBackup ok =>
    match p.pc, s.file with
    | .writeBackup _ _, some file =>
      some { s with
        file := some (if ok then writeAt file p.offset p.backupFileContent.toList else file)
        server := some { p with
          pc := .readRequest
          offset := if ok then p.offset + 21 else p.offset } }
    | _, _ => none
  | .start _ => none
  | .kill => some { s with server := none }

/-- Without a backup file the server creates one, but it keeps the failed descriptor, so its
first `read` fails and it exits. -/
def step (s : System) (e : Event) : Option System :=
  match s.server, e with
  | some p, e => serverStep s p e
  | none, .start junk =>
    match s.file with
    | some _ => some { s with server := some ⟨.readBackup, 0, junk, 0⟩ }
    | none => some { s with file := some [] }
  | none, _ => none

def Step (s : System) (e : Event) (t : System) : Prop := step s e = some t

/-- What can happen while no server runs: one comes up on the file, or makes the file and
exits. -/
inductive Starts (s : System) : Event → System → Prop where
  | opened {file} (junk) : s.file = some file →
      Starts s (.start junk) { s with server := some ⟨.readBackup, 0, junk, 0⟩ }
  | created (junk) : s.file = none → Starts s (.start junk) { s with file := some [] }

theorem starts_of_step {s t : System} {e : Event} (hs : s.server = none)
    (h : step s e = some t) : Starts s e t := by
  cases e with
  | start junk =>
    cases hfile : s.file with
    | some file =>
      obtain rfl : { s with server := some ⟨.readBackup, 0, junk, 0⟩ } = t := by
        simpa [step, hs, hfile] using h
      exact .opened junk hfile
    | none =>
      obtain rfl : { s with file := some [] } = t := by simpa [step, hs, hfile] using h
      exact .created junk hfile
  | _ => simp [step, hs] at h

inductive Moves (s : System) (p : Process) : Event → System → Prop where
  | readBackup {file p'} : p.pc = .readBackup → s.file = some file → p.readBackup file = some p' →
      Moves s p .readBackup { s with server := some p' }
  | discard : p.pc = .readRequest → Moves s p .discard s
  | request (req) : p.pc = .readRequest →
      Moves s p (.request req) { s with server := some { p with pc := .openClient req } }
  | opened {req} : p.pc = .openClient req →
      Moves s p (.openClient true) { s with server := some { p with pc := .writeResponse req } }
  | notOpened {req} : p.pc = .openClient req →
      Moves s p (.openClient false) { s with server := some { p with pc := .readRequest } }
  | written {req} : p.pc = .writeResponse req →
      Moves s p (.writeResponse true)
        { s with
          server := some { p with pc := .closeClient req true }
          fifos := Function.update s.fifos (clientFIFO req.pid)
            (s.fifos (clientFIFO req.pid) ++ [⟨p.seqNum⟩])
          granted := s.granted ++ [⟨req, p.seqNum, true⟩] }
  | notWritten {req} : p.pc = .writeResponse req →
      Moves s p (.writeResponse false)
        { s with
          server := some { p with pc := .closeClient req false }
          granted := s.granted ++ [⟨req, p.seqNum, false⟩] }
  | closed {req sent} : p.pc = .closeClient req sent →
      Moves s p .closeClient
        { s with server := some { p with pc := .seek req sent, seqNum := p.seqNum + req.seqLen } }
  | sought {req sent} : p.pc = .seek req sent →
      Moves s p .seek
        { s with server := some { p with
            pc := .writeBackup req sent
            backupFileContent := snprintf p.backupFileContent (formatInt p.seqNum.toInt)
            offset := 0 } }
  | recorded {req sent file} : p.pc = .writeBackup req sent → s.file = some file →
      Moves s p (.writeBackup true)
        { s with
          file := some (writeAt file p.offset p.backupFileContent.toList)
          server := some { p with pc := .readRequest, offset := p.offset + 21 } }
  | notRecorded {req sent file} : p.pc = .writeBackup req sent → s.file = some file →
      Moves s p (.writeBackup false) { s with server := some { p with pc := .readRequest } }
  | killed : Moves s p .kill { s with server := none }

theorem moves_of_step {s t : System} {p : Process} {e : Event} (hs : s.server = some p)
    (h : step s e = some t) : Moves s p e t := by
  have hstep : serverStep s p e = some t := by simpa only [step, hs] using h
  cases e with
  | start junk => cases hstep
  | readBackup =>
    simp only [serverStep] at hstep
    split at hstep
    · next file hpc hfile =>
      obtain ⟨p', hp', rfl⟩ := Option.map_eq_some_iff.mp hstep
      exact .readBackup hpc hfile hp'
    · cases hstep
  | discard =>
    simp only [serverStep] at hstep
    split at hstep
    · next hpc => cases hstep; exact .discard hpc
    · cases hstep
  | request req =>
    simp only [serverStep] at hstep
    split at hstep
    · next hpc => cases hstep; exact .request req hpc
    · cases hstep
  | openClient ok =>
    simp only [serverStep] at hstep
    split at hstep
    · next req hpc =>
      cases hstep
      cases ok with
      | true => exact .opened hpc
      | false => exact .notOpened hpc
    · cases hstep
  | writeResponse ok =>
    simp only [serverStep] at hstep
    split at hstep
    · next req hpc =>
      cases hstep
      cases ok with
      | true => exact .written hpc
      | false => exact .notWritten hpc
    · cases hstep
  | closeClient =>
    simp only [serverStep] at hstep
    split at hstep
    · next req sent hpc => cases hstep; exact .closed hpc
    · cases hstep
  | seek =>
    simp only [serverStep] at hstep
    split at hstep
    · next req sent hpc => cases hstep; exact .sought hpc
    · cases hstep
  | writeBackup ok =>
    simp only [serverStep] at hstep
    split at hstep
    · next req sent file hpc hfile =>
      cases hstep
      cases ok with
      | true => exact .recorded hpc hfile
      | false =>
        have hsame : ({ s with file := some file } : System) = s := by rw [← hfile]
        have hmove : Moves s p (.writeBackup false)
            { s with server := some { p with pc := .readRequest } } := .notRecorded hpc hfile
        rw [← hsame] at hmove
        exact hsame ▸ hmove
    · cases hstep
  | kill => cases hstep; exact .killed

end SeqnumServer
