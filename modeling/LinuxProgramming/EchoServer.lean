import LinuxProgramming.BecomeDaemon
import LinuxProgramming.CharStrings
import LinuxProgramming.InetSockets
import LinuxProgramming.LimitedChildren
import Mathlib.Data.List.Count

/-! The whole of `is_echo_sv.c`: how the daemon gets its listening socket, and then the loop of
`LimitedChildren` with the connections that it accepts. A connection has a client, a child that
runs `handleRequest`, and for a while a descriptor in the parent. The client may go away and a
call of the child may fail at any time. What a client gets back is the beginning of what it sent,
whatever the order of the steps and the sizes of the pieces. -/
namespace EchoServer

open CharStrings DescriptorTables InetSockets LimitedChildren TransitionSystems

def bufSize : ℕ := 4096

inductive OtherFile where
  | devNull
  | connection (i : ℕ)
  | log
  | inherited
  deriving DecidableEq

section Source

variable {Address : Type}

/-- `main` up to its loop: the listening socket, if the daemon gets one. -/
def startServer (calls : BecomeDaemon.Calls (OpenFile Address OtherFile))
    (result : Option (List (AddrInfo Address)))
    (p : BecomeDaemon.Process (OpenFile Address OtherFile)) :
    Option (ℤ × Files Address OtherFile) :=
  let daemon := BecomeDaemon.becomeDaemon 0 calls p
  if daemon.1 = -1 then none
  else
    let socket := inetListen daemon.2.files result 10
    if socket.1 = -1 then none else some (socket.1, socket.2.2)

/-- Where the child of a connection is in `handleRequest`; `failed` is after its `exit`. -/
inductive Child where
  | absent
  | reading
  | writing (buf : List Byte)
  | exited
  | failed
  deriving DecidableEq

def Child.alive : Child → Bool
  | .reading | .writing _ => true
  | .absent | .exited | .failed => false

/-- The client has sent the first `sent` bytes of its message. `requests` and `replies` are under
way in the two directions. When it is `gone`, it has closed or reset the connection. -/
structure Connection where
  message : List Byte
  sent : ℕ
  shut : Bool
  gone : Bool
  requests : List Byte
  replies : List Byte
  received : List Byte
  child : Child

def newConnection (message : List Byte) : Connection :=
  ⟨message, 0, false, false, [], [], [], .absent⟩

/-- `leave` and `fail` reset the connection: of what is under way to the other side only the first
`kept` bytes arrive. -/
inductive Action where
  | send (n : ℕ)
  | shutdown
  | receive (n : ℕ)
  | leave (kept : ℕ)
  | read (n : ℕ)
  | write (n : ℕ)
  | exit
  | fail (kept : ℕ)
  deriving DecidableEq

def Action.ends : Action → Bool
  | .exit | .fail _ => true
  | _ => false

/-- `room` is what a socket holds for its reader. -/
def Connection.next (room : ℕ) (c : Connection) : Action → Option Connection
  | .send n =>
    if c.gone = false ∧ c.shut = false ∧ 0 < n ∧ c.sent + n ≤ c.message.length ∧
        c.requests.length + n ≤ room then
      some { c with
        sent := c.sent + n
        requests := c.requests ++ (c.message.drop c.sent).take n }
    else none
  | .shutdown =>
    if c.gone = false ∧ c.shut = false ∧ c.sent = c.message.length then
      some { c with shut := true }
    else none
  | .receive n =>
    if c.gone = false ∧ 0 < n ∧ n ≤ c.replies.length then
      some { c with replies := c.replies.drop n, received := c.received ++ c.replies.take n }
    else none
  | .leave kept =>
    if c.gone = false then some { c with gone := true, requests := c.requests.take kept }
    else none
  | .read n =>
    if c.child = .reading ∧ 0 < n ∧ n ≤ bufSize ∧ n ≤ c.requests.length then
      some { c with requests := c.requests.drop n, child := .writing (c.requests.take n) }
    else none
  | .write n =>
    match c.child with
    | .writing buf =>
      if 0 < n ∧ n ≤ buf.length ∧ (c.gone = true ∨ c.replies.length + n ≤ room) then
        some { c with
          replies := c.replies ++ buf.take n
          child := if buf.drop n = [] then .reading else .writing (buf.drop n) }
      else none
    | _ => none
  | .exit =>
    if c.child = .reading ∧ c.requests = [] ∧ (c.shut = true ∨ c.gone = true) then
      some { c with child := .exited }
    else none
  -- `read` gives -1, or `write` another number than it was asked for, or `SIGPIPE` comes
  | .fail kept =>
    if c.child.alive then some { c with child := .failed, replies := c.replies.take kept }
    else none

/-- `log` is the socket that `syslog` has connected to `/dev/log`. -/
structure State (Address : Type) where
  server : Server
  files : Files Address OtherFile
  cfd : ℤ
  log : Option ℤ
  connections : List Connection

def start (files : Files Address OtherFile) : State Address := ⟨initial, files, 0, none, []⟩

/-- The message goes over the socket that is open already, or over a new one, or is lost. -/
inductive Syslog where
  | kept
  | opened
  | lost
  deriving DecidableEq

inductive Event where
  | accept (message : List Byte)
  | parent (ok : Bool)
  | forkFails (log : Syslog)
  | connection (i : ℕ) (a : Action)
  | grimReaper (reaped : ℕ)
  deriving DecidableEq

def State.setConnection (s : State Address) (i : ℕ) (c : Connection) : State Address :=
  { s with connections := s.connections.set i c }

def State.fork (s : State Address) : State Address :=
  match s.connections[s.connections.length - 1]? with
  | none => s
  | some c => s.setConnection (s.connections.length - 1) { c with child := .reading }

def State.closeLog (s : State Address) : State Address :=
  match s.log with
  | none => s
  | some fd => { s with files := s.files.close fd, log := none }

/-- What `syslog` leaves open: it connects when it is not connected or cannot send any more. -/
def State.syslog (s : State Address) : Syslog → Option (State Address)
  | .kept => if s.log = none then none else some s
  | .opened => (s.closeLog.files.lowestFree 0).map fun fd =>
    { s.closeLog with files := s.closeLog.files.install fd (.other .log), log := some fd }
  | .lost => some s.closeLog

/-- The parent closes `cfd` when `fork` has failed, and after it has counted the child. A parent
whose `accept` fails exits. -/
def next (room : ℕ) (s : State Address) : Event → Option (State Address)
  | .accept message =>
    match s.server.pc, s.files.lowestFree 0 with
    | .accept, some cfd => (step s.server (.parent true)).map fun server =>
      { server := server
        files := s.files.install cfd (.other (.connection s.connections.length))
        cfd := cfd
        log := s.log
        connections := s.connections ++ [newConnection message] }
    | _, _ => none
  | .parent ok =>
    match s.server.pc with
    | .accept =>
      if ok then none else (step s.server (.parent false)).map fun server => { s with server }
    | .fork =>
      if ok then (step s.server (.parent true)).map fun server => { s.fork with server } else none
    | .store _ => (step s.server (.parent ok)).map fun server =>
      { s with server, files := s.files.close s.cfd }
    | _ => (step s.server (.parent ok)).map fun server => { s with server }
  | .forkFails log =>
    match s.server.pc, s.syslog log with
    | .fork, some logged => (step s.server (.parent false)).map fun server =>
      { logged with server, files := logged.files.close s.cfd }
    | _, _ => none
  | .connection i a =>
    match s.connections[i]? with
    | none => none
    | some c =>
      match c.next room a with
      | none => none
      | some d =>
        if a.ends then
          (step s.server .terminate).map fun server => { s.setConnection i d with server }
        else some (s.setConnection i d)
  | .grimReaper k => (step s.server (.grimReaper k)).map fun server => { s with server }

abbrev Step (room : ℕ) (s : State Address) (e : Event) (t : State Address) : Prop :=
  next room s e = some t

end Source

section Connections

variable {room : ℕ} {c d : Connection} {a : Action}

def Connection.pending (c : Connection) : List Byte :=
  match c.child with
  | .writing buf => buf ++ c.requests
  | .failed => []
  | .absent | .reading | .exited => c.requests

def Connection.stream (c : Connection) : List Byte := c.received ++ (c.replies ++ c.pending)

/-- Nothing is added or reordered on the way to the child and back, and nothing is lost unless one
side gives up. -/
structure Faithful (c : Connection) : Prop where
  ordered : c.stream <+: c.message.take c.sent
  whole : c.gone = false → c.child ≠ .failed → c.stream = c.message.take c.sent
  sent_le : c.sent ≤ c.message.length
  buffered : c.child ≠ .writing []
  shut : c.shut = true → c.sent = c.message.length
  exited : c.child = .exited → c.requests = [] ∧ (c.shut = true ∨ c.gone = true)

theorem newConnection_faithful (message : List Byte) : Faithful (newConnection message) :=
  ⟨List.nil_prefix, fun _ _ => rfl, Nat.zero_le _, nofun, nofun, nofun⟩

theorem Faithful.fork (h : Faithful c) (habsent : c.child = .absent) :
    Faithful { c with child := .reading } := by
  have hstream : Connection.stream { c with child := .reading } = c.stream := by
    simp only [Connection.stream, Connection.pending, habsent]
  have hlive : c.child ≠ .failed := by rw [habsent]; exact nofun
  exact ⟨hstream ▸ h.ordered, fun hgone _ => hstream ▸ h.whole hgone hlive, h.sent_le, nofun,
    h.shut, nofun⟩

theorem Faithful.send (h : Faithful c) {n : ℕ} (hgone : c.gone = false) (hopen : c.shut = false)
    (hle : c.sent + n ≤ c.message.length) : Faithful { c with
      sent := c.sent + n
      requests := c.requests ++ (c.message.drop c.sent).take n } := by
  have hwhole : c.child ≠ .failed → Connection.stream { c with
      sent := c.sent + n
      requests := c.requests ++ (c.message.drop c.sent).take n } =
        c.message.take (c.sent + n) := by
    intro hlive
    rw [List.take_add, ← h.whole hgone hlive]
    cases hchild : c.child with
    | failed => exact absurd hchild hlive
    | _ => simp only [Connection.stream, Connection.pending, hchild, List.append_assoc]
  refine ⟨?_, fun _ hlive => hwhole hlive, hle, h.buffered, fun hshut => ?_, fun hexited => ?_⟩
  · by_cases hfailed : c.child = .failed
    · -- nobody reads what is sent now
      have hstream : Connection.stream { c with
          sent := c.sent + n
          requests := c.requests ++ (c.message.drop c.sent).take n } = c.stream := by
        simp only [Connection.stream, Connection.pending, hfailed]
      rw [hstream]
      exact h.ordered.trans (List.take_prefix_take_left (Nat.le_add_right _ _))
    · exact (hwhole hfailed) ▸ List.prefix_rfl
  · rw [show c.shut = true from hshut] at hopen
    cases hopen
  · rcases (h.exited hexited).2 with hshut | hgone'
    · rw [hshut] at hopen
      cases hopen
    · rw [hgone'] at hgone
      cases hgone

theorem Faithful.receive (h : Faithful c) (n : ℕ) : Faithful { c with
    replies := c.replies.drop n
    received := c.received ++ c.replies.take n } := by
  have hstream : Connection.stream { c with
      replies := c.replies.drop n
      received := c.received ++ c.replies.take n } = c.stream :=
    calc c.received ++ c.replies.take n ++ (c.replies.drop n ++ c.pending)
        = c.received ++ (c.replies.take n ++ c.replies.drop n ++ c.pending) := by
          simp only [List.append_assoc]
      _ = c.stream := by rw [List.take_append_drop, Connection.stream]
  exact ⟨hstream ▸ h.ordered, fun hgone hlive => hstream ▸ h.whole hgone hlive, h.sent_le,
    h.buffered, h.shut, h.exited⟩

theorem Faithful.leave (h : Faithful c) (kept : ℕ) :
    Faithful { c with gone := true, requests := c.requests.take kept } := by
  have hpending : Connection.pending { c with gone := true, requests := c.requests.take kept } <+:
      c.pending := by
    cases hchild : c.child with
    | failed => simp [Connection.pending, hchild]
    | writing buf =>
      simp only [Connection.pending, hchild]
      exact (List.prefix_append_right_inj _).mpr (List.take_prefix _ _)
    | _ =>
      simp only [Connection.pending, hchild]
      exact List.take_prefix _ _
  refine ⟨List.IsPrefix.trans ?_ h.ordered, nofun, h.sent_le, h.buffered, h.shut,
    fun hexited => ?_⟩
  · exact (List.prefix_append_right_inj _).mpr ((List.prefix_append_right_inj _).mpr hpending)
  · simp [(h.exited hexited).1]

theorem Faithful.read (h : Faithful c) {n : ℕ} (hchild : c.child = .reading) (hpos : 0 < n)
    (hle : n ≤ c.requests.length) : Faithful { c with
      requests := c.requests.drop n
      child := .writing (c.requests.take n) } := by
  have hsome : c.requests.take n ≠ [] := by
    intro hnil
    have hlength := congrArg List.length hnil
    rw [List.length_take, List.length_nil] at hlength
    omega
  have hstream : Connection.stream { c with
      requests := c.requests.drop n
      child := .writing (c.requests.take n) } = c.stream := by
    simp only [Connection.stream, Connection.pending, hchild, List.take_append_drop]
  have hlive : c.child ≠ .failed := by rw [hchild]; exact nofun
  exact ⟨hstream ▸ h.ordered, fun hgone _ => hstream ▸ h.whole hgone hlive, h.sent_le,
    fun hbuf => hsome (Child.writing.inj hbuf), h.shut, nofun⟩

theorem Faithful.write {buf : List Byte} (h : Faithful c) (n : ℕ)
    (hchild : c.child = .writing buf) : Faithful { c with
      replies := c.replies ++ buf.take n
      child := if buf.drop n = [] then .reading else .writing (buf.drop n) } := by
  have hstream : Connection.stream { c with
      replies := c.replies ++ buf.take n
      child := if buf.drop n = [] then .reading else .writing (buf.drop n) } = c.stream := by
    have hpending : Connection.pending { c with
        replies := c.replies ++ buf.take n
        child := if buf.drop n = [] then .reading else .writing (buf.drop n) } =
          buf.drop n ++ c.requests := by
      simp only [Connection.pending]
      by_cases hnil : buf.drop n = []
      · simp only [hnil, if_true, List.nil_append]
      · simp only [hnil, if_false]
    simp only [Connection.stream, hpending, List.append_assoc]
    rw [← List.append_assoc (buf.take n), List.take_append_drop]
    simp only [Connection.pending, hchild]
  have hlive : c.child ≠ .failed := by rw [hchild]; exact nofun
  refine ⟨hstream ▸ h.ordered, fun hgone _ => hstream ▸ h.whole hgone hlive, h.sent_le,
    fun hbuf => ?_, h.shut, fun hexited => ?_⟩
  · simp only at hbuf
    split at hbuf
    · cases hbuf
    · next hnil => exact hnil (Child.writing.inj hbuf)
  · simp only at hexited
    split at hexited <;> cases hexited

theorem Faithful.exit (h : Faithful c) (hchild : c.child = .reading) (hrequests : c.requests = [])
    (hend : c.shut = true ∨ c.gone = true) : Faithful { c with child := .exited } := by
  have hstream : Connection.stream { c with child := .exited } = c.stream := by
    simp only [Connection.stream, Connection.pending, hchild]
  have hlive : c.child ≠ .failed := by rw [hchild]; exact nofun
  exact ⟨hstream ▸ h.ordered, fun hgone _ => hstream ▸ h.whole hgone hlive, h.sent_le, nofun,
    h.shut, fun _ => ⟨hrequests, hend⟩⟩

theorem Faithful.fail (h : Faithful c) (kept : ℕ) :
    Faithful { c with child := .failed, replies := c.replies.take kept } := by
  refine ⟨List.IsPrefix.trans ?_ h.ordered, fun _ hlive => absurd rfl hlive, h.sent_le, nofun,
    h.shut, nofun⟩
  simp only [Connection.stream, Connection.pending, List.append_nil]
  exact (List.prefix_append_right_inj _).mpr
    ((List.take_prefix _ _).trans (List.prefix_append _ _))

theorem Faithful.next (h : Faithful c) (hnext : c.next room a = some d) : Faithful d := by
  cases a with
  | send n =>
    simp only [Connection.next] at hnext
    split at hnext
    · next hguard =>
      cases hnext
      exact h.send hguard.1 hguard.2.1 hguard.2.2.2.1
    · cases hnext
  | shutdown =>
    simp only [Connection.next] at hnext
    split at hnext
    · next hguard =>
      cases hnext
      exact ⟨h.ordered, h.whole, h.sent_le, h.buffered, fun _ => hguard.2.2,
        fun hexited => ⟨(h.exited hexited).1, .inl rfl⟩⟩
    · cases hnext
  | receive n =>
    simp only [Connection.next] at hnext
    split at hnext
    · cases hnext
      exact h.receive n
    · cases hnext
  | leave kept =>
    simp only [Connection.next] at hnext
    split at hnext
    · cases hnext
      exact h.leave kept
    · cases hnext
  | read n =>
    simp only [Connection.next] at hnext
    split at hnext
    · next hguard =>
      cases hnext
      exact h.read hguard.1 hguard.2.1 hguard.2.2.2
    · cases hnext
  | write n =>
    simp only [Connection.next] at hnext
    split at hnext
    · next buf hchild =>
      split at hnext
      · cases hnext
        exact h.write n hchild
      · cases hnext
    · cases hnext
  | exit =>
    simp only [Connection.next] at hnext
    split at hnext
    · next hguard =>
      cases hnext
      exact h.exit hguard.1 hguard.2.1 hguard.2.2
    · cases hnext
  | fail kept =>
    simp only [Connection.next] at hnext
    split at hnext
    · cases hnext
      exact h.fail kept
    · cases hnext

theorem next_alive (hnext : c.next room a = some d) :
    (a.ends = true ∧ c.child.alive = true ∧ d.child.alive = false) ∨
      (a.ends = false ∧ d.child.alive = c.child.alive ∧
        (c.child = .absent → d.child = .absent)) := by
  cases a with
  | exit =>
    simp only [Connection.next] at hnext
    split at hnext
    · next hguard =>
      cases hnext
      exact .inl ⟨rfl, by rw [hguard.1]; rfl, rfl⟩
    · cases hnext
  | fail kept =>
    simp only [Connection.next] at hnext
    split at hnext
    · next halive =>
      cases hnext
      exact .inl ⟨rfl, halive, rfl⟩
    · cases hnext
  | read n =>
    simp only [Connection.next] at hnext
    split at hnext
    · next hguard =>
      cases hnext
      exact .inr ⟨rfl, by rw [hguard.1]; rfl, fun h => by rw [hguard.1] at h; cases h⟩
    · cases hnext
  | write n =>
    simp only [Connection.next] at hnext
    split at hnext
    · next buf hchild =>
      split at hnext
      · cases hnext
        refine .inr ⟨rfl, ?_, fun h => by rw [hchild] at h; cases h⟩
        rw [hchild]
        simp only
        split <;> rfl
      · cases hnext
    · cases hnext
  | _ =>
    simp only [Connection.next] at hnext
    split at hnext
    · cases hnext
      exact .inr ⟨rfl, rfl, id⟩
    · cases hnext

/-- Neither side gives up. -/
def Action.regular : Action → Bool
  | .leave _ | .fail _ => false
  | _ => true

/-- While the child is there, it or the client can go on. -/
theorem Faithful.progress (hroom : 0 < room) (h : Faithful c) (halive : c.child.alive = true) :
    ∃ a d, a.regular = true ∧ c.next room a = some d := by
  have hsome : ∀ a : Action, a.regular = true → (c.next room a).isSome →
      ∃ a d, a.regular = true ∧ c.next room a = some d := by
    intro a ha hnext
    obtain ⟨d, hd⟩ := Option.isSome_iff_exists.mp hnext
    exact ⟨a, d, ha, hd⟩
  cases hchild : c.child with
  | absent | exited | failed =>
    rw [hchild] at halive
    cases halive
  | writing buf =>
    have hbuf : 0 < buf.length := List.length_pos_of_ne_nil fun h' => h.buffered (h' ▸ hchild)
    by_cases hfree : c.gone = true ∨ c.replies.length + 1 ≤ room
    · refine hsome (.write 1) rfl ?_
      simp only [Connection.next, hchild]
      rw [if_pos ⟨Nat.one_pos, hbuf, hfree⟩]
      rfl
    · -- the client makes room
      obtain ⟨hthere, hfull⟩ := not_or.mp hfree
      refine hsome (.receive 1) rfl ?_
      simp only [Connection.next]
      rw [if_pos ⟨by simpa using hthere, Nat.one_pos, by omega⟩]
      rfl
  | reading =>
    by_cases hrequests : c.requests = []
    · by_cases hend : c.shut = true ∨ c.gone = true
      · exact hsome .exit rfl (by simp [Connection.next, hchild, hrequests, hend])
      · obtain ⟨hopen, hthere⟩ := not_or.mp hend
        have hsent := h.sent_le
        by_cases hall : c.sent = c.message.length
        · exact hsome .shutdown rfl (by simp [Connection.next, hopen, hthere, hall])
        · refine hsome (.send 1) rfl ?_
          simp only [Connection.next, hrequests, List.length_nil]
          rw [if_pos ⟨by simpa using hthere, by simpa using hopen, Nat.one_pos, by omega,
            by omega⟩]
          rfl
    · refine hsome (.read 1) rfl ?_
      simp only [Connection.next, hchild]
      rw [if_pos ⟨trivial, Nat.one_pos, by decide, List.length_pos_of_ne_nil hrequests⟩]
      rfl

end Connections

section Log

variable {Address : Type} {base : Files Address OtherFile} {s t : State Address} {cfd : ℤ}
  {log : Option ℤ}

def logged (base : Files Address OtherFile) : Option ℤ → Files Address OtherFile
  | none => base
  | some fd => base.install fd (.other .log)

/-- A socket to `/dev/log` is opened while there is a connection, so it comes behind it. -/
def LogBehind (base : Files Address OtherFile) (log : Option ℤ) : Prop :=
  ∀ fd, log = some fd →
    ∃ cfd, base.lowestFree 0 = some cfd ∧ base.lowestFree (cfd + 1) = some fd

theorem LogBehind.lowestFree {fd : ℤ} (hlog : LogBehind base (some fd))
    (hfree : base.lowestFree 0 = some cfd) : base.lowestFree (cfd + 1) = some fd := by
  obtain ⟨first, hfirst, hsecond⟩ := hlog fd rfl
  cases hfree.symm.trans hfirst
  exact hsecond

/-- With the first four descriptors in use, the log is found as number 5. -/
theorem LogBehind.entry (hlog : LogBehind base log)
    (hused : ∀ j, 0 ≤ j → j < 4 → base.entry j ≠ none) (hfree₄ : base.entry 4 = none)
    (hfree₅ : base.entry 5 = none) (fd : ℤ) :
    (logged base log).entry fd =
      if fd = 5 ∧ log ≠ none then some (.other .log) else base.entry fd := by
  cases log with
  | none => simp [logged]
  | some n =>
    obtain ⟨cfd, hfirst, hsecond⟩ := hlog n rfl
    obtain rfl := Table.lowestFree_unique hfirst (by decide) hused hfree₄
    obtain rfl := Table.lowestFree_unique hsecond (by decide) (fun j h0 hj => by omega) hfree₅
    have hlimit := (Table.lowestFree_eq_some.mp hsecond).2.2.1
    rw [logged, Table.install_entry (by decide) hlimit]
    simp

theorem logged_lowestFree (hlog : LogBehind base log)
    (hfree : (logged base log).lowestFree 0 = some cfd) : base.lowestFree 0 = some cfd := by
  cases log with
  | none => exact hfree
  | some fd =>
    obtain ⟨first, hfirst, hsecond⟩ := hlog fd rfl
    have hlt := (Table.lowestFree_eq_some.mp hsecond).2.1
    have hsame := Table.lowestFree_install_above hfirst (by omega : first < fd) (.other .log)
    rw [hfirst, ← hfree]
    exact hsame.symm

theorem logged_entry_cfd (hlog : LogBehind base log) (hfree : base.lowestFree 0 = some cfd) :
    (logged base log).entry cfd = none := by
  cases log with
  | none => exact Table.lowestFree_entry hfree
  | some fd =>
    have hlt := (Table.lowestFree_eq_some.mp (hlog.lowestFree hfree)).2.1
    exact (Table.install_entry_of_ne (by omega) _).trans (Table.lowestFree_entry hfree)

theorem closeLog_eq (hlog : LogBehind base s.log) (hfree : base.lowestFree 0 = some cfd)
    {file : OpenFile Address OtherFile} (hfiles : s.files = (logged base s.log).install cfd file) :
    s.closeLog = { s with files := base.install cfd file, log := none } := by
  cases h : s.log with
  | none =>
    rw [h] at hfiles
    simp only [State.closeLog, h]
    rw [← h, show base.install cfd file = s.files from hfiles.symm]
  | some fd =>
    rw [h] at hlog
    have hsecond := hlog.lowestFree hfree
    have hlt := (Table.lowestFree_eq_some.mp hsecond).2.1
    have hnone : (base.install cfd file).entry fd = none :=
      (Table.install_entry_of_ne (by omega) _).trans (Table.lowestFree_entry hsecond)
    simp only [State.closeLog, h, hfiles, logged]
    rw [Table.install_comm (by omega), Table.close_install hnone]

/-- With a connection open, the socket that `syslog` leaves open is the one behind it. -/
theorem syslog_files {outcome : Syslog} (hlog : LogBehind base s.log)
    (hfree : base.lowestFree 0 = some cfd) {file : OpenFile Address OtherFile}
    (hfiles : s.files = (logged base s.log).install cfd file)
    (hsyslog : s.syslog outcome = some t) : LogBehind base t.log ∧
      t.files = (logged base t.log).install cfd file ∧ t.cfd = s.cfd ∧
      t.connections = s.connections := by
  have hclosed := closeLog_eq hlog hfree hfiles
  cases outcome with
  | kept =>
    simp only [State.syslog] at hsyslog
    split at hsyslog
    · cases hsyslog
    · cases hsyslog
      exact ⟨hlog, hfiles, rfl, rfl⟩
  | lost =>
    cases hsyslog
    rw [hclosed]
    exact ⟨nofun, rfl, rfl, rfl⟩
  | opened =>
    obtain ⟨fd, hfd, rfl⟩ := Option.map_eq_some_iff.mp hsyslog
    rw [hclosed] at hfd ⊢
    have hsecond := (Table.lowestFree_install_eq_some hfree file).mp hfd
    have hlt := (Table.lowestFree_eq_some.mp hsecond).2.1
    refine ⟨fun fd' hfd' => ?_, Table.install_comm (by omega) _ _, rfl, rfl⟩
    cases hfd'
    exact ⟨cfd, hfree, hsecond⟩

end Log

section Runs

variable {Address : Type} {room : ℕ} {base : Files Address OtherFile} {s t : State Address}
  {e : Event}

def holds : Pc → Bool
  | .fork | .load | .store _ => true
  | .test | .accept | .left | .failed => false

structure Inv (base : Files Address OtherFile) (s : State Address) : Prop where
  limited : Limited s.server
  running : s.connections.countP (fun c => c.child.alive) = s.server.running
  faithful : ∀ c ∈ s.connections, Faithful c
  log : LogBehind base s.log
  idle : holds s.server.pc = false → s.files = logged base s.log
  busy : holds s.server.pc = true → base.lowestFree 0 = some s.cfd ∧
    ∃ earlier c, s.connections = earlier ++ [c] ∧
      s.files = (logged base s.log).install s.cfd (.other (.connection earlier.length)) ∧
      (s.server.pc = .fork → c.child = .absent)

theorem start_inv (base : Files Address OtherFile) : Inv base (start base) :=
  ⟨initial_limited, rfl, nofun, nofun, fun _ => rfl, nofun⟩

theorem Inv.server {v : Server} {ev : LimitedChildren.Event} (hi : Inv base s)
    (hstep : LimitedChildren.Step s.server ev v) (hrunning : v.running = s.server.running)
    (hholds : holds v.pc = holds s.server.pc) (hfork : v.pc = .fork → s.server.pc = .fork) :
    Inv base { s with server := v } := by
  refine ⟨limited_step hi.limited (moves_of_step hstep), hrunning ▸ hi.running, hi.faithful,
    hi.log, fun h => hi.idle (hholds ▸ h), fun h => ?_⟩
  obtain ⟨hfree, earlier, c, hconnections, hfiles, hlast⟩ := hi.busy (hholds ▸ h)
  exact ⟨hfree, earlier, c, hconnections, hfiles, fun h' => hlast (hfork h')⟩

theorem Inv.accept {v : Server} {cfd : ℤ} (hi : Inv base s) (hpc : s.server.pc = .accept)
    (hstep : LimitedChildren.Step s.server (.parent true) v)
    (hfree : s.files.lowestFree 0 = some cfd) (message : List Byte) :
    Inv base ⟨v, s.files.install cfd (.other (.connection s.connections.length)), cfd, s.log,
      s.connections ++ [newConnection message]⟩ := by
  have hidle : s.files = logged base s.log := hi.idle (by rw [hpc]; rfl)
  have hv : v = { s.server with pc := .fork } := by
    simp only [LimitedChildren.Step, step, parentStep, hpc] at hstep
    exact (Option.some.inj hstep).symm
  refine ⟨limited_step hi.limited (moves_of_step hstep), ?_, fun c hc => ?_, hi.log, fun h => ?_,
    fun _ => ?_⟩
  · rw [List.countP_append, hi.running, hv]
    rfl
  · rcases List.mem_append.mp hc with hc | hc
    · exact hi.faithful c hc
    · rw [List.mem_singleton.mp hc]
      exact newConnection_faithful message
  · rw [hv] at h
    cases h
  · exact ⟨logged_lowestFree hi.log (hidle ▸ hfree), s.connections, _, rfl, by rw [hidle],
      fun _ => rfl⟩

theorem fork_eq {earlier : List Connection} {c : Connection}
    (hconnections : s.connections = earlier ++ [c]) :
    s.fork = { s with connections := earlier ++ [{ c with child := .reading }] } := by
  simp [State.fork, State.setConnection, hconnections]

theorem Inv.fork {v : Server} (hi : Inv base s) (hpc : s.server.pc = .fork)
    (hstep : LimitedChildren.Step s.server (.parent true) v) :
    Inv base { s.fork with server := v } := by
  obtain ⟨hfree, earlier, c, hconnections, hfiles, habsent⟩ := hi.busy (by rw [hpc]; rfl)
  have hv : v = { s.server with pc := .load, running := s.server.running + 1 } := by
    simp only [LimitedChildren.Step, step, parentStep, hpc] at hstep
    exact (Option.some.inj hstep).symm
  have hc : c.child = .absent := habsent hpc
  rw [fork_eq hconnections]
  refine ⟨limited_step hi.limited (moves_of_step hstep), ?_, fun d hd => ?_, hi.log, fun h => ?_,
    fun _ => ⟨hfree, earlier, _, rfl, hfiles, fun h => ?_⟩⟩
  · have hrunning := hi.running
    simp only [hconnections, List.countP_append, List.countP_singleton, hc, Child.alive]
      at hrunning
    simp only [List.countP_append, List.countP_singleton, Child.alive, hv]
    simpa using hrunning
  · rcases List.mem_append.mp hd with hd | hd
    · exact hi.faithful d (by simp [hconnections, hd])
    · rw [List.mem_singleton.mp hd]
      exact (hi.faithful c (by simp [hconnections])).fork hc
  · rw [hv] at h
    cases h
  · rw [hv] at h
    cases h

theorem Inv.close {v : Server} {ev : LimitedChildren.Event} {log : Option ℤ}
    {files : Files Address OtherFile} {file : OpenFile Address OtherFile} (hi : Inv base s)
    (hbusy : holds s.server.pc = true) (hlog : LogBehind base log)
    (hfiles : files = (logged base log).install s.cfd file)
    (hstep : LimitedChildren.Step s.server ev v) (hrunning : v.running = s.server.running)
    (hpc : v.pc = .test) :
    Inv base { s with server := v, files := files.close s.cfd, log := log } := by
  obtain ⟨hfree, -⟩ := hi.busy hbusy
  refine ⟨limited_step hi.limited (moves_of_step hstep), hrunning ▸ hi.running, hi.faithful, hlog,
    fun _ => ?_, fun h => ?_⟩
  · change files.close s.cfd = logged base log
    rw [hfiles, Table.close_install (logged_entry_cfd hlog hfree)]
  · rw [hpc] at h
    cases h

theorem set_last {connections earlier : List Connection} {i : ℕ} {c d last : Connection}
    (hconnections : connections = earlier ++ [last]) (hc : connections[i]? = some c)
    (habsent : c.child = .absent → d.child = .absent) :
    ∃ earlier' last', connections.set i d = earlier' ++ [last'] ∧
      earlier'.length = earlier.length ∧ (last.child = .absent → last'.child = .absent) := by
  subst hconnections
  have hi := (List.getElem?_eq_some_iff.mp hc).1
  rw [List.length_append, List.length_singleton] at hi
  by_cases hlast : i = earlier.length
  · subst hlast
    rw [List.getElem?_concat_length] at hc
    cases hc
    exact ⟨earlier, d, by simp, rfl, habsent⟩
  · refine ⟨earlier.set i d, last, ?_, List.length_set, id⟩
    rw [List.set_append_left _ _ (by omega)]

theorem Inv.setConnection {i : ℕ} {c d : Connection} {v : Server} (hi : Inv base s)
    (hc : s.connections[i]? = some c) (hd : Faithful d) (hlimited : Limited v)
    (hpc : v.pc = s.server.pc)
    (hrunning : (s.connections.set i d).countP (fun c => c.child.alive) = v.running)
    (habsent : c.child = .absent → d.child = .absent) :
    Inv base { s.setConnection i d with server := v } := by
  refine ⟨hlimited, hrunning, fun x hx => ?_, hi.log, fun h => hi.idle (hpc ▸ h), fun h => ?_⟩
  · rcases List.mem_or_eq_of_mem_set hx with hx | rfl
    · exact hi.faithful x hx
    · exact hd
  · obtain ⟨hfree, earlier, last, hconnections, hfiles, hlast⟩ := hi.busy (hpc ▸ h)
    obtain ⟨earlier', last', hset, hlength, hkeeps⟩ := set_last hconnections hc habsent
    exact ⟨hfree, earlier', last', hset, hlength ▸ hfiles, fun h => hkeeps (hlast (hpc ▸ h))⟩

theorem countP_alive_set {connections : List Connection} {i : ℕ} {c d : Connection}
    (hc : connections[i]? = some c) :
    (connections.set i d).countP (fun c => c.child.alive) =
      connections.countP (fun c => c.child.alive) - (if c.child.alive then 1 else 0) +
        if d.child.alive then 1 else 0 := by
  obtain ⟨hi, rfl⟩ := List.getElem?_eq_some_iff.mp hc
  exact List.countP_set hi

theorem Inv.connection {i : ℕ} {a : Action} (hi : Inv base s)
    (hstep : Step room s (.connection i a) t) : Inv base t := by
  simp only [Step, next] at hstep
  split at hstep
  · cases hstep
  · next c hc =>
    split at hstep
    · cases hstep
    · next d hd =>
      have hfaithful := (hi.faithful c (List.mem_of_getElem? hc)).next hd
      have hcount := countP_alive_set (d := d) hc
      rcases next_alive hd with ⟨hends, halive, hdead⟩ | ⟨hstays, hsame, habsent⟩
      · rw [if_pos hends] at hstep
        obtain ⟨v, hv, rfl⟩ := Option.map_eq_some_iff.mp hstep
        have hmoves := moves_of_step hv
        simp only [step] at hv
        split at hv
        · cases hv
          refine hi.setConnection hc hfaithful (limited_step hi.limited hmoves) rfl ?_ fun h => ?_
          · rw [hcount, hi.running, halive, hdead]
            rfl
          · rw [h] at halive
            cases halive
        · cases hv
      · rw [if_neg (by simp [hstays])] at hstep
        cases hstep
        have hpos : c.child.alive = true → 0 < s.connections.countP fun c => c.child.alive :=
          fun halive => List.countP_pos_iff.mpr ⟨c, List.mem_of_getElem? hc, halive⟩
        refine hi.setConnection hc hfaithful hi.limited rfl ?_ habsent
        rw [hcount, hsame, ← hi.running]
        split
        · next halive =>
          have := hpos halive
          omega
        · rfl

theorem Inv.parent {ok : Bool} (hi : Inv base s) (hstep : Step room s (.parent ok) t) :
    Inv base t := by
  simp only [Step, next] at hstep
  split at hstep
  · next hpc =>
    cases ok with
    | true => cases hstep
    | false =>
      obtain ⟨v, hv, rfl⟩ := Option.map_eq_some_iff.mp hstep
      have hvalue := hv
      simp only [step, parentStep, hpc] at hvalue
      cases hvalue
      exact hi.server hv rfl (by rw [hpc]; rfl) (fun h => by cases h)
  · next hpc =>
    cases ok with
    | true =>
      obtain ⟨v, hv, rfl⟩ := Option.map_eq_some_iff.mp hstep
      exact hi.fork hpc hv
    | false => cases hstep
  · next r hpc =>
    obtain ⟨v, hv, rfl⟩ := Option.map_eq_some_iff.mp hstep
    have hvalue := hv
    simp only [step, parentStep, hpc] at hvalue
    cases hvalue
    have hbusy : holds s.server.pc = true := by rw [hpc]; rfl
    obtain ⟨-, earlier, c, -, hfiles, -⟩ := hi.busy hbusy
    exact hi.close hbusy hi.log hfiles hv rfl rfl
  · next haccept hfork hstore =>
    obtain ⟨v, hv, rfl⟩ := Option.map_eq_some_iff.mp hstep
    cases moves_of_step hv with
    | enter hpc _ => exact hi.server hv rfl (by rw [hpc]; rfl) (fun h => by cases h)
    | leave hpc _ => exact hi.server hv rfl (by rw [hpc]; rfl) (fun h => by cases h)
    | load hpc => exact hi.server hv rfl (by rw [hpc]; rfl) (fun h => by cases h)
    | accept hpc => exact absurd hpc haccept
    | acceptFails hpc => exact absurd hpc haccept
    | fork hpc => exact absurd hpc hfork
    | forkFails hpc => exact absurd hpc hfork
    | store hpc => exact absurd hpc (hstore _)

theorem Inv.forkFails {log : Syslog} (hi : Inv base s) (hstep : Step room s (.forkFails log) t) :
    Inv base t := by
  simp only [Step, next] at hstep
  split at hstep
  · next u hpc hsyslog =>
    obtain ⟨v, hv, rfl⟩ := Option.map_eq_some_iff.mp hstep
    have hbusy : holds s.server.pc = true := by rw [hpc]; rfl
    obtain ⟨hfree, earlier, c, -, hfiles, -⟩ := hi.busy hbusy
    obtain ⟨hlog, hopened, hcfd, hconnections⟩ := syslog_files hi.log hfree hfiles hsyslog
    have hvalue := hv
    simp only [step, parentStep, hpc] at hvalue
    cases hvalue
    rw [hcfd, hconnections]
    exact hi.close hbusy hlog hopened hv rfl rfl
  · cases hstep

theorem step_inv (hi : Inv base s) (hstep : Step room s e t) : Inv base t := by
  cases e with
  | connection i a => exact hi.connection hstep
  | parent ok => exact hi.parent hstep
  | forkFails log => exact hi.forkFails hstep
  | accept message =>
    simp only [Step, next] at hstep
    split at hstep
    · next cfd hpc hfree =>
      obtain ⟨v, hv, rfl⟩ := Option.map_eq_some_iff.mp hstep
      exact hi.accept hpc hv hfree message
    · cases hstep
  | grimReaper k =>
    obtain ⟨v, hv, rfl⟩ := Option.map_eq_some_iff.mp hstep
    obtain ⟨-, hvalue⟩ := grimReaper_some hv
    exact hi.server hv (by rw [hvalue]) (by rw [hvalue]) (by rw [hvalue]; exact id)

theorem reachable_inv (hr : Reachable (Step room) (start base) s) : Inv base s := by
  obtain ⟨es, hrun⟩ := hr
  exact hrun.invariant (fun _ _ _ hi hstep => step_inv hi hstep) (start_inv base)

theorem step_log (hstep : Step room s e t) :
    t.log = s.log ∨ ∃ log, e = .forkFails log := by
  cases e with
  | forkFails log => exact .inr ⟨log, rfl⟩
  | accept message =>
    simp only [Step, next] at hstep
    split at hstep
    · obtain ⟨v, -, rfl⟩ := Option.map_eq_some_iff.mp hstep
      exact .inl rfl
    · cases hstep
  | parent ok =>
    simp only [Step, next] at hstep
    split at hstep
    · split at hstep
      · cases hstep
      · obtain ⟨v, -, rfl⟩ := Option.map_eq_some_iff.mp hstep
        exact .inl rfl
    · split at hstep
      · obtain ⟨v, -, rfl⟩ := Option.map_eq_some_iff.mp hstep
        refine .inl ?_
        simp only [State.fork]
        split <;> rfl
      · cases hstep
    · obtain ⟨v, -, rfl⟩ := Option.map_eq_some_iff.mp hstep
      exact .inl rfl
    · obtain ⟨v, -, rfl⟩ := Option.map_eq_some_iff.mp hstep
      exact .inl rfl
  | connection i a =>
    simp only [Step, next] at hstep
    split at hstep
    · cases hstep
    · split at hstep
      · cases hstep
      · split at hstep
        · obtain ⟨v, -, rfl⟩ := Option.map_eq_some_iff.mp hstep
          exact .inl rfl
        · cases hstep
          exact .inl rfl
  | grimReaper k =>
    obtain ⟨v, -, rfl⟩ := Option.map_eq_some_iff.mp hstep
    exact .inl rfl

theorem execution_log {es : List Event} (hrun : Execution (Step room) s es t)
    (hlog : s.log = none) (hopen : t.log ≠ none) : ∃ log, .forkFails log ∈ es := by
  induction hrun with
  | refl => exact absurd hlog hopen
  | tail _ hstep ih =>
    rcases step_log hstep with hsame | ⟨log, rfl⟩
    · obtain ⟨log, hmem⟩ := ih (hsame ▸ hopen)
      exact ⟨log, List.mem_append_left _ hmem⟩
    · exact ⟨log, by simp⟩

end Runs

section Results

variable {Address : Type} {room : ℕ} {base : Files Address OtherFile} {s : State Address}

/-- Whatever the order of the steps: each client has got back the beginning of what it has sent,
and once its child has seen the end of the input, the rest is on its way to it, if the client has
not gone away. At most ten children serve, none of them can get stuck, and the parent keeps no
descriptor of a connection but the last one's, which it closes before the next. -/
theorem clients_echoed (hroom : 0 < room) (hr : Reachable (Step room) (start base) s) :
    (∀ c ∈ s.connections, c.received <+: c.message.take c.sent ∧
      (c.child = .exited → c.gone = false → c.received ++ c.replies = c.message)) ∧
    (s.connections.countP fun c => c.child.alive) ≤ 10 ∧
    (s.files = logged base s.log ∨ base.lowestFree 0 = some s.cfd ∧ s.files =
      (logged base s.log).install s.cfd (.other (.connection (s.connections.length - 1)))) ∧
    ∀ i c, s.connections[i]? = some c → c.child.alive = true →
      ∃ a t, a.regular = true ∧ Step room s (.connection i a) t := by
  have hi := reachable_inv hr
  refine ⟨fun c hc => ⟨?_, fun hexited hthere => ?_⟩, ?_, ?_, fun i c hc halive => ?_⟩
  · exact (List.prefix_append _ _).trans (hi.faithful c hc).ordered
  · have hf := hi.faithful c hc
    obtain ⟨hrequests, hend⟩ := hf.exited hexited
    have hshut : c.shut = true := hend.resolve_right (by simp [hthere])
    have hwhole := hf.whole hthere (by rw [hexited]; exact nofun)
    simpa [Connection.stream, Connection.pending, hexited, hrequests, hf.shut hshut] using hwhole
  · have hle := hi.limited.unreaped_le
    rw [hi.running]
    simp only [Server.unreaped, maxChild] at hle
    omega
  · cases hholds : holds s.server.pc with
    | false => exact .inl (hi.idle hholds)
    | true =>
      obtain ⟨hfree, earlier, last, hconnections, hfiles, -⟩ := hi.busy hholds
      refine .inr ⟨hfree, ?_⟩
      rw [hfiles, hconnections, List.length_append, List.length_singleton, Nat.add_sub_cancel]
  · obtain ⟨a, d, ha, hd⟩ := (hi.faithful c (List.mem_of_getElem? hc)).progress hroom halive
    have hpos : 0 < s.server.running := by
      rw [← hi.running]
      exact List.countP_pos_iff.mpr ⟨c, List.mem_of_getElem? hc, halive⟩
    have hstep : (next room s (.connection i a)).isSome := by
      simp only [next, hc, hd]
      split
      · simp [step, hpos]
      · rfl
    obtain ⟨t, ht⟩ := Option.isSome_iff_exists.mp hstep
    exact ⟨a, t, ha, ht⟩

/-- One client sends two bytes and has read one of them when its child leaves; the second goes
away before its child can answer. -/
def twoClients : List Event :=
  [.parent true, .accept [104, 105], .parent true, .parent true, .parent true,
    .connection 0 (.send 2), .connection 0 (.read 2), .connection 0 (.write 2),
    .connection 0 (.receive 1), .connection 0 .shutdown, .connection 0 .exit,
    .parent true, .accept [106, 107], .parent true, .connection 1 (.send 1),
    .connection 1 (.read 1), .connection 1 (.leave 0), .connection 1 (.fail 0)]

theorem two_clients_echoed : ∃ s : State Unit,
    Execution (Step 1000) (start ⟨8, fun _ => none, fun _ _ => rfl⟩) twoClients s ∧
    ∃ c d, s.connections = [c, d] ∧ c.child = .exited ∧ c.received ++ c.replies = c.message ∧
      d.child = .failed ∧ d.received <+: d.message.take d.sent := by
  have hrun : Execution (Step 1000) (start (⟨8, fun _ => none, fun _ _ => rfl⟩ : Files Unit _))
      twoClients _ := follow_execution rfl
  have hechoed := (clients_echoed (by decide) ⟨_, hrun⟩).1
  exact ⟨_, hrun, _, _, rfl, rfl, (hechoed _ List.mem_cons_self).2 rfl rfl, rfl,
    (hechoed _ (List.mem_cons_of_mem _ List.mem_cons_self)).1⟩

variable {calls : BecomeDaemon.Calls (OpenFile Address OtherFile)}
  {result : Option (List (AddrInfo Address))}
  {p : BecomeDaemon.Process (OpenFile Address OtherFile)} {lfd : ℤ}

theorem inetListen_third {files : Files Address OtherFile}
    (hentry : ∀ fd, files.entry fd = if 0 ≤ fd ∧ fd ≤ 2 then calls.devNull else none)
    (hnull : calls.devNull ≠ none) (hok : (inetListen files result 10).1 ≠ -1) :
    (inetListen files result 10).1 = 3 ∧ ∃ list rp, result = some list ∧ rp ∈ list ∧
      rp.listen = true ∧ ∀ fd, (inetListen files result 10).2.2.entry fd =
        if 0 ≤ fd ∧ fd ≤ 2 then calls.devNull
        else if fd = 3 then some (.socket (listening rp 10)) else none := by
  obtain ⟨list, rp, hresult, hmem, hrp, hfree, htable⟩ := inetListen_ok hok
  have hthree : (inetListen files result 10).1 = 3 := by
    refine Table.lowestFree_unique hfree (by decide) (fun j h0 hj => ?_) (by rw [hentry]; rfl)
    rw [hentry, if_pos ⟨h0, by omega⟩]
    exact hnull
  refine ⟨hthree, list, rp, hresult, hmem, hrp, fun fd => ?_⟩
  have hlimit := (Table.lowestFree_eq_some.mp hfree).2.2.1
  rw [htable]
  rw [hthree] at hlimit ⊢
  rw [Table.install_entry (by decide) hlimit, hentry]
  by_cases hfd : fd = 3
  · subst hfd
    rfl
  · rw [if_neg hfd, if_neg hfd]

theorem startServer_files (hstart : startServer calls result p = some (lfd, base))
    (hmax : ∀ fd, p.files.entry fd ≠ none → fd < calls.openMax.getD BecomeDaemon.maxClose) :
    lfd = 3 ∧ calls.devNull ≠ none ∧ ∃ list rp, result = some list ∧ rp ∈ list ∧
      rp.listen = true ∧ ∀ fd, base.entry fd = if 0 ≤ fd ∧ fd ≤ 2 then calls.devNull
        else if fd = 3 then some (.socket (listening rp 10)) else none := by
  simp only [startServer] at hstart
  split at hstart
  · cases hstart
  · next hdaemon =>
    have hzero := (BecomeDaemon.becomeDaemon_returns 0 calls p).resolve_left hdaemon
    obtain ⟨child, grandchild, files, -, -, -, hfiles, hprocess⟩ :=
      BecomeDaemon.becomeDaemon_zero_iff.mp hzero
    obtain ⟨hnull, hentry⟩ := BecomeDaemon.reopened_ok hfiles
    have hsome : calls.devNull ≠ none :=
      Option.isSome_iff_ne_none.mp (hnull (Nat.zero_and _)).1
    have hclosed : ∀ fd, files.entry fd = if 0 ≤ fd ∧ fd ≤ 2 then calls.devNull else none := by
      intro fd
      rw [hentry]
      simp only [Nat.zero_and, true_and]
      refine if_congr Iff.rfl rfl ?_
      split
      · rfl
      · next hbeyond =>
        by_contra hopen
        have hinside : 0 ≤ fd := by
          by_contra hneg
          exact hopen (p.files.outside fd fun h => hneg h.1)
        exact hbeyond ⟨hinside, hmax fd hopen⟩
    have hdaemonFiles : (BecomeDaemon.becomeDaemon 0 calls p).2.files = files := by
      rw [hprocess]
      rfl
    rw [hdaemonFiles] at hstart
    split at hstart
    · cases hstart
    · next hok =>
      cases hstart
      obtain ⟨hthree, hrest⟩ := inetListen_third hclosed hsome hok
      exact ⟨hthree, hsome, hrest⟩

/-- Of the descriptors that were open before, all of them below the limit that `becomeDaemon` goes
by, the server keeps none, and none gets lost in its loop: it has `/dev/null`, the listening
socket, at times, always as number 4, the connection that it accepted last, and, once a `fork` has
failed, at most one socket to the log as number 5. -/
theorem server_descriptors {es : List Event}
    (hstart : startServer calls result p = some (lfd, base))
    (hmax : ∀ fd, p.files.entry fd ≠ none → fd < calls.openMax.getD BecomeDaemon.maxClose)
    (hrun : Execution (Step room) (start base) es s) :
    lfd = 3 ∧ (∃ list rp, result = some list ∧ rp ∈ list ∧ rp.listen = true ∧
      ∀ fd, s.files.entry fd = if 0 ≤ fd ∧ fd ≤ 2 then calls.devNull
        else if fd = 3 then some (.socket (listening rp 10))
        else if fd = 4 ∧ holds s.server.pc = true then
          some (.other (.connection (s.connections.length - 1)))
        else if fd = 5 ∧ s.log ≠ none then some (.other .log)
        else none) ∧
    (s.log ≠ none → ∃ log, .forkFails log ∈ es) := by
  obtain ⟨hthree, hnull, list, rp, hresult, hmem, hrp, hentry⟩ := startServer_files hstart hmax
  have hi := reachable_inv ⟨es, hrun⟩
  have hused : ∀ j, 0 ≤ j → j < 4 → base.entry j ≠ none := by
    intro j h0 hj
    rw [hentry]
    by_cases hj' : j ≤ 2
    · rw [if_pos ⟨h0, hj'⟩]
      exact hnull
    · rw [if_neg fun h => hj' h.2, if_pos (by omega)]
      exact nofun
  have hfree₄ : base.entry 4 = none := by rw [hentry]; rfl
  have hfree₅ : base.entry 5 = none := by rw [hentry]; rfl
  have hlogged := hi.log.entry hused hfree₄ hfree₅
  refine ⟨hthree, ⟨list, rp, hresult, hmem, hrp, fun fd => ?_⟩, execution_log hrun rfl⟩
  cases hholds : holds s.server.pc with
  | false =>
    rw [hi.idle hholds, hlogged, hentry]
    by_cases hfd : fd = 5
    · subst hfd
      simp
    · simp [hfd]
  | true =>
    obtain ⟨hfree, earlier, last, hconnections, hfiles, -⟩ := hi.busy hholds
    have hlimit := (Table.lowestFree_eq_some.mp hfree).2.2.1
    have hcfd := Table.lowestFree_unique hfree (by decide) hused hfree₄
    rw [hcfd] at hfiles hlimit
    have hlimit' : (4 : ℤ) < (logged base s.log).limit := by
      cases s.log <;> exact hlimit
    rw [hfiles, Table.install_entry (by decide) hlimit', hlogged, hentry, hconnections]
    by_cases hfd : fd = 4
    · subst hfd
      simp
    · by_cases hfd' : fd = 5
      · subst hfd'
        simp
      · simp [hfd, hfd']

def quietCalls : BecomeDaemon.Calls (OpenFile Unit OtherFile) :=
  ⟨some 101, some 102, true, some 8, some (.other .devNull)⟩

def openProcess : BecomeDaemon.Process (OpenFile Unit OtherFile) where
  pid := 100
  pgrp := 100
  sid := 90
  terminal := true
  umask := 18
  atRoot := false
  files :=
    { limit := 8
      entry := fun fd => if 0 ≤ fd ∧ fd < 8 then some (.other .inherited) else none
      outside := fun _ h => if_neg h }

def oneAddress : List (AddrInfo Unit) := [⟨(), 16, true, true, true, true, true⟩]

def openServer : Files Unit OtherFile :=
  (inetListen (BecomeDaemon.becomeDaemon 0 quietCalls openProcess).2.files (some oneAddress) 10).2.2

/-- The first client is given up, and that is logged; the second is accepted. -/
def forkFailsOnce : List Event :=
  [.parent true, .accept [104], .forkFails .opened, .parent true, .accept [105]]

theorem accepted_as_four :
    startServer quietCalls (some oneAddress) openProcess = some (3, openServer) ∧
    ∃ s, Execution (Step 1000) (start openServer) forkFailsOnce s ∧
      s.files.entry 4 = some (.other (.connection 1)) ∧ s.files.entry 5 = some (.other .log) ∧
      s.files.entry 6 = none := by
  have hstart : startServer quietCalls (some oneAddress) openProcess = some (3, openServer) := rfl
  have hrun : Execution (Step 1000) (start openServer) forkFailsOnce _ := follow_execution rfl
  have hmax : ∀ fd, openProcess.files.entry fd ≠ none → fd < 8 := by
    intro fd hopen
    by_contra hbeyond
    exact hopen (if_neg fun h => hbeyond h.2)
  obtain ⟨-, ⟨list, rp, -, -, -, hentry⟩, -⟩ := server_descriptors hstart hmax hrun
  exact ⟨hstart, _, hrun, hentry 4, hentry 5, hentry 6⟩

end Results

end EchoServer
