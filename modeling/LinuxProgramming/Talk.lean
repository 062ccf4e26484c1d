import LinuxProgramming.CharStrings
import LinuxProgramming.TransitionSystems
import Mathlib.Data.List.TakeWhile

/-! The chat program of `talk.c`: any number of terminals, each with a message queue of its own
and a connection to the queue of another. The main thread reads lines and sends them, the
receiver thread takes messages out of the queue and prints them. Whatever the order of their
steps, lines arrive in the order they were typed, none twice and none lost on the way. -/
namespace Talk

open CharStrings TransitionSystems

def mqCap : ℕ := 8

/-- What `mqMsgLen` is at first, and the message size of every queue. -/
def mqMsgSize : ℕ := 512

section Lines

def getline (stdin : List Byte) : Option (List Byte × List Byte) :=
  match stdin with
  | [] => none
  | b :: bs =>
    if b = 10 then some ([b], bs)
    else match getline bs with
      | none => some ([b], [])
      | some (line, rest) => some (b :: line, rest)

theorem getline_none {stdin : List Byte} (h : getline stdin = none) : stdin = [] := by
  cases stdin with
  | nil => rfl
  | cons b bs =>
    rw [getline] at h
    split at h
    · cases h
    · split at h <;> cases h

def lines : List Byte → List (List Byte)
  | [] => []
  | b :: bs =>
    if b = 10 then [b] :: lines bs
    else match lines bs with
      | [] => [[b]]
      | line :: rest => (b :: line) :: rest

theorem lines_getline {stdin line rest : List Byte} (h : getline stdin = some (line, rest)) :
    lines stdin = line :: lines rest := by
  induction stdin generalizing line rest with
  | nil => cases h
  | cons b bs ih =>
    rw [getline] at h
    rw [lines]
    by_cases hb : b = 10
    · rw [if_pos hb] at h ⊢
      cases h
      rfl
    · rw [if_neg hb] at h ⊢
      cases hbs : getline bs with
      | none =>
        rw [hbs] at h
        cases h
        rw [getline_none hbs]
        rfl
      | some p =>
        obtain ⟨l, r⟩ := p
        rw [hbs] at h
        cases h
        rw [ih hbs]

theorem lines_flatten (stdin : List Byte) : (lines stdin).flatten = stdin := by
  induction stdin with
  | nil => rfl
  | cons b bs ih =>
    rw [lines]
    split
    · rw [List.flatten_cons, ih]
      rfl
    · cases hbs : lines bs with
      | nil =>
        rw [hbs] at ih
        rw [← ih]
        rfl
      | cons line rest =>
        rw [hbs] at ih
        rw [← ih]
        rfl

/-- The size of the buffer after `getline` has stored the line and its terminator in it. -/
def bufferSize (line : List Byte) : ℕ :=
  if line.length + 1 ≤ mqMsgSize then mqMsgSize else max (2 * mqMsgSize) (line.length + 1)

/-- `mq_send` takes no message that is larger than the queue allows. -/
def Sendable (line : List Byte) : Prop := bufferSize line ≤ mqMsgSize

instance : DecidablePred Sendable := fun _ => inferInstanceAs (Decidable (_ ≤ _))

theorem sendable_iff {line : List Byte} : Sendable line ↔ line.length < 512 := by
  unfold Sendable bufferSize mqMsgSize
  split <;> omega

end Lines

variable {ι : Type} [DecidableEq ι]

structure Message (ι : Type) where
  sender : ι
  bytes : List Byte
  deriving DecidableEq

/-- The buffer is cleared before the line is read into it. -/
def message (i : ι) (line : List Byte) : Message ι :=
  ⟨i, line ++ List.replicate (mqMsgSize - line.length) 0⟩

def Message.text (m : Message ι) : List Byte := (stringOf m.bytes).bytes

inductive Sender where
  | reading
  | sending (line : List Byte)
  | ended
  deriving DecidableEq

/-- A thread that is cancelled between `mq_receive` and `printf` has a message that is lost. -/
inductive Receiver (ι : Type) where
  | polling
  | printing (m : Message ι)
  | cancelled (lost : Option (Message ι))
  deriving DecidableEq

structure Terminal (ι : Type) where
  stdin : List Byte
  sender : Sender
  receiver : Receiver ι
  queue : List (Message ι)
  printed : List (Message ι)
  deriving DecidableEq

abbrev State (ι : Type) := ι → Terminal ι

/-- Once the connections are made; what is left of the input begins with the rest of the line on
which the other terminal's PID was entered. -/
def start (stdin : ι → List Byte) : State ι := fun i => ⟨stdin i, .reading, .polling, [], []⟩

inductive Event (ι : Type) where
  | getline (i : ι)
  | mqSend (i : ι)
  | mqReceive (i : ι)
  | printf (i : ι)
  | cancel (i : ι)
  deriving DecidableEq

def State.push (s : State ι) (t : ι) (m : Message ι) : State ι :=
  Function.update s t { s t with queue := (s t).queue ++ [m] }

def State.setSender (s : State ι) (i : ι) (stdin : List Byte) (x : Sender) : State ι :=
  Function.update s i { s i with stdin := stdin, sender := x }

/-- `mq_send` waits while the queue is full; `mq_receive` does not wait, and an empty queue is
asked again later. -/
def next (peer : ι → ι) (s : State ι) : Event ι → Option (State ι)
  | .getline i =>
    if (s i).sender = .reading then
      match getline (s i).stdin with
      | none => some (s.setSender i [] .ended)
      | some (line, rest) => some (s.setSender i rest (.sending line))
    else none
  | .mqSend i =>
    match (s i).sender with
    | .sending line =>
      if Sendable line then
        if (s (peer i)).queue.length < mqCap then
          some ((s.setSender i (s i).stdin .reading).push (peer i) (message i line))
        else none
      else some (s.setSender i (s i).stdin .ended)
    | _ => none
  | .mqReceive i =>
    match (s i).receiver, (s i).queue with
    | .polling, m :: queue =>
      some (Function.update s i { s i with receiver := .printing m, queue := queue })
    | _, _ => none
  | .printf i =>
    match (s i).receiver with
    | .printing m =>
      some (Function.update s i { s i with receiver := .polling, printed := (s i).printed ++ [m] })
    | _ => none
  | .cancel i =>
    if (s i).sender = .ended then
      match (s i).receiver with
      | .polling => some (Function.update s i { s i with receiver := .cancelled none })
      | .printing m => some (Function.update s i { s i with receiver := .cancelled (some m) })
      | .cancelled _ => none
    else none

abbrev Step (peer : ι → ι) (s : State ι) (e : Event ι) (t : State ι) : Prop :=
  next peer s e = some t

section Invariant

variable {peer : ι → ι} {stdin : ι → List Byte} {s t : State ι} {e : Event ι}

def Receiver.held : Receiver ι → List (Message ι)
  | .polling => []
  | .printing m => [m]
  | .cancelled lost => lost.toList

def Terminal.arrived (x : Terminal ι) : List (Message ι) := x.printed ++ x.receiver.held ++ x.queue

def fromSender (i : ι) (ms : List (Message ι)) : List (Message ι) :=
  ms.filter fun m => m.sender = i

/-- What has become of the lines of a terminal of which `sent` have been sent. -/
def Accounted (all sent : List (List Byte)) (input : List Byte) : Sender → Prop
  | .reading => all = sent ++ lines input
  | .sending line => all = sent ++ line :: lines input
  | .ended => sent = all.takeWhile fun l => decide (Sendable l)

structure Inv (peer : ι → ι) (stdin : ι → List Byte) (s : State ι) : Prop where
  capacity : ∀ i, (s i).queue.length ≤ mqCap
  sent : ∀ i, ∃ sent, (∀ l ∈ sent, Sendable l) ∧
    Accounted (lines (stdin i)) sent (s i).stdin (s i).sender ∧
    fromSender i (s (peer i)).arrived = sent.map (message i)

theorem start_inv (peer : ι → ι) (stdin : ι → List Byte) : Inv peer stdin (start stdin) :=
  ⟨fun _ => Nat.zero_le _, fun _ => ⟨[], by simp, rfl, rfl⟩⟩

section Frame

variable (s : State ι) (i j : ι)

theorem queue_setSender (input : List Byte) (x : Sender) :
    (s.setSender i input x j).queue = (s j).queue := by
  rw [State.setSender, Function.update_apply]
  split
  · next hji => rw [hji]
  · rfl

theorem arrived_setSender (input : List Byte) (x : Sender) :
    (s.setSender i input x j).arrived = (s j).arrived := by
  rw [State.setSender, Function.update_apply]
  split
  · next hji => rw [hji]; rfl
  · rfl

theorem setSender_self (input : List Byte) (x : Sender) :
    (s.setSender i input x i).stdin = input ∧ (s.setSender i input x i).sender = x := by
  rw [State.setSender, Function.update_self]
  exact ⟨rfl, rfl⟩

theorem sender_push (m : Message ι) : (s.push i m j).stdin = (s j).stdin ∧
    (s.push i m j).sender = (s j).sender := by
  rw [State.push, Function.update_apply]
  split
  · next hji => rw [hji]; exact ⟨rfl, rfl⟩
  · exact ⟨rfl, rfl⟩

theorem arrived_push (m : Message ι) :
    (s.push i m j).arrived = (s j).arrived ++ if j = i then [m] else [] := by
  rw [State.push, Function.update_apply]
  split
  · next hji => rw [hji]; simp [Terminal.arrived]
  · simp

end Frame

theorem Inv.received {i : ι} {x : Terminal ι} (hi : Inv peer stdin s)
    (hstdin : x.stdin = (s i).stdin) (hsender : x.sender = (s i).sender)
    (harrived : x.arrived = (s i).arrived) (hqueue : x.queue.length ≤ (s i).queue.length) :
    Inv peer stdin (Function.update s i x) := by
  constructor
  · intro j
    rw [Function.update_apply]
    split
    · exact hqueue.trans (hi.capacity i)
    · exact hi.capacity j
  · intro j
    obtain ⟨sent, hfit, hacc, hfrom⟩ := hi.sent j
    refine ⟨sent, hfit, ?_, ?_⟩
    · rw [Function.update_apply]
      split
      · next hji =>
        rw [hstdin, hsender, ← hji]
        exact hacc
      · exact hacc
    · rw [← hfrom, Function.update_apply]
      split
      · next hji => rw [harrived, hji]
      · rfl

theorem Inv.read {i : ι} {input : List Byte} {x : Sender} (hi : Inv peer stdin s)
    (hacc : ∀ sent, (∀ l ∈ sent, Sendable l) →
      Accounted (lines (stdin i)) sent (s i).stdin (s i).sender →
      Accounted (lines (stdin i)) sent input x) :
    Inv peer stdin (s.setSender i input x) := by
  constructor
  · intro j
    rw [queue_setSender]
    exact hi.capacity j
  · intro j
    obtain ⟨sent, hfit, hold, hfrom⟩ := hi.sent j
    refine ⟨sent, hfit, ?_, by rw [arrived_setSender, hfrom]⟩
    by_cases hji : j = i
    · subst hji
      rw [(setSender_self s j input x).1, (setSender_self s j input x).2]
      exact hacc sent hfit hold
    · rw [State.setSender, Function.update_of_ne hji]
      exact hold

theorem Inv.push {i : ι} {line : List Byte} (hi : Inv peer stdin s)
    (hsender : (s i).sender = .sending line) (hfits : Sendable line)
    (hroom : (s (peer i)).queue.length < mqCap) :
    Inv peer stdin ((s.setSender i (s i).stdin .reading).push (peer i) (message i line)) := by
  set u := s.setSender i (s i).stdin .reading with hu
  constructor
  · intro j
    rw [State.push, Function.update_apply]
    split
    · simp only [List.length_append, List.length_singleton, hu, queue_setSender]
      exact hroom
    · rw [hu, queue_setSender]
      exact hi.capacity j
  · intro j
    obtain ⟨sent, hfit, hold, hfrom⟩ := hi.sent j
    rw [(sender_push u (peer i) j _).1, (sender_push u (peer i) j _).2, arrived_push, hu,
      arrived_setSender, fromSender, List.filter_append, ← fromSender, hfrom]
    by_cases hji : j = i
    · subst hji
      refine ⟨sent ++ [line], ?_, ?_, by simp [message]⟩
      · intro l hl
        rcases List.mem_append.mp hl with hl | hl
        · exact hfit l hl
        · rw [List.mem_singleton.mp hl]
          exact hfits
      · rw [hsender] at hold
        rw [(setSender_self s j _ _).1, (setSender_self s j _ _).2]
        simpa [Accounted] using hold
    · refine ⟨sent, hfit, ?_, ?_⟩
      · rw [State.setSender, Function.update_of_ne hji]
        exact hold
      · have hother : ¬ i = j := fun h => hji h.symm
        split <;> simp [message, hother]

theorem takeWhile_sent {all sent rest : List (List Byte)} (hfit : ∀ l ∈ sent, Sendable l)
    (hall : all = sent ++ rest) (hrest : ∀ l ∈ rest.head?, ¬ Sendable l) :
    sent = all.takeWhile fun l => decide (Sendable l) := by
  rw [hall, List.takeWhile_append_of_pos (by simpa using hfit)]
  cases rest with
  | nil => simp
  | cons l rest =>
    have hl := hrest l rfl
    simp [hl]

theorem step_inv (hi : Inv peer stdin s) (hstep : Step peer s e t) : Inv peer stdin t := by
  cases e with
  | getline i =>
    simp only [Step, next] at hstep
    split at hstep
    · next hreading =>
      split at hstep
      · next hline =>
        cases hstep
        refine hi.read fun sent hfit hacc => ?_
        rw [hreading, getline_none hline] at hacc
        exact takeWhile_sent hfit hacc (by simp [lines])
      · next line rest hline =>
        cases hstep
        refine hi.read fun sent hfit hacc => ?_
        rw [hreading] at hacc
        simp only [Accounted] at hacc ⊢
        rw [hacc, lines_getline hline]
    · cases hstep
  | mqSend i =>
    simp only [Step, next] at hstep
    split at hstep
    · next line hsender =>
      split at hstep
      · next hfits =>
        split at hstep
        · next hroom =>
          cases hstep
          exact hi.push hsender hfits hroom
        · cases hstep
      · next hlong =>
        cases hstep
        refine hi.read fun sent hfit hacc => ?_
        rw [hsender] at hacc
        exact takeWhile_sent hfit hacc (by simpa using hlong)
    · cases hstep
  | mqReceive i =>
    simp only [Step, next] at hstep
    split at hstep
    · next m queue hreceiver hqueue =>
      cases hstep
      refine hi.received rfl rfl ?_ ?_
      · simp [Terminal.arrived, hreceiver, hqueue, Receiver.held]
      · simp [hqueue]
    · cases hstep
  | printf i =>
    simp only [Step, next] at hstep
    split at hstep
    · next m hreceiver =>
      cases hstep
      exact hi.received rfl rfl (by simp [Terminal.arrived, hreceiver, Receiver.held]) le_rfl
    · cases hstep
  | cancel i =>
    simp only [Step, next] at hstep
    split at hstep
    · split at hstep
      · next hreceiver =>
        cases hstep
        exact hi.received rfl rfl (by simp [Terminal.arrived, hreceiver, Receiver.held]) le_rfl
      · next m hreceiver =>
        cases hstep
        exact hi.received rfl rfl (by simp [Terminal.arrived, hreceiver, Receiver.held]) le_rfl
      · cases hstep
    · cases hstep

theorem reachable_inv (hr : Reachable (Step peer) (start stdin) s) : Inv peer stdin s := by
  obtain ⟨es, hrun⟩ := hr
  exact hrun.invariant (fun _ _ _ => step_inv) (start_inv peer stdin)

end Invariant

section Results

variable {peer : ι → ι} {stdin : ι → List Byte} {s : State ι}

omit [DecidableEq ι] in
theorem text_message (i : ι) {line : List Byte} (hnul : 0 ∉ line) :
    (message i line).text = line := by
  rw [Message.text, message, stringOf_padded, stringOf_bytes hnul]

theorem Accounted.sent_isPrefix {all sent : List (List Byte)} {input : List Byte} {x : Sender}
    (hfit : ∀ l ∈ sent, Sendable l) (hacc : Accounted all sent input x) :
    sent <+: all.takeWhile fun l => decide (Sendable l) := by
  have hpre : ∀ rest, all = sent ++ rest →
      sent <+: all.takeWhile fun l => decide (Sendable l) := by
    intro rest hall
    rw [hall, List.takeWhile_append_of_pos (by simpa using hfit)]
    exact List.prefix_append _ _
  cases x with
  | reading => exact hpre _ hacc
  | sending line => exact hpre _ hacc
  | ended => exact ⟨[], (List.append_nil sent).trans hacc⟩

/-- Whatever the order of the steps: of what a terminal sends, the other one has printed the first
lines, in order and unchanged, up to the first line that is too long for a message. Once the
sender has stopped and the other one has nothing left to take, it has printed all of them. No
queue ever holds more than its capacity. -/
theorem lines_printed_in_order (hr : Reachable (Step peer) (start stdin) s) (i : ι)
    (hnul : 0 ∉ stdin i) :
    (s (peer i)).queue.length ≤ mqCap ∧
    ∃ unprinted, (fromSender i (s (peer i)).printed).map Message.text ++ unprinted =
        (lines (stdin i)).takeWhile (fun l => decide (l.length < 512)) ∧
      ((s i).sender = .ended → (s (peer i)).receiver = .polling → (s (peer i)).queue = [] →
        unprinted = []) := by
  have hi := reachable_inv hr
  obtain ⟨sent, hfit, hacc, hfrom⟩ := hi.sent i
  have hsendable : (fun l : List Byte => decide (l.length < 512)) =
      fun l => decide (Sendable l) := by
    funext l
    exact decide_eq_decide.mpr sendable_iff.symm
  have hnul' : ∀ l ∈ lines (stdin i), 0 ∉ l := by
    intro l hl hzero
    rw [← lines_flatten (stdin i)] at hnul
    exact hnul (List.mem_flatten.mpr ⟨l, hl, hzero⟩)
  obtain ⟨more, hmore⟩ := hacc.sent_isPrefix hfit
  have htext : (sent.map (message i)).map Message.text = sent := by
    rw [List.map_map]
    refine (List.map_congr_left fun l hl => ?_).trans (List.map_id sent)
    have hall : l ∈ lines (stdin i) :=
      (List.takeWhile_prefix _).subset (hmore ▸ List.mem_append_left more hl)
    exact text_message i (hnul' l hall)
  have harrived : fromSender i (s (peer i)).printed ++ fromSender i (s (peer i)).receiver.held ++
      fromSender i (s (peer i)).queue = sent.map (message i) := by
    rw [← hfrom, Terminal.arrived]
    simp only [fromSender, List.filter_append]
  have hsplit := congrArg (List.map Message.text) harrived
  rw [htext, List.map_append, List.map_append] at hsplit
  refine ⟨hi.capacity _, (fromSender i (s (peer i)).receiver.held).map Message.text ++
    ((fromSender i (s (peer i)).queue).map Message.text ++ more), ?_, ?_⟩
  · rw [hsendable, ← hmore, ← hsplit, List.append_assoc, List.append_assoc]
  · intro hended hpolling hempty
    rw [hended] at hacc
    have hdone : more = [] := by
      rw [← show sent = _ from hacc] at hmore
      exact List.append_right_eq_self.mp hmore
    simp [hpolling, hempty, hdone, Receiver.held, fromSender]

def greeting : List (Event Bool) :=
  [.getline true, .mqSend true, .mqReceive false, .printf false, .getline true]

theorem greeting_printed : ∃ s : State Bool,
    Execution (Step not) (start fun _ => [104, 105, 10]) greeting s ∧
    (s true).sender = .ended ∧ (s false).receiver = .polling ∧
    (fromSender true (s false).printed).map Message.text =
      (lines [104, 105, 10]).takeWhile fun l => decide (l.length < 512) := by
  have hrun : Execution (Step not) (start fun _ => [104, 105, 10]) greeting _ :=
    follow_execution rfl
  obtain ⟨-, unprinted, hprinted, hall⟩ := lines_printed_in_order ⟨_, hrun⟩ true (by decide)
  rw [hall rfl rfl rfl, List.append_nil] at hprinted
  exact ⟨_, hrun, rfl, rfl, hprinted⟩

end Results

end Talk
