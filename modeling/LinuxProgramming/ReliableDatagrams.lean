import LinuxProgramming.CharStrings
import LinuxProgramming.TransitionSystems
import Mathlib.Logic.Function.Basic

/-! The upper-case server of `dgram_sv.c` and any number of clients running `dgram_cl.c`. The queue
of the server's socket has a limit, and `sendto` waits while it is full. Every client gets, in
order, the answers to its own messages; and since it waits for each, it never has two messages
in the queue. -/
namespace ReliableDatagrams

open CharStrings TransitionSystems

def bufSize : ℕ := 10

def toupper (b : Byte) : Byte := if 97 ≤ b ∧ b ≤ 122 then b - 32 else b

/-- What fits into the buffer, in upper case. -/
def answer (msg : List Byte) : List Byte := (msg.take bufSize).map toupper

inductive Phase where
  | sending
  | receiving
  | exited
  deriving DecidableEq

/-- `rest` are the arguments from `argv[j]` on. -/
structure Client where
  phase : Phase
  rest : List (List Byte)
  socket : List (List Byte)
  responses : List (List Byte)
  deriving DecidableEq

variable {ι : Type} [DecidableEq ι]

/-- `held` is the datagram between `recvfrom` and `sendto`. -/
structure State (ι : Type) where
  client : ι → Client
  queue : List (ι × List Byte)
  held : Option (ι × List Byte)

def start (argv : ι → List (List Byte)) : State ι := ⟨fun i => ⟨.sending, argv i, [], []⟩, [], none⟩

def State.setClient (s : State ι) (i : ι) (c : Client) : State ι :=
  { s with client := Function.update s.client i c }

inductive Event (ι : Type) where
  | client (i : ι)
  | server
  deriving DecidableEq

def clientNext (limit : ℕ) (s : State ι) (i : ι) : Option (State ι) :=
  let c := s.client i
  match c.phase with
  | .sending =>
    match c.rest with
    | [] => some (s.setClient i { c with phase := .exited })
    | msg :: _ =>
      if s.queue.length < limit then
        some { s.setClient i { c with phase := .receiving } with queue := s.queue ++ [(i, msg)] }
      else none
  | .receiving =>
    match c.socket with
    | [] => none
    | resp :: socket =>
      some (s.setClient i ⟨.sending, c.rest.tail, socket, c.responses ++ [resp.take bufSize]⟩)
  | .exited => none

def serverNext (s : State ι) : Option (State ι) :=
  match s.held, s.queue with
  | none, [] => none
  | none, (i, msg) :: queue => some { s with queue := queue, held := some (i, answer msg) }
  | some (i, resp), _ =>
    let c := s.client i
    some { s.setClient i { c with socket := c.socket ++ [resp] } with held := none }

def next (limit : ℕ) (s : State ι) : Event ι → Option (State ι)
  | .client i => clientNext limit s i
  | .server => serverNext s

abbrev Step (limit : ℕ) (s : State ι) (e : Event ι) (t : State ι) : Prop := next limit s e = some t

section Invariant

variable {limit : ℕ} {argv : ι → List (List Byte)} {s t : State ι} {e : Event ι}

/-- The answers that a client will get for what is on its way, in the order in which they come:
in its own socket, with the server, and in the queue. -/
def State.onTheWay (s : State ι) (i : ι) : List (List Byte) :=
  (s.client i).socket ++ (s.held.toList.filter fun d => d.1 = i).map Prod.snd ++
    (s.queue.filter fun d => d.1 = i).map fun d => answer d.2

/-- A client that waits has one message on its way, the others have none. -/
def Waiting (c : Client) (coming : List (List Byte)) : Prop :=
  match c.phase with
  | .sending => coming = []
  | .receiving => ∃ msg rest, c.rest = msg :: rest ∧ coming = [answer msg]
  | .exited => coming = [] ∧ c.rest = []

theorem waiting_receiving {c : Client} {coming : List (List Byte)} {msg : List Byte}
    {rest : List (List Byte)} (hphase : c.phase = .receiving) (hrest : c.rest = msg :: rest)
    (hcoming : coming = [answer msg]) : Waiting c coming := by
  unfold Waiting
  rw [hphase]
  exact ⟨msg, rest, hrest, hcoming⟩

structure Inv (argv : ι → List (List Byte)) (s : State ι) : Prop where
  waiting : ∀ i, Waiting (s.client i) (s.onTheWay i)
  answered : ∀ i, ∃ sent, argv i = sent ++ (s.client i).rest ∧
    (s.client i).responses = sent.map answer

theorem start_inv (argv : ι → List (List Byte)) : Inv argv (start argv) :=
  ⟨fun _ => rfl, fun _ => ⟨[], rfl, rfl⟩⟩

theorem answer_take (msg : List Byte) : (answer msg).take bufSize = answer msg := by
  rw [answer, ← List.map_take, List.take_take, min_self]

theorem Inv.update {i : ι} (hi : Inv argv s) (hclient : ∀ j, j ≠ i → t.client j = s.client j)
    (hway : ∀ j, j ≠ i → t.onTheWay j = s.onTheWay j)
    (hwaiting : Waiting (t.client i) (t.onTheWay i))
    (hanswered : ∃ sent, argv i = sent ++ (t.client i).rest ∧
      (t.client i).responses = sent.map answer) : Inv argv t := by
  constructor
  · intro j
    by_cases hji : j = i
    · rw [hji]
      exact hwaiting
    · rw [hclient j hji, hway j hji]
      exact hi.waiting j
  · intro j
    by_cases hji : j = i
    · rw [hji]
      exact hanswered
    · rw [hclient j hji]
      exact hi.answered j

section Frame

variable (s : State ι) (i j : ι) (c : Client)

theorem onTheWay_other (hji : j ≠ i) : (s.setClient i c).onTheWay j = s.onTheWay j := by
  simp only [State.onTheWay, State.setClient, Function.update_of_ne hji]

theorem onTheWay_self : (s.setClient i c).onTheWay i =
    c.socket ++ (s.held.toList.filter fun d => d.1 = i).map Prod.snd ++
      (s.queue.filter fun d => d.1 = i).map fun d => answer d.2 := by
  simp only [State.onTheWay, State.setClient, Function.update_self]

end Frame

theorem client_inv {i : ι} (hi : Inv argv s) (hstep : clientNext limit s i = some t) :
    Inv argv t := by
  have hwaiting := hi.waiting i
  obtain ⟨sent, hargv, hresp⟩ := hi.answered i
  simp only [clientNext] at hstep
  split at hstep
  · next hphase =>
    simp only [Waiting, hphase] at hwaiting
    split at hstep
    · next hrest =>
      cases hstep
      refine hi.update (fun j hji => Function.update_of_ne hji _ _)
        (fun j => onTheWay_other s i j _) ?_
        ⟨sent, by simpa [State.setClient] using hargv, by simpa [State.setClient] using hresp⟩
      rw [onTheWay_self]
      simp only [State.setClient, Function.update_self]
      exact ⟨hwaiting, hrest⟩
    · next msg rest hrest =>
      split at hstep
      · cases hstep
        refine hi.update (fun j hji => Function.update_of_ne hji _ _) (fun j hji => ?_) ?_
          ⟨sent, by simpa [State.setClient] using hargv, by simpa [State.setClient] using hresp⟩
        · have hother : ¬ i = j := fun h => hji h.symm
          simp [State.onTheWay, State.setClient, Function.update_of_ne hji, hother]
        · refine waiting_receiving (by simp [State.setClient])
            (by simpa [State.setClient] using hrest) ?_
          have hempty : s.onTheWay i = [] := hwaiting
          simp only [State.onTheWay, List.append_eq_nil_iff, List.map_eq_nil_iff] at hempty
          obtain ⟨⟨hsocket, hheld⟩, hqueue⟩ := hempty
          simp [State.onTheWay, State.setClient, hsocket, hheld, hqueue]
      · cases hstep
  · next hphase =>
    simp only [Waiting, hphase] at hwaiting
    obtain ⟨msg, rest, hrest, hway⟩ := hwaiting
    split at hstep
    · cases hstep
    · next resp socket hsocket =>
      cases hstep
      rw [State.onTheWay, hsocket] at hway
      simp only [List.cons_append, List.cons.injEq] at hway
      obtain ⟨rfl, hnothing⟩ := hway
      refine hi.update (fun j hji => Function.update_of_ne hji _ _)
        (fun j => onTheWay_other s i j _) ?_ ?_
      · rw [onTheWay_self]
        simp only [State.setClient, Function.update_self]
        exact hnothing
      · refine ⟨sent ++ [msg], ?_, ?_⟩
        · simp [State.setClient, hargv, hrest]
        · simp [State.setClient, hresp, answer_take]
  · cases hstep

theorem Inv.forward (hi : Inv argv s)
    (hclient : ∀ j, (t.client j).phase = (s.client j).phase ∧
      (t.client j).rest = (s.client j).rest ∧ (t.client j).responses = (s.client j).responses)
    (hway : ∀ j, t.onTheWay j = s.onTheWay j) : Inv argv t := by
  constructor
  · intro j
    have hwaiting := hi.waiting j
    unfold Waiting at hwaiting ⊢
    rw [hway, (hclient j).1, (hclient j).2.1]
    exact hwaiting
  · intro j
    rw [(hclient j).2.1, (hclient j).2.2]
    exact hi.answered j

theorem server_inv (hi : Inv argv s) (hstep : serverNext s = some t) : Inv argv t := by
  simp only [serverNext] at hstep
  split at hstep
  · cases hstep
  · next i msg queue hheld hqueue =>
    cases hstep
    refine hi.forward (fun j => ⟨rfl, rfl, rfl⟩) fun j => ?_
    by_cases hij : i = j <;> simp [State.onTheWay, hheld, hqueue, hij]
  · next queue i resp hheld =>
    cases hstep
    refine hi.forward (fun j => ?_) fun j => ?_
    · by_cases hji : j = i
      · subst hji
        simp [State.setClient]
      · simp [State.setClient, Function.update_of_ne hji]
    · by_cases hji : j = i
      · subst hji
        simp [State.onTheWay, State.setClient, hheld]
      · have hij : ¬ i = j := fun h => hji h.symm
        simp [State.onTheWay, State.setClient, Function.update_of_ne hji, hheld, hij]

theorem reachable_inv (hr : Reachable (Step limit) (start argv) s) : Inv argv s := by
  obtain ⟨es, hrun⟩ := hr
  refine hrun.invariant (fun s e t hi hstep => ?_) (start_inv argv)
  cases e with
  | client i => exact client_inv hi hstep
  | server => exact server_inv hi hstep

end Invariant

section Results

variable {limit : ℕ} {argv : ι → List (List Byte)} {s : State ι}

theorem progress (hlimit : 0 < limit) (hi : Inv argv s) {i : ι}
    (halive : (s.client i).phase ≠ .exited) : ∃ e t, Step limit s e t := by
  cases hheld : s.held with
  | some d => exact ⟨.server, Option.isSome_iff_exists.mp (by simp [next, serverNext, hheld])⟩
  | none =>
    cases hqueue : s.queue with
    | cons d queue =>
      exact ⟨.server, Option.isSome_iff_exists.mp (by simp [next, serverNext, hheld, hqueue])⟩
    | nil =>
      refine ⟨.client i, Option.isSome_iff_exists.mp ?_⟩
      have hwaiting := hi.waiting i
      cases hphase : (s.client i).phase with
      | exited => exact absurd hphase halive
      | sending =>
        simp only [next, clientNext, hphase, hqueue]
        split
        · rfl
        · simp [hlimit]
      | receiving =>
        simp only [Waiting, hphase] at hwaiting
        obtain ⟨msg, rest, -, hway⟩ := hwaiting
        have hsocket : (s.client i).socket = [answer msg] := by
          simpa [State.onTheWay, hheld, hqueue] using hway
        simp [next, clientNext, hphase, hsocket]

/-- In every run each client has the answers to its first messages, in order, and has at most one
message in the queue of the server, none when it is about to send. A run that cannot go on has
answered every message of every client. -/
theorem clients_get_their_answers (hlimit : 0 < limit)
    (hr : Reachable (Step limit) (start argv) s) :
    (∀ i, (s.client i).responses <+: (argv i).map answer) ∧
    (∀ i, (s.queue.filter fun d => d.1 = i).length ≤ 1 ∧
      ((s.client i).phase = .sending → (s.queue.filter fun d => d.1 = i) = [])) ∧
    ((∀ e t, ¬ Step limit s e t) → ∀ i, (s.client i).responses = (argv i).map answer) := by
  have hi := reachable_inv hr
  refine ⟨fun i => ?_, fun i => ?_, fun hstuck i => ?_⟩
  · obtain ⟨sent, hargv, hresp⟩ := hi.answered i
    rw [hargv, hresp, List.map_append]
    exact List.prefix_append _ _
  · have hwaiting := hi.waiting i
    unfold Waiting at hwaiting
    cases hphase : (s.client i).phase with
    | sending =>
      simp only [hphase, State.onTheWay, List.append_eq_nil_iff, List.map_eq_nil_iff] at hwaiting
      rw [hwaiting.2]
      exact ⟨Nat.zero_le 1, fun _ => rfl⟩
    | exited =>
      simp only [hphase, State.onTheWay, List.append_eq_nil_iff, List.map_eq_nil_iff] at hwaiting
      rw [hwaiting.1.2]
      exact ⟨Nat.zero_le 1, fun _ => rfl⟩
    | receiving =>
      simp only [hphase] at hwaiting
      obtain ⟨msg, rest, -, hway⟩ := hwaiting
      have hlength := congrArg List.length hway
      simp only [State.onTheWay, List.length_append, List.length_map, List.length_singleton]
        at hlength
      exact ⟨by omega, fun h => by cases h⟩
  · have hexited : (s.client i).phase = .exited := by
      by_contra halive
      obtain ⟨e, t, hstep⟩ := progress hlimit hi halive
      exact hstuck e t hstep
    have hwaiting := hi.waiting i
    simp only [Waiting, hexited] at hwaiting
    obtain ⟨sent, hargv, hresp⟩ := hi.answered i
    rw [hargv, hresp, hwaiting.2, List.append_nil]

/-- Two clients, of which the second gets in between the first one's two messages. -/
def interleaved : List (Event Bool) :=
  [.client true, .client false, .server, .server, .client true, .client true, .server, .server]

theorem interleaved_answers : ∃ s : State Bool,
    Execution (Step 1000) (start fun _ => [[97], [98]]) interleaved s ∧
    ∀ i, (s.client i).responses <+: [[65], [66]] := by
  have hrun : Execution (Step 1000) (start fun _ => [[97], [98]]) interleaved _ :=
    follow_execution rfl
  exact ⟨_, hrun, (clients_get_their_answers (by decide) ⟨_, hrun⟩).1⟩

end Results

end ReliableDatagrams
