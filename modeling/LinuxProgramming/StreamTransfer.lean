import LinuxProgramming.CharStrings
import LinuxProgramming.TransitionSystems
import Mathlib.Data.List.Nodup
import Mathlib.Logic.Function.Basic

/-! The iterative server of `us_xfr_sv.c` and any number of clients running `us_xfr_cl.c`. A client
may connect and write before it is accepted. The pieces in which its bytes are written and read
are arbitrary. What the server prints is the input of one client after the other, whole and in
the order of acceptance. -/
namespace StreamTransfer

open CharStrings TransitionSystems

def bufSize : ℕ := 100

def backlog : ℕ := 5

inductive Phase where
  | connecting
  | writing
  | exited
  deriving DecidableEq

/-- `stream` has the bytes that are written to the socket and not yet read. -/
structure Client where
  phase : Phase
  stdin : List Byte
  stream : List Byte
  deriving DecidableEq

variable {ι : Type} [DecidableEq ι]

/-- `pending` are the connections that wait for `accept`, `finished` those that are closed. -/
structure State (ι : Type) where
  client : ι → Client
  pending : List ι
  cfd : Option ι
  finished : List ι
  stdout : List Byte

def start (input : ι → List Byte) : State ι :=
  ⟨fun i => ⟨.connecting, input i, []⟩, [], none, [], []⟩

inductive Event (ι : Type) where
  | connect (i : ι)
  | write (i : ι) (n : ℕ)
  | exit (i : ι)
  | accept
  | read (n : ℕ)
  | eof
  deriving DecidableEq

def State.setClient (s : State ι) (i : ι) (c : Client) : State ι :=
  { s with client := Function.update s.client i c }

/-- `room` is what a socket can hold; `n` is the size of a piece. -/
def next (room : ℕ) (s : State ι) : Event ι → Option (State ι)
  | .connect i =>
    if (s.client i).phase = .connecting ∧ s.pending.length ≤ backlog then
      some { s.setClient i { s.client i with phase := .writing } with pending := s.pending ++ [i] }
    else none
  | .write i n =>
    let c := s.client i
    if c.phase = .writing ∧ 0 < n ∧ n ≤ bufSize ∧ n ≤ c.stdin.length ∧
        c.stream.length + n ≤ room then
      some (s.setClient i
        { c with stdin := c.stdin.drop n, stream := c.stream ++ c.stdin.take n })
    else none
  | .exit i =>
    if (s.client i).phase = .writing ∧ (s.client i).stdin = [] then
      some (s.setClient i { s.client i with phase := .exited })
    else none
  | .accept =>
    match s.cfd, s.pending with
    | none, i :: pending => some { s with cfd := some i, pending := pending }
    | _, _ => none
  | .read n =>
    match s.cfd with
    | some i =>
      let c := s.client i
      if 0 < n ∧ n ≤ bufSize ∧ n ≤ c.stream.length then
        some { s.setClient i { c with stream := c.stream.drop n } with
          stdout := s.stdout ++ c.stream.take n }
      else none
    | none => none
  | .eof =>
    match s.cfd with
    | some i =>
      if (s.client i).phase = .exited ∧ (s.client i).stream = [] then
        some { s with cfd := none, finished := s.finished ++ [i] }
      else none
    | none => none

abbrev Step (room : ℕ) (s : State ι) (e : Event ι) (t : State ι) : Prop := next room s e = some t

section Invariant

variable {room : ℕ} {input : ι → List Byte} {s t : State ι} {e : Event ι}

def State.connected (s : State ι) : List ι := s.finished ++ s.cfd.toList ++ s.pending

def Client.left (c : Client) : List Byte := c.stream ++ c.stdin

/-- The last equation: what is printed, with what is still to come from the client that is being
served, is the input of all clients accepted so far. -/
structure Inv (input : ι → List Byte) (s : State ι) : Prop where
  nodup : s.connected.Nodup
  connected_iff : ∀ i, i ∈ s.connected ↔ (s.client i).phase ≠ .connecting
  exited : ∀ i, (s.client i).phase = .exited → (s.client i).stdin = []
  left_suffix : ∀ i, (s.client i).left <:+ input i
  untouched : ∀ i, i ∉ s.finished ++ s.cfd.toList → (s.client i).left = input i
  printed : s.stdout ++ s.cfd.toList.flatMap (fun i => (s.client i).left) =
    (s.finished ++ s.cfd.toList).flatMap input

omit [DecidableEq ι] in
theorem start_inv (input : ι → List Byte) : Inv input (start input) := by
  refine ⟨List.nodup_nil, ?_, ?_, fun _ => List.suffix_rfl, fun _ _ => rfl, rfl⟩
  · intro i
    simp [start, State.connected]
  · intro i hi
    cases hi

theorem Inv.setClient {i : ι} {c : Client} (hi : Inv input s)
    (hold : (s.client i).phase ≠ .connecting) (hphase : c.phase ≠ .connecting)
    (hexited : c.phase = .exited → c.stdin = []) (hleft : c.left = (s.client i).left) :
    Inv input (s.setClient i c) := by
  have hlefts : ∀ j, ((s.setClient i c).client j).left = (s.client j).left := by
    intro j
    by_cases hji : j = i
    · simp only [hji, State.setClient, Function.update_self, hleft]
    · simp only [State.setClient, Function.update_of_ne hji]
  refine ⟨hi.nodup, fun j => ?_, fun j hj => ?_, fun j => hlefts j ▸ hi.left_suffix j,
    fun j hj => ?_, ?_⟩
  · by_cases hji : j = i
    · subst hji
      simp only [State.setClient, Function.update_self]
      exact iff_of_true ((hi.connected_iff j).mpr hold) hphase
    · simp only [State.setClient, Function.update_of_ne hji]
      exact hi.connected_iff j
  · by_cases hji : j = i
    · subst hji
      simp only [State.setClient, Function.update_self] at hj ⊢
      exact hexited hj
    · simp only [State.setClient, Function.update_of_ne hji] at hj ⊢
      exact hi.exited j hj
  · rw [hlefts]
    exact hi.untouched j hj
  · simp only [hlefts]
    exact hi.printed

theorem Inv.connect {i : ι} (hi : Inv input s) (hphase : (s.client i).phase = .connecting) :
    Inv input { s.setClient i { s.client i with phase := .writing } with
      pending := s.pending ++ [i] } := by
  have hout : i ∉ s.connected := fun hmem => (hi.connected_iff i).mp hmem hphase
  have hlefts : ∀ j, ((s.setClient i { s.client i with phase := .writing }).client j).left =
      (s.client j).left := by
    intro j
    by_cases hji : j = i
    · simp only [hji, State.setClient, Function.update_self]
      rfl
    · simp only [State.setClient, Function.update_of_ne hji]
  have hconnected : State.connected { s.setClient i { s.client i with phase := .writing } with
      pending := s.pending ++ [i] } = s.connected ++ [i] := by
    simp [State.connected, State.setClient]
  refine ⟨?_, fun j => ?_, fun j hj => ?_, fun j => hlefts j ▸ hi.left_suffix j,
    fun j hj => ?_, ?_⟩
  · rw [hconnected]
    exact List.nodup_append.mpr ⟨hi.nodup, List.nodup_singleton i, fun a ha b hb hab =>
      hout (List.mem_singleton.mp hb ▸ hab ▸ ha)⟩
  · rw [hconnected]
    by_cases hji : j = i
    · subst hji
      exact iff_of_true List.mem_concat_self (by simp [State.setClient])
    · simp only [State.setClient, Function.update_of_ne hji, List.mem_append,
        List.mem_singleton, hji, or_false]
      exact hi.connected_iff j
  · by_cases hji : j = i
    · subst hji
      simp [State.setClient] at hj
    · simp only [State.setClient, Function.update_of_ne hji] at hj ⊢
      exact hi.exited j hj
  · rw [hlefts]
    exact hi.untouched j hj
  · simp only [hlefts]
    exact hi.printed

omit [DecidableEq ι] in
theorem Inv.accept {i : ι} {pending : List ι} (hi : Inv input s) (hcfd : s.cfd = none)
    (hpending : s.pending = i :: pending) :
    Inv input { s with cfd := some i, pending := pending } := by
  have hconnected : State.connected { s with cfd := some i, pending := pending } = s.connected := by
    simp [State.connected, hcfd, hpending]
  have hfresh : i ∉ s.finished := by
    have hnodup := hi.nodup
    simp only [State.connected, hcfd, hpending, Option.toList_none, List.append_nil,
      List.nodup_append] at hnodup
    exact fun hmem => hnodup.2.2 i hmem i List.mem_cons_self rfl
  refine ⟨hconnected ▸ hi.nodup, hconnected ▸ hi.connected_iff, hi.exited, hi.left_suffix,
    fun j hj => ?_, ?_⟩
  · refine hi.untouched j fun hmem => hj ?_
    simp only [hcfd, Option.toList_none, List.append_nil] at hmem
    exact List.mem_append_left _ hmem
  · have hleft : (s.client i).left = input i := hi.untouched i (by simpa [hcfd] using hfresh)
    have hprinted := hi.printed
    simp only [hcfd, Option.toList_none, List.flatMap_nil, List.append_nil] at hprinted
    simp [hprinted, hleft]

theorem Inv.read {i : ι} (n : ℕ) (hi : Inv input s) (hcfd : s.cfd = some i) :
    Inv input { s.setClient i { s.client i with stream := (s.client i).stream.drop n } with
      stdout := s.stdout ++ (s.client i).stream.take n } := by
  have hserved : i ∈ s.finished ++ s.cfd.toList := by simp [hcfd]
  refine ⟨hi.nodup, fun j => ?_, fun j hj => ?_, fun j => ?_, fun j hj => ?_, ?_⟩
  · by_cases hji : j = i
    · subst hji
      simp only [State.setClient, Function.update_self]
      exact hi.connected_iff j
    · simp only [State.setClient, Function.update_of_ne hji]
      exact hi.connected_iff j
  · by_cases hji : j = i
    · subst hji
      simp only [State.setClient, Function.update_self] at hj ⊢
      exact hi.exited j hj
    · simp only [State.setClient, Function.update_of_ne hji] at hj ⊢
      exact hi.exited j hj
  · by_cases hji : j = i
    · subst hji
      simp only [State.setClient, Function.update_self]
      have hdrop : (s.client j).stream.drop n ++ (s.client j).stdin <:+ (s.client j).left :=
        ⟨(s.client j).stream.take n, by rw [← List.append_assoc, List.take_append_drop]; rfl⟩
      exact hdrop.trans (hi.left_suffix j)
    · simp only [State.setClient, Function.update_of_ne hji]
      exact hi.left_suffix j
  · have hji : j ≠ i := fun h => hj (h ▸ hserved)
    simp only [State.setClient, Function.update_of_ne hji]
    exact hi.untouched j hj
  · have hprinted := hi.printed
    simp only [hcfd, Option.toList_some, List.flatMap_singleton, Client.left] at hprinted
    simp only [State.setClient, hcfd, Option.toList_some, List.flatMap_singleton, Client.left,
      Function.update_self]
    rw [← hprinted, List.append_assoc, ← List.append_assoc (List.take n _),
      List.take_append_drop]

omit [DecidableEq ι] in
theorem Inv.eof {i : ι} (hi : Inv input s) (hcfd : s.cfd = some i)
    (hphase : (s.client i).phase = .exited) (hstream : (s.client i).stream = []) :
    Inv input { s with cfd := none, finished := s.finished ++ [i] } := by
  have hconnected : State.connected { s with cfd := none, finished := s.finished ++ [i] } =
      s.connected := by
    simp [State.connected, hcfd]
  refine ⟨hconnected ▸ hi.nodup, hconnected ▸ hi.connected_iff, hi.exited, hi.left_suffix,
    fun j hj => ?_, ?_⟩
  · refine hi.untouched j fun hmem => hj ?_
    simpa [hcfd] using hmem
  · have hprinted := hi.printed
    simpa [hcfd, Client.left, hstream, hi.exited i hphase] using hprinted

theorem step_inv (hi : Inv input s) (hstep : Step room s e t) : Inv input t := by
  cases e with
  | connect i =>
    simp only [Step, next] at hstep
    split at hstep
    · next h =>
      cases hstep
      exact hi.connect h.1
    · cases hstep
  | write i n =>
    simp only [Step, next] at hstep
    split at hstep
    · next h =>
      cases hstep
      have hphase : (s.client i).phase ≠ .connecting := by simp [h.1]
      refine hi.setClient hphase hphase (fun hx => ?_) ?_
      · rw [show (s.client i).phase = .exited from hx] at h
        cases h.1
      · simp only [Client.left]
        rw [List.append_assoc, List.take_append_drop]
    · cases hstep
  | exit i =>
    simp only [Step, next] at hstep
    split at hstep
    · next h =>
      cases hstep
      exact hi.setClient (by simp [h.1]) (by simp) (fun _ => h.2) rfl
    · cases hstep
  | accept =>
    simp only [Step, next] at hstep
    split at hstep
    · next i pending hcfd hpending =>
      cases hstep
      exact hi.accept hcfd hpending
    · cases hstep
  | read n =>
    simp only [Step, next] at hstep
    split at hstep
    · next i hcfd =>
      split at hstep
      · cases hstep
        exact hi.read n hcfd
      · cases hstep
    · cases hstep
  | eof =>
    simp only [Step, next] at hstep
    split at hstep
    · next i hcfd =>
      split at hstep
      · next h =>
        cases hstep
        exact hi.eof hcfd h.1 h.2
      · cases hstep
    · cases hstep

theorem reachable_inv (hr : Reachable (Step room) (start input) s) : Inv input s := by
  obtain ⟨es, hrun⟩ := hr
  exact hrun.invariant (fun s e t hi hstep => step_inv hi hstep) (start_inv input)

end Invariant

section Results

variable {room : ℕ} {input : ι → List Byte} {s : State ι}

theorem serving_progress (hroom : 0 < room) (hi : Inv input s) {i : ι} (hcfd : s.cfd = some i) :
    ∃ e t, Step room s e t := by
  by_cases hstream : (s.client i).stream = []
  · have hphase : (s.client i).phase ≠ .connecting :=
      (hi.connected_iff i).mp (by simp [State.connected, hcfd])
    cases hp : (s.client i).phase with
    | connecting => exact absurd hp hphase
    | exited => exact ⟨.eof, Option.isSome_iff_exists.mp (by simp [next, hcfd, hp, hstream])⟩
    | writing =>
      by_cases hstdin : (s.client i).stdin = []
      · exact ⟨.exit i, Option.isSome_iff_exists.mp (by simp [next, hp, hstdin])⟩
      · have hlength := List.length_pos_of_ne_nil hstdin
        refine ⟨.write i 1, Option.isSome_iff_exists.mp ?_⟩
        simp only [next, hp, hstream, List.length_nil]
        rw [if_pos ⟨trivial, Nat.one_pos, by decide, hlength, by omega⟩]
        rfl
  · have hlength := List.length_pos_of_ne_nil hstream
    refine ⟨.read 1, Option.isSome_iff_exists.mp ?_⟩
    simp only [next, hcfd]
    rw [if_pos ⟨Nat.one_pos, by decide, hlength⟩]
    rfl

theorem progress (hroom : 0 < room) (hi : Inv input s) {i : ι} (hwaits : i ∉ s.finished) :
    ∃ e t, Step room s e t := by
  cases hcfd : s.cfd with
  | some j => exact serving_progress hroom hi hcfd
  | none =>
    cases hpending : s.pending with
    | cons j pending =>
      exact ⟨.accept, Option.isSome_iff_exists.mp (by simp [next, hcfd, hpending])⟩
    | nil =>
      have hphase : (s.client i).phase = .connecting := by
        by_contra hne
        have hmem := (hi.connected_iff i).mpr hne
        exact hwaits (by simpa [State.connected, hcfd, hpending] using hmem)
      exact ⟨.connect i, Option.isSome_iff_exists.mp (by simp [next, hphase, hpending])⟩

/-- However the clients' writes and the server's reads are cut and interleaved, the server has
printed the whole input of the clients it has finished with, in the order in which it accepted
them, and then a first part of the input of the one it serves. When nothing can go on, every
client has been served, once. -/
theorem inputs_printed_one_after_another (hroom : 0 < room)
    (hr : Reachable (Step room) (start input) s) :
    s.finished.Nodup ∧
    (∃ shown, s.stdout = s.finished.flatMap input ++ shown ∧
      shown <+: s.cfd.toList.flatMap input) ∧
    ((∀ e t, ¬ Step room s e t) → s.cfd = none ∧ ∀ i, i ∈ s.finished) := by
  have hi := reachable_inv hr
  refine ⟨?_, ?_, fun hstuck => ⟨?_, fun i => ?_⟩⟩
  · exact (List.nodup_append.mp (List.nodup_append.mp hi.nodup).1).1
  · cases hcfd : s.cfd with
    | none =>
      have hprinted := hi.printed
      simp only [hcfd, Option.toList_none, List.flatMap_nil, List.append_nil] at hprinted
      exact ⟨[], by rw [hprinted, List.append_nil], List.nil_prefix⟩
    | some i =>
      have hprinted := hi.printed
      obtain ⟨shown, hshown⟩ := hi.left_suffix i
      simp only [hcfd, Option.toList_some, List.flatMap_append, List.flatMap_singleton] at hprinted
      rw [← hshown, ← List.append_assoc] at hprinted
      refine ⟨shown, List.append_cancel_right hprinted, ?_⟩
      rw [Option.toList_some, List.flatMap_singleton, ← hshown]
      exact List.prefix_append _ _
  · cases hcfd : s.cfd with
    | none => rfl
    | some i =>
      obtain ⟨e, t, hstep⟩ := serving_progress hroom hi hcfd
      exact absurd hstep (hstuck e t)
  · by_contra hwaits
    obtain ⟨e, t, hstep⟩ := progress hroom hi hwaits
    exact hstuck e t hstep

def overlapping : List (Event Bool) :=
  [.connect true, .accept, .connect false, .write false 2, .write true 1, .read 1, .write true 1,
    .exit true, .read 1, .eof, .accept, .read 2]

def lettersOf : Bool → List Byte := fun i => if i then [97, 98] else [99, 100]

theorem overlapping_printed : ∃ s : State Bool,
    Execution (Step 1000) (start lettersOf) overlapping s ∧ s.finished = [true] ∧
    ∃ shown, s.stdout = lettersOf true ++ shown := by
  have hrun : Execution (Step 1000) (start lettersOf) overlapping _ := follow_execution rfl
  obtain ⟨shown, hstdout, -⟩ :=
    (inputs_printed_one_after_another (by decide) ⟨_, hrun⟩).2.1
  exact ⟨_, hrun, rfl, shown, hstdout⟩

end Results

end StreamTransfer
