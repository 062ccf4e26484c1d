import LinuxProgramming.SeqnumServer
import LinuxProgramming.ConsecutiveRanges

/-! One run of the sequence-number server, over any order of requests and any failures of
the two calls on a client FIFO: who is answered with what, and that the ranges tile. -/
namespace SeqnumService

open CharStrings DecimalText TransitionSystems ConsecutiveRanges SeqnumServer

section Names

theorem int_digits (n : CInt) : (formatInt n.toInt).length ≤ 11 := by
  have hlo := BitVec.le_toInt n
  have hhi := BitVec.toInt_lt (x := n)
  exact formatInt_length (w := 10) (by decide) (by omega)

theorem clientFIFO_bytes (pid : CInt) :
    (clientFIFO pid).bytes = ascii "/tmp/seqnum_cl." ++ formatInt pid.toInt := by
  have hlen : (ascii "/tmp/seqnum_cl.").length = 15 := by decide
  have hdigits := int_digits pid
  have hfree : (0 : Byte) ∉ ascii "/tmp/seqnum_cl." ++ formatInt pid.toInt := by
    rw [List.mem_append, not_or]
    exact ⟨by decide, formatInt_nul_free _⟩
  rw [clientFIFO, List.take_of_length_le (by simp [hlen, clientFifoNameLen]; omega)]
  exact stringOf_bytes hfree

theorem clientFIFO_injective : Function.Injective clientFIFO := by
  intro p q h
  have hbytes := congrArg CString.bytes h
  rw [clientFIFO_bytes, clientFIFO_bytes] at hbytes
  have hdigits := List.append_cancel_left hbytes
  have hp : scanNumeral (formatInt p.toInt ++ []) = some (p.toInt, []) :=
    scanNumeral_formatInt p.toInt (by simp)
  rw [hdigits, scanNumeral_formatInt q.toInt (by simp)] at hp
  have hint := (Prod.mk.inj (Option.some.inj hp)).1
  exact BitVec.eq_of_toInt_eq hint.symm

end Names

def requests (es : List Event) : List Request :=
  es.filterMap fun e => match e with
    | .request req => some req
    | _ => none

/-- The last request read, and those whose client FIFO could be opened. -/
def track (c : Option Request × List Request) : Event → Option Request × List Request
  | .request req => (some req, c.2)
  | .openClient true => (c.1, c.2 ++ c.1.toList)
  | _ => c

def tracked (es : List Event) : Option Request × List Request := es.foldl track (none, [])

def opened (es : List Event) : List Request := (tracked es).2

/-- The server is neither started nor killed: it is one run. -/
def SingleRun (es : List Event) : Prop := ∀ e ∈ es, e ≠ .kill ∧ ∀ junk, e ≠ .start junk

def waiting : Pc → List Request
  | .writeResponse req => [req]
  | _ => []

/-- A request that has been read and not answered yet. -/
def inHand : Pc → List Request
  | .openClient req => [req]
  | .writeResponse req => [req]
  | _ => []

/-- What the counter still has to be increased by for a range handed out. -/
def unadded : Pc → CInt
  | .closeClient req _ => req.seqLen
  | _ => 0

def lengths (gs : List Grant) : List CInt := gs.map fun g => g.request.seqLen

def rangesOf (gs : List Grant) : List (CInt × CInt) :=
  gs.map fun g => (g.seqNum, g.request.seqLen)

def sentTo (gs : List Grant) (name : CString) : List Response :=
  (gs.filter fun g => g.delivered && (clientFIFO g.request.pid = name)).map fun g => ⟨g.seqNum⟩

structure Serving (start : CInt) (es : List Event) (t : System) (q : Process) : Prop where
  server : t.server = some q
  file : t.file ≠ none
  past_startup : q.pc ≠ .readBackup
  current : ∀ req, q.pc = .openClient req → (tracked es).1 = some req
  arrived : (t.granted.map Grant.request ++ inHand q.pc).Sublist (requests es)
  answered : opened es = t.granted.map Grant.request ++ waiting q.pc
  ranges : rangesOf t.granted = layout start (lengths t.granted)
  counter : q.seqNum + unadded q.pc = start + (lengths t.granted).sum
  fifos : ∀ name, t.fifos name = sentTo t.granted name

theorem tracked_append (es : List Event) (e : Event) :
    tracked (es ++ [e]) = track (tracked es) e := by simp [tracked]

theorem requests_append (es : List Event) (e : Event) :
    requests (es ++ [e]) = requests es ++ requests [e] := by simp [requests]

theorem sentTo_append (gs : List Grant) (g : Grant) (name : CString) :
    sentTo (gs ++ [g]) name = sentTo gs name ++
      if g.delivered = true ∧ clientFIFO g.request.pid = name then [⟨g.seqNum⟩] else [] := by
  by_cases hg : g.delivered = true ∧ clientFIFO g.request.pid = name
  · simp [sentTo, hg]
  · simp only [sentTo, List.filter_append, List.map_append, if_neg hg]
    congr 1
    simp only [List.map_eq_nil_iff, List.filter_eq_nil_iff, List.mem_singleton]
    intro a ha
    simpa [ha] using hg

theorem initial_serving {s : System} {p : Process} (hserver : s.server = some p)
    (hpc : p.pc = .readRequest) (hfile : s.file ≠ none) (hgranted : s.granted = [])
    (hfifos : ∀ name, s.fifos name = []) : Serving p.seqNum [] s p := by
  refine ⟨hserver, hfile, by simp [hpc], by simp [hpc], ?_, ?_, ?_, ?_, ?_⟩
  · simp [hgranted, hpc, inHand]
  · simp [opened, tracked, hgranted, hpc, waiting]
  · simp [hgranted, rangesOf, lengths, layout]
  · simp [hgranted, hpc, unadded, lengths]
  · intro name
    simp [hfifos, sentTo, hgranted]

theorem grant_ranges {start n : CInt} {gs : List Grant} (req : Request) (d : Bool)
    (hr : rangesOf gs = layout start (lengths gs)) (hc : n = start + (lengths gs).sum) :
    rangesOf (gs ++ [⟨req, n, d⟩]) = layout start (lengths (gs ++ [⟨req, n, d⟩])) := by
  have hl : lengths (gs ++ [⟨req, n, d⟩]) = lengths gs ++ [req.seqLen] := by simp [lengths]
  rw [hl, layout_append_one, ← hr, ← hc]
  simp [rangesOf]

section Step

variable {start : CInt} {es : List Event} {t u : System} {q q' : Process} {e : Event}

theorem Serving.longer (h : Serving start es t q) (e : Event) :
    (t.granted.map Grant.request ++ inHand q.pc).Sublist (requests (es ++ [e])) := by
  rw [requests_append]
  exact h.arrived.trans (List.sublist_append_left _ _)

theorem Serving.quiet (h : Serving start es t q) (hserver : u.server = some q')
    (hfile : u.file ≠ none) (hgranted : u.granted = t.granted) (hfifos : u.fifos = t.fifos)
    (hpc : q'.pc ≠ .readBackup ∧ ∀ req, q'.pc ≠ .openClient req)
    (hwaiting : waiting q'.pc = waiting q.pc) (hhand : (inHand q'.pc).Sublist (inHand q.pc))
    (htrack : (track (tracked es) e).2 = opened es)
    (hcounter : q'.seqNum + unadded q'.pc = q.seqNum + unadded q.pc) :
    Serving start (es ++ [e]) u q' := by
  refine ⟨hserver, hfile, hpc.1, fun req hreq => absurd hreq (hpc.2 req), ?_, ?_, ?_, ?_, ?_⟩
  · rw [hgranted]
    exact (hhand.append_left _).trans (h.longer e)
  · rw [opened, tracked_append, htrack, hgranted, hwaiting]
    exact h.answered
  · rw [hgranted]
    exact h.ranges
  · rw [hcounter, hgranted]
    exact h.counter
  · rw [hgranted, hfifos]
    exact h.fifos

theorem Serving.grant {req : Request} {ok : Bool} (h : Serving start es t q)
    (hpc : q.pc = .writeResponse req)
    (hserver : u.server = some { q with pc := .closeClient req ok })
    (hfile : u.file = t.file) (hgranted : u.granted = t.granted ++ [⟨req, q.seqNum, ok⟩])
    (hfifos : ∀ name, u.fifos name = t.fifos name ++
      if ok = true ∧ clientFIFO req.pid = name then [⟨q.seqNum⟩] else []) :
    Serving start (es ++ [.writeResponse ok]) u { q with pc := .closeClient req ok } := by
  have hcount : q.seqNum = start + (lengths t.granted).sum := by
    simpa [hpc, unadded] using h.counter
  refine ⟨hserver, by rw [hfile]; exact h.file, by simp, by simp, ?_, ?_, ?_, ?_, ?_⟩
  · simpa [hgranted, hpc, inHand] using h.longer (.writeResponse ok)
  · have hopened : opened (es ++ [.writeResponse ok]) = opened es := by
      rw [opened, tracked_append]
      rfl
    simpa [hopened, hgranted, hpc, waiting] using h.answered
  · rw [hgranted]
    exact grant_ranges req ok h.ranges hcount
  · simp [hgranted, unadded, lengths, hcount, add_assoc]
  · intro name
    rw [hfifos, h.fifos, hgranted, sentTo_append]

theorem serving_step (h : Serving start es t q) (hs : Step t e u) (hkill : e ≠ .kill) :
    ∃ q', Serving start (es ++ [e]) u q' := by
  have hmoves := moves_of_step h.server hs
  cases hmoves with
  | readBackup hpc => exact absurd hpc h.past_startup
  | discard hpc =>
    have hnot : ∀ req, q.pc ≠ .openClient req := by simp [hpc]
    exact ⟨q, h.quiet h.server h.file rfl rfl ⟨h.past_startup, hnot⟩ rfl (List.Sublist.refl _) rfl
      rfl⟩
  | request req hpc =>
    obtain ⟨hserver, hfile, hpast, hcurrent, harrived, hanswered, hranges, hcounter, hfifos⟩ := h
    refine ⟨_, rfl, hfile, by simp, ?_, ?_, ?_, hranges, ?_, hfifos⟩
    · intro r hr
      cases hr
      rw [tracked_append]
      rfl
    · simp only [hpc, inHand, List.append_nil] at harrived
      rw [requests_append]
      exact harrived.append_right [req]
    · rw [opened, tracked_append]
      simpa [hpc, waiting, track, opened] using hanswered
    · simpa [hpc, unadded] using hcounter
  | opened hpc =>
    rename_i req
    have hcur := h.current req hpc
    have hlonger := h.longer (.openClient true)
    obtain ⟨hserver, hfile, hpast, _, harrived, hanswered, hranges, hcounter, hfifos⟩ := h
    refine ⟨_, rfl, hfile, by simp, by simp, ?_, ?_, hranges, ?_, hfifos⟩
    · simpa [hpc, inHand] using hlonger
    · have hsame : opened es = t.granted.map Grant.request := by
        simpa [hpc, waiting] using hanswered
      rw [opened, tracked_append]
      simp only [track, hcur, Option.toList_some, waiting]
      exact congrArg (· ++ [req]) hsame
    · simpa [hpc, unadded] using hcounter
  | notOpened hpc =>
    exact ⟨_, h.quiet rfl h.file rfl rfl (by simp) (by simp [hpc, waiting]) (by simp [inHand]) rfl
      (by simp [hpc, unadded])⟩
  | written hpc =>
    rename_i req
    refine ⟨_, h.grant hpc rfl rfl rfl ?_⟩
    intro name
    by_cases hname : clientFIFO req.pid = name
    · subst hname
      simp
    · simp [hname, Function.update_of_ne (Ne.symm hname)]
  | notWritten hpc =>
    exact ⟨_, h.grant hpc rfl rfl rfl (by simp)⟩
  | closed hpc =>
    exact ⟨_, h.quiet rfl h.file rfl rfl (by simp) (by simp [hpc, waiting]) (by simp [inHand]) rfl
      (by simp [hpc, unadded])⟩
  | sought hpc =>
    exact ⟨_, h.quiet rfl h.file rfl rfl (by simp) (by simp [hpc, waiting]) (by simp [inHand]) rfl
      (by simp [hpc, unadded])⟩
  | recorded hpc =>
    exact ⟨_, h.quiet rfl (by simp) rfl rfl (by simp) (by simp [hpc, waiting]) (by simp [inHand])
      rfl (by simp [hpc, unadded])⟩
  | notRecorded hpc =>
    exact ⟨_, h.quiet rfl h.file rfl rfl (by simp) (by simp [hpc, waiting]) (by simp [inHand]) rfl
      (by simp [hpc, unadded])⟩
  | killed => exact absurd rfl hkill

end Step

theorem serving_run {s t : System} {p : Process} {es : List Event}
    (hs : Serving p.seqNum [] s p) (hrun : Execution Step s es t) (hone : SingleRun es) :
    ∃ q, Serving p.seqNum es t q := by
  induction hrun with
  | refl => exact ⟨p, hs⟩
  | tail _ hstep ih =>
    rename_i es t e u _
    obtain ⟨q, hq⟩ := ih (fun a ha => hone a (List.mem_append_left _ ha))
    exact serving_step hq hstep (hone e (List.mem_append_right _ (List.mem_singleton_self e))).1

theorem sentTo_own {gs : List Grant} (hpids : (gs.map fun g => g.request.pid).Nodup) {g : Grant}
    (hg : g ∈ gs) : sentTo gs (clientFIFO g.request.pid) =
      if g.delivered then [⟨g.seqNum⟩] else [] := by
  induction gs using List.reverseRecOn with
  | nil => cases hg
  | append_singleton gs a ih =>
    rw [List.map_append, List.nodup_append] at hpids
    obtain ⟨hgs, _, hdisjoint⟩ := hpids
    have hother : ∀ b ∈ gs, clientFIFO b.request.pid ≠ clientFIFO a.request.pid := by
      intro b hb hname
      exact hdisjoint _ (List.mem_map_of_mem hb) _ (by simp) (clientFIFO_injective hname)
    rw [sentTo_append]
    rcases List.mem_append.mp hg with hin | hlast
    · have hnot : ¬(a.delivered = true ∧ clientFIFO a.request.pid = clientFIFO g.request.pid) :=
        fun h => hother g hin h.2.symm
      rw [ih hgs hin, if_neg hnot, List.append_nil]
    · rw [List.mem_singleton.mp hlast]
      have hnone : sentTo gs (clientFIFO a.request.pid) = [] := by
        simp only [sentTo, List.map_eq_nil_iff, List.filter_eq_nil_iff]
        intro b hb
        simp [hother b hb]
      rw [hnone]
      cases a.delivered <;> simp

theorem sentTo_nobody {gs : List Grant} {name : CString}
    (h : ∀ g ∈ gs, g.delivered = true → clientFIFO g.request.pid ≠ name) :
    sentTo gs name = [] := by
  simp only [sentTo, List.map_eq_nil_iff, List.filter_eq_nil_iff]
  intro g hg hsent
  simp only [Bool.and_eq_true, decide_eq_true_eq] at hsent
  exact h g hg hsent.1 hsent.2

/-- The system calls for one request, with the outcomes of those that may fail. -/
def turn (req : Request) (openOk writeOk backupOk : Bool) : List Event :=
  if openOk then [.request req, .openClient true, .writeResponse writeOk, .closeClient, .seek,
    .writeBackup backupOk]
  else [.request req, .openClient false]

theorem turn_completes {t : System} {q : Process} (hserver : t.server = some q)
    (hpc : q.pc = .readRequest) (hfile : t.file ≠ none) (req : Request)
    (openOk writeOk backupOk : Bool) :
      ∃ u r, follow step t (turn req openOk writeOk backupOk) = some u ∧
        u.server = some r ∧ r.pc = .readRequest := by
  obtain ⟨file, hfile⟩ := Option.ne_none_iff_exists'.mp hfile
  cases openOk with
  | true =>
    simp only [turn, if_true, follow, step, serverStep, hserver, hpc, hfile, Option.bind_some]
    exact ⟨_, _, rfl, rfl, rfl⟩
  | false =>
    simp only [turn, Bool.false_eq_true, if_false, follow, step, serverStep, hserver, hpc,
      Option.bind_some]
    exact ⟨_, _, rfl, rfl, rfl⟩

/-- The values a client may use after its response. -/
def Grant.Holds (g : Grant) (x : CInt) : Prop := Covers g.seqNum g.request.seqLen.toNat x

section Served

variable {start : CInt} {es : List Event} {t : System} {q : Process}

theorem Serving.number (h : Serving start es t q) {i : ℕ} {g : Grant}
    (hg : t.granted[i]? = some g) :
    g.seqNum = start + (((opened es).take i).map Request.seqLen).sum := by
  have hin : i < t.granted.length := (List.getElem?_eq_some_iff.mp hg).1
  have hlayout := congrArg (fun l => l[i]?) h.ranges
  simp only [rangesOf, lengths, layout_getElem?, List.getElem?_map, hg, Option.map_some] at hlayout
  have hnum := (Prod.mk.inj (Option.some.inj hlayout)).1
  have htake : (opened es).take i = (t.granted.take i).map Grant.request := by
    rw [h.answered, List.take_append_of_le_length (by simpa using hin.le), List.map_take]
  rw [hnum, htake]
  simp [List.map_take, Function.comp_def]

theorem Serving.own_fifo (h : Serving start es t q) (hpids : ((requests es).map Request.pid).Nodup)
    {g : Grant} (hg : g ∈ t.granted) :
    t.fifos (clientFIFO g.request.pid) = if g.delivered then [⟨g.seqNum⟩] else [] := by
  have hsub : (t.granted.map Grant.request).Sublist (requests es) :=
    (List.sublist_append_left _ _).trans h.arrived
  have hnodup := hpids.sublist (hsub.map Request.pid)
  rw [List.map_map] at hnodup
  rw [h.fifos]
  exact sentTo_own hnodup hg

theorem Serving.disjoint (h : Serving start es t q) (htotal : total (lengths t.granted) ≤ 2 ^ 32) :
    t.granted.Pairwise fun a b => ∀ x, ¬(Grant.Holds a x ∧ Grant.Holds b x) := by
  have hpairs := layout_disjoint start htotal
  rw [← h.ranges, rangesOf, List.pairwise_map] at hpairs
  exact hpairs

theorem Serving.gapless (h : Serving start es t q) (x : CInt) :
    (∃ g ∈ t.granted, Grant.Holds g x) ↔ Covers start (total (lengths t.granted)) x := by
  rw [← covers_layout start x, ← h.ranges]
  simp [rangesOf, Grant.Holds]

end Served

/-- One run from the request loop on, whatever arrives and fails. The ranges handed out go to
the requests whose FIFO could be opened, in their order, the last of them possibly still being
written; each starts where the lengths before it end. A FIFO holds the response of its own
client if that was written and nothing else. The ranges tile, and from the head of the loop
every further request is served to its end. -/
theorem single_run_tiles {s t : System} {p : Process} {es : List Event}
    (hserver : s.server = some p) (hpc : p.pc = .readRequest) (hfile : s.file ≠ none)
    (hgranted : s.granted = []) (hfifos : ∀ name, s.fifos name = [])
    (hrun : Execution Step s es t) (hone : SingleRun es)
    (hpids : ((requests es).map Request.pid).Nodup) :
    ∃ q, t.server = some q ∧
      opened es = t.granted.map Grant.request ++ waiting q.pc ∧
      (∀ i g, t.granted[i]? = some g →
        g.seqNum = p.seqNum + (((opened es).take i).map Request.seqLen).sum) ∧
      (∀ g ∈ t.granted,
        t.fifos (clientFIFO g.request.pid) = if g.delivered then [⟨g.seqNum⟩] else []) ∧
      (∀ name, (∀ g ∈ t.granted, g.delivered = true → clientFIFO g.request.pid ≠ name) →
        t.fifos name = []) ∧
      (total (lengths t.granted) ≤ 2 ^ 32 →
        t.granted.Pairwise fun a b => ∀ x, ¬(Grant.Holds a x ∧ Grant.Holds b x)) ∧
      (∀ x, (∃ g ∈ t.granted, Grant.Holds g x) ↔ Covers p.seqNum (total (lengths t.granted)) x) ∧
      (q.pc = .readRequest → q.seqNum = p.seqNum + ((opened es).map Request.seqLen).sum ∧
        ∀ req openOk writeOk backupOk, ∃ u r,
          follow step t (turn req openOk writeOk backupOk) = some u ∧
            u.server = some r ∧ r.pc = .readRequest) := by
  have hstart := initial_serving hserver hpc hfile hgranted hfifos
  obtain ⟨q, hq⟩ := serving_run hstart hrun hone
  refine ⟨q, hq.server, hq.answered, ?_, ?_, ?_, hq.disjoint, hq.gapless, ?_⟩
  · intro i g hg
    exact hq.number hg
  · intro g hg
    exact hq.own_fifo hpids hg
  · intro name hname
    rw [hq.fifos]
    exact sentTo_nobody hname
  · intro hloop
    refine ⟨?_, fun req openOk writeOk backupOk =>
      turn_completes hq.server hloop hq.file req openOk writeOk backupOk⟩
    have hcount := hq.counter
    rw [hq.answered]
    simpa [hloop, unadded, waiting, lengths, Function.comp_def] using hcount

def idle : System := ⟨some [], some ⟨.readRequest, 5, .replicate 21 0, 0⟩, fun _ => [], []⟩

/-- Four clients: the FIFO of the second cannot be opened, the response to the third is lost. -/
def mixedTurns : List Event :=
  turn ⟨1, 10⟩ true true true ++ turn ⟨2, 3⟩ false true true ++ turn ⟨3, 4⟩ true false true ++
    turn ⟨4, 2⟩ true true true

theorem mixed_turns_tile : ∃ t, follow step idle mixedTurns = some t ∧
    t.granted = [⟨⟨1, 10⟩, 5, true⟩, ⟨⟨3, 4⟩, 15, false⟩, ⟨⟨4, 2⟩, 19, true⟩] ∧
    t.fifos (clientFIFO 1) = [⟨5⟩] ∧ t.fifos (clientFIFO 3) = [] ∧
    t.granted.Pairwise fun a b => ∀ x, ¬(Grant.Holds a x ∧ Grant.Holds b x) := by
  have hrun : (follow step idle mixedTurns).map System.granted =
      some [⟨⟨1, 10⟩, 5, true⟩, ⟨⟨3, 4⟩, 15, false⟩, ⟨⟨4, 2⟩, 19, true⟩] := by decide
  obtain ⟨t, ht, hgranted⟩ := Option.map_eq_some_iff.mp hrun
  have hone : SingleRun mixedTurns := by
    intro e he
    refine ⟨?_, ?_⟩
    · rintro rfl
      exact absurd he (by decide)
    · rintro junk rfl
      simp [mixedTurns, turn] at he
  obtain ⟨q, _, _, _, hown, _, hdisjoint, _, _⟩ :=
    single_run_tiles rfl rfl (by simp [idle]) rfl (fun _ => rfl) (follow_execution ht) hone
      (by decide)
  refine ⟨t, ht, hgranted, ?_, ?_, hdisjoint ?_⟩
  · exact hown ⟨⟨1, 10⟩, 5, true⟩ (by simp [hgranted])
  · exact hown ⟨⟨3, 4⟩, 15, false⟩ (by simp [hgranted])
  · rw [hgranted]
    decide

end SeqnumService
