import LinuxProgramming.SeqnumTransports
import Mathlib.Data.BitVec
import Mathlib.Data.List.Nodup

/-! The service over a transport whose calls return the sizes that the programs compare with.
There each client prints the sum of the lengths served before it, in every interleaving. FIFOs
are such a transport. -/
namespace SeqnumTransportService

open SeqnumServer (CInt Request Response)
open SeqnumTransports TransitionSystems

/-- The calls return what the programs compare with. -/
structure Conforms (T : Transport) : Prop where
  sent : T.sent requestSize = requestSize
  waits : T.received requestSize requestSize none = none
  accepted : ∃ got, T.received requestSize requestSize (some requestSize) = some got ∧
    T.requestOk got = true
  client_waits : T.received responseSize T.clientMsgSize none = none
  whole : T.received responseSize T.clientMsgSize (some responseSize) = some (responseSize : ℕ)

theorem fifo_conforms (capacity : ℕ) : Conforms (fifo capacity) :=
  ⟨rfl, rfl, ⟨_, rfl, rfl⟩, rfl, rfl⟩

section Moves

variable {T : Transport} {clients : List Request} {s t : System} {e : Event}

inductive Moves (T : Transport) (clients : List Request) (s : System) : Event → System → Prop where
  | create {req} : req ∈ clients → s.client req.pid = .create →
      Moves T clients s (.client req) { s.moveTo req.pid .openServer with
        channel := Function.update s.channel req.pid (some []) }
  | openServer {req} : req ∈ clients → s.client req.pid = .openServer →
      Moves T clients s (.client req) (s.moveTo req.pid .send)
  | send {req} {pc : ClientPc} : req ∈ clients → s.client req.pid = .send →
      (pc = .openOwn ∨ pc = .receive) →
      Moves T clients s (.client req)
        ({ s with requests := s.requests ++ [req] }.moveTo req.pid pc)
  | openOwn {req} : req ∈ clients → s.client req.pid = .openOwn →
      Moves T clients s (.client req) (s.moveTo req.pid .receive)
  | print {req resp} : req ∈ clients → s.client req.pid = .receive →
      s.pending req.pid = some resp →
      Moves T clients s (.client req) (s.exit req.pid (.success resp.seqNum))
  | take {req rest} : s.server = .receive → s.requests = req :: rest →
      Moves T clients s .server
        { s with requests := rest, server := .openClient req, served := s.served ++ [req] }
  | gone {req} : s.server = .openClient req → s.channel req.pid = none →
      Moves T clients s .server { s with server := .receive }
  | openClient {req rs} : s.server = .openClient req → s.channel req.pid = some rs →
      Moves T clients s .server { s with server := .send req }
  | respond {req} : s.server = .send req →
      Moves T clients s .server { s with
        server := .close req
        channel := Function.update s.channel req.pid
          ((s.channel req.pid).map fun rs => rs ++ [⟨s.seqNum⟩]) }
  | close {req} : s.server = .close req →
      Moves T clients s .server { s with server := .receive, seqNum := s.seqNum + req.seqLen }

theorem client_moves {req : Request} (hT : Conforms T) (hreq : req ∈ clients)
    (h : clientStep T req s = some t) : Moves T clients s (.client req) t := by
  unfold clientStep at h
  split at h
  · next hpc => cases h; exact .create hreq hpc
  · next hpc => cases h; exact .openServer hreq hpc
  · next hpc =>
    split at h
    · cases h
      rw [afterSend, if_neg (not_not.mpr hT.sent)]
      apply Moves.send hreq hpc
      split
      · exact Or.inl rfl
      · exact Or.inr rfl
    · cases h
  · next hpc => cases h; exact .openOwn hreq hpc
  · next hpc =>
    cases hp : s.pending req.pid with
    | none =>
      rw [hp, Option.map_none, hT.client_waits] at h
      cases h
    | some resp =>
      rw [hp, Option.map_some, hT.whole] at h
      cases h
      exact .print hreq hpc hp
  · cases h

theorem server_moves (hT : Conforms T) (h : serverStep T s = some t) :
    Moves T clients s .server t := by
  unfold serverStep at h
  split at h
  · next hpc =>
    cases hq : s.requests with
    | nil =>
      rw [hq, List.head?_nil, Option.map_none, hT.waits] at h
      cases h
    | cons req rest =>
      obtain ⟨got, hgot, hok⟩ := hT.accepted
      rw [hq, List.head?_cons, Option.map_some, hgot] at h
      simp only [hok, if_true] at h
      cases h
      exact .take hpc hq
  · next req hpc =>
    split at h
    · next hch => cases h; exact .gone hpc hch
    · next rs hch =>
      split at h
      · cases h
      · cases h
        exact .openClient hpc hch
  · next req hpc => cases h; exact .respond hpc
  · next req hpc => cases h; exact .close hpc
  · cases h

theorem moves_of_step (hT : Conforms T) (h : Step T clients s e t) : Moves T clients s e t := by
  cases e with
  | client req =>
    rw [Step, step] at h
    split at h
    · next hreq => exact client_moves hT hreq h
    · cases h
  | server => exact server_moves hT h

end Moves

section Numbers

def total (rs : List Request) : CInt := (rs.map Request.seqLen).sum

/-- The number for a client: the lengths served before it. -/
def startOf (served : List Request) (c : Request) : CInt := total (served.takeWhile (· ≠ c))

variable {served rs : List Request} {c : Request}

theorem total_append_one (rs : List Request) (req : Request) :
    total (rs ++ [req]) = total rs + req.seqLen := by
  simp [total]

theorem startOf_append (hc : c ∈ served) : startOf (served ++ rs) c = startOf served c := by
  have htake : (served ++ rs).takeWhile (· ≠ c) = served.takeWhile (· ≠ c) := by
    induction served with
    | nil => cases hc
    | cons r served ih =>
      by_cases hr : r = c
      · simp [hr]
      · have hin : c ∈ served := (List.mem_cons.mp hc).resolve_left (Ne.symm hr)
        simp only [List.cons_append, List.takeWhile_cons, ih hin]
  rw [startOf, startOf, htake]

theorem startOf_last (hc : c ∉ rs) : startOf (rs ++ [c]) c = total rs := by
  have hall : ∀ r ∈ rs, decide (r ≠ c) = true := by
    intro r hr
    rw [decide_eq_true_iff]
    rintro rfl
    exact hc hr
  rw [startOf, List.takeWhile_append_of_pos hall]
  simp

end Numbers

def Current (s : System) (c : Request) : Prop := s.server = .openClient c ∨ s.server = .send c

/-- The counter of the server stands at the total of what it has answered. -/
inductive Turn (s : System) : Prop where
  | idle : s.server = .receive → s.seqNum = total s.served → Turn s
  | busy {rs req} : Current s req ∨ s.server = .close req → s.served = rs ++ [req] →
      s.seqNum = total rs → Turn s

/-- A client along its way, with what is in its channel. -/
inductive ClientOk (s : System) (c : Request) : Prop where
  | create : s.client c.pid = .create → s.channel c.pid = none →
      c ∉ s.served ++ s.requests → ClientOk s c
  | early : s.client c.pid = .openServer ∨ s.client c.pid = .send →
      s.channel c.pid = some [] → c ∉ s.served ++ s.requests → ClientOk s c
  | waiting : s.client c.pid = .openOwn ∨ s.client c.pid = .receive →
      s.channel c.pid = some [] → c ∈ s.requests ∨ Current s c → ClientOk s c
  | answered : s.client c.pid = .openOwn ∨ s.client c.pid = .receive →
      s.channel c.pid = some [⟨startOf s.served c⟩] → c ∈ s.served → ¬ Current s c → ClientOk s c
  | done : s.client c.pid = .exited (.success (startOf s.served c)) → c ∈ s.served →
      ¬ Current s c → ClientOk s c

structure Serving (clients : List Request) (s : System) : Prop where
  known : ∀ r ∈ s.served ++ s.requests, r ∈ clients
  once : (s.served ++ s.requests).Nodup
  turn : Turn s
  clients_ok : ∀ c ∈ clients, ClientOk s c

section Invariant

variable {T : Transport} {clients : List Request} {s t : System} {c req : Request} {e : Event}

theorem initial_serving (clients : List Request) : Serving clients initial :=
  ⟨by simp [initial], by simp [initial], .idle rfl rfl,
    fun c _ => .create rfl rfl (by simp [initial])⟩

theorem ClientOk.transfer (h : ClientOk s c) (hclient : t.client c.pid = s.client c.pid)
    (hchannel : t.channel c.pid = s.channel c.pid)
    (hout : c ∉ s.served ++ s.requests → c ∉ t.served ++ t.requests)
    (hwait : c ∈ s.requests ∨ Current s c → c ∈ t.requests ∨ Current t c)
    (hserved : c ∈ s.served → ¬ Current s c →
      c ∈ t.served ∧ startOf t.served c = startOf s.served c ∧ ¬ Current t c) : ClientOk t c := by
  cases h with
  | create hpc hch hno => exact .create (hclient.trans hpc) (hchannel.trans hch) (hout hno)
  | early hpc hch hno =>
    refine .early ?_ (hchannel.trans hch) (hout hno)
    rwa [hclient]
  | waiting hpc hch hin =>
    refine .waiting ?_ (hchannel.trans hch) (hwait hin)
    rwa [hclient]
  | answered hpc hch hin hcur =>
    obtain ⟨hin', hstart, hcur'⟩ := hserved hin hcur
    refine .answered ?_ ?_ hin' hcur'
    · rwa [hclient]
    · rw [hchannel, hstart, hch]
  | done hpc hin hcur =>
    obtain ⟨hin', hstart, hcur'⟩ := hserved hin hcur
    exact .done (by rw [hclient, hstart, hpc]) hin' hcur'

/-- A step of another client, which may put its request into the queue. -/
theorem ClientOk.other (h : ClientOk s c) (hne : c ≠ req)
    (hclient : t.client c.pid = s.client c.pid) (hchannel : t.channel c.pid = s.channel c.pid)
    (hserver : t.server = s.server) (hserved : t.served = s.served)
    (hrequests : t.requests = s.requests ∨ t.requests = s.requests ++ [req]) : ClientOk t c := by
  have hmem : c ∈ t.requests ↔ c ∈ s.requests := by
    rcases hrequests with hr | hr <;> simp [hr, hne]
  have hcur : Current t c ↔ Current s c := by simp only [Current, hserver]
  apply h.transfer hclient hchannel
  · simp only [List.mem_append, hserved, hmem, imp_self]
  · rw [hmem, hcur]
    exact id
  · intro hin hno
    rw [hserved, hcur]
    exact ⟨hin, rfl, hno⟩

theorem Turn.of_eq (h : Turn s) (hserver : t.server = s.server) (hserved : t.served = s.served)
    (hseq : t.seqNum = s.seqNum) : Turn t := by
  cases h with
  | idle hpc hnum => exact .idle (hserver.trans hpc) (by rw [hseq, hserved, hnum])
  | busy hpc hs hnum =>
    refine .busy ?_ (hserved.trans hs) (hseq.trans hnum)
    simpa only [Current, hserver] using hpc

theorem Serving.client_step (h : Serving clients s)
    (hpids : ∀ c ∈ clients, c ≠ req → c.pid ≠ req.pid)
    (hclient : ∀ pid, pid ≠ req.pid → t.client pid = s.client pid)
    (hchannel : ∀ pid, pid ≠ req.pid → t.channel pid = s.channel pid)
    (hserver : t.server = s.server) (hserved : t.served = s.served)
    (hrequests : t.requests = s.requests) (hseq : t.seqNum = s.seqNum)
    (hown : ClientOk t req) : Serving clients t := by
  refine ⟨?_, ?_, h.turn.of_eq hserver hserved hseq, ?_⟩
  · rw [hserved, hrequests]
    exact h.known
  · rw [hserved, hrequests]
    exact h.once
  · intro c hc
    by_cases hne : c = req
    · rw [hne]
      exact hown
    · have hpid := hpids c hc hne
      exact (h.clients_ok c hc).other hne (hclient _ hpid) (hchannel _ hpid) hserver hserved
        (Or.inl hrequests)

theorem ClientOk.not_requested (h : ClientOk s c) (hpc : s.client c.pid = .create ∨
    s.client c.pid = .openServer ∨ s.client c.pid = .send) : c ∉ s.served ++ s.requests := by
  cases h with
  | create _ _ hno => exact hno
  | early _ _ hno => exact hno
  | waiting hpc' _ _ => rcases hpc' with h | h <;> simp [h] at hpc
  | answered hpc' _ _ _ => rcases hpc' with h | h <;> simp [h] at hpc
  | done hpc' _ _ => simp [hpc'] at hpc

theorem ClientOk.empty_channel (h : ClientOk s c) (hpc : s.client c.pid = .openServer ∨
    s.client c.pid = .send) : s.channel c.pid = some [] := by
  cases h with
  | create hpc' _ _ => simp [hpc'] at hpc
  | early _ hch _ => exact hch
  | waiting _ hch _ => exact hch
  | answered hpc' _ _ _ => rcases hpc' with h | h <;> simp [h] at hpc
  | done hpc' _ _ => simp [hpc'] at hpc

/-- Behind its send a client waits for its response or has it in its channel. -/
theorem ClientOk.behind_send (h : ClientOk s c) (hpc : s.client c.pid = .openOwn ∨
    s.client c.pid = .receive) :
    s.channel c.pid = some [] ∧ (c ∈ s.requests ∨ Current s c) ∨
    s.channel c.pid = some [⟨startOf s.served c⟩] ∧ c ∈ s.served ∧ ¬ Current s c := by
  cases h with
  | create hpc' _ _ => simp [hpc'] at hpc
  | early hpc' _ _ => rcases hpc' with h | h <;> simp [h] at hpc
  | waiting _ hch hin => exact Or.inl ⟨hch, hin⟩
  | answered _ hch hin hcur => exact Or.inr ⟨hch, hin, hcur⟩
  | done hpc' _ _ => simp [hpc'] at hpc

theorem Serving.current (h : Serving clients s) (hcur : Current s c) : c ∈ clients ∧
    (s.client c.pid = .openOwn ∨ s.client c.pid = .receive) ∧ s.channel c.pid = some [] ∧
    ∃ rs, s.served = rs ++ [c] ∧ s.seqNum = total rs := by
  have hturn : ∃ rs, s.served = rs ++ [c] ∧ s.seqNum = total rs := by
    cases h.turn with
    | idle hpc _ => rcases hcur with h | h <;> rw [hpc] at h <;> cases h
    | @busy rs r hpc hs hnum =>
      have hr : r = c := by
        rcases hcur with h | h <;> rcases hpc with (hp | hp) | hp <;> rw [h] at hp <;> cases hp
        · rfl
        · rfl
      exact ⟨rs, hr ▸ hs, hnum⟩
  obtain ⟨rs, hs, hnum⟩ := hturn
  have hin : c ∈ s.served ++ s.requests := by simp [hs]
  have hc := h.known c hin
  cases h.clients_ok c hc with
  | create _ _ hno => exact absurd hin hno
  | early _ _ hno => exact absurd hin hno
  | waiting hpc hch _ => exact ⟨hc, hpc, hch, rs, hs, hnum⟩
  | answered _ _ _ hno => exact absurd hcur hno
  | done _ _ hno => exact absurd hcur hno

section Steps

variable (hpids : ∀ r ∈ clients, ∀ c ∈ clients, c ≠ r → c.pid ≠ r.pid) (h : Serving clients s)

include hpids h in
theorem serving_send {pc : ClientPc} (hreq : req ∈ clients) (hpc : s.client req.pid = .send)
    (hnext : pc = .openOwn ∨ pc = .receive) :
    Serving clients ({ s with requests := s.requests ++ [req] }.moveTo req.pid pc) := by
  have hok := h.clients_ok req hreq
  have hnew := hok.not_requested (Or.inr (Or.inr hpc))
  refine ⟨?_, ?_, h.turn.of_eq rfl rfl rfl, ?_⟩
  · intro r hr
    have hr : r ∈ s.served ++ s.requests ∨ r = req := by
      simpa [System.moveTo, or_assoc] using hr
    rcases hr with hr | rfl
    · exact h.known r hr
    · exact hreq
  · have hnodup : (s.served ++ s.requests ++ [req]).Nodup := by
      apply List.Nodup.append h.once (List.nodup_singleton req)
      simpa using hnew
    simpa [System.moveTo] using hnodup
  · intro c hc
    by_cases hne : c = req
    · subst hne
      refine .waiting ?_ (hok.empty_channel (Or.inr hpc)) (Or.inl (by simp [System.moveTo]))
      simpa [System.moveTo] using hnext
    · have hpid := hpids req hreq c hc hne
      exact (h.clients_ok c hc).other hne (by simp [System.moveTo, hpid]) rfl rfl rfl (Or.inr rfl)

include hpids h in
theorem serving_print {resp : Response} (hreq : req ∈ clients)
    (hpc : s.client req.pid = .receive) (hp : s.pending req.pid = some resp) :
    Serving clients (s.exit req.pid (.success resp.seqNum)) := by
  refine h.client_step (hpids req hreq) ?_ ?_ rfl rfl rfl rfl ?_
  · intro pid hne
    simp [System.exit, hne]
  · intro pid hne
    simp [System.exit, hne]
  · rcases (h.clients_ok req hreq).behind_send (Or.inr hpc) with ⟨hch, _⟩ | ⟨hch, hin, hcur⟩
    · simp [System.pending, hch] at hp
    · have hresp : resp = ⟨startOf s.served req⟩ := by simpa [System.pending, hch] using hp.symm
      refine .done ?_ hin hcur
      simp [System.exit, hresp]

include h in
theorem serving_take {rest : List Request} (hpc : s.server = .receive)
    (hq : s.requests = req :: rest) : Serving clients
      { s with requests := rest, server := .openClient req, served := s.served ++ [req] } := by
  have hcur : ∀ c, ¬ Current s c := by
    intro c hc
    rcases hc with h | h <;> rw [hpc] at h <;> cases h
  have hperm : s.served ++ [req] ++ rest = s.served ++ s.requests := by simp [hq]
  refine ⟨?_, ?_, ?_, ?_⟩
  · simp only [hperm]
    exact h.known
  · simp only [hperm]
    exact h.once
  · cases h.turn with
    | idle _ hnum => exact .busy (Or.inl (Or.inl rfl)) rfl hnum
    | busy hpc' _ _ =>
      rcases hpc' with hc | hc
      · exact absurd hc (hcur _)
      · rw [hpc] at hc; cases hc
  · intro c hc
    refine (h.clients_ok c hc).transfer rfl rfl ?_ ?_ ?_
    · simp only [hperm]
      exact id
    · intro hwait
      have hin : c ∈ req :: rest := hq ▸ hwait.resolve_right (hcur c)
      rcases List.mem_cons.mp hin with rfl | hin
      · exact Or.inr (Or.inl rfl)
      · exact Or.inl hin
    · intro hin _
      refine ⟨List.mem_append_left _ hin, startOf_append hin, ?_⟩
      -- a request that was served does not come again
      have hne : c ≠ req := by
        rintro rfl
        have hdisj := (List.nodup_append.mp h.once).2.2
        exact hdisj c hin c (by simp [hq]) rfl
      rintro (hcc | hcc)
      · exact hne (by injection hcc with hcc; exact hcc.symm)
      · cases hcc

include h in
theorem serving_openClient (hpc : s.server = .openClient req) :
    Serving clients { s with server := .send req } := by
  obtain ⟨_, _, _, rs, hs, hnum⟩ := h.current (Or.inl hpc)
  have hcur : ∀ c, Current { s with server := .send req } c ↔ Current s c := by
    intro c
    simp [Current, hpc]
  refine ⟨h.known, h.once, .busy (Or.inl (Or.inr rfl)) hs hnum, ?_⟩
  intro c hc
  refine (h.clients_ok c hc).transfer rfl rfl id ?_ ?_
  · rw [hcur]
    exact id
  · intro hin hno
    rw [hcur]
    exact ⟨hin, rfl, hno⟩

include hpids h in
theorem serving_respond (hpc : s.server = .send req) : Serving clients { s with
    server := .close req
    channel := Function.update s.channel req.pid
      ((s.channel req.pid).map fun rs => rs ++ [⟨s.seqNum⟩]) } := by
  obtain ⟨hreq, hwait, hch, rs, hs, hnum⟩ := h.current (Or.inr hpc)
  have hlast : req ∉ rs := by
    have hnodup := (List.nodup_append.mp h.once).1
    rw [hs] at hnodup
    intro hin
    exact (List.nodup_append.mp hnodup).2.2 req hin req (by simp) rfl
  refine ⟨h.known, h.once, .busy (Or.inr rfl) hs hnum, ?_⟩
  intro c hc
  by_cases hne : c = req
  · subst hne
    refine .answered hwait ?_ (by simp [hs]) (by simp [Current])
    simp [hch, hs, startOf_last hlast, hnum]
  · have hpid := hpids req hreq c hc hne
    refine (h.clients_ok c hc).transfer rfl (by simp [hpid]) id ?_ ?_
    · rintro (hin | hcur)
      · exact Or.inl hin
      · simp [Current, hpc, Ne.symm hne] at hcur
    · intro hin _
      exact ⟨hin, rfl, by simp [Current]⟩

include h in
theorem serving_close (hpc : s.server = .close req) :
    Serving clients { s with server := .receive, seqNum := s.seqNum + req.seqLen } := by
  refine ⟨h.known, h.once, ?_, ?_⟩
  · cases h.turn with
    | idle hpc' _ => rw [hpc] at hpc'; cases hpc'
    | busy hpc' hs hnum =>
      rcases hpc' with (hc | hc) | hc <;> rw [hpc] at hc <;> cases hc
      exact .idle rfl (by simp only [hs, total_append_one, hnum])
  · intro c hc
    refine (h.clients_ok c hc).transfer rfl rfl id ?_ ?_
    · rintro (hin | hcur)
      · exact Or.inl hin
      · simp [Current, hpc] at hcur
    · intro hin _
      exact ⟨hin, rfl, by simp [Current]⟩

include hpids h in
theorem serving_step (hm : Moves T clients s e t) : Serving clients t := by
  cases hm with
  | @create req hreq hpc =>
    have hno := (h.clients_ok req hreq).not_requested (Or.inl hpc)
    refine h.client_step (hpids req hreq) ?_ ?_ rfl rfl rfl rfl ?_
    · intro pid hne
      simp [System.moveTo, hne]
    · intro pid hne
      simp [hne]
    · exact .early (Or.inl (by simp [System.moveTo])) (by simp) hno
  | @openServer req hreq hpc =>
    have hok := h.clients_ok req hreq
    refine h.client_step (hpids req hreq) ?_ (fun _ _ => rfl) rfl rfl rfl rfl ?_
    · intro pid hne
      simp [System.moveTo, hne]
    · exact .early (Or.inr (by simp [System.moveTo])) (hok.empty_channel (Or.inl hpc))
        (hok.not_requested (Or.inr (Or.inl hpc)))
  | send hreq hpc hnext => exact serving_send hpids h hreq hpc hnext
  | @openOwn req hreq hpc =>
    refine h.client_step (hpids req hreq) ?_ (fun _ _ => rfl) rfl rfl rfl rfl ?_
    · intro pid hne
      simp [System.moveTo, hne]
    · have hnow : (s.moveTo req.pid .receive).client req.pid = .receive := by simp [System.moveTo]
      rcases (h.clients_ok req hreq).behind_send (Or.inl hpc) with ⟨hch, hin⟩ | ⟨hch, hin, hcur⟩
      · exact .waiting (Or.inr hnow) hch hin
      · exact .answered (Or.inr hnow) hch hin hcur
  | print hreq hpc hp => exact serving_print hpids h hreq hpc hp
  | take hpc hq => exact serving_take h hpc hq
  | gone hpc hch =>
    obtain ⟨_, _, hsome, _⟩ := h.current (Or.inl hpc)
    rw [hch] at hsome
    cases hsome
  | openClient hpc _ => exact serving_openClient h hpc
  | respond hpc => exact serving_respond hpids h hpc
  | close hpc => exact serving_close h hpc

end Steps

theorem distinct_pids (hd : (clients.map Request.pid).Nodup) :
    ∀ r ∈ clients, ∀ c ∈ clients, c ≠ r → c.pid ≠ r.pid := by
  intro r hr c hc hne hpid
  exact hne (List.inj_on_of_nodup_map hd hc hr hpid)

theorem serving_run (hT : Conforms T) (hd : (clients.map Request.pid).Nodup) {es : List Event}
    (hrun : Execution (Step T clients) initial es t) : Serving clients t := by
  apply hrun.invariant _ (initial_serving clients)
  intro s e t hs hstep
  exact serving_step (distinct_pids hd) hs (moves_of_step hT hstep)

/-- Over a conforming transport whoever has exited has printed its number. -/
theorem conforming_clients_print (hT : Conforms T) (hd : (clients.map Request.pid).Nodup)
    {es : List Event} (hrun : Execution (Step T clients) initial es t) (hc : c ∈ clients)
    {status : Exit} (hexit : t.client c.pid = .exited status) :
    status = .success (startOf t.served c) := by
  cases (serving_run hT hd hrun).clients_ok c hc with
  | create hpc _ _ => rw [hexit] at hpc; cases hpc
  | early hpc _ _ => rcases hpc with h | h <;> rw [hexit] at h <;> cases h
  | waiting hpc _ _ => rcases hpc with h | h <;> rw [hexit] at h <;> cases h
  | answered hpc _ _ _ => rcases hpc with h | h <;> rw [hexit] at h <;> cases h
  | done hpc _ _ =>
    rw [hexit] at hpc
    injection hpc

end Invariant

end SeqnumTransportService
