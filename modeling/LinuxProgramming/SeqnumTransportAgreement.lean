import LinuxProgramming.SeqnumTransportService

/-! What the clients of the two transports print, for each order in which they are served.
Message queues are not a conforming transport: `mq_send` returns 0, so every client gives up
behind its send. -/
namespace SeqnumTransportAgreement

open SeqnumServer (CInt Request Response)
open SeqnumTransports SeqnumTransportService TransitionSystems

section MessageQueues

variable {defaultMsgSize : ℕ} {clients : List Request} {s t : System} {e : Event}

def GivesUp (s : System) : Prop := ∀ pid,
  s.client pid = .create ∨ s.client pid = .openServer ∨ s.client pid = .send ∨
    s.client pid = .exited .failure

theorem mq_afterSend (req : Request) (s : System) :
    afterSend (mq defaultMsgSize) req s = s.exit req.pid .failure := by
  apply if_pos
  simp [mq, requestSize]

theorem GivesUp.update (h : GivesUp s) {pid : CInt} {pc : ClientPc}
    (hclient : t.client = Function.update s.client pid pc)
    (hpc : pc = .openServer ∨ pc = .send ∨ pc = .exited .failure) : GivesUp t := by
  intro other
  rw [hclient]
  by_cases hpid : other = pid
  · rw [hpid, Function.update_self]
    exact Or.inr hpc
  · rw [Function.update_of_ne hpid]
    exact h other

theorem GivesUp.client (h : GivesUp s) {req : Request}
    (hstep : clientStep (mq defaultMsgSize) req s = some t) : GivesUp t := by
  unfold clientStep at hstep
  rcases h req.pid with hpc | hpc | hpc | hpc <;> simp only [hpc] at hstep
  · cases hstep
    exact h.update rfl (Or.inl rfl)
  · cases hstep
    exact h.update rfl (Or.inr (Or.inl rfl))
  · split at hstep
    · cases hstep
      rw [mq_afterSend]
      exact GivesUp.update (s := s) h rfl (Or.inr (Or.inr rfl))
    · cases hstep
  · cases hstep

theorem serverStep_client {T : Transport} (hstep : serverStep T s = some t) :
    t.client = s.client := by
  unfold serverStep at hstep
  repeat' split at hstep
  all_goals cases hstep
  all_goals rfl

theorem mq_givesUp {es : List Event}
    (hrun : Execution (Step (mq defaultMsgSize) clients) initial es t) : GivesUp t := by
  apply hrun.invariant _ fun _ => Or.inl rfl
  intro s e t hs hstep
  cases e with
  | client req =>
    rw [Step, step] at hstep
    split at hstep
    · exact hs.client hstep
    · cases hstep
  | server =>
    intro pid
    rw [serverStep_client hstep]
    exact hs pid

theorem mq_clients_fail {es : List Event} {pid : CInt} {status : Exit}
    (hrun : Execution (Step (mq defaultMsgSize) clients) initial es t)
    (hexit : t.client pid = .exited status) : status = .failure := by
  rcases mq_givesUp hrun pid with h | h | h | h <;> rw [hexit] at h <;> cases h
  rfl

end MessageQueues

section Turns

variable {T : Transport} {clients done todo : List Request} {s : System} {c : Request}

/-- Between two turns: those who have been served are gone, the others have not begun. -/
structure Calm (done : List Request) (s : System) : Prop where
  server : s.server = .receive
  requests : s.requests = []
  served : s.served = done
  exited : ∀ c ∈ done, ∃ status, s.client c.pid = .exited status
  fresh : ∀ pid, pid ∉ done.map Request.pid → s.client pid = .create

theorem initial_calm : Calm [] initial :=
  ⟨rfl, rfl, rfl, by simp, fun _ _ => rfl⟩

def afterTurn (s : System) (c : Request) (status : Exit) (seqNum : CInt) : System :=
  { s.exit c.pid status with served := s.served ++ [c], seqNum := seqNum }

theorem Calm.afterTurn (h : Calm done s) (status : Exit) (seqNum : CInt) :
    Calm (done ++ [c]) (afterTurn s c status seqNum) := by
  refine ⟨h.server, h.requests, ?_, ?_, ?_⟩
  · simp only [SeqnumTransportAgreement.afterTurn, h.served]
  · intro r hr
    by_cases hpid : r.pid = c.pid
    · exact ⟨status, by simp [SeqnumTransportAgreement.afterTurn, System.exit, hpid]⟩
    · have hr : r ∈ done := by
        rcases List.mem_append.mp hr with hr | hr
        · exact hr
        · exact absurd (congrArg Request.pid (List.mem_singleton.mp hr)) hpid
      obtain ⟨st, hst⟩ := h.exited r hr
      exact ⟨st, by simp [SeqnumTransportAgreement.afterTurn, System.exit, hpid, hst]⟩
  · intro pid hpid
    simp only [List.map_append, List.mem_append, not_or, List.map_cons, List.map_nil,
      List.mem_singleton] at hpid
    simp [SeqnumTransportAgreement.afterTurn, System.exit, hpid.2, h.fresh pid hpid.1]

/-- The transport lets one client after the other be served. -/
def Serves (T : Transport) : Prop :=
  ∀ clients done s c, c ∈ clients → Calm done s → s.client c.pid = .create →
    ∃ es status seqNum, Execution (Step T clients) s es (afterTurn s c status seqNum)

theorem mq_serves (defaultMsgSize : ℕ) : Serves (mq defaultMsgSize) := by
  intro clients done s c hc hcalm hfresh
  refine ⟨[.client c, .client c, .client c, .server, .server], .failure, s.seqNum, ?_⟩
  apply follow_execution
  simp [follow, step, hc, clientStep, serverStep, hfresh, System.moveTo, System.exit, afterTurn,
    afterSend, mq, requestSize, hcalm.server, hcalm.requests]

theorem fifo_serves {capacity : ℕ} (hcap : 0 < capacity) : Serves (fifo capacity) := by
  intro clients done s c hc hcalm hfresh
  refine ⟨[.client c, .client c, .client c, .client c, .server, .server, .server, .client c,
    .server], .success s.seqNum, s.seqNum + c.seqLen, ?_⟩
  apply follow_execution
  simp [follow, step, hc, clientStep, serverStep, hfresh, System.moveTo, System.exit,
    System.pending, afterTurn, afterSend, fifo, requestSize, responseSize, hcalm.server,
    hcalm.requests, hcap]

theorem Serves.run (hT : Serves T) (hcalm : Calm done s) (hin : ∀ c ∈ todo, c ∈ clients)
    (hd : ((done ++ todo).map Request.pid).Nodup) :
    ∃ es t, Execution (Step T clients) s es t ∧ Calm (done ++ todo) t := by
  induction todo generalizing done s with
  | nil => exact ⟨[], s, .refl s, by simpa using hcalm⟩
  | cons c todo ih =>
    have hnew : c.pid ∉ done.map Request.pid := by
      intro hmem
      rw [List.map_append] at hd
      exact (List.nodup_append.mp hd).2.2 _ hmem _ (by simp) rfl
    obtain ⟨es, status, seqNum, hturn⟩ :=
      hT clients done s c (hin c List.mem_cons_self) hcalm (hcalm.fresh _ hnew)
    have hsplit : done ++ [c] ++ todo = done ++ c :: todo := by simp
    obtain ⟨fs, t, hrest, ht⟩ := ih (hcalm.afterTurn status seqNum)
      (fun r hr => hin r (List.mem_cons_of_mem c hr)) (by rwa [hsplit])
    exact ⟨es ++ fs, t, hturn.trans hrest, hsplit ▸ ht⟩

end Turns

section Agreement

structure Finished (T : Transport) (clients order : List Request) (s : System) : Prop where
  run : ∃ es, Execution (Step T clients) initial es s
  order : s.served = order
  exited : ∀ c ∈ clients, ∃ status, s.client c.pid = .exited status

theorem Serves.finished {T : Transport} {clients order : List Request} (hT : Serves T)
    (hd : (clients.map Request.pid).Nodup) (horder : order.Perm clients) :
    ∃ s, Finished T clients order s := by
  have hnodup : ((([] : List Request) ++ order).map Request.pid).Nodup :=
    (horder.map Request.pid).nodup_iff.mpr hd
  obtain ⟨es, s, hrun, hcalm⟩ := hT.run initial_calm (fun c hc => horder.mem_iff.mp hc) hnodup
  refine ⟨s, ⟨es, hrun⟩, hcalm.served, ?_⟩
  intro c hc
  exact hcalm.exited c (horder.mem_iff.mpr hc)

/-- In the same order every client ends with success over both, and with the same number. -/
def Agree (T U : Transport) (clients order : List Request) : Prop :=
  ∀ s t, Finished T clients order s → Finished U clients order t →
    ∀ c ∈ clients, ∃ n, s.client c.pid = .exited (.success n) ∧
      t.client c.pid = .exited (.success n)

/-- The message queues agree with the FIFOs only where there is no client. Over FIFOs whoever
has exited has printed the lengths served before it, over message queues it has failed. -/
theorem transports_agree_iff (defaultMsgSize capacity : ℕ) (hcap : 0 < capacity)
    (clients order : List Request) (hd : (clients.map Request.pid).Nodup)
    (horder : order.Perm clients) :
    (Agree (mq defaultMsgSize) (fifo capacity) clients order ↔ clients = []) ∧
    (∀ s, Reachable (Step (mq defaultMsgSize) clients) initial s → ∀ c ∈ clients, ∀ status,
      s.client c.pid = .exited status → status = .failure) ∧
    (∀ t, Reachable (Step (fifo capacity) clients) initial t → ∀ c ∈ clients, ∀ status,
      t.client c.pid = .exited status → status = .success (startOf t.served c)) := by
  refine ⟨⟨?_, ?_⟩, ?_, ?_⟩
  · intro hagree
    obtain ⟨s, hs⟩ := (mq_serves defaultMsgSize).finished hd horder
    obtain ⟨t, ht⟩ := (fifo_serves hcap).finished hd horder
    obtain ⟨es, hrun⟩ := hs.run
    apply List.eq_nil_iff_forall_not_mem.mpr
    intro c hc
    obtain ⟨n, hprinted, _⟩ := hagree s t hs ht c hc
    cases mq_clients_fail hrun hprinted
  · rintro rfl s t _ _ c hc
    cases hc
  · rintro s ⟨es, hrun⟩ c _ status hexit
    exact mq_clients_fail hrun hexit
  · rintro t ⟨es, hrun⟩ c hc status hexit
    exact conforming_clients_print (fifo_conforms capacity) hd hrun hc hexit

theorem finished_of_follow {T : Transport} {c : Request} {es : List Event} {s : System}
    {status : Exit} (hs : follow (step T [c]) initial es = some s) (hserved : s.served = [c])
    (hexit : s.client c.pid = .exited status) : Finished T [c] [c] s := by
  refine ⟨⟨es, follow_execution hs⟩, hserved, ?_⟩
  intro r hr
  cases List.mem_singleton.mp hr
  exact ⟨status, hexit⟩

theorem two_clients_not_agree :
    ¬ Agree (mq 8192) (fifo 8192) [⟨1, 3⟩, ⟨2, 5⟩] [⟨2, 5⟩, ⟨1, 3⟩] := by
  intro hagree
  have hboth := transports_agree_iff 8192 8192 (by decide) [⟨1, 3⟩, ⟨2, 5⟩] [⟨2, 5⟩, ⟨1, 3⟩]
    (by decide) (List.Perm.swap _ _ _)
  cases hboth.1.mp hagree

/-- One client with pid 1 and length 1: over FIFOs it prints 0, over message queues it fails
behind its send, although the server has received the request. -/
theorem single_client_disagrees :
    (follow (step (fifo 8192) [⟨1, 1⟩]) initial [.client ⟨1, 1⟩, .client ⟨1, 1⟩, .client ⟨1, 1⟩,
        .client ⟨1, 1⟩, .server, .server, .server, .client ⟨1, 1⟩, .server]).map
      (fun t => (t.client 1, t.served)) = some (.exited (.success 0), [⟨1, 1⟩]) ∧
    (follow (step (mq 8192) [⟨1, 1⟩]) initial [.client ⟨1, 1⟩, .client ⟨1, 1⟩, .client ⟨1, 1⟩,
        .server, .server]).map
      (fun s => (s.client 1, s.served)) = some (.exited .failure, [⟨1, 1⟩]) ∧
    ¬ Agree (mq 8192) (fifo 8192) [⟨1, 1⟩] [⟨1, 1⟩] := by
  have hfifo : (follow (step (fifo 8192) [⟨1, 1⟩]) initial [.client ⟨1, 1⟩, .client ⟨1, 1⟩,
      .client ⟨1, 1⟩, .client ⟨1, 1⟩, .server, .server, .server, .client ⟨1, 1⟩, .server]).map
      (fun t => (t.client 1, t.served)) = some (.exited (.success 0), [⟨1, 1⟩]) := by
    decide +kernel
  have hmq : (follow (step (mq 8192) [⟨1, 1⟩]) initial [.client ⟨1, 1⟩, .client ⟨1, 1⟩,
      .client ⟨1, 1⟩, .server, .server]).map
      (fun s => (s.client 1, s.served)) = some (.exited .failure, [⟨1, 1⟩]) := by
    decide +kernel
  refine ⟨hfifo, hmq, ?_⟩
  intro hagree
  obtain ⟨t, ht, htend⟩ := Option.map_eq_some_iff.mp hfifo
  obtain ⟨s, hs, hsend⟩ := Option.map_eq_some_iff.mp hmq
  obtain ⟨htc, hto⟩ := Prod.mk.inj htend
  obtain ⟨hsc, hso⟩ := Prod.mk.inj hsend
  have hsf := finished_of_follow hs hso hsc
  have htf := finished_of_follow ht hto htc
  obtain ⟨n, hprinted, _⟩ := hagree s t hsf htf ⟨1, 1⟩ (by simp)
  change s.client 1 = _ at hprinted
  rw [hsc] at hprinted
  cases hprinted

end Agreement

end SeqnumTransportAgreement
