import LinuxProgramming.SeqnumService
import Mathlib.Data.Int.ConditionallyCompleteOrder
import Mathlib.Order.CompletePartialOrder
import Mathlib.Order.Interval.Set.Disjoint

/-! The sequence-number server over many runs on one backup file: what a restart resumes
with, and which histories never send overlapping ranges. -/
namespace SeqnumBackup

open CharStrings DecimalText TransitionSystems ConsecutiveRanges SeqnumServer SeqnumService

/-- A server started on this file comes to its loop with the counter at `n`. -/
def Resumes (file : List Byte) (n : CInt) : Prop :=
  ∀ junk, ∃ p, Process.readBackup ⟨.readBackup, 0, junk, 0⟩ file = some p ∧
    p.pc = .readRequest ∧ p.seqNum = n

theorem empty_resumes : Resumes [] 0 := by
  intro junk
  exact ⟨_, rfl, rfl, rfl⟩

theorem readAt_writeAt (file : List Byte) (a : CharArray 21) :
    readAt (writeAt file 0 a.toList) 0 = a.toList := by
  have hlen : a.toList.length = 21 := by simp
  simp only [readAt, writeAt, List.take_zero, List.drop_zero, Nat.zero_sub, List.replicate_zero,
    List.nil_append]
  exact List.take_left' hlen

/-- The text that an update leaves in the buffer is read back as the same number, over
whatever was in the buffer and in the file before. -/
theorem update_resumes (file : List Byte) (a : CharArray 21) (n : CInt) :
    Resumes (writeAt file 0 (snprintf a (formatInt n.toInt)).toList) n := by
  intro junk
  have hlo := BitVec.le_toInt n
  have hhi := BitVec.toInt_lt (x := n)
  have hdigits : (formatInt n.toInt).length < 21 := by
    have hshort := int_digits n
    omega
  have htext := snprintf_text (a := a) (formatInt_nul_free n.toInt) hdigits
  have hterminated : (snprintf a (formatInt n.toInt)).Terminated := snprintf_terminated (by decide)
  generalize snprintf a (formatInt n.toInt) = content at htext hterminated
  have hsome : content.toList ≠ [] := by
    intro hnil
    simp [CharArray.Terminated, hnil] at hterminated
  have hnumber : BitVec.ofInt 32 (strtol content.text) = n := by
    rw [htext, strtol_formatInt (by omega) (by omega), BitVec.ofInt_toInt]
  refine ⟨⟨.readRequest, n, content, 0 + content.toList.length⟩, ?_, rfl, rfl⟩
  simp only [Process.readBackup, readAt_writeAt, fill_whole, hnumber]
  rw [if_neg hsome, if_pos hterminated]

/-- Whether a response was written after the last complete write of the backup file. -/
def unrecorded (es : List Event) : Bool :=
  es.foldl (fun b e => match e with
    | .writeResponse true => true
    | .writeBackup true => false
    | _ => b) false

/-- The server is killed only when all it has sent is recorded. -/
def Careful (es : List Event) : Prop :=
  ∀ i < es.length, es[i]? = some .kill → unrecorded (es.take i) = false

instance (es : List Event) : Decidable (Careful es) :=
  inferInstanceAs (Decidable (∀ i < es.length, _))

def Grant.stop (g : Grant) : ℕ := g.seqNum.toNat + g.request.seqLen.toNat

def Grant.numbers (g : Grant) : Set ℤ :=
  Set.Ico g.seqNum.toInt (g.seqNum.toInt + g.request.seqLen.toInt)

def NoOverlap (s : System) : Prop :=
  (s.granted.filter Grant.delivered).Pairwise fun a b =>
    Disjoint (Grant.numbers a) (Grant.numbers b)

def fresh : System := ⟨some [], none, fun _ => [], []⟩

def upcoming (s : System) (n : CInt) : ℕ :=
  match s.server with
  | none => n.toNat
  | some p =>
    if p.pc = .readBackup then n.toNat else p.seqNum.toNat + (unadded p.pc).toNat

/-- What the next call of a process rests on: a start reads from the beginning of the file,
and an update writes the counter there. -/
def Prepared (p : Process) : Prop :=
  match p.pc with
  | .readBackup => p.seqNum = 0 ∧ p.offset = 0
  | .writeBackup _ _ =>
    p.offset = 0 ∧ ∃ a, p.backupFileContent = snprintf a (formatInt p.seqNum.toInt)
  | _ => True

structure Accounted (es : List Event) (s : System) (n : CInt) : Prop where
  resumes : ∃ file, s.file = some file ∧ Resumes file n
  on_record : n.toNat ≤ total (lengths s.granted)
  bounded : upcoming s n ≤ total (lengths s.granted)
  below : ∀ g ∈ s.granted, g.delivered = true → Grant.stop g ≤ upcoming s n
  recorded : unrecorded es = false →
    ∀ g ∈ s.granted, g.delivered = true → Grant.stop g ≤ n.toNat
  increasing : s.granted.Pairwise fun a b =>
    a.delivered = true → b.delivered = true → Grant.stop a ≤ b.seqNum.toNat
  prepared : ∀ p, s.server = some p → Prepared p

theorem unrecorded_append (es : List Event) (e : Event) :
    unrecorded (es ++ [e]) = match e with
      | .writeResponse true => true
      | .writeBackup true => false
      | _ => unrecorded es := by
  simp only [unrecorded, List.foldl_append, List.foldl_cons, List.foldl_nil]

theorem careful_append {es : List Event} {e : Event} (h : Careful (es ++ [e])) :
    Careful es ∧ (e = .kill → unrecorded es = false) := by
  refine ⟨?_, ?_⟩
  · intro i hi hkill
    have hpast := h i (by simp; omega) (by rw [List.getElem?_append_left hi]; exact hkill)
    rwa [List.take_append_of_le_length hi.le] at hpast
  · intro he
    have hlast := h es.length (by simp) (by simp [he])
    simpa using hlast

theorem fresh_accounted : Accounted [] fresh 0 := by
  refine ⟨⟨[], rfl, empty_resumes⟩, ?_, ?_, ?_, ?_, ?_, ?_⟩ <;> simp [fresh, upcoming]

section Step

variable {es : List Event} {s t : System} {e : Event} {n : CInt} {p q : Process}

theorem upcoming_running (hserver : s.server = some p) (hpc : p.pc ≠ .readBackup) :
    upcoming s n = p.seqNum.toNat + (unadded p.pc).toNat := by
  simp [upcoming, hserver, hpc]

theorem Accounted.quiet (h : Accounted es s n) (hfile : t.file = s.file)
    (hgranted : t.granted = s.granted) (hupcoming : upcoming t n = upcoming s n)
    (hsame : unrecorded (es ++ [e]) = unrecorded es) (hserver : t.server = some q)
    (hprepared : Prepared q) : Accounted (es ++ [e]) t n := by
  refine ⟨?_, ?_, ?_, ?_, ?_, ?_, ?_⟩
  · rw [hfile]
    exact h.resumes
  · rw [hgranted]
    exact h.on_record
  · rw [hgranted, hupcoming]
    exact h.bounded
  · rw [hgranted, hupcoming]
    exact h.below
  · rw [hgranted, hsame]
    exact h.recorded
  · rw [hgranted]
    exact h.increasing
  · intro q' hq'
    rw [hserver] at hq'
    cases hq'
    exact hprepared

theorem total_append (gs : List Grant) (g : Grant) :
    total (lengths (gs ++ [g])) = total (lengths gs) + g.request.seqLen.toNat := by
  simp [total, lengths]

theorem Accounted.grant {req : Request} {ok : Bool} (h : Accounted es s n)
    (hserver : s.server = some p) (hpc : p.pc = .writeResponse req) (hfile : t.file = s.file)
    (hnext : t.server = some { p with pc := .closeClient req ok })
    (hgranted : t.granted = s.granted ++ [⟨req, p.seqNum, ok⟩]) :
    Accounted (es ++ [.writeResponse ok]) t n := by
  have hbefore : upcoming s n = p.seqNum.toNat := by
    rw [upcoming_running hserver (by simp [hpc]), hpc]
    simp [unadded]
  have hafter : upcoming t n = p.seqNum.toNat + req.seqLen.toNat :=
    upcoming_running hnext (by simp)
  have htotal : total (lengths t.granted) = total (lengths s.granted) + req.seqLen.toNat := by
    rw [hgranted]
    exact total_append _ _
  have hon := h.on_record
  have hbounded := h.bounded
  have hbelow := h.below
  refine ⟨?_, ?_, ?_, ?_, ?_, ?_, ?_⟩
  · rw [hfile]
    exact h.resumes
  · omega
  · omega
  · intro g hg hd
    rw [hgranted, List.mem_append, List.mem_singleton] at hg
    rcases hg with hold | rfl
    · have hstop := hbelow g hold hd
      omega
    · rw [hafter]
      exact le_refl _
  · intro hun g hg hd
    rw [unrecorded_append] at hun
    cases ok with
    | true => cases hun
    | false =>
      rw [hgranted, List.mem_append, List.mem_singleton] at hg
      rcases hg with hold | rfl
      · exact h.recorded hun g hold hd
      · cases hd
  · rw [hgranted, List.pairwise_append]
    refine ⟨h.increasing, List.pairwise_singleton _ _, ?_⟩
    intro a ha b hb hda _
    rw [List.mem_singleton.mp hb, ← hbefore]
    exact hbelow a ha hda
  · intro q hq
    rw [hnext] at hq
    cases hq
    trivial

theorem Accounted.start (h : Accounted es s n) (hserver : s.server = none) (hs : Step s e t) :
    Accounted (es ++ [e]) t n := by
  cases starts_of_step hserver hs with
  | opened junk =>
    refine h.quiet rfl rfl ?_ (unrecorded_append es _) rfl ⟨rfl, rfl⟩
    simp [upcoming, hserver]
  | created junk hnone =>
    obtain ⟨file, hfile, -⟩ := h.resumes
    simp [hnone] at hfile

theorem Accounted.resume {file : List Byte} (h : Accounted es s n) (hserver : s.server = some p)
    (hpc : p.pc = .readBackup) (hfile : s.file = some file) (hread : p.readBackup file = some q) :
    Accounted (es ++ [.readBackup]) { s with server := some q } n := by
  have hprepared := h.prepared p hserver
  simp only [Prepared, hpc] at hprepared
  obtain ⟨hzero, hoffset⟩ := hprepared
  obtain ⟨file', hfile', hresumes⟩ := h.resumes
  obtain ⟨q', hq, hqpc, hqn⟩ := hresumes p.backupFileContent
  have hp : p = ⟨.readBackup, 0, p.backupFileContent, 0⟩ := by
    rw [← hpc, ← hzero, ← hoffset]
  cases hfile.symm.trans hfile'
  rw [← hp, hread] at hq
  cases hq
  refine h.quiet rfl rfl ?_ (unrecorded_append es _) rfl (by simp [Prepared, hqpc])
  rw [upcoming_running rfl (by simp [hqpc])]
  simp [upcoming, hserver, hpc, hqpc, unadded, hqn]

theorem Accounted.close {req : Request} {sent : Bool} (h : Accounted es s n)
    (hserver : s.server = some p) (hpc : p.pc = .closeClient req sent)
    (htotal : total (lengths s.granted) < 2 ^ 31) :
    Accounted (es ++ [.closeClient])
      { s with
        server := some { p with pc := .seek req sent, seqNum := p.seqNum + req.seqLen } } n := by
  have hup : upcoming s n = p.seqNum.toNat + req.seqLen.toNat := by
    simp [upcoming, hserver, hpc, unadded]
  have hbounded := h.bounded
  refine h.quiet rfl rfl ?_ (unrecorded_append es _) rfl trivial
  rw [upcoming_running rfl (by simp), hup]
  exact BitVec.toNat_add_of_lt (by omega)

/-- A complete update puts the counter on record, and with it all that was sent. -/
theorem Accounted.record {req : Request} {sent : Bool} {file : List Byte} (h : Accounted es s n)
    (hserver : s.server = some p) (hpc : p.pc = .writeBackup req sent) :
    Accounted (es ++ [.writeBackup true])
      { s with
        file := some (writeAt file p.offset p.backupFileContent.toList)
        server := some { p with pc := .readRequest, offset := p.offset + 21 } } p.seqNum := by
  have hprepared := h.prepared p hserver
  simp only [Prepared, hpc] at hprepared
  obtain ⟨hoffset, a, ha⟩ := hprepared
  have hup : upcoming s n = p.seqNum.toNat := by simp [upcoming, hserver, hpc, unadded]
  have hbounded := h.bounded
  have hbelow := h.below
  rw [hup] at hbounded hbelow
  refine ⟨⟨_, rfl, ?_⟩, hbounded, ?_, ?_, fun _ => hbelow, h.increasing, ?_⟩
  · rw [hoffset, ha]
    exact update_resumes file a p.seqNum
  · rw [upcoming_running rfl (by simp)]
    simpa [unadded] using hbounded
  · rw [upcoming_running rfl (by simp)]
    simpa [unadded] using hbelow
  · intro q hq
    cases hq
    trivial

theorem accounted_step (h : Accounted es s n) (hs : Step s e t)
    (hkill : e = .kill → unrecorded es = false)
    (htotal : total (lengths t.granted) < 2 ^ 31) : ∃ m, Accounted (es ++ [e]) t m := by
  cases hserver : s.server with
  | none => exact ⟨n, h.start hserver hs⟩
  | some p =>
    have hmoves := moves_of_step hserver hs
    cases hmoves with
    | readBackup hpc hfile hread => exact ⟨n, h.resume hserver hpc hfile hread⟩
    | discard hpc =>
      exact ⟨n, h.quiet rfl rfl rfl (unrecorded_append es _) hserver (h.prepared p hserver)⟩
    | request req hpc =>
      refine ⟨n, h.quiet rfl rfl ?_ (unrecorded_append es _) rfl trivial⟩
      simp [upcoming, hserver, hpc, unadded]
    | opened hpc =>
      refine ⟨n, h.quiet rfl rfl ?_ (unrecorded_append es _) rfl trivial⟩
      simp [upcoming, hserver, hpc, unadded]
    | notOpened hpc =>
      refine ⟨n, h.quiet rfl rfl ?_ (unrecorded_append es _) rfl trivial⟩
      simp [upcoming, hserver, hpc, unadded]
    | written hpc => exact ⟨n, h.grant hserver hpc rfl rfl rfl⟩
    | notWritten hpc => exact ⟨n, h.grant hserver hpc rfl rfl rfl⟩
    | closed hpc => exact ⟨n, h.close hserver hpc htotal⟩
    | sought hpc =>
      refine ⟨n, h.quiet rfl rfl ?_ (unrecorded_append es _) rfl ⟨rfl, _, rfl⟩⟩
      simp [upcoming, hserver, hpc, unadded]
    | recorded hpc => exact ⟨p.seqNum, h.record hserver hpc⟩
    | notRecorded hpc =>
      refine ⟨n, h.quiet rfl rfl ?_ (unrecorded_append es _) rfl trivial⟩
      simp [upcoming, hserver, hpc, unadded]
    | killed =>
      have hclean := hkill rfl
      refine ⟨n, h.resumes, h.on_record, h.on_record, h.recorded hclean, ?_, h.increasing, by simp⟩
      intro _
      exact h.recorded hclean

theorem granted_grows (hs : Step s e t) :
    total (lengths s.granted) ≤ total (lengths t.granted) := by
  cases hserver : s.server with
  | none => cases starts_of_step hserver hs <;> exact le_refl _
  | some p =>
    have hmoves := moves_of_step hserver hs
    cases hmoves with
    | written | notWritten =>
      rw [total_append]
      exact Nat.le_add_right _ _
    | readBackup | discard | request | opened | notOpened | closed | sought | recorded
    | notRecorded | killed => exact le_refl _

end Step

theorem accounted_run {s t : System} {n : CInt} {es : List Event} (hs : Accounted [] s n)
    (hrun : Execution Step s es t) (hcareful : Careful es)
    (htotal : total (lengths t.granted) < 2 ^ 31) : ∃ m, Accounted es t m := by
  induction hrun with
  | refl => exact ⟨n, hs⟩
  | tail _ hstep ih =>
    obtain ⟨hbefore, hkill⟩ := careful_append hcareful
    obtain ⟨m, hm⟩ := ih hbefore (lt_of_le_of_lt (granted_grows hstep) htotal)
    exact accounted_step hm hstep hkill htotal

section Restarts

variable {s t u : System} {e : Event} {p : Process}

theorem readBackup_pc {q : Process} {file : List Byte} (h : p.readBackup file = some q) :
    q.pc = .readRequest := by
  simp only [Process.readBackup] at h
  split at h
  · cases h
    rfl
  · split at h
    · cases h
      rfl
    · cases h

theorem prepared_step (h : ∀ p, s.server = some p → Prepared p) (hs : Step s e t) :
    ∀ q, t.server = some q → Prepared q := by
  intro q hq
  cases hserver : s.server with
  | none =>
    cases starts_of_step hserver hs with
    | opened junk =>
      cases hq
      exact ⟨rfl, rfl⟩
    | created junk => simp [hserver] at hq
  | some p =>
    cases moves_of_step hserver hs with
    | readBackup hpc hfile hread =>
      cases hq
      simp [Prepared, readBackup_pc hread]
    | discard hpc => exact h q hq
    | sought hpc =>
      cases hq
      exact ⟨rfl, _, rfl⟩
    | killed => cases hq
    | request | opened | notOpened | written | notWritten | closed | recorded | notRecorded =>
      cases hq
      trivial

theorem file_step {file : List Byte} (hs : Step s e t) (he : e ≠ .writeBackup true)
    (hfile : s.file = some file) : t.file = some file := by
  cases hserver : s.server with
  | none =>
    cases starts_of_step hserver hs with
    | opened junk => exact hfile
    | created junk hnone => simp [hnone] at hfile
  | some p =>
    cases moves_of_step hserver hs with
    | recorded => exact (he rfl).elim
    | _ => exact hfile

theorem file_run {fs : List Event} {file : List Byte} (hrun : Execution Step s fs t)
    (hfs : .writeBackup true ∉ fs) (hfile : s.file = some file) : t.file = some file := by
  induction hrun with
  | refl => exact hfile
  | tail _ hstep ih =>
    rw [List.mem_append, not_or, List.mem_singleton] at hfs
    exact file_step hstep (Ne.symm hfs.2) (ih hfs.1)

theorem update_step (hserver : s.server = some p) (hprepared : Prepared p)
    (hs : Step s (.writeBackup true) t) : ∃ file, t.file = some file ∧ Resumes file p.seqNum := by
  cases moves_of_step hserver hs with
  | recorded hpc hfile =>
    simp only [Prepared, hpc] at hprepared
    obtain ⟨hoffset, a, hcontent⟩ := hprepared
    rw [hoffset, hcontent]
    exact ⟨_, rfl, update_resumes _ _ _⟩

theorem start_resumes {file : List Byte} {n : CInt} (hserver : s.server = none)
    (hfile : s.file = some file) (hresumes : Resumes file n) (junk : CharArray 21) :
    ∃ t q, follow step s [.start junk, .readBackup] = some t ∧ t.server = some q ∧
      q.pc = .readRequest ∧ q.seqNum = n := by
  obtain ⟨q, hq, hpc, hn⟩ := hresumes junk
  refine ⟨{ s with server := some q }, q, ?_, rfl, hpc, hn⟩
  simp only [follow, step, serverStep, hserver, hfile, Option.bind_some, hq, Option.map_some]

theorem update_then_kill {file : List Byte} {req : Request} {sent : Bool}
    (hserver : s.server = some p) (hpc : p.pc = .seek req sent) (hfile : s.file = some file) :
    ∃ t, follow step s [.seek, .writeBackup true, .kill] = some t ∧ t.server = none ∧
      t.file = some (writeAt file 0
        (snprintf p.backupFileContent (formatInt p.seqNum.toInt)).toList) := by
  simp only [follow, step, serverStep, hserver, hpc, hfile, Option.bind_some]
  exact ⟨_, rfl, rfl, rfl⟩

/-- An update, a kill and a start bring the counter back, whatever was in the buffers and in
the file before. So does every later start up to the next complete update, in every history on
any backup file, through kills, restarts and failing calls. -/
theorem restart_resumes_last_update :
    (∀ (s : System) (p : Process) (file : List Byte) (req : Request) (sent : Bool)
      (junk : CharArray 21), s.server = some p → p.pc = .seek req sent → s.file = some file →
      ∃ t q, follow step s [.seek, .writeBackup true, .kill, .start junk, .readBackup] = some t ∧
        t.server = some q ∧ q.pc = .readRequest ∧ q.seqNum = p.seqNum) ∧
    ∀ (s₀ s t u : System) (es fs : List Event) (p : Process) (junk : CharArray 21),
      s₀.server = none → Execution Step s₀ es s → s.server = some p →
      Step s (.writeBackup true) t → Execution Step t fs u → .writeBackup true ∉ fs →
      u.server = none →
      ∃ v q, follow step u [.start junk, .readBackup] = some v ∧ v.server = some q ∧
        q.pc = .readRequest ∧ q.seqNum = p.seqNum := by
  refine ⟨?_, ?_⟩
  · intro s p file req sent junk hserver hpc hfile
    obtain ⟨t, ht, hdown, hrecorded⟩ := update_then_kill hserver hpc hfile
    obtain ⟨u, q, hu, hrest⟩ := start_resumes hdown hrecorded (update_resumes _ _ _) junk
    refine ⟨u, q, (follow_append s [Event.seek, .writeBackup true, .kill] _).trans ?_, hrest⟩
    rw [ht, Option.bind_some, hu]
  · intro s₀ s t u es fs p junk hdown hrun hserver hupdate hlater hlast hkilled
    have hprepared := hrun.invariant (P := fun s => ∀ p, s.server = some p → Prepared p)
      (fun _ _ _ h hs => prepared_step h hs) (by simp [hdown]) p hserver
    obtain ⟨file, hfile, hresumes⟩ := update_step hserver hprepared hupdate
    exact start_resumes hkilled (file_run hlater hlast hfile) hresumes junk

/-- A server about to record -7 in a file and a buffer with a longer number. -/
def recordingNegative : System :=
  ⟨some (ascii "1234567890"), some ⟨.seek ⟨1, 3⟩ true, -7, snprintf (.replicate 21 0)
    (ascii "1234567890"), 10⟩, fun _ => [], []⟩

theorem negative_number_resumed : ∃ t q, follow step recordingNegative
    [.seek, .writeBackup true, .kill, .start (.replicate 21 57), .readBackup] = some t ∧
      t.server = some q ∧ q.pc = .readRequest ∧ q.seqNum = -7 :=
  restart_resumes_last_update.1 recordingNegative _ _ ⟨1, 3⟩ true _ rfl rfl rfl

end Restarts

/-- Ranges one behind the other, below 2^31, are disjoint as sets of integers. -/
theorem numbers_disjoint {a b : Grant} (h : Grant.stop a ≤ b.seqNum.toNat)
    (hb : b.seqNum.toNat < 2 ^ 31) : Disjoint (Grant.numbers a) (Grant.numbers b) := by
  rw [Grant.stop] at h
  have hstart : b.seqNum.toInt = b.seqNum.toNat := BitVec.toInt_eq_toNat_of_lt (by omega)
  have hfrom : a.seqNum.toInt = a.seqNum.toNat := BitVec.toInt_eq_toNat_of_lt (by omega)
  have hlen : a.request.seqLen.toInt = a.request.seqLen.toNat :=
    BitVec.toInt_eq_toNat_of_lt (by omega)
  rw [Set.disjoint_left]
  intro x hxa hxb
  have hhi := (Set.mem_Ico.mp hxa).2
  have hlo := (Set.mem_Ico.mp hxb).1
  omega

/-- Over any number of kills and restarts, at any call of the server and with any call on a
FIFO or on the backup file failing: as long as no kill falls between a response and the next
complete update of the file, no two clients hold the same number. -/
theorem careful_history_no_overlap {es : List Event} {t : System}
    (hrun : Execution Step fresh es t) (hcareful : Careful es)
    (htotal : total (lengths t.granted) < 2 ^ 31) : NoOverlap t := by
  obtain ⟨n, h⟩ := accounted_run fresh_accounted hrun hcareful htotal
  have hbehind := h.increasing.filter Grant.delivered
  refine hbehind.imp_of_mem ?_
  intro a b ha hb hab
  obtain ⟨_, hda⟩ := List.mem_filter.mp ha
  obtain ⟨hbin, hdb⟩ := List.mem_filter.mp hb
  have hstop := h.below b hbin hdb
  have hbounded := h.bounded
  rw [Grant.stop] at hstop
  exact numbers_disjoint (hab hda hdb) (by omega)

def boot : List Event := [.start (.replicate 21 0), .readBackup]

def restartAfterUpdate : List Event :=
  boot ++ turn ⟨1, 10⟩ true true true ++ [.kill] ++ boot ++ turn ⟨2, 10⟩ true true true

theorem restart_after_update_no_overlap : ∃ t, Execution Step fresh restartAfterUpdate t ∧
    t.granted = [⟨⟨1, 10⟩, 0, true⟩, ⟨⟨2, 10⟩, 10, true⟩] ∧ NoOverlap t := by
  have hrun : (follow step fresh restartAfterUpdate).map System.granted =
      some [⟨⟨1, 10⟩, 0, true⟩, ⟨⟨2, 10⟩, 10, true⟩] := by decide +kernel
  obtain ⟨t, ht, hgranted⟩ := Option.map_eq_some_iff.mp hrun
  refine ⟨t, follow_execution ht, hgranted, ?_⟩
  apply careful_history_no_overlap (follow_execution ht) (by decide)
  rw [hgranted]
  decide

/-- The same history without the close and the update: the kill follows the response. -/
def killedAfterResponse : List Event :=
  boot ++ [.request ⟨1, 10⟩, .openClient true, .writeResponse true, .kill] ++
    boot ++ turn ⟨2, 10⟩ true true true

theorem killed_after_response_overlaps : ∃ t, Execution Step fresh killedAfterResponse t ∧
    t.granted = [⟨⟨1, 10⟩, 0, true⟩, ⟨⟨2, 10⟩, 0, true⟩] ∧
    total (lengths t.granted) < 2 ^ 31 ∧ ¬NoOverlap t := by
  have hrun : (follow step fresh killedAfterResponse).map System.granted =
      some [⟨⟨1, 10⟩, 0, true⟩, ⟨⟨2, 10⟩, 0, true⟩] := by decide +kernel
  obtain ⟨t, ht, hgranted⟩ := Option.map_eq_some_iff.mp hrun
  refine ⟨t, follow_execution ht, hgranted, ?_, ?_⟩
  · rw [hgranted]
    decide
  · intro hno
    simp only [NoOverlap, hgranted, List.filter_cons, if_true, List.filter_nil] at hno
    have hpair := List.pairwise_pair.mp hno
    have hzero : (0 : ℤ) ∈ Set.Ico (0 : CInt).toInt ((0 : CInt).toInt + 10) := by decide
    exact Set.disjoint_left.mp hpair hzero hzero

end SeqnumBackup
