import LinuxProgramming.DescriptorTables

/-! The loops of `inet_sockets.c` over the addresses that `getaddrinfo` returns. A socket is opened
for one address after the other and closed again where a later call fails. What is left open at
the end, for every list of addresses and every pattern of failures. -/
namespace InetSockets

open DescriptorTables

variable {Address Other : Type}

structure Socket (Address : Type) where
  address : Address
  reuseaddr : Bool
  bound : Bool
  connected : Bool
  backlog : Option ℤ

inductive OpenFile (Address Other : Type) where
  | socket (s : Socket Address)
  | other (file : Other)

/-- An entry of the list with the results of the calls that are made for it. -/
structure AddrInfo (Address : Type) where
  addr : Address
  addrlen : ℕ
  socket : Bool
  setsockopt : Bool
  bind : Bool
  listen : Bool
  connect : Bool

def fresh (rp : AddrInfo Address) : Socket Address := ⟨rp.addr, false, false, false, none⟩

def bound (rp : AddrInfo Address) (doListen : Bool) : Socket Address :=
  { fresh rp with reuseaddr := doListen, bound := true }

def listening (rp : AddrInfo Address) (backlog : ℤ) : Socket Address :=
  { bound rp true with backlog := some backlog }

def connected (rp : AddrInfo Address) : Socket Address := { fresh rp with connected := true }

section Source

abbrev Files (Address Other : Type) := Table (OpenFile Address Other)

/-- `socket` takes the lowest free descriptor, if there is one. -/
def openSocket (t : Files Address Other) (rp : AddrInfo Address) :
    Option (ℤ × Files Address Other) :=
  if rp.socket then (t.lowestFree 0).map fun sfd => (sfd, t.install sfd (.socket (fresh rp)))
  else none

/-- The loop of `inetConnect`; the descriptor with which it is left, if it is. -/
def connectLoop (t : Files Address Other) :
    List (AddrInfo Address) → Option ℤ × Files Address Other
  | [] => (none, t)
  | rp :: rest =>
    match openSocket t rp with
    | none => connectLoop t rest
    | some (sfd, u) =>
      if rp.connect then (some sfd, u.install sfd (.socket (connected rp)))
      else connectLoop (u.close sfd) rest

def inetConnect (t : Files Address Other) (result : Option (List (AddrInfo Address))) :
    ℤ × Files Address Other :=
  match result with
  | none => (-1, t)
  | some result => ((connectLoop t result).1.getD (-1), (connectLoop t result).2)

/-- The loop of `inetPassiveSocket`. An error is the `return` inside it. -/
def bindLoop (doListen : Bool) (t : Files Address Other) : List (AddrInfo Address) →
    Except (Files Address Other) (Option (ℤ × AddrInfo Address) × Files Address Other)
  | [] => .ok (none, t)
  | rp :: rest =>
    match openSocket t rp with
    | none => bindLoop doListen t rest
    | some (sfd, u) =>
      if doListen && !rp.setsockopt then .error (u.close sfd)
      else if rp.bind then .ok (some (sfd, rp), u.install sfd (.socket (bound rp doListen)))
      else bindLoop doListen (u.close sfd) rest

/-- The descriptor, what is stored for `addrlen`, and the open files. -/
def inetPassiveSocket (t : Files Address Other) (result : Option (List (AddrInfo Address)))
    (doListen : Bool) (backlog : ℤ) : ℤ × Option ℕ × Files Address Other :=
  match result with
  | none => (-1, none, t)
  | some result =>
    match bindLoop doListen t result with
    | .error u => (-1, none, u)
    | .ok (none, u) => (-1, none, u)
    | .ok (some (sfd, rp), u) =>
      if doListen then
        if rp.listen then (sfd, some rp.addrlen, u.install sfd (.socket (listening rp backlog)))
        else (-1, none, u)
      else (sfd, some rp.addrlen, u)

def inetListen (t : Files Address Other) (result : Option (List (AddrInfo Address)))
    (backlog : ℤ) : ℤ × Option ℕ × Files Address Other :=
  inetPassiveSocket t result true backlog

def inetBind (t : Files Address Other) (result : Option (List (AddrInfo Address))) :
    ℤ × Option ℕ × Files Address Other :=
  inetPassiveSocket t result false 0

end Source

section Loops

variable {t : Files Address Other} {rp : AddrInfo Address} {sfd : ℤ}

def Skipped (doListen : Bool) (rp : AddrInfo Address) : Bool :=
  !rp.socket || (!(doListen && !rp.setsockopt) && !rp.bind)

theorem openSocket_none (h : t.lowestFree 0 = none ∨ rp.socket = false) :
    openSocket t rp = none := by
  rcases h with h | h
  · simp [openSocket, h]
  · simp [openSocket, h]

theorem openSocket_some (hfree : t.lowestFree 0 = some sfd) (hsocket : rp.socket = true) :
    openSocket t rp = some (sfd, t.install sfd (.socket (fresh rp))) := by
  simp [openSocket, hfree, hsocket]

theorem connectLoop_full (hfull : t.lowestFree 0 = none) (result : List (AddrInfo Address)) :
    connectLoop t result = (none, t) := by
  induction result with
  | nil => rfl
  | cons rp rest ih => simp only [connectLoop, openSocket_none (.inl hfull), ih]

theorem bindLoop_full (doListen : Bool) (hfull : t.lowestFree 0 = none)
    (result : List (AddrInfo Address)) : bindLoop doListen t result = .ok (none, t) := by
  induction result with
  | nil => rfl
  | cons rp rest ih => simp only [bindLoop, openSocket_none (.inl hfull), ih]

theorem connectLoop_eq (hfree : t.lowestFree 0 = some sfd) (result : List (AddrInfo Address)) :
    connectLoop t result = match result.find? fun rp => rp.socket && rp.connect with
      | none => (none, t)
      | some rp => (some sfd, t.install sfd (.socket (connected rp))) := by
  induction result with
  | nil => rfl
  | cons rp rest ih =>
    cases hsocket : rp.socket with
    | false => simp [connectLoop, openSocket_none (.inr hsocket), ih, hsocket]
    | true =>
      simp only [connectLoop, openSocket_some hfree hsocket, List.find?_cons, hsocket,
        Bool.true_and]
      cases rp.connect with
      | true => simp [Table.install_install]
      | false => simp [Table.close_install (Table.lowestFree_entry hfree), ih]

theorem bindLoop_eq (doListen : Bool) (hfree : t.lowestFree 0 = some sfd)
    (result : List (AddrInfo Address)) :
    bindLoop doListen t result = match result.find? fun rp => !Skipped doListen rp with
      | none => .ok (none, t)
      | some rp =>
        if doListen && !rp.setsockopt then .error t
        else .ok (some (sfd, rp), t.install sfd (.socket (bound rp doListen))) := by
  induction result with
  | nil => rfl
  | cons rp rest ih =>
    cases hsocket : rp.socket with
    | false => simp [bindLoop, openSocket_none (.inr hsocket), ih, Skipped, hsocket]
    | true =>
      simp only [bindLoop, openSocket_some hfree hsocket, List.find?_cons, Skipped, hsocket,
        Bool.not_true, Bool.false_or]
      cases hoption : doListen && !rp.setsockopt with
      | true => simp [Table.close_install (Table.lowestFree_entry hfree), hoption]
      | false =>
        cases hbind : rp.bind with
        | true => simp [Table.install_install, hoption]
        | false => simp [Table.close_install (Table.lowestFree_entry hfree), ih, Skipped]

end Loops

section Results

variable {t : Files Address Other} {sfd : ℤ}

theorem inetPassiveSocket_eq (doListen : Bool) (backlog : ℤ) (hfree : t.lowestFree 0 = some sfd)
    (result : List (AddrInfo Address)) : inetPassiveSocket t (some result) doListen backlog =
      match result.find? fun rp => !Skipped doListen rp with
      | none => (-1, none, t)
      | some rp =>
        if doListen && !rp.setsockopt then (-1, none, t)
        else if doListen && !rp.listen then
          (-1, none, t.install sfd (.socket (bound rp doListen)))
        else (sfd, some rp.addrlen,
          t.install sfd (.socket (if doListen then listening rp backlog else bound rp false))) := by
  simp only [inetPassiveSocket, bindLoop_eq doListen hfree]
  cases result.find? fun rp => !Skipped doListen rp with
  | none => rfl
  | some rp =>
    cases doListen with
    | false => rfl
    | true =>
      cases hoption : rp.setsockopt with
      | false => simp [hoption]
      | true =>
        cases hlisten : rp.listen with
        | false => simp [hoption, hlisten]
        | true => simp [hoption, hlisten, Table.install_install]

theorem inetPassiveSocket_full (doListen : Bool) (backlog : ℤ) (hfull : t.lowestFree 0 = none)
    (result : List (AddrInfo Address)) :
    inetPassiveSocket t (some result) doListen backlog = (-1, none, t) := by
  simp only [inetPassiveSocket, bindLoop_full doListen hfull]

/-- A call that fails leaves the descriptors as they were; one that succeeds opens the one that it
returns, the lowest that was free, and no other. -/
def Balanced (t : Files Address Other) (fd : ℤ) (u : Files Address Other) : Prop :=
  (fd = -1 ∧ u = t) ∨ ∃ s, t.lowestFree 0 = some fd ∧ u = t.install fd (.socket s)

theorem inetConnect_balanced (t : Files Address Other)
    (result : Option (List (AddrInfo Address))) :
    Balanced t (inetConnect t result).1 (inetConnect t result).2 := by
  cases result with
  | none => exact .inl ⟨rfl, rfl⟩
  | some result =>
    cases hfree : t.lowestFree 0 with
    | none => exact .inl (by simp [inetConnect, connectLoop_full hfree])
    | some sfd =>
      simp only [inetConnect, connectLoop_eq hfree]
      cases result.find? fun rp => rp.socket && rp.connect with
      | none => exact .inl ⟨rfl, rfl⟩
      | some rp => exact .inr ⟨_, hfree, rfl⟩

theorem inetBind_balanced (t : Files Address Other) (result : Option (List (AddrInfo Address))) :
    Balanced t (inetBind t result).1 (inetBind t result).2.2 := by
  cases result with
  | none => exact .inl ⟨rfl, rfl⟩
  | some result =>
    cases hfree : t.lowestFree 0 with
    | none => exact .inl (by simp [inetBind, inetPassiveSocket_full false 0 hfree])
    | some sfd =>
      rw [inetBind, inetPassiveSocket_eq false 0 hfree]
      cases result.find? fun rp => !Skipped false rp with
      | none => exact .inl ⟨rfl, rfl⟩
      | some rp => exact .inr ⟨_, hfree, rfl⟩

/-- The address with which the loop of `inetListen` is left is bound, but `listen` fails. -/
def ListenFails (t : Files Address Other) (result : Option (List (AddrInfo Address))) : Prop :=
  ∃ list rp, result = some list ∧ t.lowestFree 0 ≠ none ∧
    list.find? (fun rp => !Skipped true rp) = some rp ∧ rp.setsockopt = true ∧ rp.listen = false

theorem not_balanced_install (hfree : t.lowestFree 0 = some sfd) (file : OpenFile Address Other) :
    ¬ Balanced t (-1) (t.install sfd file) := by
  obtain ⟨-, h0, hlimit, hnone, -⟩ := Table.lowestFree_eq_some.mp hfree
  rintro (⟨-, hsame⟩ | ⟨s, hneg, -⟩)
  · have hopen : (t.install sfd file).entry sfd = _ := Table.install_entry h0 hlimit sfd
    rw [hsame, hnone, if_pos rfl] at hopen
    cases hopen
  · rw [hfree] at hneg
    cases hneg
    omega

theorem inetListen_ok {result : Option (List (AddrInfo Address))} {backlog : ℤ}
    (hok : (inetListen t result backlog).1 ≠ -1) : ∃ list rp, result = some list ∧ rp ∈ list ∧
      rp.listen = true ∧ t.lowestFree 0 = some (inetListen t result backlog).1 ∧
      (inetListen t result backlog).2.2 =
        t.install (inetListen t result backlog).1 (.socket (listening rp backlog)) := by
  cases result with
  | none => exact absurd rfl hok
  | some result =>
    cases hfree : t.lowestFree 0 with
    | none => simp [inetListen, inetPassiveSocket_full true backlog hfree] at hok
    | some sfd =>
      have hvalue := inetPassiveSocket_eq true backlog hfree result
      cases hfind : result.find? fun rp => !Skipped true rp with
      | none => simp [inetListen, hvalue, hfind] at hok
      | some rp =>
        rw [inetListen, hvalue, hfind] at hok ⊢
        cases hoption : rp.setsockopt with
        | false => simp [hoption] at hok
        | true =>
          cases hlisten : rp.listen with
          | false => simp [hoption, hlisten] at hok
          | true =>
            refine ⟨result, rp, rfl, List.mem_of_find?_eq_some hfind, hlisten, ?_, ?_⟩
            · simp [hoption, hlisten]
            · simp [hoption, hlisten]

theorem inetListen_balanced_iff (t : Files Address Other)
    (result : Option (List (AddrInfo Address))) (backlog : ℤ) :
    Balanced t (inetListen t result backlog).1 (inetListen t result backlog).2.2 ↔
      ¬ ListenFails t result := by
  cases result with
  | none => exact iff_of_true (.inl ⟨rfl, rfl⟩) (fun ⟨_, _, h, _⟩ => by cases h)
  | some result =>
    cases hfree : t.lowestFree 0 with
    | none =>
      rw [inetListen, inetPassiveSocket_full true backlog hfree]
      exact iff_of_true (.inl ⟨rfl, rfl⟩) (fun ⟨_, _, _, h, _⟩ => h hfree)
    | some sfd =>
      have hvalue := inetPassiveSocket_eq true backlog hfree result
      cases hfind : result.find? fun rp => !Skipped true rp with
      | none =>
        rw [inetListen, hvalue, hfind]
        refine iff_of_true (.inl ⟨rfl, rfl⟩) ?_
        rintro ⟨list, rp, hlist, -, hrp, -⟩
        cases hlist
        rw [hfind] at hrp
        cases hrp
      | some rp =>
        have hfails : ListenFails t (some result) ↔
            rp.setsockopt = true ∧ rp.listen = false := by
          constructor
          · rintro ⟨list, rp', hlist, -, hrp, hlast⟩
            cases hlist
            cases hfind.symm.trans hrp
            exact hlast
          · exact fun h => ⟨result, rp, rfl, by simp [hfree], hfind, h⟩
        rw [inetListen, hvalue, hfind, hfails]
        cases hoption : rp.setsockopt with
        | false => exact iff_of_true (.inl (by simp [hoption])) (by simp)
        | true =>
          cases hlisten : rp.listen with
          | true =>
            simp only [hoption, hlisten]
            exact iff_of_true (.inr ⟨_, hfree, rfl⟩) (by simp)
          | false =>
            simp only [hoption, hlisten]
            exact iff_of_false (not_balanced_install hfree _) (by simp)

theorem inetListen_of_listenFails {result : Option (List (AddrInfo Address))}
    (hfails : ListenFails t result) (backlog : ℤ) :
    ∃ list rp sfd, result = some list ∧ rp ∈ list ∧ t.lowestFree 0 = some sfd ∧
      inetListen t result backlog = (-1, none, t.install sfd (.socket (bound rp true))) := by
  obtain ⟨list, rp, rfl, hfull, hfind, hoption, hlisten⟩ := hfails
  obtain ⟨sfd, hfree⟩ := Option.ne_none_iff_exists'.mp hfull
  refine ⟨list, rp, sfd, rfl, List.mem_of_find?_eq_some hfind, hfree, ?_⟩
  rw [inetListen, inetPassiveSocket_eq true backlog hfree, hfind]
  simp [hoption, hlisten]

/-- Whatever the list of addresses and whichever calls fail: no descriptor gets lost, except in
`inetListen` where it is `listen` that fails. There the call returns -1 and the socket that it has
bound stays open. -/
theorem no_descriptor_lost (t : Files Address Other) (result : Option (List (AddrInfo Address)))
    (backlog : ℤ) :
    Balanced t (inetConnect t result).1 (inetConnect t result).2 ∧
    Balanced t (inetBind t result).1 (inetBind t result).2.2 ∧
    (Balanced t (inetListen t result backlog).1 (inetListen t result backlog).2.2 ↔
      ¬ ListenFails t result) ∧
    (ListenFails t result → ∃ list rp sfd, result = some list ∧ rp ∈ list ∧
      t.lowestFree 0 = some sfd ∧
      inetListen t result backlog = (-1, none, t.install sfd (.socket (bound rp true)))) :=
  ⟨inetConnect_balanced t result, inetBind_balanced t result,
    inetListen_balanced_iff t result backlog,
    fun hfails => inetListen_of_listenFails hfails backlog⟩

def noFiles : Files Unit Unit := ⟨8, fun _ => none, fun _ _ => rfl⟩

def unlistened : AddrInfo Unit := ⟨(), 16, true, true, true, false, false⟩

theorem unlistened_stays_open : ListenFails noFiles (some [unlistened]) ∧
    ∃ sfd, inetListen noFiles (some [unlistened]) 5 =
      (-1, none, noFiles.install sfd (.socket (bound unlistened true))) := by
  have hfails : ListenFails noFiles (some [unlistened]) :=
    ⟨[unlistened], unlistened, rfl, by decide, rfl, rfl, rfl⟩
  obtain ⟨list, rp, sfd, hlist, hmem, -, hlisten⟩ :=
    (no_descriptor_lost noFiles (some [unlistened]) 5).2.2.2 hfails
  cases hlist
  cases List.mem_singleton.mp hmem
  exact ⟨hfails, sfd, hlisten⟩

end Results

end InetSockets
