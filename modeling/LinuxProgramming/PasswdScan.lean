import LinuxProgramming.CharStrings

/-! `my_getpwnam` over the password database. The read position of `getpwent` belongs to the
whole program, and `my_getpwnam` starts from wherever it is: an entry that was already passed is
found only if it is repeated further on. -/
namespace PasswdScan

open CharStrings

structure Passwd where
  pwName : CString
  pwPasswd : CString
  pwUid : BitVec 32
  pwGid : BitVec 32
  pwGecos : CString
  pwDir : CString
  pwShell : CString
  deriving DecidableEq

/-- The database, and how much of it has been read. -/
structure PasswdFile where
  entries : List Passwd
  position : ℕ
  bound : position ≤ entries.length

def getpwent (s : PasswdFile) : Option Passwd × PasswdFile :=
  if h : s.position < s.entries.length then
    (some s.entries[s.position], { s with position := s.position + 1, bound := h })
  else (none, s)

def setpwent (s : PasswdFile) : PasswdFile := { s with position := 0, bound := Nat.zero_le _ }

/-- Closing the file also forgets the position. -/
def endpwent (s : PasswdFile) : PasswdFile := setpwent s

theorem getpwent_advances {s t : PasswdFile} {e : Passwd} (h : getpwent s = (some e, t)) :
    t.entries.length - t.position < s.entries.length - s.position := by
  rw [getpwent] at h
  split at h
  · next hlt =>
    cases h
    change s.entries.length - (s.position + 1) < _
    omega
  · cases h

def myGetpwnam (name : CString) (s : PasswdFile) : Option Passwd × PasswdFile :=
  match _h : getpwent s with
  | (some result, t) =>
    if strcmp result.pwName name = 0 then (some result, endpwent t) else myGetpwnam name t
  | (none, t) => (none, endpwent t)
termination_by s.entries.length - s.position
decreasing_by exact getpwent_advances _h

inductive Event where
  | getpwent
  | setpwent
  | endpwent
  | lookup (name : CString)

def next (s : PasswdFile) : Event → PasswdFile
  | .getpwent => (PasswdScan.getpwent s).2
  | .setpwent => PasswdScan.setpwent s
  | .endpwent => PasswdScan.endpwent s
  | .lookup name => (myGetpwnam name s).2

def LookupsIn (P : PasswdFile → CString → Prop) : PasswdFile → List Event → Prop
  | _, [] => True
  | s, .lookup name :: es => P s name ∧ LookupsIn P (next s (.lookup name)) es
  | s, e :: es => LookupsIn P (next s e) es

def IsFirst (entries : List Passwd) (name : CString) (e : Passwd) : Prop :=
  e.pwName = name ∧ ∃ before after, entries = before ++ e :: after ∧ ∀ x ∈ before, x.pwName ≠ name

/-- What a lookup should return: the first entry of the whole database, NULL if there is none. -/
def Finds (entries : List Passwd) (name : CString) : Option Passwd → Prop
  | some e => IsFirst entries name e
  | none => ∀ e ∈ entries, e.pwName ≠ name

/-- No entry with the name has been read yet, or the first one that was read stands once more
ahead, before any other with the name. -/
def Unpassed (s : PasswdFile) (name : CString) : Prop :=
  (∀ e ∈ s.entries.take s.position, e.pwName ≠ name) ∨
    ∃ e, IsFirst (s.entries.take s.position) name e ∧ IsFirst (s.entries.drop s.position) name e

section Scan

variable {s t : PasswdFile} {e : Passwd} {name : CString}

theorem getpwent_some (h : getpwent s = (some e, t)) :
    s.entries.drop s.position = e :: t.entries.drop t.position ∧ endpwent t = endpwent s := by
  rw [getpwent] at h
  split at h
  · next hlt =>
    cases h
    exact ⟨List.drop_eq_getElem_cons hlt, rfl⟩
  · cases h

theorem getpwent_none (h : getpwent s = (none, t)) :
    s.entries.drop s.position = [] ∧ t = s := by
  rw [getpwent] at h
  split at h
  · cases h
  · next hge =>
    cases h
    exact ⟨List.drop_eq_nil_iff.mpr (Nat.le_of_not_lt hge), rfl⟩

theorem myGetpwnam_eq (name : CString) (s : PasswdFile) : myGetpwnam name s =
    ((s.entries.drop s.position).find? fun e => e.pwName = name, endpwent s) := by
  fun_induction myGetpwnam name s with
  | case1 s result t hget hname =>
    obtain ⟨hdrop, hend⟩ := getpwent_some hget
    rw [hdrop, hend, List.find?_cons_of_pos (by simpa [strcmp_eq_zero_iff] using hname)]
  | case2 s result t hget hname ih =>
    obtain ⟨hdrop, hend⟩ := getpwent_some hget
    rw [hdrop, ih, hend, List.find?_cons_of_neg (by simpa [strcmp_eq_zero_iff] using hname)]
  | case3 s t hget =>
    obtain ⟨hdrop, rfl⟩ := getpwent_none hget
    rw [hdrop]
    rfl

theorem isFirst_iff {entries : List Passwd} :
    IsFirst entries name e ↔ (entries.find? fun x => x.pwName = name) = some e := by
  rw [List.find?_eq_some_iff_append, IsFirst]
  simp

theorem finds_iff {entries : List Passwd} {r : Option Passwd} :
    Finds entries name r ↔ (entries.find? fun x => x.pwName = name) = r := by
  cases r with
  | some e => exact isFirst_iff
  | none =>
    rw [List.find?_eq_none, Finds]
    simp

theorem lookup_finds_iff (s : PasswdFile) (name : CString) :
    Finds s.entries name (myGetpwnam name s).1 ↔ Unpassed s name := by
  have hsplit : (s.entries.find? fun e => e.pwName = name) =
      ((s.entries.take s.position).find? fun e => e.pwName = name).or
        ((s.entries.drop s.position).find? fun e => e.pwName = name) := by
    rw [← List.find?_append, List.take_append_drop]
  have hpassed : (∀ e ∈ s.entries.take s.position, e.pwName ≠ name) ↔
      ((s.entries.take s.position).find? fun e => e.pwName = name) = none := by
    rw [List.find?_eq_none]
    simp
  rw [finds_iff, myGetpwnam_eq, hsplit, Unpassed, hpassed]
  simp only [isFirst_iff]
  cases (s.entries.take s.position).find? fun e => e.pwName = name with
  | none => simp
  | some e => simp [eq_comm]

theorem next_entries (s : PasswdFile) (e : Event) : (next s e).entries = s.entries := by
  cases e with
  | getpwent =>
    simp only [next, getpwent]
    split <;> rfl
  | setpwent => rfl
  | endpwent => rfl
  | lookup name =>
    simp only [next, myGetpwnam_eq]
    rfl

end Scan

/-- The lookups of a run give what the database says if and only if none of them starts behind
the entry it should find. -/
theorem lookups_find_iff (s : PasswdFile) (es : List Event) :
    LookupsIn (fun t name => Finds s.entries name (myGetpwnam name t).1) s es ↔
      LookupsIn Unpassed s es := by
  suffices hrun : ∀ t : PasswdFile, t.entries = s.entries →
      (LookupsIn (fun t name => Finds s.entries name (myGetpwnam name t).1) t es ↔
        LookupsIn Unpassed t es) from hrun s rfl
  induction es with
  | nil => exact fun _ _ => Iff.rfl
  | cons e es ih =>
    intro t ht
    have hrest := ih (next t e) ((next_entries t e).trans ht)
    cases e with
    | lookup name => exact and_congr (ht ▸ lookup_finds_iff t name) hrest
    | getpwent => exact hrest
    | setpwent => exact hrest
    | endpwent => exact hrest

def rootEntry : Passwd :=
  ⟨stringOf (ascii "root"), stringOf (ascii "x"), 0, 0, stringOf (ascii "root"),
    stringOf (ascii "/root"), stringOf (ascii "/bin/bash")⟩

def daemonEntry : Passwd :=
  ⟨stringOf (ascii "daemon"), stringOf (ascii "x"), 1, 1, stringOf (ascii "daemon"),
    stringOf (ascii "/usr/sbin"), stringOf (ascii "/usr/sbin/nologin")⟩

/-- One `getpwent` has read the entry of root, and root is not found any more. -/
theorem passed_entry_not_found :
    Finds [rootEntry, daemonEntry] rootEntry.pwName (some rootEntry) ∧
    (myGetpwnam rootEntry.pwName (next ⟨[rootEntry, daemonEntry], 0, by decide⟩ .getpwent)).1 =
      none := by
  refine ⟨⟨rfl, [], [daemonEntry], rfl, nofun⟩, ?_⟩
  rw [myGetpwnam_eq]
  decide

end PasswdScan
