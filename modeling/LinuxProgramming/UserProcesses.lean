import LinuxProgramming.BlockMemory
import LinuxProgramming.DecimalText
import LinuxProgramming.FallibleLoops

/-! `users_processes`: the uid of the command line becomes a text of at most five characters, and
every status file is searched for that text in its line `Uid:`. The text is that of a signed
number, the file has unsigned ones. -/
namespace UserProcesses

open BlockMemory CharStrings DecimalText FallibleLoops

abbrev Uid := BitVec 32

/-- `getpwnam` gives the uid of a user that exists. The result of `strtol` is cut to 32 bits. -/
def userIDFromName (getpwnam : CString → Option Uid) (name : Option CString) : Uid :=
  match name with
  | none => -1
  | some name =>
    if name.bytes = [] then -1
    else match scanNumeral name.bytes with
      | some (z, []) => BitVec.ofInt 32 (clampLong z)
      | _ => (getpwnam name).getD (-1)

/-- `sprintf(userIDStr, "%d", userID)` into 6 bytes. -/
def userIDStr (userID : Uid) : Except Fault (List Byte) :=
  if (formatInt userID.toInt).length < 6 then .ok (formatInt userID.toInt) else .error .outOfBounds

/-- What the calls of `fgets` with a buffer of 100 bytes return, after `piece` was read. -/
def piecesFrom : List Byte → List Byte → List (List Byte)
  | piece, [] => if piece = [] then [] else [piece]
  | piece, b :: text =>
    if b = 10 ∨ piece.length = 98 then (piece ++ [b]) :: piecesFrom [] text
    else piecesFrom (piece ++ [b]) text

def pieces (text : List Byte) : List (List Byte) := piecesFrom [] text

/-- `strtok` with tabs as delimiters: the token, and where the next call goes on. -/
def strtok (text : List Byte) : Option (List Byte × List Byte) :=
  let start := text.dropWhile (· = 9)
  if start = [] then none
  else some (start.takeWhile (· ≠ 9), (start.dropWhile (· ≠ 9)).drop 1)

/-- `CmdNameValue` and `CmdUIDValue`, which are not set before their lines are met. -/
structure Values where
  cmdName : Option (List Byte)
  cmdUID : Option (List Byte)

/-- The body of the loop over the file. A missing token is a NULL pointer that is read. -/
def readPiece (values : Values) (piece : List Byte) : Except Fault Values :=
  match strtok (stringOf piece).bytes with
  | none => .error .invalidPointer
  | some (token, rest) =>
    if token = ascii "Name:" then
      match strtok rest with
      | none => .error .invalidPointer
      | some (value, _) => .ok { values with cmdName := some value.dropLast }
    else if token = ascii "Uid:" then
      match strtok rest with
      | none => .error .invalidPointer
      | some (value, _) => .ok { values with cmdUID := some value }
    else .ok values

def reportLine (name pid user uid : List Byte) : List Byte :=
  ascii "Process with name: " ++ name ++ ascii " and PID: " ++ pid ++ ascii " belongs to user " ++
    user ++ ascii " with UID " ++ uid ++ ascii "\n"

def checkProcess (idStr pid user text : List Byte) : Except Fault (Option (List Byte)) := do
  let values ← (pieces text).foldlM readPiece ⟨none, none⟩
  match values.cmdName, values.cmdUID with
  | some name, some uid =>
    .ok (if idStr = uid then some (reportLine name pid user uid) else none)
  | _, _ => .error .invalidPointer

section StatusFiles

def uidFields (real effective saved fs : Uid) : List Byte :=
  ascii "Uid:" ++ 9 :: (formatNat real.toNat ++ 9 :: (formatNat effective.toNat ++
    9 :: (formatNat saved.toNat ++ 9 :: formatNat fs.toNat)))

def uidLine (real effective saved fs : Uid) : List Byte := uidFields real effective saved fs ++ [10]

def Harmless (piece : List Byte) : Prop :=
  ∃ token rest, strtok (stringOf piece).bytes = some (token, rest) ∧ token ≠ ascii "Uid:" ∧
    (token = ascii "Name:" → (strtok rest).isSome)

def Names (piece : List Byte) : Prop :=
  ∃ rest, strtok (stringOf piece).bytes = some (ascii "Name:", rest)

/-- A status file: the line with the uids, and other lines before and after it, of which one has
the name. -/
structure StatusFile where
  before : List Byte
  after : List Byte
  real : Uid
  effective : Uid
  saved : Uid
  fs : Uid
  ends_line : before = [] ∨ ∃ lines, before = lines ++ [10]
  harmless : ∀ piece ∈ pieces before ++ pieces after, Harmless piece
  named : ∃ piece ∈ pieces before ++ pieces after, Names piece

def StatusFile.text (file : StatusFile) : List Byte :=
  file.before ++ uidLine file.real file.effective file.saved file.fs ++ file.after

end StatusFiles

section Pieces

theorem piecesFrom_append (piece text rest : List Byte) :
    piecesFrom piece (text ++ 10 :: rest) = piecesFrom piece (text ++ [10]) ++ pieces rest := by
  induction text generalizing piece with
  | nil => simp [piecesFrom, pieces]
  | cons b text ih =>
    simp only [List.cons_append, piecesFrom]
    split
    · rw [ih, List.cons_append]
    · exact ih _

theorem pieces_append {before : List Byte} (h : before = [] ∨ ∃ lines, before = lines ++ [10])
    (rest : List Byte) : pieces (before ++ rest) = pieces before ++ pieces rest := by
  rcases h with rfl | ⟨lines, rfl⟩
  · rfl
  · rw [List.append_assoc]
    exact piecesFrom_append [] lines rest

theorem piecesFrom_line (piece line rest : List Byte) (hline : 10 ∉ line)
    (hfits : piece.length + line.length ≤ 98) :
    piecesFrom piece (line ++ 10 :: rest) = (piece ++ line ++ [10]) :: pieces rest := by
  induction line generalizing piece with
  | nil => simp [piecesFrom, pieces]
  | cons b line ih =>
    have hb : b ≠ 10 := fun hb => hline (hb ▸ List.mem_cons_self)
    rw [List.length_cons] at hfits
    have hlen : piece.length ≠ 98 := by omega
    rw [List.cons_append, piecesFrom, if_neg (by simp [hb, hlen]),
      ih (piece ++ [b]) (fun h => hline (List.mem_cons_of_mem b h)) (by simp; omega)]
    simp

theorem strtok_token {token rest : List Byte} (hne : token ≠ []) (htab : 9 ∉ token) :
    strtok (token ++ 9 :: rest) = some (token, rest) := by
  have hall : ∀ b ∈ token, decide (b ≠ 9) = true := fun b hb =>
    decide_eq_true fun h => htab (h ▸ hb)
  have htail : ∀ b, (9 :: rest).head? = some b → decide (b ≠ 9) = false := by simp
  obtain ⟨htake, hdrop⟩ := span_append hall htail
  obtain ⟨c, cs, rfl⟩ := List.exists_cons_of_ne_nil hne
  have hc : c ≠ 9 := fun h => htab (h ▸ List.mem_cons_self)
  have hstart : (c :: cs ++ 9 :: rest).dropWhile (· = 9) = c :: cs ++ 9 :: rest := by
    simp [hc]
  rw [strtok, hstart]
  simp only [htake, hdrop]
  rfl

theorem not_mem_formatNat {b : Byte} (hb : isDigit b = false) (n : ℕ) : b ∉ formatNat n := by
  intro hmem
  rw [formatNat_digits n b hmem] at hb
  cases hb

theorem formatNat_uid_length (u : Uid) : (formatNat u.toNat).length ≤ 10 :=
  (formatNat_length_le_iff (by decide)).mpr (by have := u.isLt; omega)

end Pieces

section Reading

variable {values : Values} {piece : List Byte}

theorem readPiece_harmless (h : Harmless piece) (values : Values) :
    ∃ next, readPiece values piece = .ok next ∧ next.cmdUID = values.cmdUID ∧
      (values.cmdName.isSome ∨ Names piece → next.cmdName.isSome) := by
  obtain ⟨token, rest, hfirst, huid, hname⟩ := h
  by_cases hnamed : token = ascii "Name:"
  · obtain ⟨⟨value, more⟩, hvalue⟩ := Option.isSome_iff_exists.mp (hname hnamed)
    refine ⟨{ values with cmdName := some value.dropLast }, ?_, rfl, fun _ => rfl⟩
    simp only [readPiece, hfirst, if_pos hnamed, hvalue]
  · refine ⟨values, ?_, rfl, ?_⟩
    · simp only [readPiece, hfirst, if_neg hnamed, if_neg huid]
    · rintro (hsome | ⟨rest', hrest'⟩)
      · exact hsome
      · rw [hfirst] at hrest'
        cases hrest'
        exact absurd rfl hnamed

theorem readPieces_harmless {l : List (List Byte)} (h : ∀ piece ∈ l, Harmless piece)
    (values : Values) : ∃ next, l.foldlM readPiece values = .ok next ∧
      next.cmdUID = values.cmdUID ∧
      (values.cmdName.isSome ∨ (∃ piece ∈ l, Names piece) → next.cmdName.isSome) := by
  refine foldlM_succeeds (P := fun done (next : Values) => next.cmdUID = values.cmdUID ∧
    (values.cmdName.isSome ∨ (∃ piece ∈ done, Names piece) → next.cmdName.isSome))
    ⟨rfl, by simp⟩ ?_
  rintro done piece rest mid hwhole ⟨huid, hname⟩
  obtain ⟨next, hnext, huid', hname'⟩ := readPiece_harmless (h piece (by simp [hwhole])) mid
  refine ⟨next, hnext, huid'.trans huid, ?_⟩
  rintro (hsome | ⟨p, hp, hnames⟩)
  · exact hname' (.inl (hname (.inl hsome)))
  · rcases List.mem_append.mp hp with hp | hp
    · exact hname' (.inl (hname (.inr ⟨p, hp, hnames⟩)))
    · rw [List.mem_singleton.mp hp] at hnames
      exact hname' (.inr hnames)

theorem not_mem_uidFields {b : Byte} (hb : isDigit b = false) (htab : b ≠ 9)
    (hkey : b ∉ ascii "Uid:") (real effective saved fs : Uid) :
    b ∉ uidFields real effective saved fs := by
  have hfree := not_mem_formatNat hb
  simp [uidFields, hfree, htab, hkey]

theorem uidFields_length (real effective saved fs : Uid) :
    (uidFields real effective saved fs).length ≤ 98 := by
  have hkey : (ascii "Uid:").length = 4 := by decide
  have hlen := formatNat_uid_length
  have hreal := hlen real
  have heffective := hlen effective
  have hsaved := hlen saved
  have hfs := hlen fs
  simp only [uidFields, List.length_append, List.length_cons, hkey]
  omega

theorem readPiece_uidLine (values : Values) (real effective saved fs : Uid) :
    readPiece values (uidLine real effective saved fs) =
      .ok { values with cmdUID := some (formatNat real.toNat) } := by
  have hnul : 0 ∉ uidLine real effective saved fs := by
    have hfields := not_mem_uidFields (b := 0) (by decide) (by decide) (by decide)
      real effective saved fs
    simp [uidLine, hfields]
  have hkey : ∀ rest, strtok (ascii "Uid:" ++ 9 :: rest) = some (ascii "Uid:", rest) := fun _ =>
    strtok_token (by decide) (by decide)
  have hreal : ∀ rest, strtok (formatNat real.toNat ++ 9 :: rest) =
      some (formatNat real.toNat, rest) := fun _ =>
    strtok_token (formatNat_ne_nil _) (not_mem_formatNat (by decide) _)
  have hne : ascii "Uid:" ≠ ascii "Name:" := by decide
  rw [readPiece, stringOf_bytes hnul, uidLine, uidFields, List.append_assoc, List.cons_append, hkey]
  simp only [if_neg hne, List.append_assoc, List.cons_append, hreal]
  rfl

theorem pieces_text (file : StatusFile) : pieces file.text = pieces file.before ++
    uidLine file.real file.effective file.saved file.fs :: pieces file.after := by
  have hline := piecesFrom_line [] (uidFields file.real file.effective file.saved file.fs)
    file.after (not_mem_uidFields (by decide) (by decide) (by decide) _ _ _ _)
    (by simpa using uidFields_length file.real file.effective file.saved file.fs)
  rw [StatusFile.text, List.append_assoc, pieces_append file.ends_line, uidLine,
    List.append_assoc]
  exact congrArg _ hline

theorem readPieces_file (file : StatusFile) : ∃ name,
    (pieces file.text).foldlM readPiece ⟨none, none⟩ =
      .ok ⟨some name, some (formatNat file.real.toNat)⟩ := by
  have hsplit : ∀ piece, piece ∈ pieces file.before ++ pieces file.after ↔
      piece ∈ pieces file.before ∨ piece ∈ pieces file.after := fun _ => List.mem_append
  obtain ⟨first, hfirst, _, hname⟩ := readPieces_harmless
    (fun p hp => file.harmless p ((hsplit p).mpr (.inl hp))) ⟨none, none⟩
  obtain ⟨last, hlast, huid, hname'⟩ := readPieces_harmless
    (fun p hp => file.harmless p ((hsplit p).mpr (.inr hp)))
    { first with cmdUID := some (formatNat file.real.toNat) }
  have hsome : last.cmdName.isSome := by
    obtain ⟨piece, hpiece, hnames⟩ := file.named
    rcases (hsplit piece).mp hpiece with hp | hp
    · exact hname' (.inl (hname (.inr ⟨piece, hp, hnames⟩)))
    · exact hname' (.inr ⟨piece, hp, hnames⟩)
  obtain ⟨name, hname⟩ := Option.isSome_iff_exists.mp hsome
  refine ⟨name, ?_⟩
  rw [pieces_text, List.foldlM_append, hfirst]
  change List.foldlM readPiece first (_ :: _) = _
  rw [List.foldlM_cons, readPiece_uidLine]
  have hvalues : last = ⟨some name, some (formatNat file.real.toNat)⟩ := by
    calc last = ⟨last.cmdName, last.cmdUID⟩ := rfl
      _ = _ := by rw [hname, huid]
  exact hlast.trans (congrArg Except.ok hvalues)

theorem checkProcess_file (file : StatusFile) (idStr pid user : List Byte) :
    ∃ shown, checkProcess idStr pid user file.text = .ok shown ∧
      (shown.isSome ↔ idStr = formatNat file.real.toNat) := by
  obtain ⟨name, hread⟩ := readPieces_file file
  refine ⟨_, by rw [checkProcess, hread]; rfl, ?_⟩
  split
  · next h => simp [h]
  · next h => simp [h]

end Reading

section Uids

def numeralOf (u : Uid) : CString :=
  ⟨formatNat u.toNat, not_mem_formatNat (by decide) u.toNat⟩

theorem userIDFromName_numeral (getpwnam : CString → Option Uid) (u : Uid) :
    userIDFromName getpwnam (some (numeralOf u)) = u := by
  have hformat : formatInt (u.toNat : ℤ) = formatNat u.toNat := by
    rw [formatInt, if_neg (by omega), Int.natAbs_natCast]
  have hscan : scanNumeral (formatInt (u.toNat : ℤ) ++ []) = some ((u.toNat : ℤ), []) :=
    scanNumeral_formatInt _ (by simp)
  rw [List.append_nil, hformat] at hscan
  have hclamp : clampLong (u.toNat : ℤ) = u.toNat := by
    have hlt := u.isLt
    rw [clampLong]
    omega
  have hbytes : (numeralOf u).bytes = formatNat u.toNat := rfl
  rw [userIDFromName, hbytes, if_neg (formatNat_ne_nil _), hscan]
  simp [hclamp]

/-- Five characters hold the numbers up to 99999, and with a minus sign down to -9999. -/
theorem formatInt_fits_iff (z : ℤ) :
    (formatInt z).length < 6 ↔ -9999 ≤ z ∧ z ≤ 99999 := by
  rw [formatInt]
  split
  · have hlen := formatNat_length_le_iff (n := z.natAbs) (w := 4) (by decide)
    rw [List.length_cons]
    omega
  · have hlen := formatNat_length_le_iff (n := z.natAbs) (w := 5) (by decide)
    omega

theorem formatInt_eq_formatNat_iff (z : ℤ) (n : ℕ) : formatInt z = formatNat n ↔ z = n := by
  rw [formatInt]
  split
  · constructor
    · intro h
      have hminus : (45 : Byte) ∈ formatNat n := h ▸ List.mem_cons_self
      exact absurd hminus (not_mem_formatNat (by decide) n)
    · intro h
      omega
  · constructor
    · intro h
      have := formatNat_injective h
      omega
    · intro h
      rw [h, Int.natAbs_natCast]

theorem toInt_cases (u : Uid) : (u.toInt = u.toNat ∧ u.toNat < 2147483648) ∨
    (u.toInt = u.toNat - 4294967296 ∧ 2147483648 ≤ u.toNat) := by
  have hcond := BitVec.toInt_eq_toNat_cond u
  split at hcond
  · left
    omega
  · right
    omega

end Uids

def MatchesUid (getpwnam : CString → Option Uid) (u : Uid) (pid : List Byte) (file : StatusFile) :
    Prop :=
  ∃ idStr shown, userIDStr (userIDFromName getpwnam (some (numeralOf u))) = .ok idStr ∧
    checkProcess idStr pid (numeralOf u).bytes file.text = .ok shown ∧
    (shown.isSome ↔ file.real = u)

/-- From 100000 on the text does not fit, until it becomes that of a small negative number; and
that one is never found in a file. -/
theorem matches_uid_iff (getpwnam : CString → Option Uid) (u : Uid) (pid : List Byte)
    (file : StatusFile) : MatchesUid getpwnam u pid file ↔
      u.toNat ≤ 99999 ∨ (4294957297 ≤ u.toNat ∧ file.real ≠ u) := by
  have hlt := u.isLt
  have hsame : (file.real.toNat = u.toNat) ↔ file.real = u := BitVec.toNat_inj
  rw [MatchesUid, userIDFromName_numeral, userIDStr]
  constructor
  · rintro ⟨idStr, shown, hid, hcheck, hshown⟩
    split at hid
    · next hfits =>
      cases hid
      obtain ⟨shown', hcheck', hiff⟩ := checkProcess_file file (formatInt u.toInt) pid
        (numeralOf u).bytes
      cases hcheck.symm.trans hcheck'
      rw [hiff, formatInt_eq_formatNat_iff, ← hsame] at hshown
      have hbounds := (formatInt_fits_iff u.toInt).mp hfits
      rcases toInt_cases u with ⟨hint, _⟩ | ⟨hint, _⟩
      · left
        omega
      · right
        refine ⟨by omega, fun hreal => ?_⟩
        have := hshown.mpr (hsame.mpr hreal)
        omega
    · cases hid
  · intro hcond
    obtain ⟨shown, hcheck, hiff⟩ := checkProcess_file file (formatInt u.toInt) pid
      (numeralOf u).bytes
    have hbounds : -9999 ≤ u.toInt ∧ u.toInt ≤ 99999 := by
      rcases toInt_cases u with ⟨hint, _⟩ | ⟨hint, _⟩ <;> omega
    refine ⟨_, shown, if_pos ((formatInt_fits_iff u.toInt).mpr hbounds), hcheck, ?_⟩
    rw [hiff, formatInt_eq_formatNat_iff, ← hsame]
    rcases hcond with hsmall | ⟨hlarge, hother⟩
    · rcases toInt_cases u with ⟨hint, _⟩ | ⟨hint, _⟩ <;> omega
    · have hne : file.real.toNat ≠ u.toNat := fun h => hother (hsame.mp h)
      rcases toInt_cases u with ⟨hint, _⟩ | ⟨hint, _⟩ <;> omega

def shellFile (u : Uid) : StatusFile where
  before := ascii "Name:\tbash\n"
  after := []
  real := u
  effective := u
  saved := u
  fs := u
  ends_line := .inr ⟨ascii "Name:\tbash", by decide⟩
  harmless := by
    intro piece hpiece
    obtain rfl : piece = ascii "Name:\tbash\n" := by simpa [pieces, piecesFrom, ascii] using hpiece
    exact ⟨ascii "Name:", ascii "bash\n", by decide, by decide, fun _ => by decide⟩
  named := ⟨ascii "Name:\tbash\n", by decide, ascii "bash\n", by decide⟩

/-- The uid 100000 does not fit; the shell of user 4294967294 is not found. -/
theorem large_uid_unmatched : userIDStr 100000 = .error .outOfBounds ∧
    userIDStr 4294967294 = .ok (ascii "-2") ∧
    checkProcess (ascii "-2") (ascii "1") (ascii "4294967294") (shellFile 4294967294).text =
      .ok none := by
  decide +kernel

end UserProcesses
