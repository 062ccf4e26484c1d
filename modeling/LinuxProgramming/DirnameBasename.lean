import LinuxProgramming.PosixPaths
import LinuxProgramming.TransitionSystems

/-! `basename_ts` and `dirname_ts` of `dirname_basename_tsd.c`. Both keep their result in the
buffer of one key, which is as long as the path of the first call, and both shorten the path in
place while they look for the last slash. -/
namespace DirnameBasename

open CharStrings PosixPaths TransitionSystems

/-- One slash at the end is overwritten with a terminator. -/
def cutSlash (path : List Byte) : List Byte :=
  if path.getLast? = some slash then path.dropLast else path

def basenameCopy (path : List Byte) : List Byte × List Byte :=
  if path = [] then ([dot], path)
  else
    let path := cutSlash path
    match strrchr slash path with
    | none => (path, path)
    | some i => (path.drop (i + 1), path)

def dirnameCopy (path : List Byte) : List Byte × List Byte :=
  if path = [] then ([dot], path)
  else
    let path := cutSlash path
    match strrchr slash path with
    | none => (path, path)
    | some i => (path.take i, path.take i)

structure Buffer where
  size : ℕ
  text : List Byte
  deriving DecidableEq

/-- The result is `none` where the string and its terminator do not fit. -/
def Buffer.strcpy (buf : Buffer) (text : List Byte) : Option Buffer :=
  if text.length < buf.size then some { buf with text := text } else none

/-- `malloc(strlen(path))` when the key has no value yet. -/
def specific (key : Option Buffer) (path : List Byte) : Buffer := key.getD ⟨path.length, []⟩

def basenameTs (key : Option Buffer) (path : List Byte) : Option (Buffer × List Byte) :=
  ((specific key path).strcpy (basenameCopy path).1).map fun buf => (buf, (basenameCopy path).2)

def dirnameTs (key : Option Buffer) (path : List Byte) : Option (Buffer × List Byte) :=
  ((specific key path).strcpy (dirnameCopy path).1).map fun buf => (buf, (dirnameCopy path).2)

section Copies

variable {path d b : List Byte}

theorem cutSlash_of_last (h : path.getLast? ≠ some slash) : cutSlash path = path := if_neg h

theorem cutSlash_append (text : List Byte) : cutSlash (text ++ [slash]) = text := by
  rw [cutSlash, if_pos (by simp), List.dropLast_concat]

theorem eq_or_eq_append_of_cutSlash (path : List Byte) :
    path = cutSlash path ∨ path = cutSlash path ++ [slash] := by
  by_cases hlast : path.getLast? = some slash
  · obtain ⟨text, rfl⟩ := List.getLast?_eq_some_iff.mp hlast
    right
    rw [cutSlash_append]
  · left
    rw [cutSlash_of_last hlast]

theorem copies_no_slash (hpath : path ≠ []) (hb : slash ∉ cutSlash path) :
    (basenameCopy path).1 = cutSlash path ∧ (dirnameCopy path).1 = cutSlash path := by
  simp only [basenameCopy, dirnameCopy, if_neg hpath, strrchr_eq_none hb, and_self]

theorem copies_last_slash (hpath : path ≠ []) (hcut : cutSlash path = d ++ slash :: b)
    (hb : slash ∉ b) : (basenameCopy path).1 = b ∧ (dirnameCopy path).1 = d := by
  simp only [basenameCopy, dirnameCopy, if_neg hpath, hcut, strrchr_append d hb]
  refine ⟨?_, List.take_left⟩
  rw [← List.drop_drop, List.drop_left, List.drop_one, List.tail_cons]

theorem basenameCopy_nil (hpath : path ≠ [])
    (hcut : cutSlash path = [] ∨ (cutSlash path).getLast? = some slash) :
    (basenameCopy path).1 = [] := by
  rcases hcut with hnil | hlast
  · rw [(copies_no_slash hpath (by rw [hnil]; exact List.not_mem_nil)).1, hnil]
  · obtain ⟨d, hd⟩ := List.getLast?_eq_some_iff.mp hlast
    exact (copies_last_slash hpath hd List.not_mem_nil).1

theorem cutSlash_length_le (path : List Byte) : (cutSlash path).length ≤ path.length := by
  have hlen : path.length = (cutSlash path).length ∨
      path.length = (cutSlash path ++ [slash]).length :=
    (eq_or_eq_append_of_cutSlash path).imp (congrArg List.length) (congrArg List.length)
  simp only [List.length_append, List.length_singleton] at hlen
  omega

theorem copies_length_le (hpath : path ≠ []) :
    (basenameCopy path).1.length ≤ path.length ∧ (dirnameCopy path).1.length ≤ path.length := by
  have hcut := cutSlash_length_le path
  by_cases hmem : slash ∈ cutSlash path
  · obtain ⟨d, b, hsplit, hb⟩ := exists_last_slash hmem
    obtain ⟨hbase, hdir⟩ := copies_last_slash hpath hsplit hb
    rw [hsplit, List.length_append, List.length_cons] at hcut
    rw [hbase, hdir]
    omega
  · obtain ⟨hbase, hdir⟩ := copies_no_slash hpath hmem
    rw [hbase, hdir]
    exact ⟨hcut, hcut⟩

end Copies

section Posix

variable {path core d b : List Byte}

/-- A dot, or a name under something that is a single slash or does not end in one. -/
def PlainCore (core : List Byte) : Prop :=
  core = [dot] ∨ ∃ d b, core = d ++ slash :: b ∧ b ≠ [] ∧ slash ∉ b ∧ d ≠ [] ∧
    (d = [slash] ∨ d.getLast? ≠ some slash)

def Plain (path : List Byte) : Prop :=
  path = [] ∨ ∃ core, (path = core ∨ path = core ++ [slash]) ∧ PlainCore core

theorem plainCore_last (h : PlainCore core) : core ≠ [] ∧ core.getLast? ≠ some slash := by
  rcases h with rfl | ⟨d, b, rfl, hne, hb, -⟩
  · exact ⟨List.cons_ne_nil _ _, by decide⟩
  · exact ⟨by simp, getLast_last_slash d hne hb⟩

theorem plain_iff : Plain path ↔ path = [] ∨ PlainCore (cutSlash path) := by
  constructor
  · rintro (hpath | ⟨core, hpath, hcore⟩)
    · exact .inl hpath
    · right
      rcases hpath with rfl | rfl
      · rwa [cutSlash_of_last (plainCore_last hcore).2]
      · rwa [cutSlash_append]
  · rintro (hpath | hcore)
    · exact .inl hpath
    · exact .inr ⟨_, eq_or_eq_append_of_cutSlash path, hcore⟩

theorem plainCore_no_slash (hb : slash ∉ core) : PlainCore core ↔ core = [dot] := by
  constructor
  · rintro (hdot | ⟨d, b, rfl, -⟩)
    · exact hdot
    · simp at hb
  · exact .inl

theorem plainCore_last_slash (hne : b ≠ []) (hb : slash ∉ b) :
    PlainCore (d ++ slash :: b) ↔ d ≠ [] ∧ (d = [slash] ∨ d.getLast? ≠ some slash) := by
  constructor
  · rintro (hdot | ⟨d', b', hsame, -, hb', hd⟩)
    · have hmem : slash ∈ [dot] := hdot ▸ by simp
      exact absurd hmem (by decide)
    · have hdrop := congrArg (List.rdropWhile (· ≠ slash)) hsame
      rw [rdropWhile_last_slash d hb, rdropWhile_last_slash d' hb'] at hdrop
      rwa [List.append_cancel_right hdrop]
  · intro hd
    exact .inr ⟨d, b, rfl, hne, hb, hd⟩

theorem eq_parent_iff :
    d = (if stripTrailing slash d = [] then [slash] else stripTrailing slash d) ↔
      d ≠ [] ∧ (d = [slash] ∨ d.getLast? ≠ some slash) := by
  split
  · next hnil =>
    constructor
    · rintro rfl
      exact ⟨List.cons_ne_nil _ _, .inl rfl⟩
    · rintro ⟨hd, hslash | hlast⟩
      · exact hslash
      · rw [stripTrailing_eq_self_iff.mpr hlast] at hnil
        exact absurd hnil hd
  · next hne =>
    rw [eq_comm, stripTrailing_eq_self_iff]
    constructor
    · intro hlast
      refine ⟨?_, .inr hlast⟩
      rintro rfl
      exact hne rfl
    · rintro ⟨-, rfl | hlast⟩
      · exact absurd (by decide) hne
      · exact hlast

/-- The copied strings are those that POSIX specifies for just these paths. -/
theorem copies_posix_iff (path : List Byte) :
    ((basenameCopy path).1 = basename path ∧ (dirnameCopy path).1 = dirname path) ↔
      Plain path := by
  rw [plain_iff]
  by_cases hpath : path = []
  · subst path
    simp [basenameCopy, dirnameCopy, basename, dirname]
  simp only [hpath, false_or]
  by_cases hcut : cutSlash path = [] ∨ (cutSlash path).getLast? = some slash
  · -- nothing is left behind the last slash, and POSIX never gives an empty string
    have hnil := basenameCopy_nil hpath hcut
    constructor
    · rintro ⟨hbase, -⟩
      exact absurd (hbase.symm.trans hnil) (basename_ne_nil path)
    · intro hcore
      obtain ⟨hne, hlast⟩ := plainCore_last hcore
      exact absurd hcut (not_or.mpr ⟨hne, hlast⟩)
  · obtain ⟨hne, hlast⟩ := not_or.mp hcut
    have hrun : ∃ k, path = cutSlash path ++ List.replicate k slash := by
      rcases eq_or_eq_append_of_cutSlash path with h | h
      · exact ⟨0, by simpa using h⟩
      · exact ⟨1, h⟩
    obtain ⟨k, hk⟩ := hrun
    by_cases hmem : slash ∈ cutSlash path
    · obtain ⟨d, b, hsplit, hb⟩ := exists_last_slash hmem
      have hbne : b ≠ [] := by
        rintro rfl
        exact hlast (by simp [hsplit])
      obtain ⟨hbase, hdir⟩ := copies_last_slash hpath hsplit hb
      rw [hsplit] at hk
      rw [hbase, hdir, hsplit, plainCore_last_slash hbne hb, hk, basename_under d k hbne hb,
        dirname_under d k hbne hb, eq_parent_iff]
      exact and_iff_right rfl
    · obtain ⟨hbase, hdir⟩ := copies_no_slash hpath hmem
      have hposix : basename path = cutSlash path ∧ dirname path = [dot] := by
        generalize cutSlash path = core at hk hne hmem
        rw [hk]
        exact ⟨basename_name k hne hmem, dirname_name k hne hmem⟩
      rw [plainCore_no_slash hmem, hbase, hdir, hposix.1, hposix.2]
      exact and_iff_right rfl

def returned (result : Option (Buffer × List Byte)) : Option (List Byte) :=
  result.map fun r => r.1.text

theorem returned_of_room (buf : Buffer) {path : List Byte} (hroom : path.length < buf.size)
    (hdot : 1 < buf.size) : returned (basenameTs (some buf) path) = some (basenameCopy path).1 ∧
      returned (dirnameTs (some buf) path) = some (dirnameCopy path).1 := by
  have hfits : (basenameCopy path).1.length < buf.size ∧
      (dirnameCopy path).1.length < buf.size := by
    by_cases hpath : path = []
    · subst path
      exact ⟨hdot, hdot⟩
    · obtain ⟨hbase, hdir⟩ := copies_length_le hpath
      omega
  simp [returned, basenameTs, dirnameTs, specific, Buffer.strcpy, hfits]

theorem results_posix_iff (buf : Buffer) (path : List Byte) (hroom : path.length < buf.size)
    (hdot : 1 < buf.size) :
    (returned (basenameTs (some buf) path) = some (basename path) ∧
      returned (dirnameTs (some buf) path) = some (dirname path)) ↔ Plain path := by
  obtain ⟨hbase, hdir⟩ := returned_of_room buf hroom hdot
  rw [hbase, hdir, Option.some.injEq, Option.some.injEq]
  exact copies_posix_iff path

theorem results_posix_usr_lib :
    returned (basenameTs (some ⟨16, []⟩) (ascii "/usr/lib/")) =
        some (basename (ascii "/usr/lib/")) ∧
      returned (dirnameTs (some ⟨16, []⟩) (ascii "/usr/lib/")) =
        some (dirname (ascii "/usr/lib/")) :=
  (results_posix_iff ⟨16, []⟩ (ascii "/usr/lib/") (by decide) (by decide)).mpr
    (.inr ⟨ascii "/usr/lib", by decide, .inr ⟨ascii "/usr", ascii "lib", by decide⟩⟩)

/-- The root has no name, a name alone is its own directory, and a name under the root has an
empty one; two slashes at the end hide the name. -/
theorem results_not_posix :
    returned (basenameTs (some ⟨16, []⟩) (ascii "/")) = some [] ∧
      basename (ascii "/") = ascii "/" ∧
      returned (dirnameTs (some ⟨16, []⟩) (ascii "abc")) = some (ascii "abc") ∧
      dirname (ascii "abc") = ascii "." ∧
      returned (dirnameTs (some ⟨16, []⟩) (ascii "/abc")) = some [] ∧
      dirname (ascii "/abc") = ascii "/" ∧
      returned (basenameTs (some ⟨16, []⟩) (ascii "abc//")) = some [] ∧
      basename (ascii "abc//") = ascii "abc" := by
  decide

end Posix

inductive Routine where
  | basename
  | dirname
  deriving DecidableEq

structure Call where
  routine : Routine
  path : List Byte

def call (key : Option Buffer) (c : Call) : Option (Option Buffer) :=
  match c.routine with
  | .basename => (basenameTs key c.path).map fun r => some r.1
  | .dirname => (dirnameTs key c.path).map fun r => some r.1

def textAfter (calls : List Call) : Option (List Byte) :=
  (follow call none calls).bind fun key => key.map Buffer.text

section Calls

/-- The part of the path that the routine is about, one slash at the end left out: what comes
behind the last slash, or what comes before it. -/
def Call.part (c : Call) : List Byte :=
  if c.path = [] then [dot]
  else
    match c.routine with
    | .basename => (cutSlash c.path).rtakeWhile (· ≠ slash)
    | .dirname =>
      if slash ∈ cutSlash c.path then ((cutSlash c.path).rdropWhile (· ≠ slash)).dropLast
      else cutSlash c.path

theorem copies_part (path : List Byte) : (basenameCopy path).1 = (Call.mk .basename path).part ∧
    (dirnameCopy path).1 = (Call.mk .dirname path).part := by
  unfold Call.part
  by_cases hpath : path = []
  · subst path
    exact ⟨rfl, rfl⟩
  by_cases hmem : slash ∈ cutSlash path
  · obtain ⟨d, b, hsplit, hb⟩ := exists_last_slash hmem
    obtain ⟨hbase, hdir⟩ := copies_last_slash hpath hsplit hb
    simp only [if_neg hpath, if_pos hmem]
    rw [hbase, hdir, hsplit, rtakeWhile_last_slash d hb, rdropWhile_last_slash d hb,
      List.dropLast_concat]
    exact ⟨rfl, rfl⟩
  · obtain ⟨hbase, hdir⟩ := copies_no_slash hpath hmem
    simp only [if_neg hpath, if_neg hmem]
    rw [hbase, hdir, rtakeWhile_no_slash hmem]
    exact ⟨rfl, rfl⟩

theorem call_eq (key : Option Buffer) (c : Call) :
    call key c = if c.part.length < (specific key c.path).size then
      some (some ⟨(specific key c.path).size, c.part⟩) else none := by
  obtain ⟨hbase, hdir⟩ := copies_part c.path
  rcases c with ⟨routine, path⟩
  cases routine with
  | basename =>
    simp only [call, basenameTs, hbase, Buffer.strcpy, Option.map_map]
    split <;> rfl
  | dirname =>
    simp only [call, dirnameTs, hdir, Buffer.strcpy, Option.map_map]
    split <;> rfl

/-- Once it is there the buffer keeps its size, and holds the part of the last call. -/
theorem follow_calls_iff {buf : Buffer} {calls : List Call} {key : Option Buffer} :
    follow call (some buf) calls = some key ↔ (∀ c ∈ calls, c.part.length < buf.size) ∧
      key = some ⟨buf.size, (calls.getLast?.map Call.part).getD buf.text⟩ := by
  induction calls generalizing buf with
  | nil => simp [follow, eq_comm]
  | cons c calls ih =>
    rw [follow, call_eq, List.forall_mem_cons]
    by_cases hc : c.part.length < buf.size
    · have hlast : ((c :: calls).getLast?.map Call.part).getD buf.text =
          (calls.getLast?.map Call.part).getD c.part := by
        rw [List.getLast?_cons]
        cases calls.getLast? <;> rfl
      rw [if_pos (by exact hc), Option.bind_some, ih, hlast]
      simp only [hc, true_and, specific, Option.getD_some]
    · rw [if_neg (by exact hc), Option.bind_none]
      simp [hc]

theorem follow_first (c : Call) (calls : List Call) : follow call none (c :: calls) =
    follow call (some ⟨c.path.length, []⟩) (c :: calls) := by
  rw [follow, follow, call_eq, call_eq]
  rfl

def firstLength (calls : List Call) : ℕ := (calls.head?.map fun c => c.path.length).getD 0

def Short (calls : List Call) : Prop := ∀ c ∈ calls, c.part.length < firstLength calls

theorem follow_isSome_iff (calls : List Call) : (follow call none calls).isSome ↔ Short calls := by
  cases calls with
  | nil => simp [follow, Short]
  | cons c calls =>
    rw [follow_first, Option.isSome_iff_exists]
    constructor
    · rintro ⟨key, hkey⟩
      exact (follow_calls_iff.mp hkey).1
    · intro hshort
      exact ⟨_, follow_calls_iff.mpr ⟨hshort, rfl⟩⟩

theorem textAfter_of_short {calls : List Call} {c : Call} (h : Short (calls ++ [c])) :
    textAfter (calls ++ [c]) = some c.part := by
  obtain ⟨first, rest, hcons⟩ : ∃ first rest, calls ++ [c] = first :: rest :=
    List.exists_cons_of_ne_nil (by simp)
  have hlast : (first :: rest).getLast? = some c := by rw [← hcons, List.getLast?_concat]
  rw [hcons] at h ⊢
  have hfits : ∀ e ∈ first :: rest,
      e.part.length < (Buffer.mk first.path.length []).size := h
  rw [textAfter, follow_first, follow_calls_iff.mpr ⟨hfits, rfl⟩, hlast]
  rfl

theorem Short.of_append {calls rest : List Call} (h : Short (calls ++ rest)) : Short calls := by
  intro c hc
  have hfirst : firstLength (calls ++ rest) = firstLength calls := by
    cases calls with
    | nil => cases hc
    | cons first calls => rfl
  rw [← hfirst]
  exact h c (List.mem_append_left rest hc)

/-- Every copy fits, and a string that was returned stays until the same routine is called
again. -/
structure BuffersOk (calls : List Call) : Prop where
  fits : (follow call none calls).isSome
  intact : ∀ front c mid rest, calls = front ++ c :: (mid ++ rest) →
    (∀ e ∈ mid, e.routine ≠ c.routine) → textAfter (front ++ c :: mid) = textAfter (front ++ [c])

/-- Calls of one routine agree with the last call of the other one. -/
def Agreeing (calls : List Call) : Prop :=
  ∀ front c mid d rest, calls = front ++ c :: (mid ++ d :: rest) →
    (∀ e ∈ mid ++ [d], e.routine ≠ c.routine) → d.part = c.part

theorem texts_of_short {front mid rest : List Call} {c d : Call}
    (h : Short (front ++ c :: (mid ++ d :: rest))) :
    textAfter (front ++ c :: (mid ++ [d])) = some d.part ∧
      textAfter (front ++ [c]) = some c.part := by
  constructor
  · have hsplit : front ++ c :: (mid ++ d :: rest) = front ++ c :: mid ++ [d] ++ rest := by simp
    rw [hsplit] at h
    have htext := textAfter_of_short h.of_append
    rwa [List.append_assoc, List.cons_append] at htext
  · have hsplit : front ++ c :: (mid ++ d :: rest) = front ++ [c] ++ (mid ++ d :: rest) := by simp
    rw [hsplit] at h
    exact textAfter_of_short h.of_append

theorem buffersOk_iff (calls : List Call) : BuffersOk calls ↔ Short calls ∧ Agreeing calls := by
  constructor
  · intro hok
    have hshort := (follow_isSome_iff calls).mp hok.fits
    refine ⟨hshort, ?_⟩
    intro front c mid d rest hcalls hother
    have hsplit : calls = front ++ c :: (mid ++ [d] ++ rest) := by simp [hcalls]
    have hsame := hok.intact front c (mid ++ [d]) rest hsplit hother
    rw [hcalls] at hshort
    obtain ⟨hd, hc⟩ := texts_of_short hshort
    rw [hd, hc] at hsame
    exact Option.some.inj hsame
  · rintro ⟨hshort, hagree⟩
    refine ⟨(follow_isSome_iff calls).mpr hshort, ?_⟩
    intro front c mid rest hcalls hother
    cases mid using List.reverseRecOn with
    | nil => rfl
    | append_singleton mid d =>
      have hsplit : calls = front ++ c :: (mid ++ d :: rest) := by simp [hcalls]
      have hpart := hagree front c mid d rest hsplit hother
      rw [hsplit] at hshort
      obtain ⟨hd, hc⟩ := texts_of_short hshort
      rw [hd, hc, hpart]

/-- The first path is one byte too short for its own name, and a directory takes the place of a
name that was returned before. -/
theorem buffers_shared :
    follow call none [⟨.basename, ascii "abc"⟩] = none ∧
      textAfter [⟨.basename, ascii "/usr/lib"⟩] = some (ascii "lib") ∧
      textAfter [⟨.basename, ascii "/usr/lib"⟩, ⟨.dirname, ascii "/usr/lib"⟩] =
        some (ascii "/usr") := by
  decide

end Calls

end DirnameBasename
