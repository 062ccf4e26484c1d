import LinuxProgramming.CharStrings

/-! The strings that POSIX specifies for `basename` and `dirname`, and what they are for a single
name and for a name under something, each with any number of slashes at the end. -/
namespace PosixPaths

open CharStrings

def slash : Byte := 47

def dot : Byte := 46

def basename (path : List Byte) : List Byte :=
  if path = [] then [dot]
  else if stripTrailing slash path = [] then [slash]
  else (stripTrailing slash path).rtakeWhile (· ≠ slash)

/-- The parent is what is before the last name, without the slashes at its end. -/
def dirname (path : List Byte) : List Byte :=
  if path = [] then [dot]
  else if stripTrailing slash path = [] then [slash]
  else if slash ∉ stripTrailing slash path then [dot]
  else
    let parent := stripTrailing slash ((stripTrailing slash path).rdropWhile (· ≠ slash))
    if parent = [] then [slash] else parent

section LastSlash

variable {d b path : List Byte}

private theorem not_slash_of_mem (hb : slash ∉ b) :
    ∀ x ∈ b.reverse, decide (x ≠ slash) = true := by
  intro x hx
  exact decide_eq_true fun he => hb (he ▸ List.mem_reverse.mp hx)

theorem rtakeWhile_last_slash (d : List Byte) (hb : slash ∉ b) :
    (d ++ slash :: b).rtakeWhile (· ≠ slash) = b := by
  rw [List.rtakeWhile, List.reverse_append, List.reverse_cons, List.append_assoc,
    List.takeWhile_append_of_pos (not_slash_of_mem hb)]
  simp

theorem rdropWhile_last_slash (d : List Byte) (hb : slash ∉ b) :
    (d ++ slash :: b).rdropWhile (· ≠ slash) = d ++ [slash] := by
  rw [List.rdropWhile, List.reverse_append, List.reverse_cons, List.append_assoc,
    List.dropWhile_append_of_pos (not_slash_of_mem hb)]
  simp

theorem rtakeWhile_no_slash (hb : slash ∉ b) : b.rtakeWhile (· ≠ slash) = b :=
  List.rtakeWhile_eq_self_iff.mpr fun _ hx => decide_eq_true fun he => hb (he ▸ hx)

theorem exists_last_slash (h : slash ∈ path) : ∃ d b, path = d ++ slash :: b ∧ slash ∉ b := by
  obtain ⟨b, d, hsplit, hb⟩ := List.eq_append_cons_of_mem (List.mem_reverse.mpr h)
  refine ⟨d.reverse, b.reverse, ?_, by rwa [List.mem_reverse]⟩
  have hpath := congrArg List.reverse hsplit
  simpa using hpath

theorem getLast_last_slash (d : List Byte) (hne : b ≠ []) (hb : slash ∉ b) :
    (d ++ slash :: b).getLast? ≠ some slash := by
  have hx := List.getLast?_eq_some_getLast hne
  rw [List.getLast?_append, List.getLast?_cons, hx]
  intro he
  have hlast : b.getLast hne = slash := by simpa using he
  exact hb (hlast ▸ List.getLast_mem hne)

theorem getLast_no_slash (hb : slash ∉ b) : b.getLast? ≠ some slash :=
  fun h => hb (List.mem_of_getLast? h)

end LastSlash

section Results

variable {b : List Byte}

theorem strip_name (k : ℕ) (hb : slash ∉ b) :
    stripTrailing slash (b ++ List.replicate k slash) = b := by
  rw [stripTrailing_run, stripTrailing_eq_self_iff.mpr (getLast_no_slash hb)]

theorem strip_under (d : List Byte) (k : ℕ) (hne : b ≠ []) (hb : slash ∉ b) :
    stripTrailing slash (d ++ slash :: b ++ List.replicate k slash) = d ++ slash :: b := by
  rw [stripTrailing_run, stripTrailing_eq_self_iff.mpr (getLast_last_slash d hne hb)]

theorem basename_ne_nil (path : List Byte) : basename path ≠ [] := by
  unfold basename
  split
  · exact List.cons_ne_nil _ _
  · split
    · exact List.cons_ne_nil _ _
    · next hstrip =>
      rw [ne_eq, List.rtakeWhile_eq_nil_iff]
      intro hall
      have hlast := getLast_stripTrailing slash path
      rw [List.getLast?_eq_some_getLast hstrip] at hlast
      exact hall hstrip (decide_eq_true fun he => hlast (congrArg some he))

theorem basename_name (k : ℕ) (hne : b ≠ []) (hb : slash ∉ b) :
    basename (b ++ List.replicate k slash) = b := by
  rw [basename, if_neg (by simp [hne]), strip_name k hb, if_neg hne, rtakeWhile_no_slash hb]

theorem dirname_name (k : ℕ) (hne : b ≠ []) (hb : slash ∉ b) :
    dirname (b ++ List.replicate k slash) = [dot] := by
  rw [dirname, if_neg (by simp [hne]), strip_name k hb, if_neg hne, if_pos hb]

theorem basename_under (d : List Byte) (k : ℕ) (hne : b ≠ []) (hb : slash ∉ b) :
    basename (d ++ slash :: b ++ List.replicate k slash) = b := by
  rw [basename, if_neg (by simp), strip_under d k hne hb, if_neg (by simp),
    rtakeWhile_last_slash d hb]

theorem dirname_under (d : List Byte) (k : ℕ) (hne : b ≠ []) (hb : slash ∉ b) :
    dirname (d ++ slash :: b ++ List.replicate k slash) =
      if stripTrailing slash d = [] then [slash] else stripTrailing slash d := by
  have hparent : stripTrailing slash (d ++ [slash]) = stripTrailing slash d :=
    stripTrailing_run d 1
  rw [dirname, if_neg (by simp), strip_under d k hne hb, if_neg (by simp), if_neg (by simp)]
  simp only [rdropWhile_last_slash d hb, hparent]

end Results

end PosixPaths
