import LinuxProgramming.StringScans
import LinuxProgramming.TransitionSystems

/-! The two processes of `bidirectional_pipes.c` and the pipes between them. The parent sends
its whole buffer, whatever is in it behind the line; both sides cut their buffer behind the
first newline. Each call is a step, with the computation behind it; a process that leaves its
buffer ends in `fault`. -/
namespace BidirectionalPipes

open CharStrings StringScans TransitionSystems

def pipeBufferLen : ℕ := 512

abbrev Buffer := CharArray pipeBufferLen

def newline : Byte := 10

/-- A line as the terminal delivers it: no NUL, one newline at the end, and room for a
terminator in the buffer. -/
structure Line where
  body : List Byte
  nul_free : 0 ∉ body
  newline_free : newline ∉ body
  fits : body.length + 1 < pipeBufferLen

def Line.bytes (l : Line) : List Byte := l.body ++ [newline]

/-- What is known of `toupper`. -/
structure ToUpper where
  toupper : Byte → Byte
  toupper_newline : toupper newline = newline
  toupper_ne_newline : ∀ b, b ≠ 0 → b ≠ newline → toupper b ≠ newline
  toupper_ne_nul : ∀ b, b ≠ 0 → b ≠ newline → toupper b ≠ 0

inductive ParentPc where
  | readInput
  | writePipe
  | readPipe
  | writeOutput
  | fault
  deriving DecidableEq

inductive ChildPc where
  | readPipe
  | writePipe
  | fault
  deriving DecidableEq

/-- The lines still to be typed, the bytes in the two pipes, and what was printed. -/
structure System where
  input : List Line
  parent : ParentPc
  parentBuffer : Buffer
  pipePtC : List Byte
  child : ChildPc
  childBuffer : Buffer
  pipeCtP : List Byte
  output : List Byte

def initial (lines : List Line) (parentBuffer childBuffer : Buffer) : System :=
  ⟨lines, .readInput, parentBuffer, [], .readPipe, childBuffer, [], []⟩

/-- The terminator put behind the first newline, if there is one. -/
def cutLine (a : Buffer) : Option Buffer :=
  match strchr a newline with
  | none => none
  | some none => some a
  | some (some endOfLine) => store a (endOfLine + 1) 0

def parentStep (s : System) : Option System :=
  match s.parent with
  | .readInput =>
    match s.input with
    | [] => none
    | line :: lines =>
      some { s with
        input := lines
        parent := .writePipe
        parentBuffer := s.parentBuffer.fill line.bytes }
  | .writePipe =>
    some { s with parent := .readPipe, pipePtC := s.pipePtC ++ s.parentBuffer.toList }
  | .readPipe =>
    if s.pipeCtP = [] then none
    else
      let buffer := s.parentBuffer.fill (s.pipeCtP.take pipeBufferLen)
      let s := { s with pipeCtP := s.pipeCtP.drop pipeBufferLen }
      match cutLine buffer with
      | none => some { s with parent := .fault }
      | some buffer => some { s with parent := .writeOutput, parentBuffer := buffer }
  | .writeOutput =>
    match textBytes s.parentBuffer with
    | none => some { s with parent := .fault }
    | some bytes => some { s with parent := .readInput, output := s.output ++ bytes }
  | .fault => none

def childStep (up : ToUpper) (s : System) : Option System :=
  match s.child with
  | .readPipe =>
    if s.pipePtC = [] then none
    else
      let buffer := s.childBuffer.fill (s.pipePtC.take pipeBufferLen)
      let s := { s with pipePtC := s.pipePtC.drop pipeBufferLen }
      match (cutLine buffer).bind (mapText up.toupper) with
      | none => some { s with child := .fault }
      | some buffer => some { s with child := .writePipe, childBuffer := buffer }
  | .writePipe =>
    match textBytes s.childBuffer with
    | none => some { s with child := .fault }
    | some bytes => some { s with child := .readPipe, pipeCtP := s.pipeCtP ++ bytes }
  | .fault => none

inductive Event where
  | parent
  | child
  deriving DecidableEq

def step (up : ToUpper) (s : System) : Event → Option System
  | .parent => parentStep s
  | .child => childStep up s

def Step (up : ToUpper) (s : System) (e : Event) (t : System) : Prop := step up s e = some t

section Lines

variable {up : ToUpper} {l : Line} {a : Buffer} {rest : List Byte}

theorem bytes_nul_free (l : Line) : 0 ∉ l.bytes := by
  simp [Line.bytes, l.nul_free, newline]

theorem bytes_length (l : Line) : l.bytes.length < pipeBufferLen := by
  simpa [Line.bytes] using l.fits

theorem bytes_ne_nil (l : Line) : l.bytes ≠ [] := by simp [Line.bytes]

def Line.upper (up : ToUpper) (l : Line) : Line where
  body := l.body.map up.toupper
  nul_free := by
    rintro h
    obtain ⟨b, hb, hz⟩ := List.mem_map.mp h
    exact up.toupper_ne_nul b (fun h => l.nul_free (h ▸ hb)) (fun h => l.newline_free (h ▸ hb)) hz
  newline_free := by
    rintro h
    obtain ⟨b, hb, hn⟩ := List.mem_map.mp h
    exact up.toupper_ne_newline b (fun h => l.nul_free (h ▸ hb))
      (fun h => l.newline_free (h ▸ hb)) hn
  fits := by simpa using l.fits

theorem upper_bytes (up : ToUpper) (l : Line) :
    (l.upper up).bytes = l.bytes.map up.toupper := by
  simp [Line.bytes, Line.upper, up.toupper_newline]

theorem cutLine_of_line (h : a.toList = l.bytes ++ rest) :
    ∃ a' rest', cutLine a = some a' ∧ a'.toList = l.bytes ++ 0 :: rest' := by
  have hbody : a.toList = l.body ++ newline :: rest := by simp [h, Line.bytes]
  cases rest with
  | nil =>
    have hlen := a.length_toList
    rw [h, List.append_nil] at hlen
    have := bytes_length l
    omega
  | cons x rest =>
    obtain ⟨a', hstore, ha'⟩ := store_behind (b := 0) h
    refine ⟨a', rest, ?_, ha'⟩
    have hend : l.body.length + 1 = l.bytes.length := by simp [Line.bytes]
    simp only [cutLine, strchr_of_first hbody l.newline_free l.nul_free, hend, hstore]

theorem textBytes_of_line (h : a.toList = l.bytes ++ 0 :: rest) :
    textBytes a = some l.bytes := textBytes_of_text h (bytes_nul_free l)

theorem fill_line (a : Buffer) (l : Line) :
    (a.fill l.bytes).toList = l.bytes ++ a.toList.drop l.bytes.length := by
  rw [fill_toList, List.take_of_length_le (bytes_length l).le]

end Lines

def upperCased (up : ToUpper) (lines : List Line) : List Byte :=
  (lines.flatMap Line.bytes).map up.toupper

theorem upperCased_append (up : ToUpper) (done : List Line) (l : Line) :
    upperCased up (done ++ [l]) = upperCased up done ++ (l.upper up).bytes := by
  simp [upperCased, upper_bytes]

/-- Where the two processes are after that many steps. The buffers hold the current line, and
anything behind it. -/
inductive Handling (up : ToUpper) (lines : List Line) : ℕ → System → Prop where
  | waiting {done input} (pb cb : Buffer) : lines = done ++ input →
      Handling up lines (6 * done.length)
        ⟨input, .readInput, pb, [], .readPipe, cb, [], upperCased up done⟩
  | sending {done l input rest} (pb cb : Buffer) : lines = done ++ l :: input →
      pb.toList = l.bytes ++ rest →
      Handling up lines (6 * done.length + 1)
        ⟨input, .writePipe, pb, [], .readPipe, cb, [], upperCased up done⟩
  | asking {done l input rest} (pb cb : Buffer) : lines = done ++ l :: input →
      (l.bytes ++ rest).length = pipeBufferLen →
      Handling up lines (6 * done.length + 2)
        ⟨input, .readPipe, pb, l.bytes ++ rest, .readPipe, cb, [], upperCased up done⟩
  | answering {done l input rest} (pb cb : Buffer) : lines = done ++ l :: input →
      cb.toList = (l.upper up).bytes ++ 0 :: rest →
      Handling up lines (6 * done.length + 3)
        ⟨input, .readPipe, pb, [], .writePipe, cb, [], upperCased up done⟩
  | answered {done l input} (pb cb : Buffer) : lines = done ++ l :: input →
      Handling up lines (6 * done.length + 4)
        ⟨input, .readPipe, pb, [], .readPipe, cb, (l.upper up).bytes, upperCased up done⟩
  | printing {done l input rest} (pb cb : Buffer) : lines = done ++ l :: input →
      pb.toList = (l.upper up).bytes ++ 0 :: rest →
      Handling up lines (6 * done.length + 5)
        ⟨input, .writeOutput, pb, [], .readPipe, cb, [], upperCased up done⟩

def Finished (s : System) : Prop := s.parent = .readInput ∧ s.input = []

section Runs

variable {up : ToUpper} {lines : List Line} {k : ℕ} {s t : System} {e : Event}

theorem handling_next (h : Handling up lines k s) :
    (Finished s ∧ s.output = upperCased up lines) ∨
      ∃ e t, Step up s e t ∧ Handling up lines (k + 1) t := by
  cases h with
  | @waiting done input pb cb hlines =>
    cases input with
    | nil =>
      rw [List.append_nil] at hlines
      exact .inl ⟨⟨rfl, rfl⟩, by rw [hlines]⟩
    | cons l input => exact .inr ⟨.parent, _, rfl, .sending _ cb hlines (fill_line pb l)⟩
  | sending pb cb hlines hpb =>
    refine .inr ⟨.parent, _, rfl, ?_⟩
    rw [List.nil_append, hpb]
    exact .asking pb cb hlines (by rw [← hpb, Vector.length_toList])
  | @asking done l input rest pb cb hlines hlen =>
    have hfill : (cb.fill ((l.bytes ++ rest).take pipeBufferLen)).toList = l.bytes ++ rest := by
      rw [List.take_of_length_le hlen.le, fill_toList, List.take_of_length_le hlen.le,
        List.drop_of_length_le (by rw [hlen, Vector.length_toList]), List.append_nil]
    obtain ⟨b, rest', hcut, hb⟩ := cutLine_of_line hfill
    obtain ⟨c, hmap, hc⟩ := mapText_of_text up.toupper hb (bytes_nul_free l)
    rw [← upper_bytes] at hc
    refine .inr ⟨.child, _, ?_, .answering pb c hlines hc⟩
    have hempty : (l.bytes ++ rest).drop pipeBufferLen = [] := List.drop_of_length_le hlen.le
    simp only [Step, step, childStep, hcut, Option.bind_some, hmap, hempty]
    simp [bytes_ne_nil]
  | answering pb cb hlines hcb =>
    refine .inr ⟨.child, _, ?_, .answered pb cb hlines⟩
    simp [Step, step, childStep, textBytes_of_line hcb]
  | @answered done l input pb cb hlines =>
    have hlen := (bytes_length (l.upper up)).le
    obtain ⟨b, rest, hcut, hb⟩ := cutLine_of_line (fill_line pb (l.upper up))
    refine .inr ⟨.parent, _, ?_, .printing b cb hlines hb⟩
    simp only [Step, step, parentStep, List.take_of_length_le hlen, hcut,
      List.drop_of_length_le hlen]
    simp [bytes_ne_nil]
  | @printing done l input rest pb cb hlines hpb =>
    rw [← List.singleton_append, ← List.append_assoc] at hlines
    have hnext : Handling up lines _ _ := .waiting pb cb hlines
    rw [upperCased_append, List.length_append] at hnext
    refine .inr ⟨.parent, _, ?_, hnext⟩
    simp only [Step, step, parentStep, textBytes_of_line hpb]

/-- Never do both processes have a step. -/
theorem mover_unique (h : Handling up lines k s) {e' : Event} {t' : System}
    (hstep : Step up s e t) (hstep' : Step up s e' t') : e = e' := by
  cases h
  all_goals
    cases e <;> cases e' <;> simp [Step, step, parentStep, childStep] at hstep hstep' ⊢

theorem finished_stuck (h : Handling up lines k s) (hf : Finished s) : ¬ Step up s e t := by
  obtain ⟨hparent, hinput⟩ := hf
  cases h with
  | waiting pb cb hlines =>
    subst hinput
    cases e <;> simp [Step, step, parentStep, childStep]
  | _ => cases hparent

theorem handling_step (h : Handling up lines k s) (hstep : Step up s e t) :
    Handling up lines (k + 1) t := by
  rcases handling_next h with ⟨hf, -⟩ | ⟨e', t', hstep', hnext⟩
  · exact (finished_stuck h hf hstep).elim
  · obtain rfl := mover_unique h hstep hstep'
    rw [Step, hstep', Option.some.injEq] at hstep
    exact hstep ▸ hnext

theorem handling_bound (h : Handling up lines k s) : k ≤ 6 * lines.length := by
  cases h
  all_goals
    subst lines
    simp only [List.length_append, List.length_cons]
    omega

theorem handling_no_fault (h : Handling up lines k s) : s.parent ≠ .fault ∧ s.child ≠ .fault := by
  cases h <;> simp

theorem handling_output (h : Handling up lines k s) :
    ∃ done rest, lines = done ++ rest ∧ s.output = upperCased up done := by
  cases h
  all_goals exact ⟨_, _, ‹_›, rfl⟩

variable {pb cb : Buffer} {es : List Event}

theorem handling_run (hrun : Execution (Step up) (initial lines pb cb) es s) :
    Handling up lines es.length s := by
  induction hrun with
  | refl =>
    have h : Handling up lines _ _ := .waiting pb cb (List.nil_append lines).symm
    simpa [upperCased, initial] using h
  | tail _ hstep ih =>
    rw [List.length_append]
    exact handling_step ih hstep

theorem exists_finished (up : ToUpper) (lines : List Line) (pb cb : Buffer) :
    ∃ s, Reachable (Step up) (initial lines pb cb) s ∧ Finished s := by
  obtain ⟨es, s, hrun, hstuck⟩ := Execution.exists_stuck fun es t
    (hrun : Execution (Step up) (initial lines pb cb) es t) => handling_bound (handling_run hrun)
  refine ⟨s, ⟨es, hrun⟩, ?_⟩
  rcases handling_next (handling_run hrun) with ⟨hf, -⟩ | ⟨e, t, hstep, -⟩
  · exact hf
  · exact (hstuck e t hstep).elim

/-- In every run nothing outside the buffers is touched and whole lines are printed in order;
a run that cannot go on has printed them all, and no run can go on for ever. -/
theorem prints_upper_cased (hrun : Execution (Step up) (initial lines pb cb) es s) :
    s.parent ≠ .fault ∧ s.child ≠ .fault ∧
      (∃ done rest, lines = done ++ rest ∧ s.output = upperCased up done) ∧
      (Finished s → s.output = upperCased up lines) ∧
      ((∀ e t, ¬ Step up s e t) → Finished s) ∧ es.length ≤ 6 * lines.length := by
  have h := handling_run hrun
  obtain ⟨hparent, hchild⟩ := handling_no_fault h
  refine ⟨hparent, hchild, handling_output h, fun hf => ?_, fun hstuck => ?_, handling_bound h⟩
  · rcases handling_next h with ⟨-, hout⟩ | ⟨e, t, hstep, -⟩
    · exact hout
    · exact (finished_stuck h hf hstep).elim
  · rcases handling_next h with ⟨hf, -⟩ | ⟨e, t, hstep, -⟩
    · exact hf
    · exact (hstuck e t hstep).elim

end Runs

section CLocale

def cToupper (b : Byte) : Byte := if 97 ≤ b ∧ b ≤ 122 then b - 32 else b

theorem cToupper_range (b : Byte) : cToupper b = b ∨ 65 ≤ (cToupper b).toNat := by
  unfold cToupper
  split
  · next h =>
    have hlo : 97 ≤ b.toNat := UInt8.le_iff_toNat_le.mp h.1
    have h32 : (32 : Byte) ≤ b := UInt8.le_iff_toNat_le.mpr (by simp; omega)
    right
    rw [UInt8.toNat_sub_of_le _ _ h32]
    simp
    omega
  · exact .inl rfl

theorem cToupper_ne {b c : Byte} (hb : b ≠ c) (hc : c.toNat < 65) : cToupper b ≠ c := by
  rcases cToupper_range b with h | h
  · rwa [h]
  · intro he
    rw [he] at h
    omega

def cLocale : ToUpper where
  toupper := cToupper
  toupper_newline := by decide
  toupper_ne_newline _ _ hn := cToupper_ne hn (by decide)
  toupper_ne_nul _ hz _ := cToupper_ne hz (by decide)

end CLocale

def hello : Line := ⟨ascii "Hello, pipes", by decide, by decide, by decide⟩

def bye : Line := ⟨ascii "bye", by decide, by decide, by decide⟩

def unterminated : Buffer := Vector.replicate pipeBufferLen 120

/-- A short line behind a longer one. -/
theorem prints_upper_cased_two_lines : ∃ s,
    Reachable (Step cLocale) (initial [hello, bye] unterminated unterminated) s ∧
      s.output = ascii "HELLO, PIPES\nBYE\n" := by
  obtain ⟨s, ⟨es, hrun⟩, hf⟩ := exists_finished cLocale [hello, bye] unterminated unterminated
  have hout := (prints_upper_cased hrun).2.2.2.1 hf
  exact ⟨s, ⟨es, hrun⟩, by rw [hout]; decide⟩

end BidirectionalPipes
