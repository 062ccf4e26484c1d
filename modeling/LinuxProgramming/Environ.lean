import LinuxProgramming.CharStrings
import Mathlib.Data.Int.Notation
import Mathlib.Logic.Function.Basic

/-! `my_setenv` and `my_unsetenv` of `environ.c`. The environment is a list of pointers to
strings, and `putenv` puts the pointer it is given into it. Both functions release the string
right after that; what is read in a released block is anything. -/
namespace Environ

open CharStrings

def equals : Byte := 61

structure Name where
  bytes : List Byte
  nonempty : bytes ≠ []
  nul_free : 0 ∉ bytes
  equals_free : equals ∉ bytes

def definition (name value : List Byte) : List Byte := name ++ equals :: value

section Strings

def defines (name text : List Byte) : Bool := (name ++ [equals]).isPrefixOf text

def valueIn (name text : List Byte) : Option (List Byte) :=
  if defines name text then some (text.drop (name.length + 1)) else none

/-- The first definition counts. -/
def lookup (name : List Byte) (strings : List (List Byte)) : Option (List Byte) :=
  strings.findSome? (valueIn name)

def replaceFirst {α : Type} (p : α → Bool) (x : α) : List α → List α
  | [] => [x]
  | y :: ys => if p y then x :: ys else y :: replaceFirst p x ys

variable {name text value : List Byte}

theorem defines_iff : defines name text ↔ ∃ value, text = definition name value := by
  rw [defines, List.isPrefixOf_iff_prefix]
  constructor
  · rintro ⟨value, hvalue⟩
    refine ⟨value, ?_⟩
    rw [← hvalue, definition, List.append_assoc, List.singleton_append]
  · rintro ⟨value, rfl⟩
    refine ⟨value, ?_⟩
    rw [definition, List.append_assoc, List.singleton_append]

theorem defines_definition (name value : List Byte) : defines name (definition name value) :=
  defines_iff.mpr ⟨value, rfl⟩

theorem valueIn_definition (name value : List Byte) :
    valueIn name (definition name value) = some value := by
  rw [valueIn, if_pos (defines_definition name value)]
  simp [definition]

def nameOf (text : List Byte) : List Byte := text.takeWhile (· != equals)

theorem nameOf_definition (hname : equals ∉ name) : nameOf (definition name value) = name := by
  have hall : ∀ b ∈ name, (b != equals) = true := by
    intro b hb
    simpa using fun he : b = equals => hname (he ▸ hb)
  rw [nameOf, definition, List.takeWhile_append_of_pos hall]
  simp

theorem mem_replaceFirst {α : Type} (p : α → Bool) (x : α) (ys : List α) :
    x ∈ replaceFirst p x ys := by
  induction ys with
  | nil => simp [replaceFirst]
  | cons y ys ih =>
    rw [replaceFirst]
    split
    · exact List.mem_cons_self
    · exact List.mem_cons_of_mem y ih

theorem length_replaceFirst {α : Type} (p : α → Bool) (x : α) (ys : List α) :
    (replaceFirst p x ys).length = if ys.any p then ys.length else ys.length + 1 := by
  induction ys with
  | nil => rfl
  | cons y ys ih =>
    rw [replaceFirst, List.any_cons]
    cases hy : p y with
    | true => simp
    | false =>
      simp only [Bool.false_eq_true, if_false, List.length_cons, ih, Bool.false_or]
      split <;> rfl

end Strings

abbrev Addr := ℕ

structure Block where
  size : ℕ
  text : List Byte
  allocated : Bool

structure Process where
  block : Addr → Block
  environ : List Addr

namespace Process

def text (s : Process) (a : Addr) : List Byte := (s.block a).text

def strings (s : Process) : List (List Byte) := s.environ.map s.text

def getenv (s : Process) (name : List Byte) : Option (List Byte) := lookup name s.strings

def malloc (s : Process) (a : Addr) (size : ℕ) : Process :=
  { s with block := Function.update s.block a ⟨size, [], true⟩ }

def strcpy (s : Process) (a : Addr) (text : List Byte) : Process :=
  { s with block := Function.update s.block a { s.block a with text := text } }

def newString (s : Process) (a : Addr) (size : ℕ) (text : List Byte) : Process :=
  (s.malloc a size).strcpy a text

/-- The block is no longer the caller's, and `left` is what is found in it from now on. -/
def free (s : Process) (a : Addr) (left : List Byte) : Process :=
  { s with block := Function.update s.block a ⟨(s.block a).size, left, false⟩ }

/-- The string itself becomes part of the environment. Where its name is new, the list grows,
and there has to be room for that. -/
def putenv (s : Process) (a : Addr) (room : Bool) : Option Process :=
  let isOld := fun b => defines (nameOf (s.text a)) (s.text b)
  if s.environ.any isOld || room then
    some { s with environ := replaceFirst isOld a s.environ }
  else none

end Process

/-- The outcome of `malloc`, the room for `putenv` and what `free` leaves in the block are given
from outside. -/
def mySetenv (s : Process) (name : Option (List Byte)) (value : List Byte) (overwrite : ℤ)
    (pair : Option Addr) (room : Bool) (left : List Byte) : ℤ × Process :=
  match name, pair with
  | none, _ => (-1, s)
  | some _, none => (-1, s)
  | some name, some pair =>
    let s := s.newString pair (name.length + value.length + 2) (definition name value)
    if overwrite ≠ 0 ∨ (s.getenv name).isSome then
      match s.putenv pair room with
      | none => (-1, s.free pair left)
      | some s => (0, s.free pair left)
    else (0, s.free pair left)

def myUnsetenv (s : Process) (name : List Byte) (res : Option Addr) (room : Bool)
    (left : List Byte) : ℤ × Process :=
  match res with
  | none => (-1, s)
  | some res =>
    let s := s.newString res (name.length + 2) (definition name [])
    match s.putenv res room with
    | none => (-1, s.free res left)
    | some s => (0, s.free res left)

section Process

variable (s : Process) (a : Addr) (size : ℕ) (text left : List Byte)

@[simp] theorem environ_free : (s.free a left).environ = s.environ := rfl

@[simp] theorem text_free_self : (s.free a left).text a = left := by
  simp [Process.text, Process.free]

theorem text_free_other {b : Addr} (hb : b ≠ a) : (s.free a left).text b = s.text b := by
  simp [Process.text, Process.free, hb]

theorem not_allocated_free : ((s.free a left).block a).allocated = false := by
  simp [Process.free]

@[simp] theorem text_newString_self : (s.newString a size text).text a = text := by
  simp [Process.text, Process.newString, Process.strcpy]

theorem text_newString_other {b : Addr} (hb : b ≠ a) :
    (s.newString a size text).text b = s.text b := by
  simp [Process.text, Process.newString, Process.strcpy, Process.malloc, hb]

@[simp] theorem length_strings : s.strings.length = s.environ.length := List.length_map ..

-- where the environment does not refer to a block, no variable depends on it

theorem strings_newString (ha : a ∉ s.environ) :
    (s.newString a size text).strings = s.strings := by
  apply List.map_congr_left
  intro b hb
  exact text_newString_other s a size text fun he => ha (he ▸ hb)

theorem strings_free (ha : a ∉ s.environ) : (s.free a left).strings = s.strings := by
  apply List.map_congr_left
  intro b hb
  exact text_free_other s a left fun he => ha (he ▸ hb)

def put (s : Process) (a : Addr) (name : List Byte) : Process :=
  { s with environ := replaceFirst (fun b => defines name (s.text b)) a s.environ }

theorem mem_put (name : List Byte) : a ∈ (put s a name).environ := mem_replaceFirst _ _ _

theorem newString_putenv {name value : List Byte} (hname : equals ∉ name) :
    (s.newString a size (definition name value)).putenv a true =
      some (put (s.newString a size (definition name value)) a name) := by
  rw [Process.putenv, Bool.or_true, if_pos rfl, text_newString_self, nameOf_definition hname]
  rfl

end Process

section Setenv

variable (s : Process) (name : Name) (value : List Byte) (overwrite : ℤ) (pair : Addr)
  (left : List Byte)

def prepared (s : Process) (name value : List Byte) (pair : Addr) : Process :=
  s.newString pair (name.length + value.length + 2) (definition name value)

theorem mySetenv_puts
    (hput : overwrite ≠ 0 ∨ ((prepared s name.bytes value pair).getenv name.bytes).isSome) :
    mySetenv s (some name.bytes) value overwrite (some pair) true left =
      (0, (put (prepared s name.bytes value pair) pair name.bytes).free pair left) := by
  rw [prepared] at hput
  simp only [mySetenv]
  rw [if_pos hput, newString_putenv _ _ _ name.equals_free, prepared]

theorem mySetenv_skips
    (hskip : ¬ (overwrite ≠ 0 ∨ ((prepared s name.bytes value pair).getenv name.bytes).isSome)) :
    mySetenv s (some name.bytes) value overwrite (some pair) true left =
      (0, (prepared s name.bytes value pair).free pair left) := by
  rw [prepared] at hskip
  simp only [mySetenv]
  rw [if_neg hskip, prepared]

theorem getenv_prepared_of_mem (hmem : pair ∈ s.environ) :
    ((prepared s name.bytes value pair).getenv name.bytes).isSome := by
  apply List.findSome?_isSome_iff.mpr
  refine ⟨_, List.mem_map_of_mem hmem, ?_⟩
  rw [prepared, text_newString_self, valueIn_definition]
  rfl

theorem getenv_prepared (hpair : pair ∉ s.environ) (other : List Byte) :
    (prepared s name.bytes value pair).getenv other = s.getenv other := by
  rw [Process.getenv, prepared, strings_newString _ _ _ _ hpair, Process.getenv]

/-- `setenv`, as it should be: the value, the other variables, and the string that the call made
and the environment refers to. -/
structure SetenvOk (s t : Process) (name value : List Byte) (overwrite : ℤ) (pair : Addr) :
    Prop where
  value_set : t.getenv name =
    if overwrite ≠ 0 ∨ s.getenv name = none then some value else s.getenv name
  others : ∀ other : Name, other.bytes ≠ name → t.getenv other.bytes = s.getenv other.bytes
  allocated : pair ∈ t.environ → (t.block pair).allocated

/-- A string that is put into the environment has been released on return, and where none is
put there the variable stays undefined. -/
theorem mySetenv_never_ok :
    (mySetenv s (some name.bytes) value overwrite (some pair) true left).1 = 0 ∧
      ¬ SetenvOk s (mySetenv s (some name.bytes) value overwrite (some pair) true left).2
        name.bytes value overwrite pair := by
  by_cases hput : overwrite ≠ 0 ∨ ((prepared s name.bytes value pair).getenv name.bytes).isSome
  · rw [mySetenv_puts s name value overwrite pair left hput]
    refine ⟨rfl, fun hok => ?_⟩
    have halloc := hok.allocated (mem_put _ pair name.bytes)
    rw [not_allocated_free] at halloc
    cases halloc
  · have hpair : pair ∉ s.environ := fun hmem =>
      hput (.inr (getenv_prepared_of_mem s name value pair hmem))
    rw [mySetenv_skips s name value overwrite pair left hput]
    refine ⟨rfl, fun hok => ?_⟩
    have hsame : ((prepared s name.bytes value pair).free pair left).getenv name.bytes =
        s.getenv name.bytes := by
      have hstrings : ((prepared s name.bytes value pair).free pair left).strings =
          (prepared s name.bytes value pair).strings := strings_free _ _ _ hpair
      rw [Process.getenv, hstrings, ← Process.getenv, getenv_prepared s name value pair hpair]
    rw [getenv_prepared s name value pair hpair] at hput
    have hundef := Option.not_isSome_iff_eq_none.mp (not_or.mp hput).2
    have hset := hok.value_set
    rw [if_pos (.inr hundef), hsame, hundef] at hset
    cases hset

end Setenv

section Examples

def home : Name := ⟨ascii "HOME", by decide, by decide, by decide⟩

/-- An environment with nothing in it, and one with a single variable. -/
def bare : Process where
  block _ := ⟨0, [], false⟩
  environ := []

def atHome : Process where
  block _ := ⟨8, ascii "HOME=/a", true⟩
  environ := [3]

/-- Without `overwrite` a new variable is not set; with it, and for an old variable without it
too, the environment refers to a released block and to no other. -/
theorem mySetenv_fails :
    (∀ left, (mySetenv bare (some home.bytes) (ascii "/b") 0 (some 0) true left).2.getenv
        home.bytes = none) ∧
      (∀ left, (mySetenv atHome (some home.bytes) (ascii "/b") 0 (some 0) true left).2.environ =
        [0]) ∧
      ∀ left, (mySetenv bare (some home.bytes) (ascii "/b") 1 (some 0) true left).2.environ =
          [0] ∧
        ((mySetenv bare (some home.bytes) (ascii "/b") 1 (some 0) true left).2.block 0).allocated =
          false :=
  ⟨fun _ => rfl, fun _ => rfl, fun _ => ⟨rfl, rfl⟩⟩

end Examples

section Unsetenv

variable (s : Process) (name : Name) (res : Addr)

/-- `unsetenv`, as it should be; the variable is then undefined, where it was undefined nothing
changes, and a second call changes nothing. -/
def UnsetenvOk (s t : Process) (name : List Byte) : Prop :=
  t.strings = s.strings.filter fun text => ! defines name text

def unsetting (s : Process) (name : List Byte) (res : Addr) : Process :=
  put (s.newString res (name.length + 2) (definition name [])) res name

theorem myUnsetenv_puts (left : List Byte) : myUnsetenv s name.bytes (some res) true left =
    (0, (unsetting s name.bytes res).free res left) := by
  simp only [myUnsetenv, newString_putenv _ _ _ name.equals_free]
  rfl

theorem length_unsetting (hres : res ∉ s.environ) :
    (unsetting s name.bytes res).environ.length ≠
      (s.strings.filter fun text => ! defines name.bytes text).length := by
  have hany : (s.environ.any fun b => defines name.bytes ((s.newString res
      (name.bytes.length + 2) (definition name.bytes [])).text b)) =
      s.strings.any (defines name.bytes) := by
    rw [← strings_newString s res (name.bytes.length + 2) (definition name.bytes []) hres,
      Process.strings, List.any_map]
    rfl
  have hlength : (unsetting s name.bytes res).environ.length =
      if s.strings.any (defines name.bytes) then s.environ.length
      else s.environ.length + 1 := by
    rw [← hany]
    exact length_replaceFirst ..
  rw [hlength]
  split
  · next hdefined =>
    obtain ⟨text, htext, hdefines⟩ := List.any_eq_true.mp hdefined
    have hshorter : (s.strings.filter fun text => ! defines name.bytes text).length <
        s.strings.length :=
      List.length_filter_lt_length_iff_exists.mpr ⟨text, htext, by simp [hdefines]⟩
    rw [length_strings] at hshorter
    omega
  · have hle := List.length_filter_le (fun text => ! defines name.bytes text) s.strings
    rw [length_strings] at hle
    omega

/-- The variable is never removed: a string too many is there after the call. Only where `malloc`
gives a block to which the environment still refers can the two be equally long, and then it
depends on what is left in the block. -/
theorem myUnsetenv_never_ok :
    (∀ left, (myUnsetenv s name.bytes (some res) true left).1 = 0) ∧
      (res ∉ s.environ → ∀ left,
        ¬ UnsetenvOk s (myUnsetenv s name.bytes (some res) true left).2 name.bytes) ∧
      ∃ left, ¬ UnsetenvOk s (myUnsetenv s name.bytes (some res) true left).2 name.bytes := by
  refine ⟨fun left => by rw [myUnsetenv_puts], ?_, definition name.bytes [], ?_⟩
  · intro hres left hok
    rw [myUnsetenv_puts] at hok
    have hlength := congrArg List.length hok
    rw [length_strings, environ_free] at hlength
    exact length_unsetting s name res hres hlength
  · rw [myUnsetenv_puts]
    intro hok
    have hleft : definition name.bytes [] ∈
        ((unsetting s name.bytes res).free res (definition name.bytes [])).strings :=
      List.mem_map.mpr ⟨res, mem_put _ res name.bytes, text_free_self _ res _⟩
    rw [hok, List.mem_filter, defines_definition] at hleft
    cases hleft.2

theorem home_not_unset : (myUnsetenv atHome home.bytes (some 0) true []).1 = 0 ∧
    ¬ UnsetenvOk atHome (myUnsetenv atHome home.bytes (some 0) true []).2 home.bytes :=
  ⟨(myUnsetenv_never_ok atHome home 0).1 [], (myUnsetenv_never_ok atHome home 0).2.1 (by decide) []⟩

/-- The only string of the environment is the released one, whether `HOME` was defined or not;
none should be there. -/
theorem myUnsetenv_adds :
    (∀ left, (myUnsetenv atHome home.bytes (some 0) true left).1 = 0 ∧
      (myUnsetenv atHome home.bytes (some 0) true left).2.environ = [0]) ∧
      (atHome.strings.filter fun text => ! defines home.bytes text) = [] ∧
      (∀ left, (myUnsetenv bare home.bytes (some 0) true left).1 = 0 ∧
        (myUnsetenv bare home.bytes (some 0) true left).2.environ = [0]) ∧
      bare.strings = [] :=
  ⟨fun _ => ⟨rfl, rfl⟩, by decide, fun _ => ⟨rfl, rfl⟩, rfl⟩

end Unsetenv

end Environ
