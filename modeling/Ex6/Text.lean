import Mathlib.Data.List.Basic
import Ex6.Lib.CString
/-!
# What happens to a buffer

`convert_opposite_case_letters` and `caesar_cipher_1` rewrite the string of a
capsula's buffer in place, and `send_message` sends what is in it then.
`swapcase`, `caesar` and `reply` say what they are for, on strings;
`convert_spec`, `caesar_spec` and `respond_spec` connect the two.
-/
open Lib Lib.CString

namespace Ex6

/-- A `char`. It is signed where the server runs, so the comparisons below are
signed too. -/
abbrev Byte := BitVec 8

abbrev NUL : Byte := 0#8

namespace Text

def isLower (c : Byte) : Bool := (97#8).sle c && c.sle 122#8
def isUpper (c : Byte) : Bool := (65#8).sle c && c.sle 90#8

/-! ## The loop bodies -/

/-- What one iteration of `convert_opposite_case_letters` leaves in `str[i]`. -/
def convert_char (c : Byte) : Byte :=
  if isLower c then c - 32#8
  else if isUpper c then c + 32#8
  else c

/-- The second `if` of `caesar_cipher_1`. -/
def caesar_upper (c : Byte) : Byte :=
  if isUpper c then (if c = 90#8 then 65#8 else c + 1#8) else c

/-- What one iteration of `caesar_cipher_1` leaves in `str[i]`. After `'z'` the
loop continues; any other lower-case letter goes on to the upper-case test with
its new value. -/
def caesar_char (c : Byte) : Byte :=
  if isLower c then (if c = 122#8 then 97#8 else caesar_upper (c + 1#8)) else caesar_upper c

/-- `for(size_t i=0; i<n; i++)` over `strlen(str)` cells, each rewritten by `f`.
Without a terminator in the buffer `strlen` reads past its end: undefined. -/
def rewrite_string (f : Byte → Byte) (str : List Byte) : Option (List Byte) := do
  let n ← strlen NUL str
  return forLoop (fun i (s : List Byte) => s.modify i f) 0 n str

def convert_opposite_case_letters (str : List Byte) : Option (List Byte) := rewrite_string convert_char str

def caesar_cipher_1 (str : List Byte) : Option (List Byte) := rewrite_string caesar_char str

/-- What `send_message` sends: `strlen(buffer) + 1` bytes. -/
def send_message (buffer : List Byte) : Option (List Byte) := do
  let n ← strlen NUL buffer
  return buffer.take (n + 1)

/-- A buffer that goes through all stages. -/
def respond (buffer : List Byte) : Option (List Byte) := do
  let buffer ← convert_opposite_case_letters buffer
  let buffer ← caesar_cipher_1 buffer
  send_message buffer

/-! ## What they are for -/

/-- The same letter in the other case. -/
def otherCase (c : Byte) : Byte :=
  if 97 ≤ c.toNat ∧ c.toNat < 97 + 26 then BitVec.ofNat 8 (c.toNat - 97 + 65)
  else if 65 ≤ c.toNat ∧ c.toNat < 65 + 26 then BitVec.ofNat 8 (c.toNat - 65 + 97)
  else c

/-- The cyclically next letter, in the same case. -/
def nextLetter (c : Byte) : Byte :=
  if 97 ≤ c.toNat ∧ c.toNat < 97 + 26 then BitVec.ofNat 8 (97 + (c.toNat - 97 + 1) % 26)
  else if 65 ≤ c.toNat ∧ c.toNat < 65 + 26 then BitVec.ofNat 8 (65 + (c.toNat - 65 + 1) % 26)
  else c

/-- The cyclically previous letter, in the same case. -/
def prevLetter (c : Byte) : Byte :=
  if 97 ≤ c.toNat ∧ c.toNat < 97 + 26 then BitVec.ofNat 8 (97 + (c.toNat - 97 + 25) % 26)
  else if 65 ≤ c.toNat ∧ c.toNat < 65 + 26 then BitVec.ofNat 8 (65 + (c.toNat - 65 + 25) % 26)
  else c

def swapcase (m : List Byte) : List Byte := m.map otherCase

def caesar (m : List Byte) : List Byte := m.map nextLetter

/-- What the pipeline answers to `m`: the transformed text and its terminator. -/
def reply (m : List Byte) : List Byte := caesar (swapcase m) ++ [NUL]

theorem convert_char_eq (c : Byte) : convert_char c = otherCase c := by
  revert c; decide

theorem caesar_char_eq (c : Byte) : caesar_char c = nextLetter c := by
  revert c; decide

theorem otherCase_otherCase : ∀ c : Byte, otherCase (otherCase c) = c := by decide

theorem prevLetter_nextLetter : ∀ c : Byte, prevLetter (nextLetter c) = c := by decide

/-- Changing case can be undone, so nothing but the terminator becomes a terminator. -/
theorem otherCase_eq_nul {c : Byte} : otherCase c = NUL ↔ c = NUL := by
  constructor
  · intro h
    rw [← otherCase_otherCase c, h]
    rfl
  · rintro rfl
    rfl

theorem nextLetter_eq_nul {c : Byte} : nextLetter c = NUL ↔ c = NUL := by
  constructor
  · intro h
    rw [← prevLetter_nextLetter c, h]
    rfl
  · rintro rfl
    rfl

theorem otherCase_ne_nul (c : Byte) (hc : c ≠ NUL) : otherCase c ≠ NUL := mt otherCase_eq_nul.1 hc

theorem nextLetter_ne_nul (c : Byte) (hc : c ≠ NUL) : nextLetter c ≠ NUL := mt nextLetter_eq_nul.1 hc

@[simp] theorem length_swapcase (m : List Byte) : (swapcase m).length = m.length := by simp [swapcase]

@[simp] theorem length_caesar (m : List Byte) : (caesar m).length = m.length := by simp [caesar]

@[simp] theorem length_reply (m : List Byte) : (reply m).length = m.length + 1 := by simp [reply]

theorem not_mem_swapcase {m : List Byte} (h : NUL ∉ m) : NUL ∉ swapcase m := not_mem_map otherCase_ne_nul h

theorem not_mem_caesar {m : List Byte} (h : NUL ∉ m) : NUL ∉ caesar m := not_mem_map nextLetter_ne_nul h

theorem caesar_swapcase_injective : Function.Injective (fun m => caesar (swapcase m)) := by
  have h1 : Function.Injective otherCase := Function.Involutive.injective otherCase_otherCase
  intro m m' h
  exact List.map_injective_iff.2 h1 (List.map_injective_iff.2 (Function.LeftInverse.injective prevLetter_nextLetter) h)

/-! ## The stages compute it -/

/-- A stage on a terminated buffer rewrites the string, and nothing from its
terminator on. -/
theorem rewrite_string_spec {f g : Byte → Byte} (hfg : ∀ c, f c = g c) (hg : ∀ c, c ≠ NUL → g c ≠ NUL)
    {buf : List Byte} (h : NUL ∈ buf) :
    ∃ out, rewrite_string f buf = some out ∧ NUL ∈ out ∧ cstr NUL out = (cstr NUL buf).map g ∧
      out.length = buf.length ∧ out.drop (cstr NUL buf).length = buf.drop (cstr NUL buf).length := by
  obtain rfl : f = g := funext hfg
  have hs := forLoop_string NUL hg h
  exact ⟨_, by rw [rewrite_string, strlen_eq_some NUL h]; rfl, hs.1, hs.2.1, hs.2.2.1, hs.2.2.2⟩

theorem convert_spec {buf : List Byte} (h : NUL ∈ buf) :
    ∃ out, convert_opposite_case_letters buf = some out ∧ NUL ∈ out ∧ cstr NUL out = swapcase (cstr NUL buf) ∧
      out.length = buf.length ∧ out.drop (cstr NUL buf).length = buf.drop (cstr NUL buf).length :=
  rewrite_string_spec convert_char_eq otherCase_ne_nul h

theorem caesar_spec {buf : List Byte} (h : NUL ∈ buf) :
    ∃ out, caesar_cipher_1 buf = some out ∧ NUL ∈ out ∧ cstr NUL out = caesar (cstr NUL buf) ∧
      out.length = buf.length ∧ out.drop (cstr NUL buf).length = buf.drop (cstr NUL buf).length :=
  rewrite_string_spec caesar_char_eq nextLetter_ne_nul h

theorem send_message_spec {buf : List Byte} (h : NUL ∈ buf) : send_message buf = some (cstr NUL buf ++ [NUL]) := by
  simp only [send_message, strlen_eq_some NUL h, Option.bind_eq_bind, Option.bind_some, take_strlen_succ NUL h]
  rfl

/-- What is sent for a buffer depends on the string in it, and on nothing else;
without a terminator it is undefined. -/
theorem respond_spec {buf : List Byte} (h : NUL ∈ buf) : respond buf = some (reply (cstr NUL buf)) := by
  obtain ⟨b, hb, hz, hs, -⟩ := convert_spec h
  obtain ⟨b', hb', hz', hs', -⟩ := caesar_spec hz
  simp only [respond, hb, hb', Option.bind_eq_bind, Option.bind_some, send_message_spec hz', hs', hs, reply]

theorem respond_eq_none {buf : List Byte} (h : NUL ∉ buf) : respond buf = none := by
  simp [respond, convert_opposite_case_letters, rewrite_string, strlen_eq_none NUL h]

/-- What is received into a buffer with a terminator decides the answer. -/
theorem respond_overwrite {junk data : List Byte} (h : NUL ∈ data) :
    respond (overwrite junk data) = some (reply (cstr NUL data)) := by
  rw [respond_spec (mem_overwrite NUL h), cstr_overwrite NUL h]

theorem respond_message (junk : List Byte) {m : List Byte} (h : NUL ∉ m) :
    respond (overwrite junk (m ++ [NUL])) = some (reply m) := by
  rw [respond_overwrite (by simp), cstr_append_cons NUL h []]

/-- "HAL" in capitals becomes "IBM". -/
example : caesar_cipher_1 [72#8, 65#8, 76#8, 0#8] = some [73#8, 66#8, 77#8, 0#8] := by decide

end Text

end Ex6
