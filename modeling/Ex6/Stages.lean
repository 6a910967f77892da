import Mathlib.Algebra.Ring.Parity
import Mathlib.Logic.Function.Iterate
import Ex6.Pipeline
/-!
# The stages on capsulas

A stage is given a capsula, rewrites the string in its buffer and returns the
capsula. `stages_in_place` says what is left in memory, and `stage_algebra` how
the stages compose.
-/
open Lib Lib.CString Ex6.Pipeline

namespace Ex6.Stages

/-- A function with the buffers as its memory: the capsula it returns, and the
memory then. -/
def onCapsula (f : List Byte → Option (List Byte)) (caps : capsula) (buffers : Nat → List Byte) :
    Option (capsula × (Nat → List Byte)) := do
  let b ← caps.buffer
  let str ← f (buffers b)
  return (caps, Function.update buffers b str)

def convert_opposite_case_letters (caps : capsula) (buffers : Nat → List Byte) : Option (capsula × (Nat → List Byte)) :=
  onCapsula Text.convert_opposite_case_letters caps buffers

def caesar_cipher_1 (caps : capsula) (buffers : Nat → List Byte) : Option (capsula × (Nat → List Byte)) :=
  onCapsula Text.caesar_cipher_1 caps buffers

/-- The descriptor sent to, and the bytes. -/
def send_message (caps : capsula) (buffers : Nat → List Byte) : Option (Nat × List Byte) := do
  let b ← caps.buffer
  let bytes ← Text.send_message (buffers b)
  return (caps.socket, bytes)

/-- What the two threads do to a capsula, one after the other. -/
def stages (caps : capsula) (buffers : Nat → List Byte) : Option (Nat × List Byte) := do
  let (caps, buffers) ← convert_opposite_case_letters caps buffers
  let (caps, buffers) ← caesar_cipher_1 caps buffers
  send_message caps buffers

variable {f : Byte → Byte} {m m' rest rest' : List Byte} {caps : capsula} {b : Nat} {buffers : Nat → List Byte}

/-! ## In place -/

theorem strlen_eq (hm : NUL ∉ m) (rest : List Byte) : strlen NUL (m ++ NUL :: rest) = some m.length := by
  rw [strlen_eq_some NUL (by simp), cstr_append_cons NUL hm]

/-- After `i` iterations of a stage's loop the first `i` bytes have been
rewritten, once each, and nothing else. -/
theorem loop_prefix (f : Byte → Byte) (m rest : List Byte) {i : Nat} (hi : i ≤ m.length) :
    forLoop (fun i (str : List Byte) => str.modify i f) 0 i (m ++ rest) = (m.take i).map f ++ (m.drop i ++ rest) := by
  have hl : (m.take i).length = i := List.length_take_of_le hi
  have h := forLoop_modify f (m.take i) (m.drop i ++ rest) 0
  rw [hl, rewriteFrom_zero, ← List.append_assoc, List.take_append_drop] at h
  exact h

theorem rewrite_string_eq (f : Byte → Byte) (hm : NUL ∉ m) (rest : List Byte) :
    Text.rewrite_string f (m ++ NUL :: rest) = some (m.map f ++ NUL :: rest) := by
  have h := loop_prefix f m (NUL :: rest) (Nat.le_refl _)
  rw [List.take_length, List.drop_length, List.nil_append] at h
  simp only [Text.rewrite_string, strlen_eq hm, Option.bind_eq_bind, Option.bind_some, h]
  rfl

theorem convert_eq (hm : NUL ∉ m) (rest : List Byte) :
    Text.convert_opposite_case_letters (m ++ NUL :: rest) = some (Text.swapcase m ++ NUL :: rest) := by
  rw [Text.convert_opposite_case_letters, rewrite_string_eq _ hm, funext Text.convert_char_eq]
  rfl

theorem caesar_eq (hm : NUL ∉ m) (rest : List Byte) :
    Text.caesar_cipher_1 (m ++ NUL :: rest) = some (Text.caesar m ++ NUL :: rest) := by
  rw [Text.caesar_cipher_1, rewrite_string_eq _ hm, funext Text.caesar_char_eq]
  rfl

theorem onCapsula_eq {g : List Byte → Option (List Byte)} {out : List Byte} (hb : caps.buffer = some b)
    (hg : g (buffers b) = some out) : onCapsula g caps buffers = some (caps, Function.update buffers b out) := by
  simp [onCapsula, hb, hg]

/-- An ASCII letter. -/
def Letter (c : Byte) : Prop := (97 ≤ c.toNat ∧ c.toNat < 97 + 26) ∨ (65 ≤ c.toNat ∧ c.toNat < 65 + 26)

instance (c : Byte) : Decidable (Letter c) := inferInstanceAs (Decidable (_ ∨ _))

theorem otherCase_ne_iff : ∀ c, Text.otherCase c ≠ c ↔ Letter c := by decide

theorem nextLetter_ne_iff : ∀ c, Text.nextLetter c ≠ c ↔ Letter c := by decide

theorem stages_eq (hb : caps.buffer = some b) (hm : NUL ∉ m) (hbuf : buffers b = m ++ NUL :: rest) :
    stages caps buffers = some (caps.socket, Text.reply m) := by
  have hswap := Text.not_mem_swapcase hm
  have hconv : convert_opposite_case_letters caps buffers =
      some (caps, Function.update buffers b (Text.swapcase m ++ NUL :: rest)) :=
    onCapsula_eq hb (by rw [hbuf, convert_eq hm])
  have hcaesar : caesar_cipher_1 caps (Function.update buffers b (Text.swapcase m ++ NUL :: rest)) =
      some (caps, Function.update (Function.update buffers b (Text.swapcase m ++ NUL :: rest)) b
        (Text.caesar (Text.swapcase m) ++ NUL :: rest)) :=
    onCapsula_eq hb (by rw [Function.update_self, caesar_eq hswap])
  have hcstr := cstr_append_cons NUL (Text.not_mem_caesar hswap) rest
  simp only [stages, hconv, hcaesar, send_message, hb, Option.bind_eq_bind, Option.bind_some, Function.update_self]
  rw [Text.send_message_spec (by simp), hcstr]
  rfl

/-- On a buffer whose first NUL ends `m`, each stage rewrites the letters of `m`
and leaves all else, in a single pass that comes to each byte once; it returns
its capsula, and what is sent in the end is as long as `m` and its NUL. -/
theorem stages_in_place (hb : caps.buffer = some b) (hm : NUL ∉ m) (hbuf : buffers b = m ++ NUL :: rest) :
    (convert_opposite_case_letters caps buffers =
        some (caps, Function.update buffers b (m.map Text.otherCase ++ NUL :: rest)) ∧
      caesar_cipher_1 caps buffers =
        some (caps, Function.update buffers b (m.map Text.nextLetter ++ NUL :: rest))) ∧
    (∀ c, (Text.otherCase c ≠ c ↔ Letter c) ∧ (Text.nextLetter c ≠ c ↔ Letter c)) ∧
    (NUL ∉ m.map Text.otherCase ∧ NUL ∉ m.map Text.nextLetter) ∧
    (∀ i ≤ m.length,
      forLoop (fun i (str : List Byte) => str.modify i Text.convert_char) 0 i (buffers b) =
        (m.take i).map Text.otherCase ++ (m.drop i ++ NUL :: rest) ∧
      forLoop (fun i (str : List Byte) => str.modify i Text.caesar_char) 0 i (buffers b) =
        (m.take i).map Text.nextLetter ++ (m.drop i ++ NUL :: rest)) ∧
    strlen NUL (m.map Text.otherCase ++ NUL :: rest) = strlen NUL (buffers b) ∧
    strlen NUL (m.map Text.nextLetter ++ NUL :: rest) = strlen NUL (buffers b) ∧
    ∃ bytes, stages caps buffers = some (caps.socket, bytes) ∧ bytes.length = (m ++ [NUL]).length := by
  have hswap : NUL ∉ m.map Text.otherCase := Text.not_mem_swapcase hm
  have hcaesar : NUL ∉ m.map Text.nextLetter := Text.not_mem_caesar hm
  refine ⟨⟨onCapsula_eq hb (by rw [hbuf, convert_eq hm]; rfl), onCapsula_eq hb (by rw [hbuf, caesar_eq hm]; rfl)⟩,
    fun c => ⟨otherCase_ne_iff c, nextLetter_ne_iff c⟩, ⟨hswap, hcaesar⟩, fun i hi => ?_, ?_, ?_,
    Text.reply m, stages_eq hb hm hbuf, by simp⟩
  · rw [hbuf, loop_prefix _ m _ hi, loop_prefix _ m _ hi, funext Text.convert_char_eq, funext Text.caesar_char_eq]
    exact ⟨rfl, rfl⟩
  · rw [hbuf, strlen_eq hm, strlen_eq hswap, List.length_map]
  · rw [hbuf, strlen_eq hm, strlen_eq hcaesar, List.length_map]

/-- "Ab", and behind its NUL what the buffer held before. -/
theorem stages_in_place_ab :
    convert_opposite_case_letters ⟨1, some 0, 4, none⟩ (fun _ => [65#8, 98#8, NUL, 67#8]) =
      some (⟨1, some 0, 4, none⟩, Function.update (fun _ => [65#8, 98#8, NUL, 67#8]) 0 [97#8, 66#8, NUL, 67#8]) :=
  (@stages_in_place [65#8, 98#8] [67#8] ⟨1, some 0, 4, none⟩ 0 (fun _ => [65#8, 98#8, NUL, 67#8]) rfl (by decide)
    rfl).1.1

/-! ## The algebra of the stages -/

/-- On a terminated buffer `g` rewrites each byte of the string by `f`. -/
structure Acts (g : List Byte → Option (List Byte)) (f : Byte → Byte) : Prop where
  nul : ∀ c, c ≠ NUL → f c ≠ NUL
  eq : ∀ m rest, NUL ∉ m → g (m ++ NUL :: rest) = some (m.map f ++ NUL :: rest)

/-- `g`, `n` times over. -/
def times (g : List Byte → Option (List Byte)) : Nat → List Byte → Option (List Byte)
  | 0, buf => some buf
  | n + 1, buf => g buf >>= times g n

/-- The two stages in the order `main` wires them in. -/
def transform (buf : List Byte) : Option (List Byte) :=
  Text.convert_opposite_case_letters buf >>= Text.caesar_cipher_1

namespace Acts
variable {g g' : List Byte → Option (List Byte)} {f' : Byte → Byte}

theorem none : Acts some id where
  nul _ h := h
  eq m rest _ := by rw [List.map_id]

theorem comp (h : Acts g f) (h' : Acts g' f') : Acts (fun buf => g buf >>= g') (f' ∘ f) where
  nul c hc := h'.nul _ (h.nul c hc)
  eq m rest hm := by
    simp only [h.eq m rest hm, Option.bind_eq_bind, Option.bind_some, h'.eq _ rest (not_mem_map h.nul hm), List.map_map]

theorem times (h : Acts g f) (n : Nat) : Acts (times g n) f^[n] := by
  induction n with
  | zero => exact none
  | succ n ih => exact h.comp ih

/-- What acts in the same way is the same, on terminated buffers. -/
theorem congr (h : Acts g f) (h' : Acts g' f') (hf : ∀ c, f c = f' c) {buf : List Byte} (hz : NUL ∈ buf) :
    g buf = g' buf := by
  obtain ⟨rest, hr⟩ := split_of_mem NUL hz
  rw [hr, h.eq _ rest (not_mem_cstr NUL buf), h'.eq _ rest (not_mem_cstr NUL buf), funext hf]

end Acts

theorem acts_convert : Acts Text.convert_opposite_case_letters Text.otherCase :=
  ⟨Text.otherCase_ne_nul, fun _ rest hm => convert_eq hm rest⟩

theorem acts_caesar : Acts Text.caesar_cipher_1 Text.nextLetter :=
  ⟨Text.nextLetter_ne_nul, fun _ rest hm => caesar_eq hm rest⟩

theorem acts_transform : Acts transform (Text.nextLetter ∘ Text.otherCase) := acts_convert.comp acts_caesar

/-- The `k`-th letter from `base` on, in a circle. -/
def letter (base k : Nat) : Byte := BitVec.ofNat 8 (base + k % 26)

theorem nextLetter_letter {base : Nat} (hb : base = 97 ∨ base = 65) (k : Nat) :
    Text.nextLetter (letter base k) = letter base (k + 1) := by
  have hk : k % 26 < 26 := Nat.mod_lt _ (by decide)
  have hnat : (letter base k).toNat = base + k % 26 := by
    unfold letter
    rw [BitVec.toNat_ofNat]
    omega
  unfold Text.nextLetter
  rw [hnat]
  rcases hb with rfl | rfl
  · rw [if_pos (by omega), Nat.add_sub_cancel_left, Nat.mod_add_mod]
    rfl
  · rw [if_neg (by omega), if_pos (by omega), Nat.add_sub_cancel_left, Nat.mod_add_mod]
    rfl

theorem nextLetter_iterate_letter {base : Nat} (hb : base = 97 ∨ base = 65) (n k : Nat) :
    Text.nextLetter^[n] (letter base k) = letter base (k + n) := by
  induction n generalizing k with
  | zero => rfl
  | succ n ih => rw [Function.iterate_succ_apply, nextLetter_letter hb, ih, Nat.add_right_comm, Nat.add_assoc]

theorem Letter.eq_letter {c : Byte} (h : Letter c) : ∃ base k, (base = 97 ∨ base = 65) ∧ c = letter base k := by
  have heq : ∀ base, base ≤ c.toNat → c.toNat < base + 26 → c = letter base (c.toNat - base) := by
    intro base hle hlt
    unfold letter
    rw [Nat.mod_eq_of_lt (by omega), Nat.add_sub_cancel' hle, BitVec.ofNat_toNat, BitVec.setWidth_eq]
  rcases h with h | h
  · exact ⟨97, _, .inl rfl, heq 97 h.1 h.2⟩
  · exact ⟨65, _, .inr rfl, heq 65 h.1 h.2⟩

theorem nextLetter_iterate : Text.nextLetter^[26] = id := by
  funext c
  by_cases hc : Letter c
  · obtain ⟨base, k, hb, rfl⟩ := hc.eq_letter
    rw [nextLetter_iterate_letter hb, id_eq, letter, letter, Nat.add_mod_right]
  · have hfixed : Text.nextLetter c = c := by
      by_contra hne
      exact hc ((nextLetter_ne_iff c).1 hne)
    exact Function.iterate_fixed hfixed 26

theorem otherCase_nextLetter : ∀ c, Text.otherCase (Text.nextLetter c) = Text.nextLetter (Text.otherCase c) := by decide

/-- The stages take turns 26 times: each letter is back. -/
theorem transform_iterate : (Text.nextLetter ∘ Text.otherCase)^[26] = id := by
  have hcomm : Function.Commute Text.nextLetter Text.otherCase := fun c => (otherCase_nextLetter c).symm
  have hinv : Function.Involutive Text.otherCase := Text.otherCase_otherCase
  rw [hcomm.comp_iterate, nextLetter_iterate, hinv.iterate_even (by decide)]
  rfl

/-- Undoes `transform` for `n = 25`: the other case again, and `n` letters on. -/
def untransform (n : Nat) (buf : List Byte) : Option (List Byte) :=
  Text.convert_opposite_case_letters buf >>= times Text.caesar_cipher_1 n

theorem acts_untransform (n : Nat) : Acts (untransform n) (Text.nextLetter^[n] ∘ Text.otherCase) :=
  acts_convert.comp (acts_caesar.times n)

/-- Converting, shifting `n` times, converting and shifting once more is shifting. -/
theorem shift_between (n : Nat) :
    (Text.nextLetter^[n] ∘ Text.otherCase) ∘ (Text.nextLetter ∘ Text.otherCase) = Text.nextLetter^[n + 1] ∧
    (Text.nextLetter ∘ Text.otherCase) ∘ (Text.nextLetter^[n] ∘ Text.otherCase) = Text.nextLetter^[n + 1] := by
  have hcomm : Function.Commute Text.otherCase Text.nextLetter^[n] :=
    Function.Commute.iterate_right otherCase_nextLetter n
  constructor <;> funext c <;> simp only [Function.comp_apply]
  · rw [otherCase_nextLetter, Text.otherCase_otherCase, Function.iterate_succ_apply]
  · rw [hcomm (Text.otherCase c), Text.otherCase_otherCase, Function.iterate_succ_apply']

theorem transform_undone {n : Nat} (hn : Text.nextLetter^[n + 1] = id) {buf : List Byte} (hz : NUL ∈ buf) :
    (transform buf >>= untransform n) = some buf ∧ (untransform n buf >>= transform) = some buf := by
  constructor
  · exact (acts_transform.comp (acts_untransform n)).congr .none (congrFun ((shift_between n).1.trans hn)) hz
  · exact ((acts_untransform n).comp acts_transform).congr .none (congrFun ((shift_between n).2.trans hn)) hz

/-- On terminated buffers: converting twice and shifting 26 times change nothing,
and the stages commute; so the two together can be undone, come back to the start
after 26 times, and tell all messages apart. -/
theorem stage_algebra :
    (∀ buf, NUL ∈ buf →
      (Text.convert_opposite_case_letters buf >>= Text.convert_opposite_case_letters) = some buf ∧
      times Text.caesar_cipher_1 26 buf = some buf ∧
      (Text.convert_opposite_case_letters buf >>= Text.caesar_cipher_1) =
        (Text.caesar_cipher_1 buf >>= Text.convert_opposite_case_letters) ∧
      times transform 26 buf = some buf) ∧
    (∃ inverse : List Byte → Option (List Byte), ∀ buf, NUL ∈ buf →
      (transform buf >>= inverse) = some buf ∧ (inverse buf >>= transform) = some buf) ∧
    ∀ m m' rest rest', NUL ∉ m → NUL ∉ m' → m ≠ m' →
      Text.respond (m ++ NUL :: rest) ≠ Text.respond (m' ++ NUL :: rest') := by
  refine ⟨fun buf hz => ⟨?_, ?_, ?_, ?_⟩, ⟨untransform 25, fun buf hz => transform_undone nextLetter_iterate hz⟩,
    fun m m' rest rest' hm hm' hne he => hne ?_⟩
  · exact (acts_convert.comp acts_convert).congr .none Text.otherCase_otherCase hz
  · exact (acts_caesar.times 26).congr .none (congrFun nextLetter_iterate) hz
  · exact acts_transform.congr (acts_caesar.comp acts_convert) (fun c => (otherCase_nextLetter c).symm) hz
  · exact (acts_transform.times 26).congr .none (congrFun transform_iterate) hz
  · rw [Text.respond_spec (by simp), Text.respond_spec (by simp), cstr_append_cons NUL hm,
      cstr_append_cons NUL hm'] at he
    exact Text.caesar_swapcase_injective (List.append_cancel_right (Option.some.inj he))

end Ex6.Stages
