import Mathlib.Data.List.TakeWhile
import Mathlib.Tactic.Conv
import Ex6.Lib.Loop
/-!
# C strings in byte buffers

A buffer is a list of cells, `z` the cell value that ends a string. `strlen`
is undefined (`none`) on a buffer without a terminator, where the C function
would read on past its end. A loop that updates one cell per iteration leaves
a string whose prefix has been rewritten.
-/

namespace Lib.CString

/-! ## Rewriting a string in place -/

section Rewrite
variable {α : Type} (f : α → α)

/-- `s` once the cells from `i` on have been rewritten: what a loop that has
reached `i` makes of it. -/
def rewriteFrom (i : Nat) (s : List α) : List α := s.take i ++ (s.drop i).map f

@[simp] theorem rewriteFrom_zero (s : List α) : rewriteFrom f 0 s = s.map f := by
  simp [rewriteFrom]

theorem rewriteFrom_of_le {i : Nat} {s : List α} (h : s.length ≤ i) : rewriteFrom f i s = s := by
  simp [rewriteFrom, List.take_of_length_le h, List.drop_of_length_le h]

/-- Rewriting cell `i` is the next step of rewriting from `i` on. -/
theorem rewriteFrom_modify {i : Nat} {s : List α} (h : i < s.length) :
    rewriteFrom f (i + 1) (s.modify i f) = rewriteFrom f i s := by
  have hl : (s.take i ++ [f s[i]]).length = i + 1 := by simp; omega
  have hm : s.modify i f = (s.take i ++ [f s[i]]) ++ s.drop (i + 1) := by
    simp [List.modify_eq_take_cons_drop h]
  have hd : (s.drop i).map f = f s[i] :: (s.drop (i + 1)).map f := by
    rw [List.drop_eq_getElem_cons h, List.map_cons]
  rw [rewriteFrom, rewriteFrom, hm, List.take_left' hl, List.drop_left' hl, hd]
  simp

theorem modify_append_left {i : Nat} {s : List α} (rest : List α) (h : i < s.length) :
    (s ++ rest).modify i f = s.modify i f ++ rest := by
  induction s generalizing i with
  | nil => simp at h
  | cons c s ih =>
    cases i with
    | zero => simp
    | succ i => simp [ih (by simpa using h)]

theorem map_modify {β : Type} {f : α → α} {p : α → β} (hp : ∀ c, p (f c) = p c) (i : Nat) (s : List α) :
    (s.modify i f).map p = s.map p := by
  induction s generalizing i with
  | nil => simp
  | cons c s ih =>
    cases i with
    | zero => simp [hp]
    | succ i => simp [ih]

/-- The loop over a string, with whatever follows it left alone. -/
theorem forLoop_modify (s rest : List α) (i : Nat) :
    forLoop (fun i (b : List α) => b.modify i f) i s.length (s ++ rest) = rewriteFrom f i s ++ rest := by
  induction hk : s.length - i generalizing i s with
  | zero => rw [forLoop_done _ _ (by omega), rewriteFrom_of_le f (by omega)]
  | succ k ih =>
    have hi : i < s.length := by omega
    have := ih (s.modify i f) (i + 1) (by simp; omega)
    rw [forLoop_step _ _ hi, modify_append_left f rest hi, ← rewriteFrom_modify f hi]
    simpa using this

end Rewrite

/-! ## Strings -/

theorem not_mem_map {α : Type} {z : α} {f : α → α} (hf : ∀ c, c ≠ z → f c ≠ z) {s : List α} (h : z ∉ s) :
    z ∉ s.map f := by
  intro hz
  obtain ⟨c, hc, hcz⟩ := List.mem_map.1 hz
  exact hf c (fun he => h (he ▸ hc)) hcz

section Strings
variable {α : Type} [DecidableEq α] (z : α)

/-- The index of the first terminator. -/
def strlen (buf : List α) : Option Nat := buf.findIdx? (fun c => decide (c = z))

/-- The string a buffer holds: the cells before the first terminator. -/
def cstr (buf : List α) : List α := buf.takeWhile (fun c => !decide (c = z))

/-- A buffer after `data` was written at its start. -/
def overwrite (buf data : List α) : List α := data ++ buf.drop data.length

/-- The string of a buffer that begins with cells that are no terminator. -/
theorem cstr_append_left {m : List α} (h : z ∉ m) (rest : List α) : cstr z (m ++ rest) = m ++ cstr z rest := by
  refine List.takeWhile_append_of_pos fun c hc => ?_
  simp only [Bool.not_eq_true', decide_eq_false_iff_not]
  rintro rfl
  exact h hc

theorem cstr_append_cons {m : List α} (h : z ∉ m) (rest : List α) : cstr z (m ++ z :: rest) = m := by
  have hnil : cstr z (z :: rest) = [] := List.takeWhile_cons_of_neg (by simp)
  rw [cstr_append_left z h, hnil, List.append_nil]

theorem cstr_eq_self {m : List α} (h : z ∉ m) : cstr z m = m := by
  simpa [cstr] using cstr_append_left z h []

theorem take_cstr (buf : List α) : buf.take (cstr z buf).length = cstr z buf :=
  (List.prefix_iff_eq_take.1 (List.takeWhile_prefix _)).symm

theorem not_mem_cstr (buf : List α) : z ∉ cstr z buf := by
  intro h
  simpa using List.mem_takeWhile_imp h

/-- A terminated buffer is its string, the terminator, and whatever follows. -/
theorem split_of_mem {buf : List α} (h : z ∈ buf) : ∃ rest, buf = cstr z buf ++ z :: rest := by
  obtain ⟨m, rest, rfl, hm⟩ := List.eq_append_cons_of_mem h
  exact ⟨rest, by rw [cstr_append_cons z hm]⟩

/-- What follows a terminated buffer does not matter. -/
theorem cstr_append {buf : List α} (h : z ∈ buf) (rest : List α) : cstr z (buf ++ rest) = cstr z buf := by
  obtain ⟨tail, ht⟩ := split_of_mem z h
  have hb : buf ++ rest = cstr z buf ++ z :: (tail ++ rest) := by
    conv => lhs; rw [ht]
    simp
  rw [hb, cstr_append_cons z (not_mem_cstr z buf)]

/-- A terminator put after some cells does not change the string they begin with. -/
theorem cstr_cut (m rest : List α) : cstr z (m ++ z :: rest) = cstr z m := by
  by_cases h : z ∈ m
  · exact cstr_append z h _
  · rw [cstr_append_cons z h, cstr_eq_self z h]

omit [DecidableEq α] in
theorem mem_overwrite {buf data : List α} (h : z ∈ data) : z ∈ overwrite buf data := List.mem_append_left _ h

theorem cstr_overwrite {buf data : List α} (h : z ∈ data) : cstr z (overwrite buf data) = cstr z data :=
  cstr_append z h _

theorem cstr_length_lt {buf : List α} (h : z ∈ buf) : (cstr z buf).length < buf.length := by
  obtain ⟨rest, hr⟩ := split_of_mem z h
  have := congrArg List.length hr
  simp only [List.length_append, List.length_cons] at this
  omega

theorem strlen_eq_none {buf : List α} (h : z ∉ buf) : strlen z buf = none := by
  simp only [strlen, List.findIdx?_eq_none_iff, decide_eq_false_iff_not]
  rintro c hc rfl
  exact h hc

theorem strlen_eq_some {buf : List α} (h : z ∈ buf) : strlen z buf = some (cstr z buf).length := by
  induction buf with
  | nil => cases h
  | cons c buf ih =>
    by_cases hc : c = z
    · simp [strlen, cstr, hc, List.findIdx?_cons]
    · have := ih ((List.mem_cons.1 h).resolve_left (Ne.symm hc))
      simp only [strlen, cstr] at this ⊢
      simp [List.findIdx?_cons, hc, this]

theorem strlen_some_iff {buf : List α} {n : Nat} :
    strlen z buf = some n ↔ z ∈ buf ∧ n = (cstr z buf).length := by
  by_cases h : z ∈ buf
  · simp [strlen_eq_some z h, h, eq_comm]
  · simp [strlen_eq_none z h, h]

/-- `strlen` depends only on where the terminators are. -/
theorem strlen_congr {buf buf' : List α} (h : buf.map (fun c => decide (c = z)) = buf'.map (fun c => decide (c = z))) :
    strlen z buf = strlen z buf' := by
  have hmap : ∀ b : List α, strlen z b = (b.map (fun c => decide (c = z))).findIdx? id := fun b => by
    rw [List.findIdx?_map]
    rfl
  rw [hmap, hmap, h]

/-- The string ends within what was written exactly if a terminator was written. -/
theorem strlen_overwrite_lt {buf data : List α} :
    (∃ n < data.length, strlen z (overwrite buf data) = some n) ↔ z ∈ data := by
  constructor
  · rintro ⟨n, hn, hs⟩
    by_contra hz
    obtain ⟨-, rfl⟩ := (strlen_some_iff z).1 hs
    unfold overwrite at hn
    rw [cstr_append_left z hz, List.length_append] at hn
    omega
  · intro h
    exact ⟨_, cstr_length_lt z h, by rw [strlen_eq_some z (mem_overwrite z h), cstr_overwrite z h]⟩

/-- `strlen + 1` bytes of a terminated buffer are its string and the terminator. -/
theorem take_strlen_succ {buf : List α} (h : z ∈ buf) :
    buf.take ((cstr z buf).length + 1) = cstr z buf ++ [z] := by
  obtain ⟨rest, hr⟩ := split_of_mem z h
  have hb : buf = (cstr z buf ++ [z]) ++ rest := by simpa using hr
  conv_lhs => rw [hb]
  exact List.take_left' (by rw [← hb]; simp)

/-- The loop over all of a terminated buffer's string rewrites exactly it. -/
theorem forLoop_string {f : α → α} (hf : ∀ c, c ≠ z → f c ≠ z) {buf : List α} (hz : z ∈ buf) :
    let out := forLoop (fun i (b : List α) => b.modify i f) 0 (cstr z buf).length buf
    z ∈ out ∧ cstr z out = (cstr z buf).map f ∧ out.length = buf.length ∧
      out.drop (cstr z buf).length = buf.drop (cstr z buf).length := by
  obtain ⟨rest, hr⟩ := split_of_mem z hz
  have ho : forLoop (fun i (b : List α) => b.modify i f) 0 (cstr z buf).length buf =
      (cstr z buf).map f ++ z :: rest := by
    conv_lhs => rw [hr, cstr_append_cons z (not_mem_cstr z buf)]
    rw [forLoop_modify, rewriteFrom_zero]
  have hl := congrArg List.length hr
  have hd : buf.drop (cstr z buf).length = z :: rest := by
    conv_lhs => rw [hr, cstr_append_cons z (not_mem_cstr z buf)]
    exact List.drop_left
  rw [ho, hd]
  refine ⟨by simp, cstr_append_cons z (not_mem_map hf (not_mem_cstr z buf)) rest, ?_, ?_⟩
  · simpa using hl.symm
  · exact List.drop_left' (by simp)

/-! ## Streams of strings -/

/-- Strings sent one after the other, each with its terminator. -/
def stream (ss : List (List α)) : List α := ss.flatMap (· ++ [z])

omit [DecidableEq α] in
theorem stream_cons (s : List α) (ss : List (List α)) : stream z (s :: ss) = s ++ z :: stream z ss := by
  simp [stream]

/-- A stream is read in one way only. -/
theorem stream_injective {ss ts : List (List α)} (hs : ∀ s ∈ ss, z ∉ s) (ht : ∀ t ∈ ts, z ∉ t)
    (h : stream z ss = stream z ts) : ss = ts := by
  induction ss generalizing ts with
  | nil =>
    cases ts with
    | nil => rfl
    | cons t ts => simp [stream] at h
  | cons s ss ih =>
    cases ts with
    | nil => simp [stream] at h
    | cons t ts =>
      rw [stream_cons, stream_cons] at h
      have hst : s = t := by
        rw [← cstr_append_cons z (hs s (by simp)) (stream z ss), h, cstr_append_cons z (ht t (by simp))]
      subst hst
      simp only [List.append_cancel_left_eq, List.cons.injEq, true_and] at h
      rw [ih (fun s' h' => hs s' (by simp [h'])) (fun t' h' => ht t' (by simp [h'])) h]

end Strings

end Lib.CString
