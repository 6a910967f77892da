import Mathlib.Data.Stream.Init
import Ex6.Client
/-!
# What the client reads

`get_input` on every sequence of values `getc` may return, the end of the file
among them at any point and more than once. `all_proper_iff` says of which
inputs the buffer holds a string after each call. An input that ends for good
is the `stdin` of the client's session (`get_input_ofList`).
-/
open Lib Lib.CString

namespace Ex6.ClientInput
open Ex6.Client (BUFFERSIZE NEWLINE Line)

/-- What `getc(stdin)` returns, call by call; `none` is `EOF`. -/
abbrev Input := Stream' (Option Byte)

/-- The value as a `char`: `EOF` is -1. -/
def char : Option Byte → Byte
  | none => 255#8
  | some c => c

/-- The loop of `get_input` at `i`, with `fuel` iterations to go. -/
def read_line : (fuel i : Nat) → Input → List Byte → List Byte × Input
  | 0, _, stdin, buffer => (buffer, stdin)
  | fuel + 1, i, stdin, buffer =>
    let c := char stdin.head
    if c = NEWLINE then (buffer.set i NUL, stdin.tail)
    else read_line fuel (i + 1) stdin.tail (buffer.set i c)

/-- `get_input`: the new content of `buffer`, and what is left of the input. -/
def get_input (stdin : Input) : List Byte × Input :=
  read_line BUFFERSIZE 0 stdin (List.replicate BUFFERSIZE NUL)

/-! ## Pieces of the input -/

/-- The characters up to a newline, or `n` of them where none comes before. -/
def piece (n : Nat) (stdin : Input) : List Byte :=
  ((stdin.take n).map char).takeWhile fun c => decide (c ≠ NEWLINE)

/-- What `k` calls read, one piece after the other. -/
def pieces : Nat → Input → List (List Byte)
  | 0, _ => []
  | k + 1, stdin =>
    piece BUFFERSIZE stdin :: pieces k (stdin.drop (min ((piece BUFFERSIZE stdin).length + 1) BUFFERSIZE))

theorem piece_succ (n : Nat) (stdin : Input) : piece (n + 1) stdin =
    if char stdin.head = NEWLINE then [] else char stdin.head :: piece n stdin.tail := by
  unfold piece
  rw [Stream'.take_succ, List.map_cons, List.takeWhile_cons]
  split <;> simp_all

theorem piece_length_le (n : Nat) (stdin : Input) : (piece n stdin).length ≤ n := by
  have h := (List.takeWhile_prefix (fun c => decide (c ≠ NEWLINE)) (l := (stdin.take n).map char)).length_le
  rwa [List.length_map, Stream'.length_take] at h

theorem read_line_eq (n : Nat) (stdin : Input) (done : List Byte) :
    read_line n done.length stdin (done ++ List.replicate n NUL) =
      (done ++ piece n stdin ++ List.replicate (n - (piece n stdin).length) NUL,
        stdin.drop (min ((piece n stdin).length + 1) n)) := by
  induction n generalizing stdin done with
  | zero => simp [read_line, piece]
  | succ n ih =>
    by_cases hc : char stdin.head = NEWLINE
    · have hset : (done ++ List.replicate (n + 1) NUL).set done.length NUL = done ++ List.replicate (n + 1) NUL := by
        simp [List.replicate_succ]
      simp only [read_line, piece_succ, if_pos hc, hset, List.length_nil, List.append_nil, Nat.sub_zero, Nat.zero_add,
        Nat.min_eq_left (Nat.le_add_left 1 n)]
      rfl
    · have hset : (done ++ List.replicate (n + 1) NUL).set done.length (char stdin.head) =
          (done ++ [char stdin.head]) ++ List.replicate n NUL := by
        simp [List.replicate_succ]
      have hrec := ih stdin.tail (done ++ [char stdin.head])
      rw [List.length_append, List.length_singleton] at hrec
      simp only [read_line, piece_succ, if_neg hc, hset, hrec, List.length_cons, Nat.add_sub_add_right,
        Nat.add_min_add_right, Stream'.drop_succ]
      rw [List.append_assoc done [_], List.singleton_append]

/-- A call leaves its piece in the buffer, and zeros behind it. -/
theorem get_input_eq (stdin : Input) : get_input stdin =
    (piece BUFFERSIZE stdin ++ List.replicate (BUFFERSIZE - (piece BUFFERSIZE stdin).length) NUL,
      stdin.drop (min ((piece BUFFERSIZE stdin).length + 1) BUFFERSIZE)) :=
  read_line_eq BUFFERSIZE stdin []

theorem length_buffer (stdin : Input) : (get_input stdin).1.length = BUFFERSIZE := by
  have := piece_length_le BUFFERSIZE stdin
  rw [get_input_eq, List.length_append, List.length_replicate]
  omega

/-- A piece shorter than the buffer leaves room for a terminator. -/
theorem nul_mem_buffer (stdin : Input) :
    NUL ∈ (get_input stdin).1 ↔ (piece BUFFERSIZE stdin).length < BUFFERSIZE ∨ NUL ∈ piece BUFFERSIZE stdin := by
  rw [get_input_eq, List.mem_append, List.mem_replicate]
  constructor
  · rintro (hz | ⟨hne, -⟩)
    · exact .inr hz
    · exact .inl (Nat.lt_of_sub_ne_zero hne)
  · rintro (hlt | hz)
    · exact .inr ⟨Nat.sub_ne_zero_of_lt hlt, rfl⟩
    · exact .inl hz

/-- A line that fits is a piece. -/
theorem piece_line {l : List Byte} (hlen : l.length < BUFFERSIZE) (hn : NEWLINE ∉ l) (rest : Input) :
    piece BUFFERSIZE (Stream'.appendStream' ((l ++ [NEWLINE]).map some) rest) = l := by
  obtain ⟨m, hm⟩ : ∃ m, BUFFERSIZE = ((l ++ [NEWLINE]).map some).length + m :=
    ⟨BUFFERSIZE - (l.length + 1), by rw [List.length_map, List.length_append, List.length_singleton]; omega⟩
  have hchars : ((l ++ [NEWLINE]).map some).map char = l ++ [NEWLINE] := by
    rw [List.map_map]
    exact List.map_id _
  have hall : ∀ c ∈ l, decide (c ≠ NEWLINE) = true := fun c hc => decide_eq_true fun he => hn (he ▸ hc)
  rw [piece, hm, ← Stream'.append_take, List.map_append, hchars, List.append_assoc,
    List.takeWhile_append_of_pos hall]
  simp

/-! ## A string in the buffer -/

/-- What `main` may expect of `buffer` after a call on `stdin`: a string that ends in
it, so that no more is sent than there is, and the line that was typed, if it fits. -/
structure Proper (stdin : Input) (buffer : List Byte) : Prop where
  length : buffer.length = BUFFERSIZE
  nul : NUL ∈ buffer
  inside : ∃ n, strlen NUL buffer = some n ∧ n ≤ 1023 ∧ n + 1 ≤ buffer.length
  line : ∀ l rest, Line l → stdin = Stream'.appendStream' ((l ++ [NEWLINE]).map some) rest → cstr NUL buffer = l

/-- After each of the next `k` calls. -/
def AllProper : Nat → Input → Prop
  | 0, _ => True
  | k + 1, stdin => Proper stdin (get_input stdin).1 ∧ AllProper k (get_input stdin).2

theorem proper_iff (stdin : Input) : Proper stdin (get_input stdin).1 ↔
    (piece BUFFERSIZE stdin).length < BUFFERSIZE ∨ NUL ∈ piece BUFFERSIZE stdin := by
  rw [← nul_mem_buffer]
  refine ⟨fun h => h.nul, fun hz => ⟨length_buffer stdin, hz, ?_, ?_⟩⟩
  · have hlt := cstr_length_lt NUL hz
    rw [length_buffer] at hlt ⊢
    exact ⟨_, strlen_eq_some NUL hz, Nat.le_of_lt_succ hlt, hlt⟩
  · rintro l rest hl rfl
    have hlen : l.length < BUFFERSIZE := Nat.lt_succ_of_le hl.length
    obtain ⟨k, hk⟩ : ∃ k, BUFFERSIZE - l.length = k + 1 := ⟨BUFFERSIZE - l.length - 1, by omega⟩
    rw [get_input_eq, piece_line hlen hl.newline, hk, List.replicate_succ]
    exact cstr_append_cons NUL hl.nul _

/-- The buffer holds a proper string after each of `k` calls exactly if none of the
pieces they read fills it without a NUL. -/
theorem all_proper_iff (k : Nat) (stdin : Input) :
    AllProper k stdin ↔ ∀ p ∈ pieces k stdin, p.length < BUFFERSIZE ∨ NUL ∈ p := by
  induction k generalizing stdin with
  | zero => simp [AllProper, pieces]
  | succ k ih =>
    have hrest : (get_input stdin).2 = stdin.drop (min ((piece BUFFERSIZE stdin).length + 1) BUFFERSIZE) := by
      rw [get_input_eq]
    simp only [AllProper, pieces, proper_iff, ih, hrest, List.forall_mem_cons]

/-- The end of the file is read as a character, time and again. -/
theorem piece_eof (n : Nat) : piece n (Stream'.const none) = List.replicate n 255#8 := by
  induction n with
  | zero => rfl
  | succ n ih =>
    rw [piece_succ, if_neg (by decide), Stream'.tail_const, ih, List.replicate_succ]
    rfl

theorem read_line_eof (n : Nat) : read_line n 0 (Stream'.const none) (List.replicate n NUL) =
    (List.replicate n 255#8, Stream'.const none) := by
  have hread := read_line_eq n (Stream'.const none) []
  simpa [piece_eof, Stream'.drop_const] using hread

/-- At the end of the file 1024 such characters fill the buffer. -/
theorem eof_unterminated : ¬ ∀ (k : Nat) (stdin : Input), AllProper k stdin := by
  intro h
  have hpiece := (proper_iff _).1 (h 1 (Stream'.const none)).1
  rw [piece_eof, List.length_replicate] at hpiece
  rcases hpiece with hlt | hz
  · exact Nat.lt_irrefl _ hlt
  · cases (List.mem_replicate.1 hz).2

/-! ## The end of the input -/

/-- An input that is at its end after `l`. -/
def ofList (l : List Byte) : Input := fun i => l[i]?

theorem head_ofList (l : List Byte) : char (ofList l).head = (Client.getc l).1 := by
  cases l <;> rfl

theorem tail_ofList (l : List Byte) : (ofList l).tail = ofList (Client.getc l).2 := by
  cases l <;> rfl

theorem read_line_ofList (n i : Nat) (l buffer : List Byte) : read_line n i (ofList l) buffer =
    ((Client.read_line n i l buffer).1, ofList (Client.read_line n i l buffer).2) := by
  induction n generalizing i l buffer with
  | zero => rfl
  | succ n ih =>
    simp only [read_line, Client.read_line, head_ofList, tail_ofList]
    split
    · rfl
    · exact ih _ _ _

theorem get_input_ofList (l : List Byte) :
    get_input (ofList l) = ((Client.get_input l).1, ofList (Client.get_input l).2) :=
  read_line_ofList _ _ _ _

/-- Where nothing is left, the buffer is full of what `EOF` reads as. -/
theorem get_input_nil : (Client.get_input []).1 = List.replicate BUFFERSIZE 255#8 := by
  have hread := get_input_ofList []
  rw [show ofList [] = Stream'.const none from rfl, get_input, read_line_eof] at hread
  exact (Prod.mk.inj hread).1.symm

end Ex6.ClientInput
