import Mathlib.Data.List.Chain
import Ex6.Text
/-!
# The client in step with the active-object server

The client sends each line with its terminator and shows what one `recv`
returns. A reply can be one byte longer than what that `recv` asks for, and the
byte that stays behind comes first in the next reply. `in_step_iff` says for
which lines this is seen.
-/
open Lib Lib.CString Ex6.Text

namespace Ex6.Client

abbrev BUFFERSIZE : Nat := 1024

abbrev NEWLINE : Byte := 10#8

/-- `getc(stdin)` as a `char`; the end of the file reads as 255. -/
def getc : List Byte → Byte × List Byte
  | [] => (255#8, [])
  | c :: stdin => (c, stdin)

/-- The loop of `get_input` at `i`, with `fuel` iterations to go. -/
def read_line : (fuel i : Nat) → (stdin buffer : List Byte) → List Byte × List Byte
  | 0, _, stdin, buffer => (buffer, stdin)
  | fuel + 1, i, stdin, buffer =>
    let (c, stdin) := getc stdin
    if c = NEWLINE then (buffer.set i NUL, stdin)
    else read_line fuel (i + 1) stdin (buffer.set i c)

/-- `get_input`: the new content of `buffer`, and what is left of `stdin`. -/
def get_input (stdin : List Byte) : List Byte × List Byte :=
  read_line BUFFERSIZE 0 stdin (List.replicate BUFFERSIZE NUL)

structure Session where
  stdin : List Byte
  buf : List Byte
  /-- Sent by the server and not received. -/
  pending : List Byte
  /-- The strings shown as received. -/
  printed : List (List Byte)

/-- `recv(sockfd, buf, BUFFERSIZE-1, 0)` returns what there is, up to that size;
the client terminates it and shows it. -/
def receive (s : Session) : Session :=
  let data := s.pending.take (BUFFERSIZE - 1)
  let buf := (overwrite s.buf data).set data.length NUL
  { s with pending := s.pending.drop (BUFFERSIZE - 1), buf, printed := s.printed ++ [cstr NUL buf] }

/-- One iteration of the client's loop. What it sends comes to the server in one
`recv`, into a buffer that held `junk`, and is answered. -/
def exchange (junk : List Byte) (s : Session) : Option Session := do
  let (buffer, stdin) := get_input s.stdin
  let sent ← send_message buffer
  let bytes ← respond (overwrite junk sent)
  return receive { s with stdin, pending := s.pending ++ bytes }

/-- One exchange for each server buffer. -/
def session : List (List Byte) → Session → Option Session
  | [], s => some s
  | junk :: junks, s => exchange junk s >>= session junks

/-! ## A line -/

/-- What can be typed as one line. -/
structure Line (l : List Byte) : Prop where
  length : l.length ≤ 1023
  newline : NEWLINE ∉ l
  nul : NUL ∉ l

theorem read_line_spec {l : List Byte} (hn : NEWLINE ∉ l) (rest done tail : List Byte) {fuel : Nat}
    (hf : l.length < fuel) (ht : fuel ≤ tail.length) :
    read_line fuel done.length (l ++ NEWLINE :: rest) (done ++ tail) =
      (done ++ l ++ NUL :: tail.drop (l.length + 1), rest) := by
  induction l generalizing fuel done tail with
  | nil =>
    obtain ⟨fuel, rfl⟩ : ∃ k, fuel = k + 1 := ⟨fuel - 1, by simp at hf; omega⟩
    cases tail with
    | nil => simp at ht
    | cons b tail => simp [read_line, getc]
  | cons c l ih =>
    obtain ⟨fuel, rfl⟩ : ∃ k, fuel = k + 1 := ⟨fuel - 1, by simp at hf; omega⟩
    have hc : c ≠ NEWLINE := fun he => hn (by simp [he])
    cases tail with
    | nil => simp at ht
    | cons b tail =>
      have hrest := ih (fun h => hn (by simp [h])) (done ++ [c]) tail (show l.length < fuel by simpa using hf)
        (by simpa using ht)
      simp only [List.length_append, List.length_singleton, List.append_assoc, List.singleton_append] at hrest
      simp [read_line, getc, hc, hrest]

/-- `get_input` leaves the line in `buffer`, and zeros behind it. -/
theorem get_input_line {l : List Byte} (hl : l.length ≤ 1023) (hn : NEWLINE ∉ l) (rest : List Byte) :
    get_input (l ++ NEWLINE :: rest) = (l ++ NUL :: List.replicate (1023 - l.length) NUL, rest) := by
  have hread := read_line_spec hn rest [] (List.replicate BUFFERSIZE NUL)
    (show l.length < BUFFERSIZE by simp only [BUFFERSIZE]; omega) (by simp)
  simp only [List.length_nil, List.nil_append, List.drop_replicate] at hread
  rw [get_input, hread]
  congr 4
  simp only [BUFFERSIZE]
  omega

theorem get_input_spec {l : List Byte} (h : Line l) (rest : List Byte) :
    get_input (l ++ NEWLINE :: rest) = (l ++ NUL :: List.replicate (1023 - l.length) NUL, rest) :=
  get_input_line h.length h.newline rest

/-! ## An exchange -/

variable {s s' : Session} {l rest : List Byte} {lines junks : List (List Byte)}

/-- The text of the reply to a line. -/
def text (l : List Byte) : List Byte := caesar (swapcase l)

theorem cstr_text (h : Line l) : cstr NUL (text l ++ [NUL]) = text l :=
  cstr_append_cons NUL (not_mem_caesar (not_mem_swapcase h.nul)) []

/-- An exchange took a line off `stdin`, showed `shown` and left `left` pending. -/
structure Exchanged (s s' : Session) (rest shown left : List Byte) : Prop where
  stdin : s'.stdin = rest
  buf : s'.buf.length = BUFFERSIZE
  printed : s'.printed = s.printed ++ [shown]
  pending : s'.pending = left

/-- What is shown of the pending bytes, whatever `buf` held. -/
theorem receive_spec (hb : s.buf.length = BUFFERSIZE) :
    Exchanged s (receive s) s.stdin (cstr NUL (s.pending.take 1023 ++ [NUL])) (s.pending.drop 1023) := by
  have hlen : (s.pending.take 1023).length < s.buf.length := by
    rw [hb, List.length_take]; simp only [BUFFERSIZE]; omega
  obtain ⟨b, tail, hdrop⟩ : ∃ b tail, s.buf.drop (s.pending.take 1023).length = b :: tail :=
    ⟨_, _, List.drop_eq_getElem_cons hlen⟩
  have hbuf : (overwrite s.buf (s.pending.take 1023)).set (s.pending.take 1023).length NUL =
      (s.pending.take 1023 ++ [NUL]) ++ tail := by
    rw [overwrite, hdrop]
    simp
  have hl := congrArg List.length hdrop
  simp only [List.length_drop, List.length_cons] at hl
  refine ⟨rfl, ?_, ?_, rfl⟩
  · simp only [receive, BUFFERSIZE, Nat.add_one_sub_one, hbuf] at hb ⊢
    simp only [List.length_append, List.length_singleton]
    omega
  · simp only [receive, BUFFERSIZE, Nat.add_one_sub_one, hbuf]
    rw [cstr_append NUL (by simp)]

theorem exchange_spec (h : Line l) (hs : s.stdin = l ++ NEWLINE :: rest) (hb : s.buf.length = BUFFERSIZE)
    (junk : List Byte) : ∃ s', exchange junk s = some s' ∧
      Exchanged s s' rest (cstr NUL ((s.pending ++ reply l).take 1023 ++ [NUL]))
        ((s.pending ++ reply l).drop 1023) := by
  have hz : NUL ∈ l ++ NUL :: List.replicate (1023 - l.length) NUL := by simp
  have hr := receive_spec (s := { s with stdin := rest, pending := s.pending ++ reply l }) hb
  refine ⟨_, ?_, hr.stdin, hr.buf, hr.printed, hr.pending⟩
  simp only [exchange, hs, get_input_spec h, send_message_spec hz, cstr_append_cons NUL h.nul, Option.bind_eq_bind,
    Option.bind_some, respond_message junk h.nul]
  rfl

/-- With nothing pending, a line below the limit is answered and nothing stays. -/
theorem shown_short (h : Line l) (hl : l.length ≠ 1023) :
    cstr NUL ((reply l).take 1023 ++ [NUL]) = text l ∧ (reply l).drop 1023 = [] := by
  have hlen : (reply l).length ≤ 1023 := by have := h.length; simp only [length_reply]; omega
  have hz : NUL ∈ reply l := by simp [reply]
  constructor
  · rw [List.take_of_length_le hlen, cstr_append NUL hz, reply, ← text, cstr_text h]
  · exact List.drop_of_length_le hlen

/-- At the limit the reply's terminator stays behind. -/
theorem shown_full (h : Line l) (hl : l.length = 1023) :
    cstr NUL ((reply l).take 1023 ++ [NUL]) = text l ∧ (reply l).drop 1023 = [NUL] := by
  have hlen : (text l).length = 1023 := by simp [text, hl]
  constructor
  · rw [reply, ← text, List.take_left' hlen, cstr_text h]
  · rw [reply, ← text, List.drop_left' hlen]

/-- A reply with a NUL before it is shown as the empty string. -/
theorem shown_behind (l : List Byte) :
    cstr NUL ((NUL :: reply l).take 1023 ++ [NUL]) = [] ∧ (l = [] → (NUL :: reply l).drop 1023 = []) := by
  refine ⟨rfl, ?_⟩
  rintro rfl
  rfl

/-! ## A session -/

theorem printed_mono (h : session junks s = some s') : s.printed <+: s'.printed := by
  induction junks generalizing s with
  | nil =>
    cases h
    exact List.prefix_refl _
  | cons junk junks ih =>
    obtain ⟨s1, h1, h2⟩ := Option.bind_eq_some_iff.1 h
    simp only [exchange, Option.bind_eq_bind, Option.bind_eq_some_iff] at h1
    obtain ⟨_, -, _, -, h1⟩ := h1
    cases h1
    exact (List.prefix_append _ _).trans (ih h2)

/-- The session ends having shown the replies to `lines`, each for its line. -/
def Shows (junks : List (List Byte)) (s : Session) (lines : List (List Byte)) : Prop :=
  ∃ s', session junks s = some s' ∧ s'.printed = s.printed ++ lines.map text

/-- A line of full length is followed by an empty one. -/
def FullThenEmpty (l l' : List Byte) : Prop := l.length = 1023 → l' = []

/-- One exchange that shows the right string. -/
theorem shows_cons {s1 : Session} {junk : List Byte} (he : exchange junk s = some s1)
    (hp : s1.printed = s.printed ++ [text l]) : Shows (junk :: junks) s (l :: lines) ↔ Shows junks s1 lines := by
  simp [Shows, session, he, hp]

/-- The induction carries what is pending: nothing, or a terminator left behind. -/
theorem shows_iff (hl : ∀ l ∈ lines, Line l) (hj : junks.length = lines.length) (hb : s.buf.length = BUFFERSIZE)
    (hs : s.stdin = stream NEWLINE lines) :
    (s.pending = [] → (Shows junks s lines ↔ lines.IsChain FullThenEmpty)) ∧
    (s.pending = [NUL] → (Shows junks s lines ↔ (∀ l ∈ lines.head?, l = []) ∧ lines.IsChain FullThenEmpty)) := by
  induction lines generalizing junks s with
  | nil =>
    obtain rfl : junks = [] := List.eq_nil_of_length_eq_zero hj
    simp [Shows, session]
  | cons l lines ih =>
    obtain ⟨junk, junks, rfl⟩ : ∃ junk js, junks = junk :: js := List.exists_cons_of_length_eq_add_one hj
    have hline := hl l (by simp)
    rw [stream_cons] at hs
    obtain ⟨s1, he, hx⟩ := exchange_spec hline hs hb junk
    have hnext := @ih s1 junks (fun l' h' => hl l' (by simp [h'])) (by simpa using hj) hx.buf hx.stdin
    refine ⟨fun hp => ?_, fun hp => ?_⟩
    · rw [hp, List.nil_append] at hx
      by_cases hfull : l.length = 1023
      · obtain ⟨hshown, hleft⟩ := shown_full hline hfull
        rw [hshown, hleft] at hx
        rw [shows_cons he hx.printed, hnext.2 hx.pending, List.isChain_cons]
        simp [FullThenEmpty, hfull]
      · obtain ⟨hshown, hleft⟩ := shown_short hline hfull
        rw [hshown, hleft] at hx
        rw [shows_cons he hx.printed, hnext.1 hx.pending, List.isChain_cons]
        simp [FullThenEmpty, hfull]
    · rw [hp, List.singleton_append] at hx
      obtain ⟨hshown, hleft⟩ := shown_behind l
      rw [hshown] at hx
      by_cases hempty : l = []
      · subst hempty
        rw [hleft rfl] at hx
        rw [shows_cons (l := []) he hx.printed, hnext.1 hx.pending, List.isChain_cons]
        simp [FullThenEmpty]
      · refine iff_of_false ?_ (fun h => hempty (h.1 l rfl))
        rintro ⟨s', hses, hprinted⟩
        -- the empty string was shown, where the line's text should have been
        simp only [session, he, Option.bind_eq_bind, Option.bind_some] at hses
        have hpre := printed_mono hses
        rw [hx.printed, hprinted, List.prefix_append_right_inj, List.map_cons, List.cons_prefix_cons] at hpre
        have := congrArg List.length hpre.1
        simp only [text, length_caesar, length_swapcase, List.length_nil] at this
        exact hempty (List.eq_nil_of_length_eq_zero this.symm)

/-- The client shows for each line the reply to that line if and only if every line
of exactly 1023 characters is the last or is followed by an empty one. -/
theorem in_step_iff {buf : List Byte} (hb : buf.length = BUFFERSIZE) (hl : ∀ l ∈ lines, Line l)
    (hj : junks.length = lines.length) :
    (∃ s, session junks ⟨stream NEWLINE lines, buf, [], []⟩ = some s ∧
      s.printed = lines.map fun l => caesar (swapcase l)) ↔ lines.IsChain FullThenEmpty :=
  (shows_iff (s := ⟨stream NEWLINE lines, buf, [], []⟩) hl hj hb rfl).1 rfl

theorem line_full : Line (List.replicate 1023 97#8) where
  length := List.length_replicate.le
  newline hn := by cases (List.mem_replicate.1 hn).2
  nul hz := by cases (List.mem_replicate.1 hz).2

/-- A full line, the empty one that takes up its terminator, and "hi". -/
theorem in_step_iff_three : ∃ s,
    session [[], [], []] ⟨stream NEWLINE [List.replicate 1023 97#8, [], [104#8, 105#8]],
      List.replicate BUFFERSIZE NUL, [], []⟩ = some s ∧
      s.printed = [List.replicate 1023 66#8, [], [73#8, 74#8]] := by
  have hl : ∀ l ∈ [List.replicate 1023 97#8, [], [104#8, 105#8]], Line l := by
    intro l h
    simp only [List.mem_cons, List.not_mem_nil, or_false] at h
    rcases h with rfl | rfl | rfl
    · exact line_full
    · exact ⟨by decide, by decide, by decide⟩
    · exact ⟨by decide, by decide, by decide⟩
  have hchain : [List.replicate 1023 97#8, [], [104#8, 105#8]].IsChain FullThenEmpty :=
    List.isChain_cons_cons.2 ⟨fun _ => rfl, List.isChain_pair.2 fun h => by cases h⟩
  have hbuf : (List.replicate BUFFERSIZE NUL).length = BUFFERSIZE := List.length_replicate
  obtain ⟨s, hs, hprinted⟩ := (@in_step_iff _ [[], [], []] _ hbuf hl rfl).2 hchain
  refine ⟨s, hs, ?_⟩
  rw [hprinted, List.map_cons, swapcase, List.map_replicate, caesar, List.map_replicate]
  rfl

/-- Behind a line of 1023 letters, `b` is answered with the empty string. -/
theorem full_line : (∀ l ∈ [List.replicate 1023 97#8, [98#8]], Line l) ∧
    ¬ ∃ s, session [[], []]
        ⟨stream NEWLINE [List.replicate 1023 97#8, [98#8]], List.replicate BUFFERSIZE NUL, [], []⟩ = some s ∧
      s.printed = [List.replicate 1023 97#8, [98#8]].map fun l => caesar (swapcase l) := by
  have hl : ∀ l ∈ [List.replicate 1023 97#8, [98#8]], Line l := by
    intro l h
    rcases List.mem_pair.1 h with rfl | rfl
    · exact line_full
    · exact ⟨by decide, by decide, by decide⟩
  refine ⟨hl, fun h => ?_⟩
  have hb : (List.replicate BUFFERSIZE NUL).length = BUFFERSIZE := List.length_replicate
  have hchain := ((@shows_iff ⟨_, _, [], []⟩ _ [[], []] hl rfl hb rfl).1 rfl).1 h
  cases (List.isChain_cons_cons.1 hchain).1 List.length_replicate

end Ex6.Client
