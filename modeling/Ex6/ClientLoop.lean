import Mathlib.Data.Nat.Find
import Ex6.ClientInput
/-!
# The client's loop

The loop of the client sends what `get_input` has read and receives an answer,
until one of the two calls returns -1. It takes neither the end of its input nor
the end of the connection for an end. `ends_iff` says for which answers of the
kernel it stops in time.
-/
open Lib Lib.CString Ex6.Text

namespace Ex6.ClientLoop
open Ex6.Client (BUFFERSIZE NEWLINE get_input)

/-- What the `i`-th `send` and `recv` do: whether the bytes are taken, and what comes,
or -1. A `send` after a reset, which kills the client, counts as one that fails. -/
structure Answers where
  sends : Nat → Bool
  recvs : Nat → Option (List Byte)

/-- A message that was sent, or what `recv` returned. -/
inductive Act
  | sent (bytes : List Byte)
  | received (data : Option (List Byte))
deriving Repr, DecidableEq

/-- The loop, with what it has done and shown so far. -/
structure Loop where
  stdin : List Byte
  buf : List Byte
  acts : List Act
  printed : List (List Byte)

/-- Undefined where `strlen` runs off the buffer. -/
inductive Outcome
  | next (s : Loop)
  | ended (s : Loop)
  | undefined

/-- One iteration. `break` is `ended`. -/
def iteration (sends : Bool) (recv : Option (List Byte)) (s : Loop) : Outcome :=
  let (buffer, stdin) := get_input s.stdin
  match send_message buffer with
  | none => .undefined
  | some bytes =>
    if sends = false then .ended { s with stdin }
    else
      let s := { s with stdin, acts := s.acts ++ [.sent bytes, .received recv] }
      match recv with
      | none => .ended s
      | some data =>
        let buf := (overwrite s.buf data).set data.length NUL
        .next { s with buf, printed := s.printed ++ [cstr NUL buf] }

/-- `while(1)` from iteration `i` on, for at most `fuel` of them. -/
def main_loop (ans : Answers) : (fuel i : Nat) → Loop → Outcome
  | 0, _, s => .next s
  | fuel + 1, i, s =>
    match iteration (ans.sends i) (ans.recvs i) s with
    | .next s => main_loop ans fuel (i + 1) s
    | outcome => outcome

/-- What is sent for a line. -/
def message (l : List Byte) : List Byte := cstr NUL (l ++ [NUL]) ++ [NUL]

/-- What can be typed as one line. -/
def Typed (l : List Byte) : Prop := l.length ≤ 1023 ∧ NEWLINE ∉ l

def Act.bytes : Act → Option (List Byte)
  | .sent bytes => some bytes
  | _ => none

/-- `recv` has returned 0 or -1. -/
def Act.closes : Act → Bool
  | .received none | .received (some []) => true
  | _ => false

/-! ## One iteration -/

variable {ans : Answers} {s t : Loop} {l rest : List Byte} {lines : List (List Byte)} {i : Nat}

theorem send_message_line (l : List Byte) (n : Nat) :
    send_message (l ++ NUL :: List.replicate n NUL) = some (message l) := by
  have hsplit : l ++ NUL :: List.replicate n NUL = (l ++ [NUL]) ++ List.replicate n NUL := by simp
  rw [send_message_spec (by simp), hsplit, cstr_append NUL (by simp)]
  rfl

/-- The iteration ends the loop. -/
def Breaks (ans : Answers) (i : Nat) : Prop := ans.sends i = false ∨ ans.recvs i = none

/-- With a line to read, an iteration sends it, unless the `send` fails. -/
theorem iteration_line (hl : Typed l) (hs : s.stdin = l ++ NEWLINE :: rest) (sends : Bool)
    (recv : Option (List Byte)) : ∃ t, t.stdin = rest ∧
      ((sends = false ∧ iteration sends recv s = .ended t ∧ t.acts = s.acts) ∨
        (sends = true ∧ iteration sends recv s = (if recv = none then .ended t else .next t) ∧
          t.acts = s.acts ++ [.sent (message l), .received recv])) := by
  have hread : get_input s.stdin = (l ++ NUL :: List.replicate (1023 - l.length) NUL, rest) := by
    rw [hs, Client.get_input_line hl.1 hl.2]
  cases sends with
  | false =>
    refine ⟨{ s with stdin := rest }, rfl, .inl ⟨rfl, ?_, rfl⟩⟩
    simp only [iteration, hread, send_message_line, if_true]
  | true =>
    cases recv with
    | none =>
      refine ⟨{ s with stdin := rest, acts := s.acts ++ [.sent (message l), .received none] }, rfl,
        .inr ⟨rfl, ?_, rfl⟩⟩
      simp [iteration, hread, send_message_line]
    | some data =>
      refine ⟨{ s with
        stdin := rest
        acts := s.acts ++ [.sent (message l), .received (some data)]
        buf := (overwrite s.buf data).set data.length NUL
        printed := s.printed ++ [cstr NUL ((overwrite s.buf data).set data.length NUL)] }, rfl, .inr ⟨rfl, ?_, rfl⟩⟩
      simp [iteration, hread, send_message_line]

theorem send_message_eof (n : Nat) : send_message (List.replicate n 255#8) = none := by
  have hz : NUL ∉ List.replicate n 255#8 := fun h => by
    cases (List.mem_replicate.1 h).2
  rw [send_message, strlen_eq_none NUL hz]
  rfl

/-- Past the last line the buffer is full of `EOF`s, and has no terminator. -/
theorem iteration_eof (hs : s.stdin = []) (sends : Bool) (recv : Option (List Byte)) :
    iteration sends recv s = .undefined := by
  have hbuffer : (get_input s.stdin).1 = List.replicate BUFFERSIZE 255#8 := by
    rw [hs, ClientInput.get_input_nil]
  simp only [iteration, hbuffer, send_message_eof]

/-! ## The whole loop -/

/-- What the iterations from `i` on do with `lines`, where none of them breaks. -/
def exchanges (ans : Answers) : Nat → List (List Byte) → List Act
  | _, [] => []
  | i, l :: lines => .sent (message l) :: .received (ans.recvs i) :: exchanges ans (i + 1) lines

theorem main_loop_lines (hl : ∀ l ∈ lines, Typed l) (hs : s.stdin = stream NEWLINE lines ++ rest)
    (hb : ∀ j < lines.length, ¬ Breaks ans (i + j)) (fuel : Nat) :
    ∃ t, t.stdin = rest ∧ t.acts = s.acts ++ exchanges ans i lines ∧
      main_loop ans (lines.length + fuel) i s = main_loop ans fuel (i + lines.length) t := by
  induction lines generalizing s i with
  | nil => exact ⟨s, hs, (List.append_nil _).symm, by simp⟩
  | cons l lines ih =>
    have h0 : ¬ Breaks ans i := hb 0 (by simp)
    rw [stream_cons, List.append_assoc, List.cons_append] at hs
    obtain ⟨t, ht, ⟨hsend, -⟩ | ⟨-, hiter, hacts⟩⟩ := iteration_line (hl l (by simp)) hs (ans.sends i) (ans.recvs i)
    · exact absurd (.inl hsend) h0
    · rw [if_neg fun hrecv => h0 (.inr hrecv)] at hiter
      obtain ⟨u, hu, hacts', hloop⟩ := @ih t (i + 1) (fun l' h' => hl l' (by simp [h'])) ht fun j hj => by
        have := hb (j + 1) (by simpa using hj)
        rwa [show i + 1 + j = i + (j + 1) by omega]
      refine ⟨u, hu, by rw [hacts', hacts, exchanges]; simp, ?_⟩
      rw [List.length_cons, show lines.length + 1 + fuel = lines.length + fuel + 1 by omega, main_loop, hiter,
        show i + (lines.length + 1) = i + 1 + lines.length by omega]
      exact hloop

/-- More fuel changes nothing. -/
theorem main_loop_mono {fuel : Nat} (h : main_loop ans fuel i s = .ended t) (k : Nat) :
    main_loop ans (fuel + k) i s = .ended t := by
  induction fuel generalizing i s with
  | zero => cases h
  | succ fuel ih =>
    rw [show fuel + 1 + k = fuel + k + 1 by omega]
    unfold main_loop at h ⊢
    split at h
    · exact ih h
    · exact h

theorem ended_unique {fuel fuel' : Nat} {t' : Loop} (h : main_loop ans fuel i s = .ended t)
    (h' : main_loop ans fuel' i s = .ended t') : t = t' := by
  have hle := main_loop_mono h fuel'
  rw [Nat.add_comm] at hle
  exact Outcome.ended.inj (hle.symm.trans (main_loop_mono h' fuel))

/-- The client before its loop, with `lines` to be typed. -/
def start (lines : List (List Byte)) (buf : List Byte) : Loop := ⟨stream NEWLINE lines, buf, [], []⟩

/-- If no iteration breaks that has a line to read, the next one finds none. -/
theorem not_ended {buf : List Byte} (hl : ∀ l ∈ lines, Typed l) (hb : ∀ j < lines.length, ¬ Breaks ans j) (fuel : Nat) :
    main_loop ans fuel 0 (start lines buf) ≠ .ended t := by
  intro h
  obtain ⟨u, hu, -, hloop⟩ := @main_loop_lines ans (start lines buf) [] lines 0 hl (List.append_nil _).symm
    (fun j hj => by rw [Nat.zero_add]; exact hb j hj) (fuel + 1)
  have hmore := main_loop_mono h (lines.length + 1)
  rw [show fuel + (lines.length + 1) = lines.length + (fuel + 1) by omega, hloop, main_loop, iteration_eof hu] at hmore
  cases hmore

/-- What the iteration that breaks does with its line. -/
def lastActs (ans : Answers) (m : Nat) (l : List Byte) : List Act :=
  if ans.sends m = false then [] else [.sent (message l), .received none]

/-- The first iteration that breaks ends the loop. -/
theorem ended_at {buf : List Byte} (hl : ∀ l ∈ lines, Typed l) {m : Nat} (hm : m < lines.length)
    (hbreak : Breaks ans m) (hfirst : ∀ j < m, ¬ Breaks ans j) :
    ∃ t, main_loop ans (m + 1) 0 (start lines buf) = .ended t ∧
      t.acts = exchanges ans 0 (lines.take m) ++ lastActs ans m lines[m] := by
  have hlen : (lines.take m).length = m := List.length_take_of_le (Nat.le_of_lt hm)
  have hstdin : stream NEWLINE lines =
      stream NEWLINE (lines.take m) ++ (lines[m] ++ NEWLINE :: stream NEWLINE (lines.drop (m + 1))) := by
    rw [← stream_cons, ← List.drop_eq_getElem_cons hm, stream, stream, stream, ← List.flatMap_append,
      List.take_append_drop]
  obtain ⟨u, hu, hacts, hloop⟩ := @main_loop_lines ans (start lines buf) _ (lines.take m) 0
    (fun l h => hl l (List.mem_of_mem_take h)) hstdin
    (fun j hj => by rw [Nat.zero_add]; exact hfirst j (hlen ▸ hj)) 1
  rw [hlen, Nat.zero_add] at hloop
  rw [hloop, main_loop]
  obtain ⟨t, -, ⟨hsend, hiter, hacts'⟩ | ⟨hsend, hiter, hacts'⟩⟩ :=
    iteration_line (hl lines[m] (List.getElem_mem hm)) hu (ans.sends m) (ans.recvs m)
  · refine ⟨t, by rw [hiter], ?_⟩
    rw [hacts', hacts, lastActs, if_pos hsend, List.append_nil]
    rfl
  · have hrecv : ans.recvs m = none := hbreak.resolve_left (by simp [hsend])
    rw [if_pos hrecv] at hiter
    refine ⟨t, by rw [hiter], ?_⟩
    rw [hacts', hacts, lastActs, if_neg (by simp [hsend]), hrecv]
    rfl

/-! ## What it sends, and when it stops -/

theorem bytes_exchanges (ans : Answers) (i : Nat) (lines : List (List Byte)) :
    (exchanges ans i lines).filterMap Act.bytes = lines.map message := by
  induction lines generalizing i with
  | nil => rfl
  | cons l lines ih => exact congrArg (message l :: ·) (ih (i + 1))

/-- Only typed messages are sent, each once and in order. -/
theorem sent_typed {m : Nat} (hm : m < lines.length) :
    (exchanges ans 0 (lines.take m) ++ lastActs ans m lines[m]).filterMap Act.bytes <+: lines.map message := by
  have hsplit : lines.map message =
      (lines.take m).map message ++ message lines[m] :: (lines.drop (m + 1)).map message := by
    rw [← List.map_cons, ← List.drop_eq_getElem_cons hm, ← List.map_append, List.take_append_drop]
  rw [List.filterMap_append, bytes_exchanges, hsplit, List.prefix_append_right_inj, lastActs]
  split
  · exact List.nil_prefix
  · exact (List.prefix_append [message lines[m]] _)

/-- Nothing is sent after a `recv` that returned 0 or -1. -/
def Quits (a b : Act) : Prop := a.closes = true → b.bytes = none

theorem closes_received (data : Option (List Byte)) :
    (Act.received data).closes = true ↔ data = none ∨ data = some [] := by
  match data with
  | none | some [] | some (_ :: _) => simp [Act.closes]

theorem exchanges_silent {tail : List Act} :
    (∀ a ∈ exchanges ans i lines ++ tail, a.bytes = none) ↔ lines = [] ∧ ∀ a ∈ tail, a.bytes = none := by
  cases lines <;> simp [exchanges, Act.bytes]

theorem pairwise_lastActs (ans : Answers) (m : Nat) (l : List Byte) : (lastActs ans m l).Pairwise Quits := by
  unfold lastActs
  split <;> simp [Quits, Act.closes]

theorem pairwise_exchanges {tail : List Act} (htail : tail.Pairwise Quits)
    (hb : ∀ j < lines.length, ¬ Breaks ans (i + j)) : (exchanges ans i lines ++ tail).Pairwise Quits ↔
      ∀ j < lines.length, ans.recvs (i + j) = some [] → j + 1 = lines.length ∧ ∀ a ∈ tail, a.bytes = none := by
  induction lines generalizing i with
  | nil => simpa [exchanges] using htail
  | cons l lines ih =>
    have hrecv : ans.recvs i ≠ none := fun he => hb 0 (by simp) (.inr he)
    have hrec := @ih (i + 1) fun j hj => by
      have := hb (j + 1) (by simpa using hj)
      rwa [show i + 1 + j = i + (j + 1) by omega]
    have hsent : ∀ a ∈ .received (ans.recvs i) :: (exchanges ans (i + 1) lines ++ tail), Quits (.sent (message l)) a :=
      fun a _ hc => by cases hc
    have hfirst : (∀ a ∈ exchanges ans (i + 1) lines ++ tail, Quits (.received (ans.recvs i)) a) ↔
        (ans.recvs i = some [] → lines = [] ∧ ∀ a ∈ tail, a.bytes = none) := by
      simp only [Quits, closes_received, hrecv, false_or]
      rw [← @exchanges_silent ans lines (i + 1) tail]
      exact ⟨fun h he a ha => h a ha he, fun h a ha he => h he a ha⟩
    rw [exchanges, List.cons_append, List.cons_append, List.pairwise_cons, List.pairwise_cons, hfirst, hrec,
      List.length_cons, Nat.forall_lt_succ_left]
    constructor
    · rintro ⟨-, h0, h⟩
      refine ⟨fun he => ⟨by simp [(h0 he).1], (h0 he).2⟩, fun j hj he => ?_⟩
      obtain ⟨hlast, hquiet⟩ := h j hj (by rwa [show i + 1 + j = i + (j + 1) by omega])
      exact ⟨by omega, hquiet⟩
    · rintro ⟨h0, h⟩
      refine ⟨hsent, fun he => ⟨?_, (h0 he).2⟩, fun j hj he => ?_⟩
      · have hlen := (h0 he).1
        exact List.length_eq_zero_iff.1 (by omega)
      · obtain ⟨hlast, hquiet⟩ := h j hj (by rwa [show i + (j + 1) = i + 1 + j by omega])
        exact ⟨by omega, hquiet⟩

/-- What the user may expect of a session: it ends, what it has sent are messages that
were typed, and it sends nothing once the server has closed or `recv` has failed. -/
def EndsInTime (ans : Answers) (lines : List (List Byte)) (buf : List Byte) : Prop :=
  ∃ fuel t, main_loop ans fuel 0 (start lines buf) = .ended t ∧
    t.acts.filterMap Act.bytes <+: lines.map message ∧ t.acts.Pairwise Quits

/-- The loop ends in time exactly if `send` or `recv` returns -1 while there are lines
to be read, and no `recv` before that has returned 0, except one right before a
`send` that fails. -/
theorem ends_iff {buf : List Byte} (hl : ∀ l ∈ lines, l.length ≤ 1023 ∧ NEWLINE ∉ l) (ans : Answers) :
    EndsInTime ans lines buf ↔
      ∃ m < lines.length, (ans.sends m = false ∨ ans.recvs m = none) ∧
        ∀ j < m, (ans.sends j = true ∧ ans.recvs j ≠ none) ∧
          (ans.recvs j = some [] → j + 1 = m ∧ ans.sends m = false) := by
  have hnot : ∀ j, ¬ Breaks ans j ↔ ans.sends j = true ∧ ans.recvs j ≠ none := fun j => by simp [Breaks]
  have hlast : ∀ m l, (∀ a ∈ lastActs ans m l, a.bytes = none) ↔ ans.sends m = false := fun m l => by
    unfold lastActs
    split <;> simp_all [Act.bytes]
  have htake : ∀ m, m < lines.length → (lines.take m).length = m := fun m hm =>
    List.length_take_of_le (Nat.le_of_lt hm)
  constructor
  · rintro ⟨fuel, t, hend, -, hquits⟩
    have hex : ∃ m, m < lines.length ∧ Breaks ans m := by
      by_contra hno
      exact not_ended hl (fun j hj hb => hno ⟨j, hj, hb⟩) fuel hend
    classical
    obtain ⟨⟨hm, hbreak⟩, hmin⟩ := And.intro (Nat.find_spec hex) (fun j hj => Nat.find_min hex (m := j) hj)
    have hfirst : ∀ j < Nat.find hex, ¬ Breaks ans j := fun j hj hb => hmin j hj ⟨hj.trans hm, hb⟩
    obtain ⟨t', hend', hacts⟩ := @ended_at _ _ buf hl _ hm hbreak hfirst
    obtain rfl := ended_unique hend hend'
    rw [hacts, pairwise_exchanges (pairwise_lastActs _ _ _) (by simpa [htake _ hm] using hfirst), htake _ hm,
      hlast] at hquits
    exact ⟨_, hm, hbreak, fun j hj => ⟨(hnot j).1 (hfirst j hj), by simpa using hquits j hj⟩⟩
  · rintro ⟨m, hm, hbreak, hbefore⟩
    have hfirst : ∀ j < m, ¬ Breaks ans j := fun j hj => (hnot j).2 (hbefore j hj).1
    obtain ⟨t, hend, hacts⟩ := @ended_at _ _ buf hl _ hm hbreak hfirst
    refine ⟨m + 1, t, hend, hacts ▸ sent_typed hm, ?_⟩
    rw [hacts, pairwise_exchanges (pairwise_lastActs _ _ _) (by simpa [htake _ hm] using hfirst), htake _ hm, hlast]
    exact fun j hj => by simpa using (hbefore j hj).2

/-- The server goes away after the first of two messages. -/
theorem ends_iff_reset : EndsInTime ⟨fun _ => true, fun _ => none⟩ [[104#8], [105#8]] [] :=
  (ends_iff (by decide) _).2 ⟨0, by decide, .inr rfl, by simp⟩

/-- With nothing typed, or nothing left to be typed, the loop does not end. -/
theorem nothing_typed : ¬ ∀ (ans : Answers) (lines : List (List Byte)) (buf : List Byte),
    (∀ l ∈ lines, l.length ≤ 1023 ∧ NEWLINE ∉ l) → EndsInTime ans lines buf := by
  intro h
  obtain ⟨fuel, t, hend, -⟩ := h ⟨fun _ => true, fun _ => some [33#8]⟩ [] [] (by simp)
  exact not_ended (by simp) (by simp) fuel hend

end Ex6.ClientLoop
