import Ex6.ChatSchedules
/-!
# What the clients of the select server show

A client receives once for each line its user types, at most 1023 bytes, and shows
them up to the first terminator. What it has not received waits in its connection.
So no client is shown more than its user types for, and where a connection holds
only so much, one user who does not type holds up all the others: `held_up`.
-/
open Lib Lib.CString Ex6.Text Ex6.Client

namespace Ex6.ChatSessions

open SelectServer (Chat ChatEvent Sent)

/-- Client `c` sends a line. -/
def Event.types (c : Nat) : Event → Bool
  | .type d => d = c
  | _ => false

/-- How many lines client `c` has sent. -/
def sent_lines (c : Nat) (evs : List Event) : Nat := evs.countP (Event.types c)

/-- What client `c` has received from `s` to `t`, in pieces, one for each `recv`. -/
structure Received (c : Nat) (s : State) (evs : List Event) (pieces : List (List Byte)) (t : State) : Prop where
  bytes : ∃ new, t.chat.delivered c = s.chat.delivered c ++ new ∧
    (s.sessions c).pending ++ new.map Sent.byte = pieces.flatten ++ (t.sessions c).pending
  piece : ∀ p ∈ pieces, p ≠ [] ∧ p.length ≤ BUFFERSIZE - 1
  lines : pieces.length + (t.waiting c).toNat = sent_lines c evs + (s.waiting c).toNat
  -- each piece is shown as the string it begins with
  printed : (s.sessions c).buf.length = BUFFERSIZE → (t.sessions c).buf.length = BUFFERSIZE ∧
    (t.sessions c).printed = (s.sessions c).printed ++ pieces.map (cstr NUL)

variable {n c : Nat} {typed : Nat → List (List Byte)} {s t u : State} {e : Event} {evs : List Event}
  {pieces : List (List Byte)}

/-! ## One `recv` -/

theorem receive_some_spec {k : Nat} {x : Session} (hk : k ≤ BUFFERSIZE - 1) (hb : x.buf.length = BUFFERSIZE) :
    (receive_some k x).buf.length = BUFFERSIZE ∧
      (receive_some k x).printed = x.printed ++ [cstr NUL (x.pending.take k)] := by
  have hlen : (x.pending.take k).length < x.buf.length := by
    rw [hb, List.length_take]
    simp only [BUFFERSIZE] at hk ⊢
    omega
  refine ⟨?_, ?_⟩
  · simp only [receive_some, List.length_set, overwrite, List.length_append, List.length_drop, hb]
    rw [hb] at hlen
    omega
  · simp only [receive_some, overwrite, List.drop_eq_getElem_cons hlen, List.set_append_right _ _ (Nat.le_refl _),
      Nat.sub_self, List.set_cons_zero, cstr_cut]

/-- What came to a connection before a step is still at the front. -/
theorem delivered_step {x y : Chat} {e : ChatEvent} (hs : Chat.Step x e y) (c : Nat) :
    ∃ new, y.delivered c = x.delivered c ++ new := by
  cases hs with
  | say | server => exact ⟨[], (List.append_nil _).symm⟩
  | recv => exact ⟨_, rfl⟩

theorem sent_lines_snoc (c : Nat) (evs : List Event) (e : Event) :
    sent_lines c (evs ++ [e]) = sent_lines c evs + (e.types c).toNat := by
  unfold sent_lines
  rw [List.countP_append, List.countP_singleton]
  cases e.types c <;> rfl

/-- What is nothing to client `c`. -/
theorem Received.keep (h : Received c s evs pieces t) (he : e.types c = false)
    (hd : u.chat.delivered c = t.chat.delivered c) (hsession : u.sessions c = t.sessions c)
    (hw : u.waiting c = t.waiting c) : Received c s (evs ++ [e]) pieces u := by
  obtain ⟨new, hnew, hbytes⟩ := h.bytes
  refine ⟨⟨new, by rw [hd, hnew], by rw [hsession, hbytes]⟩, h.piece, ?_, ?_⟩
  · rw [hw, sent_lines_snoc, he]
    exact h.lines
  · rw [hsession]
    exact h.printed

theorem received_step (h : Received c s evs pieces t) (hs : Step n t e u) :
    ∃ pieces, Received c s (evs ++ [e]) pieces u := by
  obtain ⟨new, hnew, hbytes⟩ := h.bytes
  cases hs with
  | @server e chat hs ha =>
    obtain ⟨more, hmore⟩ := delivered_step hs c
    refine ⟨pieces, ⟨new ++ more, ?_, ?_⟩, h.piece, ?_, h.printed⟩
    · rw [hmore, hnew, List.append_assoc]
    · rw [List.map_append, ← List.append_assoc, hbytes, List.append_assoc]
      simp only [hmore, List.drop_left]
    · rw [sent_lines_snoc]
      exact h.lines
  | connect => exact ⟨pieces, h.keep rfl rfl rfl rfl⟩
  | @type d buffer stdin m hlt hw hne hget hsend hsay =>
    by_cases hd : c = d
    · subst hd
      refine ⟨pieces, ⟨new, hnew, ?_⟩, h.piece, ?_, ?_⟩
      · simp only [Function.update_self]
        exact hbytes
      · have hlines := h.lines
        rw [hw] at hlines
        simp only [Function.update_self, sent_lines_snoc, Event.types, decide_true, Bool.toNat_true]
        simp only [Bool.toNat_false] at hlines
        omega
      · simp only [Function.update_self]
        exact h.printed
    · exact ⟨pieces, h.keep (decide_eq_false (Ne.symm hd)) rfl (Function.update_of_ne hd ..)
        (Function.update_of_ne hd ..)⟩
  | @receive d k hw hp hpos hk =>
    by_cases hd : c = d
    · subst hd
      refine ⟨pieces ++ [(t.sessions c).pending.take k], ⟨new, hnew, ?_⟩, ?_, ?_, fun hb => ?_⟩
      · simp only [Function.update_self, receive_some, List.flatten_append, List.flatten_singleton]
        rw [hbytes, List.append_assoc, List.take_append_drop]
      · intro p hmem
        rcases List.mem_append.1 hmem with hmem | hmem
        · exact h.piece p hmem
        · rw [List.mem_singleton.1 hmem]
          refine ⟨?_, (List.length_take_le k _).trans hk⟩
          rw [Ne, List.take_eq_nil_iff]
          rintro (hk0 | hnil)
          · exact absurd hk0 (Nat.ne_of_gt hpos)
          · exact hp hnil
      · have hlines := h.lines
        rw [hw] at hlines
        simp only [Function.update_self, sent_lines_snoc, Event.types, List.length_append, List.length_singleton,
          Bool.toNat_false, Bool.toNat_true, Nat.add_zero] at hlines ⊢
        exact hlines
      · obtain ⟨hbuf, hprinted⟩ := h.printed hb
        obtain ⟨hbuf', hshown⟩ := receive_some_spec hk hbuf
        simp only [Function.update_self, hshown, hprinted]
        exact ⟨hbuf', by rw [List.map_append, List.map_singleton, List.append_assoc]⟩
    · exact ⟨pieces, h.keep rfl rfl (Function.update_of_ne hd ..) (Function.update_of_ne hd ..)⟩

theorem received_run (h : (system n typed).Run s evs t) (c : Nat) : ∃ pieces, Received c s evs pieces t := by
  induction h with
  | nil =>
    refine ⟨[], ⟨[], (List.append_nil _).symm, by simp⟩, by simp, ?_, fun hb => ⟨hb, by simp⟩⟩
    simp [sent_lines]
  | snoc _ hs ih =>
    obtain ⟨pieces, hp⟩ := ih
    exact received_step hp hs

/-! ## The system's chat -/

/-- The server takes these answers for a `send` that transmits all and descriptors
within the table. -/
theorem State.Answers.whole {e : ChatEvent} (h : s.Answers e) : s.chat.Whole e := by
  cases e with
  | say => exact trivial
  | recv => exact h.2
  | server e =>
    cases e with
    | accept newfd =>
      obtain ⟨-, fd, hlt, rfl⟩ := h
      refine ⟨?_, trivial⟩
      rintro fd' ⟨⟩
      exact hlt
    | boot | select_fails | recv => exact absurd h id
    | _ => exact ⟨by rintro fd ⟨⟩, trivial⟩

/-- A step of the system is one of the chat, or the chat has no part in it. -/
theorem chat_step (hs : Step n s e t) : t.chat = s.chat ∨
    ∃ e, (SelectServer.chat.meeting Chat.Whole).step s.chat e t.chat := by
  cases hs with
  | server hs ha => exact .inr ⟨_, hs, ha.whole⟩
  | type _ _ _ _ _ hsay => exact .inr ⟨_, hsay, trivial⟩
  | connect | receive => exact .inl rfl

theorem chat_run (h : (system n typed).Run s evs t) :
    ∃ evs, (SelectServer.chat.meeting Chat.Whole).Run s.chat evs t.chat := by
  induction h with
  | nil => exact ⟨[], .nil _⟩
  | snoc _ hs ih =>
    obtain ⟨evs, hr⟩ := ih
    rcases chat_step hs with heq | ⟨e, he⟩
    · exact ⟨evs, heq ▸ hr⟩
    · exact ⟨_, hr.snoc he⟩

theorem reachable_inv (hl : ∀ c, ∀ l ∈ typed c, Line l) (h : (system n typed).Reachable s) :
    Inv n typed s ∧ (SelectServer.chat.meeting Chat.Whole).Reachable s.chat := by
  induction h with
  | init h0 => exact ⟨init_inv h0, .init h0.1⟩
  | step _ hs ih =>
    refine ⟨inv_step ih.1 hl hs, ?_⟩
    rcases chat_step hs with heq | ⟨e, he⟩
    · rw [heq]
      exact ih.2
    · exact .step ih.2 he

/-! ## What is shown -/

/-- A client shows what the server received, from some point on, before which there is
nothing of its own: in pieces, one for each line it has sent. Of a piece it shows what
precedes the first terminator. -/
theorem shown_in_pieces (hl : ∀ c, ∀ l ∈ typed c, Line l) (h0 : (system n typed).init s)
    (h : (system n typed).Run s evs t) (hbuf : (s.sessions c).buf.length = BUFFERSIZE) :
    ∃ (old : List Sent) (pieces : List (List Byte)),
      t.chat.stream.map Sent.byte = old.map Sent.byte ++ pieces.flatten ++ (t.sessions c).pending ∧
      old.filter (fun a => decide (a.sender = c)) = [] ∧
      (t.sessions c).printed = (s.sessions c).printed ++ pieces.map (cstr NUL) ∧
      (∀ p ∈ pieces, p ≠ [] ∧ p.length ≤ BUFFERSIZE - 1) ∧
      pieces.length + (t.waiting c).toNat = sent_lines c evs := by
  obtain ⟨hi, -⟩ := reachable_inv hl (h.reachable (.init h0))
  obtain ⟨hchat, -, -, hclients⟩ := id h0
  obtain ⟨hwait, -, hpending⟩ := hclients c
  obtain ⟨-, -, -, -, -, hdelivered⟩ := hchat
  obtain ⟨pieces, ⟨new, hnew, hbytes⟩, hpiece, hlines, hprinted⟩ := received_run h c
  rw [hdelivered, List.nil_append] at hnew
  rw [hpending, List.nil_append, ← hnew] at hbytes
  rw [hwait] at hlines
  obtain ⟨old, hold, hnone⟩ : ∃ old, t.chat.stream = old ++ t.chat.delivered c ∧
      old.filter (fun a => decide (a.sender = c)) = [] := by
    by_cases hc : c < t.chat.server.accepted
    · exact ((hi.hearing c).member hc).2
    · obtain ⟨hnil, hnone⟩ := (hi.hearing c).absent (Nat.le_of_not_lt hc)
      exact ⟨t.chat.stream, by rw [hnil, List.append_nil], hnone⟩
  refine ⟨old, pieces, ?_, hnone, (hprinted hbuf).2, hpiece, hlines⟩
  rw [hold, List.map_append, hbytes, List.append_assoc]

/-- At the end both of two clients have shown as many strings as they have sent lines. -/
theorem shown_in_pieces_two : ∃ (t : State) (evs : List Event), (system 2 greetings).Run opening evs t ∧
    ∀ c < 2, ∃ (old : List Sent) (pieces : List (List Byte)),
      t.chat.stream.map Sent.byte = old.map Sent.byte ++ pieces.flatten ++ (t.sessions c).pending ∧
      old.filter (fun a => decide (a.sender = c)) = [] ∧
      (t.sessions c).printed = pieces.map (cstr NUL) ∧ pieces.length = sent_lines c evs := by
  obtain ⟨evs, t, hr, hrest⟩ := exists_resting_run (init_inv opening_init) greetings_line
  obtain ⟨hinv, -⟩ := reachable_inv greetings_line (hr.reachable (.init opening_init))
  refine ⟨t, evs, hr, fun c hc => ?_⟩
  obtain ⟨old, pieces, hstream, hold, hprinted, -, hlines⟩ :=
    shown_in_pieces (c := c) greetings_line opening_init hr List.length_replicate
  rw [(hrest.ended hinv greetings_line hc).waiting] at hlines
  exact ⟨old, pieces, hstream, hold, hprinted, hlines⟩

/-! ## Who waits for whom -/

theorem Received.length_le (h : Received c s evs pieces t) {new : List Sent}
    (hnew : t.chat.delivered c = s.chat.delivered c ++ new) :
    new.length ≤ (BUFFERSIZE - 1) * (sent_lines c evs + (s.waiting c).toNat) + (t.sessions c).pending.length := by
  obtain ⟨new', hnew', hbytes⟩ := h.bytes
  obtain rfl : new' = new := List.append_cancel_left (hnew'.symm.trans hnew)
  have hlen := congrArg List.length hbytes
  rw [List.length_append, List.length_append, List.length_map] at hlen
  have hflat : pieces.flatten.length ≤ pieces.length * (BUFFERSIZE - 1) := by
    rw [List.length_flatten]
    refine (List.sum_le_card_nsmul _ (BUFFERSIZE - 1) fun x hx => ?_).trans ?_
    · obtain ⟨p, hp, rfl⟩ := List.mem_map.1 hx
      exact (h.piece p hp).2
    · rw [List.length_map]
      exact Nat.le_refl _
  have hlines : pieces.length ≤ sent_lines c evs + (s.waiting c).toNat := by
    rw [← h.lines]
    exact Nat.le_add_right _ _
  have hmul := Nat.mul_le_mul_left (BUFFERSIZE - 1) hlines
  rw [Nat.mul_comm] at hflat
  omega

/-- While client `c` sends so many lines, the server receives no more from all its
clients than `c` receives for them, and for the line it may be waiting for, and its
connection holds. -/
theorem held_up (hl : ∀ c, ∀ l ∈ typed c, Line l) (hr : (system n typed).Reachable s)
    (hc : c < s.chat.server.accepted) (h : (system n typed).Run s evs t) {capacity : Nat}
    (hcap : (t.sessions c).pending.length ≤ capacity) : ∃ heard, t.chat.stream = s.chat.stream ++ heard ∧
      heard.length ≤ (BUFFERSIZE - 1) * (sent_lines c evs + (s.waiting c).toNat) + capacity := by
  obtain ⟨-, hreach⟩ := reachable_inv hl hr
  obtain ⟨hi, -⟩ := reachable_inv hl (h.reachable hr)
  obtain ⟨evs', hrun⟩ := chat_run h
  obtain ⟨hle, heard, hstream, hdelivered⟩ := SelectServer.stream_run hreach hrun
  have hopen := ((hi.hearing c).member (Nat.lt_of_lt_of_le hc hle)).1
  obtain ⟨pieces, hp⟩ := received_run h c
  have hlen := hp.length_le (hdelivered c hc hopen)
  exact ⟨heard, hstream, by omega⟩

/-- The first of two clients has been accepted, and nobody has said anything. -/
theorem first_accepted : ∃ s : State, (system 2 greetings).Reachable s ∧ s.chat.server.accepted = 1 ∧
    s.chat.stream = [] := by
  have r : (system 2 greetings).Reachable opening := .init opening_init
  have r := r.step (Step.connect (by decide))
  have r := r.step (Step.connect (by decide))
  have r := r.step (Step.server (.server (@SelectServer.Step.select _ {3} rfl (by decide)) fun _ _ h => by cases h)
    ⟨Finset.singleton_nonempty 3, fun fd hfd => by rw [Finset.mem_singleton.1 hfd]; exact .inl ⟨rfl, by decide⟩⟩)
  have r := r.step (Step.server (.server (.skip rfl (by decide) (by decide)) fun _ _ h => by cases h) trivial)
  have r := r.step (Step.server (.server (.skip rfl (by decide) (by decide)) fun _ _ h => by cases h) trivial)
  have r := r.step (Step.server (.server (.skip rfl (by decide) (by decide)) fun _ _ h => by cases h) trivial)
  have r := r.step (Step.server (.server (@SelectServer.Step.accept _ _ _ _ (some 4) ⟨rfl, by decide, by decide⟩ rfl rfl
    (fun fd h => by cases h; exact ⟨rfl, rfl⟩)) fun _ _ h => by cases h) ⟨by decide, 4, by decide, rfl⟩)
  exact ⟨_, r, rfl, rfl⟩

/-- From then to the end the server receives what both say. -/
theorem held_up_two : ∃ (s t : State) (evs : List Event) (heard : List Sent), (system 2 greetings).Reachable s ∧
    (system 2 greetings).Run s evs t ∧ t.chat.stream = s.chat.stream ++ heard ∧
    (heard.filter fun a => decide (a.sender = 1)).map Sent.byte = [121#8, 111#8, NUL] ∧
    heard.length ≤ 1023 * (sent_lines 0 evs + (s.waiting 0).toNat) + (t.sessions 0).pending.length := by
  obtain ⟨s, hreach, hacc, hnone⟩ := first_accepted
  obtain ⟨evs, t, hr, hrest⟩ := exists_resting_run (reachable_inv greetings_line hreach).1 greetings_line
  obtain ⟨hinv, -⟩ := reachable_inv greetings_line (hr.reachable hreach)
  obtain ⟨heard, hstream, hlen⟩ := held_up (c := 0) greetings_line hreach (by rw [hacc]; decide) hr (Nat.le_refl _)
  have hall := (hrest.ended hinv greetings_line (show 1 < 2 by decide)).received
  rw [hstream, hnone, List.nil_append] at hall
  exact ⟨s, t, evs, heard, hreach, hr, hstream, hall, hlen⟩

end Ex6.ChatSessions
