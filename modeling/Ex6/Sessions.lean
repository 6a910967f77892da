import Ex6.Client
import Ex6.PipelineSchedules
/-!
# The active-object server and all its clients

Any number of clients type their lines at the server, each at its own pace, and
the server's threads take their statements in any order. The kernel is taken to
hand over a message of a client whole, and no client closes its connection.

`answered` says that nobody notices the others: what a client shows is the
replies to its own lines, in order, up to the last one it has waited for, and it
can come to the end of its lines with nothing done for anybody else.
-/
open Lib Lib.CString Ex6.Text Ex6.Client

namespace Ex6.Sessions

open Pipeline (answer)

structure State (w : Nat) where
  server : PipelineThreads.State w
  /-- By the descriptor that the server has, or is to have, for the connection. -/
  sessions : Nat → Session
  /-- The client has sent its line and is at its `recv`. -/
  waiting : Nat → Bool
  /-- Sent by the client and not received by the server. -/
  outgoing : Nat → List (List Byte)

inductive Event
  | server (ev : PipelineThreads.Event)
  | type (fd : Nat)
  | receive (fd : Nat)

variable {w : Nat}

/-- `recv` returns no message. -/
def fails : PipelineThreads.Event → Bool
  | .own (.recv _ _ none) => true
  | _ => false

inductive Step (s : State w) : Event → State w → Prop
  -- what the server receives is the first messages on their way, and what it sends comes to the client
  | server {ev srv outgoing} : PipelineThreads.Step s.server ev srv → fails ev = false →
      (∀ fd, s.outgoing fd =
        ((srv.base.received fd).drop (s.server.base.received fd).length).map Prod.snd ++ outgoing fd) →
      Step s (.server ev) { s with
        server := srv
        outgoing
        sessions := fun fd => { s.sessions fd with
          pending := (s.sessions fd).pending ++ ((srv.base.sent fd).drop (s.server.base.sent fd).length).flatten } }
  | type {fd buffer stdin sent} : s.waiting fd = false → (s.sessions fd).stdin ≠ [] →
      get_input (s.sessions fd).stdin = (buffer, stdin) → send_message buffer = some sent →
      Step s (.type fd) { s with
        sessions := Function.update s.sessions fd { s.sessions fd with stdin }
        waiting := Function.update s.waiting fd true
        outgoing := Function.update s.outgoing fd (s.outgoing fd ++ [sent]) }
  | receive {fd} : s.waiting fd = true → (s.sessions fd).pending ≠ [] →
      Step s (.receive fd) { s with
        sessions := Function.update s.sessions fd (receive (s.sessions fd))
        waiting := Function.update s.waiting fd false }

def start (buffers bufs : Nat → List Byte) (typed : Nat → List (List Byte)) : State w where
  server := ⟨Pipeline.start buffers, fun _ => Monitor.start⟩
  sessions fd := ⟨stream NEWLINE (typed fd), bufs fd, [], []⟩
  waiting _ := false
  outgoing _ := []

/-- The clients that type `typed`, and the server. -/
def system (w : Nat) (typed : Nat → List (List Byte)) : Machine (State w) Event where
  init s := ∃ buffers bufs, (∀ fd, (bufs fd).length = BUFFERSIZE) ∧ s = start buffers bufs typed
  step := Step

/-! ## The server's part -/

/-- The connections and the messages received and sent only grow. -/
structure Grows (p p' : Pipeline.State w) (e : Pipeline.Event) : Prop where
  conns : p.conns <+: p'.conns
  received : ∀ fd, ∃ new, p'.received fd = p.received fd ++ new ∧ ∀ r ∈ new, ∃ t, e = .recv t r.1 (some r.2)
  sent : ∀ fd, ∃ new, p'.sent fd = p.sent fd ++ new

theorem grows_step {p p' : Pipeline.State w} {e : Pipeline.Event} (hs : Pipeline.Step p e p') : Grows p p' e where
  conns := by
    cases hs with
    | accept => exact List.prefix_append _ _
    | _ => exact List.prefix_refl _
  received fd := by
    rcases Pipeline.received_step hs fd with he | ⟨t, junk, data, rfl, he⟩
    · exact ⟨[], by rw [he, List.append_nil], by simp⟩
    · refine ⟨[(junk, data)], he, fun r hr => ?_⟩
      rw [List.mem_singleton.1 hr]
      exact ⟨t, rfl⟩
  sent fd := by
    cases hs with
    | @send_message t funq capsul b bytes =>
      by_cases hfd : fd = capsul.socket
      · subst hfd
        exact ⟨[bytes], Function.update_self _ _ _⟩
      · exact ⟨[], (Function.update_of_ne hfd _ _).trans (List.append_nil _).symm⟩
    | _ => exact ⟨[], (List.append_nil _).symm⟩

/-- A statement of a queue changes none of it. -/
theorem grows {s s' : PipelineThreads.State w} {ev : PipelineThreads.Event} (hs : PipelineThreads.Step s ev s') :
    (∃ e, ev = .own e ∧ Grows s.base s'.base e) ∨
      (s'.base.conns = s.base.conns ∧ s'.base.received = s.base.received ∧ s'.base.sent = s.base.sent) := by
  cases hs with
  | @own e v ho hs =>
    obtain ⟨hc, hr, hsent⟩ := grows_step hs
    exact .inl ⟨e, rfl, hc, hr, hsent⟩
  | call | inside | ret => exact .inr ⟨rfl, rfl, rfl⟩

/-- No thread has stopped receiving. -/
def Serving (s : PipelineThreads.State w) : Prop := ∀ t caps, s.base.threads t ≠ some (.listenAO caps .returned)

theorem serving_update {threads : Nat → Option Pipeline.Thread}
    (h : ∀ t caps, threads t ≠ some (.listenAO caps .returned)) {t : Nat} {th : Pipeline.Thread}
    (hth : ∀ caps, th ≠ .listenAO caps .returned) :
    ∀ u caps, Function.update threads t (some th) u ≠ some (.listenAO caps .returned) := by
  intro u caps hu
  rcases update_cases hu with ⟨-, hu⟩ | ⟨-, hth'⟩
  · exact h u caps hu
  · exact hth caps (Option.some.inj hth')

theorem after_serves (res : Option Pipeline.capsula) (th : Pipeline.Thread) (caps : Pipeline.capsula) :
    PipelineThreads.after res th ≠ .listenAO caps .returned := by
  cases th <;> cases res <;> simp [PipelineThreads.after]

theorem serving_step {s s' : PipelineThreads.State w} {ev : PipelineThreads.Event} (h : Serving s)
    (hs : PipelineThreads.Step s ev s') (hf : fails ev = false) : Serving s' := by
  cases hs with
  | own ho hs =>
    cases hs with
    | accept_fails | accept => exact h
    | recv_fails => cases hf
    | _ => exact serving_update h fun _ he => by cases he
  | call | inside => exact h
  | ret => exact serving_update h (after_serves _ _)

/-! ## Clients in step -/

variable {s s' : State w} {fd : Nat} {lines : List (List Byte)} {typed : Nat → List (List Byte)}

/-- A line whose reply the client receives in one piece. -/
def Short (l : List Byte) : Prop := Line l ∧ l.length ≠ 1023

/-- The line "hi". -/
theorem short_hi : Short [104#8, 105#8] := ⟨⟨by decide, by decide, by decide⟩, by decide⟩

/-- Lines typed so far. -/
def State.asked (s : State w) (fd : Nat) : Nat := (s.sessions fd).printed.length + (s.waiting fd).toNat

/-- How far a client, the server and what is between them have come with `lines`. -/
structure InStep (lines : List (List Byte)) (s : State w) (fd : Nat) : Prop where
  asked : s.asked fd ≤ lines.length
  stdin : (s.sessions fd).stdin = stream NEWLINE (lines.drop (s.asked fd))
  messages : (s.server.base.received fd).map Prod.snd ++ s.outgoing fd = (lines.take (s.asked fd)).map (· ++ [NUL])
  printed : (s.sessions fd).printed = (lines.take (s.sessions fd).printed.length).map text
  answered : (s.sessions fd).printed.length ≤ (s.server.base.sent fd).length
  pending : (s.sessions fd).pending = ((s.server.base.sent fd).drop (s.sessions fd).printed.length).flatten
  buf : (s.sessions fd).buf.length = BUFFERSIZE

structure Inv (typed : Nat → List (List Byte)) (s : State w) : Prop where
  server : ((PipelineThreads.machine w).under PipelineThreads.Event.Ended).Reachable s.server
  serving : Serving s.server
  clients : ∀ fd, InStep (typed fd) s fd

theorem take_map_prefix {α β : Type} {f : α → β} {l : List α} {xs ys : List β} (h : xs ++ ys = l.map f) :
    xs = (l.take xs.length).map f := by
  have hx := congrArg (List.take xs.length) h
  rw [List.take_left] at hx
  rw [List.map_take]
  exact hx

theorem answer_message (junk : List Byte) {l : List Byte} (h : NUL ∉ l) : answer (junk, l ++ [NUL]) = reply l := by
  unfold answer
  rw [cstr_overwrite NUL (by simp), cstr_append_cons NUL h []]

theorem map_answer {received : List (List Byte × List Byte)} {ms : List (List Byte)}
    (h : received.map Prod.snd = ms.map (· ++ [NUL])) (hm : ∀ l ∈ ms, NUL ∉ l) :
    received.map answer = ms.map reply := by
  have hof : ∀ r ∈ received, ∃ l, NUL ∉ l ∧ r.2 = l ++ [NUL] := by
    intro r hr
    have hr2 : r.2 ∈ ms.map (· ++ [NUL]) := h ▸ List.mem_map_of_mem (f := Prod.snd) hr
    obtain ⟨l, hl, he⟩ := List.mem_map.1 hr2
    exact ⟨l, hm l hl, he.symm⟩
  have hstring : ∀ r ∈ received, answer r = reply (cstr NUL r.2) := by
    intro r hr
    obtain ⟨l, hnul, he⟩ := hof r hr
    obtain ⟨junk, data⟩ := r
    simp only at he
    rw [he, answer_message junk hnul, cstr_append_cons NUL hnul []]
  calc received.map answer
      = (received.map Prod.snd).map fun data => reply (cstr NUL data) := by
        rw [List.map_map]
        exact List.map_congr_left hstring
    _ = ms.map reply := by
        rw [h, List.map_map]
        exact List.map_congr_left fun l hl => congrArg reply (cstr_append_cons NUL (hm l hl) [])

/-- What has come in and what is on its way in. -/
theorem InStep.length_messages (h : InStep lines s fd) :
    (s.server.base.received fd).length + (s.outgoing fd).length = s.asked fd := by
  have hlen := congrArg List.length h.messages
  have := h.asked
  simp only [List.length_append, List.length_map, List.length_take] at hlen
  omega

/-- The server answers the lines in order. -/
theorem answers_eq (h : InStep lines s fd) (hl : ∀ l ∈ lines, Short l) :
    (s.server.base.received fd).map answer = (lines.take (s.server.base.received fd).length).map reply := by
  have hreceived := take_map_prefix h.messages
  have hle := h.length_messages
  rw [List.length_map, List.take_take, Nat.min_eq_left (by omega)] at hreceived
  exact map_answer hreceived fun l hm => (hl l (List.mem_of_mem_take hm)).1.nul

theorem sent_prefix (h : Inv typed s) (fd : Nat) :
    s.server.base.sent fd <+: (s.server.base.received fd).map answer := by
  obtain ⟨-, hf, hnul⟩ := PipelineThreads.flowing_of_reachable h.server
  exact hf.inv.sent_starts fun r hr => respond_spec (hnul fd r hr)

theorem sent_eq (h : Inv typed s) (hl : ∀ l ∈ typed fd, Short l) :
    (s.server.base.sent fd).length ≤ (s.server.base.received fd).length ∧
      s.server.base.sent fd = ((typed fd).take (s.server.base.sent fd).length).map reply := by
  have hpre := sent_prefix h fd
  have hlen := hpre.length_le
  rw [List.length_map] at hlen
  rw [answers_eq (h.clients fd) hl] at hpre
  obtain ⟨rest, hrest⟩ := hpre
  have hsent := take_map_prefix hrest
  rw [List.take_take, Nat.min_eq_left hlen] at hsent
  exact ⟨hlen, hsent⟩

/-- A client that waits has its reply pending, or the server still has it. -/
theorem pending_of_waiting (h : Inv typed s) (hl : ∀ l ∈ typed fd, Short l) (hw : s.waiting fd = true) :
    ((s.server.base.sent fd).length = (s.sessions fd).printed.length ∧ (s.sessions fd).pending = []) ∨
      ∃ l, (typed fd)[(s.sessions fd).printed.length]? = some l ∧ (s.sessions fd).pending = reply l ∧
        (s.server.base.sent fd).length = (s.sessions fd).printed.length + 1 := by
  have hc := h.clients fd
  obtain ⟨hle, hsent⟩ := sent_eq h hl
  have hlen := hc.length_messages
  have hanswered := hc.answered
  have hpending := hc.pending
  unfold State.asked at hlen
  rw [hw, Bool.toNat_true] at hlen
  rcases Nat.lt_or_ge (s.sessions fd).printed.length (s.server.base.sent fd).length with hlt | hge
  · have he : (s.server.base.sent fd).length = (s.sessions fd).printed.length + 1 := by omega
    have hasked := hc.asked
    unfold State.asked at hasked
    rw [hw, Bool.toNat_true] at hasked
    have hlt' : (s.sessions fd).printed.length < (typed fd).length := by omega
    refine .inr ⟨(typed fd)[(s.sessions fd).printed.length], List.getElem?_eq_getElem hlt', ?_, he⟩
    rw [hpending, hsent, he, ← List.map_drop, List.drop_take, Nat.add_sub_cancel_left, List.drop_eq_getElem_cons hlt',
      List.take_succ_cons, List.take_zero, List.map_singleton, List.flatten_singleton]
  · refine .inl ⟨by omega, ?_⟩
    rw [hpending, List.drop_of_length_le hge]
    rfl

/-! ## What every step keeps -/

/-- What is on its way to the server is lines with their terminator. -/
theorem outgoing_message (h : InStep lines s fd) {data : List Byte} (hd : data ∈ s.outgoing fd) :
    ∃ l ∈ lines, data = l ++ [NUL] := by
  have hm : data ∈ (lines.take (s.asked fd)).map (· ++ [NUL]) := by
    rw [← h.messages]
    exact List.mem_append_right _ hd
  obtain ⟨l, hl, he⟩ := List.mem_map.1 hm
  exact ⟨l, List.mem_of_mem_take hl, he.symm⟩

theorem ended_server (h : Inv typed s) {ev : PipelineThreads.Event} {srv : PipelineThreads.State w}
    {outgoing : Nat → List (List Byte)} (hs : PipelineThreads.Step s.server ev srv) (hf : fails ev = false)
    (ho : ∀ fd, s.outgoing fd =
      ((srv.base.received fd).drop (s.server.base.received fd).length).map Prod.snd ++ outgoing fd) : ev.Ended := by
  cases hs with
  | own _ hs =>
    cases hs with
    | recv_fails => cases hf
    | @recv t caps junk data ht hj hd =>
      have hout := ho caps.socket
      simp only [Function.update_self, PipelineThreads.State.view, List.drop_left] at hout
      have hm : data ∈ s.outgoing caps.socket := by
        rw [hout]
        simp
      obtain ⟨l, -, rfl⟩ := outgoing_message (h.clients caps.socket) hm
      exact mem_overwrite NUL (by simp)
    | _ => trivial
  | _ => trivial

theorem server_logs {x y : PipelineThreads.State w} {ev : PipelineThreads.Event} (hs : PipelineThreads.Step x ev y)
    (fd : Nat) : (∃ new, y.base.received fd = x.base.received fd ++ new) ∧
      ∃ new, y.base.sent fd = x.base.sent fd ++ new := by
  rcases grows hs with ⟨e, -, hg⟩ | ⟨-, hr, hsent⟩
  · obtain ⟨new, hnew, -⟩ := hg.received fd
    exact ⟨⟨new, hnew⟩, hg.sent fd⟩
  · exact ⟨⟨[], by rw [hr, List.append_nil]⟩, ⟨[], by rw [hsent, List.append_nil]⟩⟩

theorem inStep_server (h : InStep lines s fd) {ev : PipelineThreads.Event} {srv : PipelineThreads.State w}
    {outgoing : Nat → List (List Byte)} (hs : PipelineThreads.Step s.server ev srv)
    (ho : s.outgoing fd =
      ((srv.base.received fd).drop (s.server.base.received fd).length).map Prod.snd ++ outgoing fd) :
    InStep lines { s with
      server := srv
      outgoing
      sessions := fun fd => { s.sessions fd with
        pending := (s.sessions fd).pending ++
          ((srv.base.sent fd).drop (s.server.base.sent fd).length).flatten } } fd := by
  obtain ⟨⟨newR, hr⟩, newS, hsent⟩ := server_logs hs fd
  have hmessages := h.messages
  rw [ho, hr, List.drop_left] at hmessages
  refine ⟨h.asked, h.stdin, ?_, h.printed, ?_, ?_, h.buf⟩
  · simp only [hr, List.map_append, List.append_assoc]
    exact hmessages
  · simp only [hsent, List.length_append]
    exact Nat.le_add_right_of_le h.answered
  · simp only [hsent, List.drop_left, h.pending, List.drop_append_of_le_length h.answered, List.flatten_append]

theorem inv_server (h : Inv typed s) {ev : PipelineThreads.Event} {srv : PipelineThreads.State w}
    {outgoing : Nat → List (List Byte)} (hs : PipelineThreads.Step s.server ev srv) (hf : fails ev = false)
    (ho : ∀ fd, s.outgoing fd =
      ((srv.base.received fd).drop (s.server.base.received fd).length).map Prod.snd ++ outgoing fd) :
    Inv typed { s with
      server := srv
      outgoing
      sessions := fun fd => { s.sessions fd with
        pending := (s.sessions fd).pending ++ ((srv.base.sent fd).drop (s.server.base.sent fd).length).flatten } } :=
  ⟨h.server.step ⟨hs, ended_server h hs hf ho⟩, serving_step h.serving hs hf,
    fun fd => inStep_server (h.clients fd) hs (ho fd)⟩

/-- A client's own step leaves the others in step. -/
theorem inStep_other (h : InStep lines s fd) (hserver : s'.server = s.server)
    (hsession : s'.sessions fd = s.sessions fd) (hwaiting : s'.waiting fd = s.waiting fd)
    (hout : s'.outgoing fd = s.outgoing fd) : InStep lines s' fd := by
  have hasked : s'.asked fd = s.asked fd := by
    unfold State.asked
    rw [hsession, hwaiting]
  constructor
  case asked => rw [hasked]; exact h.asked
  case stdin => rw [hsession, hasked]; exact h.stdin
  case messages => rw [hserver, hout, hasked]; exact h.messages
  case printed => rw [hsession]; exact h.printed
  case answered => rw [hsession, hserver]; exact h.answered
  case pending => rw [hsession, hserver]; exact h.pending
  case buf => rw [hsession]; exact h.buf

theorem inStep_type (h : InStep lines s fd) (hl : ∀ l ∈ lines, Short l) {buffer stdin sent : List Byte}
    (hw : s.waiting fd = false) (hne : (s.sessions fd).stdin ≠ [])
    (hget : get_input (s.sessions fd).stdin = (buffer, stdin)) (hsend : send_message buffer = some sent)
    (hserver : s'.server = s.server) (hsession : s'.sessions fd = { s.sessions fd with stdin })
    (hwaiting : s'.waiting fd = true) (hout : s'.outgoing fd = s.outgoing fd ++ [sent]) : InStep lines s' fd := by
  have hlt : s.asked fd < lines.length := by
    by_contra hge
    refine hne ?_
    rw [h.stdin, List.drop_of_length_le (Nat.le_of_not_lt hge)]
    rfl
  have hline := (hl _ (List.getElem_mem hlt)).1
  have hstdin := h.stdin
  rw [List.drop_eq_getElem_cons hlt, stream_cons] at hstdin
  rw [hstdin, get_input_spec hline, Prod.mk.injEq] at hget
  obtain ⟨rfl, rfl⟩ := hget
  rw [send_message_spec (by simp), cstr_append_cons NUL hline.nul] at hsend
  cases hsend
  have hasked : s'.asked fd = s.asked fd + 1 := by
    unfold State.asked
    rw [hsession, hwaiting, hw]
    rfl
  constructor
  case asked => rw [hasked]; exact hlt
  case stdin => rw [hsession, hasked]
  case messages =>
    rw [hasked, hserver, hout, ← List.append_assoc, h.messages, List.take_succ_eq_append_getElem hlt, List.map_append,
      List.map_singleton]
  case printed => rw [hsession]; exact h.printed
  case answered => rw [hsession, hserver]; exact h.answered
  case pending => rw [hsession, hserver]; exact h.pending
  case buf => rw [hsession]; exact h.buf

theorem inStep_receive (h : Inv typed s) (hl : ∀ l ∈ typed fd, Short l) (hw : s.waiting fd = true)
    (hne : (s.sessions fd).pending ≠ []) (hserver : s'.server = s.server)
    (hsession : s'.sessions fd = receive (s.sessions fd)) (hwaiting : s'.waiting fd = false)
    (hout : s'.outgoing fd = s.outgoing fd) : InStep (typed fd) s' fd := by
  have hc := h.clients fd
  rcases pending_of_waiting h hl hw with ⟨-, hnil⟩ | ⟨l, hline, hpending, hsent⟩
  · exact absurd hnil hne
  obtain ⟨hshort, hfull⟩ := hl l (List.mem_of_getElem? hline)
  obtain ⟨hshown, hleft⟩ := shown_short hshort hfull
  have hx := receive_spec hc.buf
  rw [hpending, hshown, hleft, ← hsession] at hx
  obtain ⟨hlt, hgot⟩ := List.getElem?_eq_some_iff.1 hline
  have hlen : (s'.sessions fd).printed.length = (s.sessions fd).printed.length + 1 := by rw [hx.printed]; simp
  have hasked : s'.asked fd = s.asked fd := by
    unfold State.asked
    rw [hlen, hwaiting, hw]
    rfl
  constructor
  case asked => rw [hasked]; exact hc.asked
  case stdin => rw [hx.stdin, hasked]; exact hc.stdin
  case messages => rw [hserver, hout, hasked]; exact hc.messages
  case printed =>
    rw [hlen, hx.printed, List.take_succ_eq_append_getElem hlt, List.map_append, List.map_singleton, hgot, ← hc.printed]
  case answered =>
    rw [hlen, hserver]
    exact Nat.le_of_eq hsent.symm
  case pending =>
    rw [hx.pending, hlen, hserver, List.drop_of_length_le (Nat.le_of_eq hsent)]
    rfl
  case buf => exact hx.buf

theorem step_inv (h : Inv typed s) (hl : ∀ fd, ∀ l ∈ typed fd, Short l) {e : Event} (hs : Step s e s') :
    Inv typed s' := by
  cases hs with
  | server hs hf ho => exact inv_server h hs hf ho
  | @type fd buffer stdin sent hw hne hget hsend =>
    refine ⟨h.server, h.serving, fun fd' => ?_⟩
    by_cases hfd : fd' = fd
    · subst hfd
      exact inStep_type (h.clients fd') (hl fd') hw hne hget hsend rfl (Function.update_self _ _ _)
        (Function.update_self _ _ _) (Function.update_self _ _ _)
    · exact inStep_other (h.clients fd') rfl (Function.update_of_ne hfd _ _) (Function.update_of_ne hfd _ _)
        (Function.update_of_ne hfd _ _)
  | @receive fd hw hne =>
    refine ⟨h.server, h.serving, fun fd' => ?_⟩
    by_cases hfd : fd' = fd
    · subst hfd
      exact inStep_receive h (hl fd') hw hne rfl (Function.update_self _ _ _) (Function.update_self _ _ _) rfl
    · exact inStep_other (h.clients fd') rfl (Function.update_of_ne hfd _ _) (Function.update_of_ne hfd _ _) rfl

theorem start_inv (buffers : Nat → List Byte) {bufs : Nat → List Byte} (hb : ∀ fd, (bufs fd).length = BUFFERSIZE) :
    Inv typed (start buffers bufs typed : State w) where
  server := .init ⟨buffers, rfl⟩
  serving _ _ h := by cases h
  clients fd := ⟨Nat.zero_le _, rfl, rfl, rfl, Nat.le_refl _, rfl, hb fd⟩

theorem reachable_inv (hl : ∀ fd, ∀ l ∈ typed fd, Short l) (h : (system w typed).Reachable s) : Inv typed s := by
  refine h.inv (P := Inv typed) ?_ fun _ _ _ hi hs => step_inv hi hl hs
  rintro s ⟨buffers, bufs, hb, rfl⟩
  exact start_inv buffers hb

/-! ## Coming to the end -/

variable {c : Nat}

/-- A step for the client on `fd`, whose connection has number `c`. -/
def By (c fd : Nat) : Event → Prop
  | .server (.own (.recv t _ _)) => t / 3 = c
  | .server (.own (.accept new_fd)) => new_fd = some fd
  | .server ev => ev.Of c
  | .type fd' | .receive fd' => fd' = fd

/-- At most this many steps for it are left, when the connection is there. -/
def togo (lines : List (List Byte)) (c fd : Nat) (s : State w) : Nat :=
  207760 * (lines.length - s.asked fd) + 207758 * (s.outgoing fd).length + PipelineThreads.measure s.server c +
    (s.waiting fd).toNat

theorem gained_of {ev : PipelineThreads.Event} (h : ev.Of c) : PipelineThreads.gained c ev = 0 := by
  cases ev with
  | own e =>
    cases e with
    | accept | recv => exact absurd h id
    | _ => rfl
  | queue k t a =>
    refine if_neg fun hs => ?_
    have := h.2
    rw [hs.2] at this
    cases this

theorem conns_step {x y : PipelineThreads.State w} {ev : PipelineThreads.Event} (hs : PipelineThreads.Step x ev y)
    (hc : x.base.conns[c]? = some fd) : y.base.conns[c]? = some fd := by
  rcases grows hs with ⟨e, -, hg⟩ | ⟨he, -⟩
  · obtain ⟨new, hnew⟩ := hg.conns
    rw [← hnew, List.getElem?_append_left (List.getElem?_eq_some_iff.1 hc).1, hc]
  · rw [he, hc]

theorem conns_keep {e : Event} (hs : Step s e s') (hc : s.server.base.conns[c]? = some fd) :
    s'.server.base.conns[c]? = some fd := by
  cases hs with
  | server hs => exact conns_step hs hc
  | type | receive => exact hc

/-- A step of the server that receives nothing. -/
theorem quiet_step {ev : PipelineThreads.Event} {srv : PipelineThreads.State w}
    (hs : PipelineThreads.Step s.server ev srv) (hr : ∀ t junk data, ev ≠ .own (.recv t junk data)) :
    ∃ s', Step s (.server ev) s' ∧ s'.server = srv ∧ s'.outgoing = s.outgoing ∧ s'.waiting = s.waiting ∧
      ∀ fd, (s'.sessions fd).printed = (s.sessions fd).printed := by
  refine ⟨_, .server hs ?_ fun fd => ?_, rfl, rfl, rfl, fun _ => rfl⟩
  · cases ev with
    | own e =>
      cases e with
      | recv t junk data => exact absurd rfl (hr t junk data)
      | _ => rfl
    | queue => rfl
  · have hsame : srv.base.received fd = s.server.base.received fd := by
      rcases grows hs with ⟨e, rfl, hg⟩ | ⟨-, he, -⟩
      · obtain ⟨new, hnew, hall⟩ := hg.received fd
        cases new with
        | nil => rw [hnew, List.append_nil]
        | cons r new =>
          obtain ⟨t, rfl⟩ := hall r (by simp)
          exact absurd rfl (hr t r.1 (some r.2))
      · rw [he]
    rw [hsame, List.drop_length]
    rfl

/-- With no statement left for a connection, its first thread is at its `recv`. -/
theorem at_recv {x : PipelineThreads.State w} (hi : PipelineThreads.Inv x) (hf : Pipeline.Flowing x.abs)
    (hserving : Serving x) (hc : x.base.conns[c]? = some fd) (hlt : (x.base.received fd).length < 2 ^ w)
    (hno : ∀ ev t, PipelineThreads.Step x ev t → ¬ ev.Of c) :
    ∃ caps, x.base.threads (3 * c) = some (.listenAO caps .recv) ∧ caps.socket = fd := by
  have hd : x.base.main = .accept ∧ x.abs.contents c = [] := by
    by_contra hd
    obtain ⟨ev, t, hs, he⟩ := PipelineThreads.moves hi hf hc hlt hd
    exact hno ev t hs he
  have hrest : ∀ k, (x.queues k).pc (3 * c) = .idle ∨ (x.queues k).pc (3 * c) = .deqAsleep := by
    intro k
    by_contra hbusy
    obtain ⟨ev, t, hs, he⟩ := PipelineThreads.call_moves hi (fun hidle => hbusy (.inl hidle))
      fun hsleep => hbusy (.inr hsleep)
    exact hno ev t hs ((show 3 * c / 3 = c by omega) ▸ he)
  obtain ⟨⟨pc, hth⟩, -, -⟩ := Pipeline.threads_of hf hd.1 hc
  have hbase := hth
  rw [PipelineThreads.ahead_resting hrest] at hbase
  cases pc with
  | recv => exact ⟨_, hbase, rfl⟩
  | returned => exact absurd hbase (hserving _ _)
  | enQ capsul =>
    have hcontents := hd.2
    simp [Pipeline.State.contents, Pipeline.contents, hth, Pipeline.load] at hcontents

/-- The server takes the client's next message. -/
theorem recv_moves (h : Inv typed s) (hl : ∀ l ∈ typed fd, Short l) {caps : Pipeline.capsula}
    (hth : s.server.base.threads (3 * c) = some (.listenAO caps .recv)) (hfd : caps.socket = fd) {data : List Byte}
    {rest : List (List Byte)} (hout : s.outgoing fd = data :: rest) :
    ∃ e s', Step s e s' ∧ By c fd e ∧ s'.outgoing fd = rest ∧ s'.waiting = s.waiting ∧
      (s'.sessions fd).printed = (s.sessions fd).printed ∧
      PipelineThreads.measure s'.server c ≤ PipelineThreads.measure s.server c + 207757 := by
  have hm : data ∈ s.outgoing fd := by
    rw [hout]
    simp
  obtain ⟨l, hline, rfl⟩ := outgoing_message (h.clients fd) hm
  have hlen : (l ++ [NUL]).length ≤ 1024 := by
    have := (hl l hline).1.length
    simp only [List.length_append, List.length_singleton]
    omega
  have hs : PipelineThreads.Step s.server (.own (.recv (3 * c) (List.replicate 1024 NUL) (some (l ++ [NUL])))) _ :=
    .own rfl (.recv hth List.length_replicate hlen)
  obtain ⟨hi, hf, -⟩ := PipelineThreads.flowing_of_reachable h.server
  have haccount := PipelineThreads.step_account hi hf hs c
  have hgained : PipelineThreads.gained c (.own (.recv (3 * c) (List.replicate 1024 NUL) (some (l ++ [NUL])))) =
      207757 := by
    simp [PipelineThreads.gained, Pipeline.gained]
  refine ⟨_, _, @Step.server _ s _ _ (Function.update s.outgoing fd rest) hs rfl fun fd' => ?_,
    show 3 * c / 3 = c by omega, Function.update_self _ _ _, rfl, rfl, by
      rw [← hgained]; exact Nat.le_trans (Nat.le_add_right _ _) haccount⟩
  by_cases hfd' : fd' = fd
  · subst hfd'
    simp only [hfd, Function.update_self, PipelineThreads.State.view, List.drop_left, hout]
    rfl
  · have hne : fd' ≠ caps.socket := by rw [hfd]; exact hfd'
    simp only [Function.update_of_ne hfd', Function.update_of_ne hne, PipelineThreads.State.view, List.drop_length]
    rfl

/-- Where nothing is left for the server to do or to take, the client has its reply
or its next line. -/
theorem client_moves (h : Inv typed s) (hl : ∀ l ∈ typed fd, Short l) (hout : s.outgoing fd = [])
    (hsent : s.server.base.sent fd = (s.server.base.received fd).map answer)
    (hd : (s.sessions fd).printed.length < (typed fd).length) :
    ∃ e s', Step s e s' ∧ By c fd e ∧ togo (typed fd) c fd s' < togo (typed fd) c fd s := by
  have hc := h.clients fd
  have hlen := hc.length_messages
  have hsentlen := congrArg List.length hsent
  rw [List.length_map] at hsentlen
  rw [hout, List.length_nil] at hlen
  cases hw : s.waiting fd with
  | true =>
    have hasked : s.asked fd = (s.sessions fd).printed.length + 1 := by
      unfold State.asked
      rw [hw, Bool.toNat_true]
    rcases pending_of_waiting h hl hw with ⟨he, -⟩ | ⟨l, hline, hpending, -⟩
    · omega
    · have hne : (s.sessions fd).pending ≠ [] := by
        rw [hpending, reply]
        simp
      have hprinted : (receive (s.sessions fd)).printed.length = (s.sessions fd).printed.length + 1 := by
        simp [receive]
      refine ⟨_, _, .receive hw hne, rfl, ?_⟩
      unfold togo State.asked
      simp only [Function.update_self, hw, hprinted, Bool.toNat_true, Bool.toNat_false]
      omega
  | false =>
    have hasked : s.asked fd = (s.sessions fd).printed.length := by
      unfold State.asked
      rw [hw, Bool.toNat_false, Nat.add_zero]
    have hlt : s.asked fd < (typed fd).length := by omega
    have hstdin := hc.stdin
    rw [List.drop_eq_getElem_cons hlt, stream_cons] at hstdin
    have hline := (hl _ (List.getElem_mem hlt)).1
    refine ⟨_, _, .type hw (by rw [hstdin]; simp) (hstdin ▸ get_input_spec hline _) (send_message_spec (by simp)),
      rfl, ?_⟩
    unfold State.asked at hlt
    unfold togo State.asked
    simp only [Function.update_self, hw, hout, Bool.toNat_true, Bool.toNat_false, List.nil_append, List.length_nil,
      List.length_singleton] at hlt ⊢
    omega

/-- As long as a client whose connection is there has not shown all its replies, there
is a step for it. -/
theorem moves (h : Inv typed s) (hl : ∀ l ∈ typed fd, Short l) (hlt : (typed fd).length < 2 ^ w)
    (hc : s.server.base.conns[c]? = some fd) (hd : (s.sessions fd).printed.length < (typed fd).length) :
    ∃ e s', Step s e s' ∧ By c fd e ∧ togo (typed fd) c fd s' < togo (typed fd) c fd s := by
  obtain ⟨hi, hf, -⟩ := PipelineThreads.flowing_of_reachable h.server
  have hasked := (h.clients fd).asked
  have hlen := (h.clients fd).length_messages
  by_cases hserver : ∃ ev srv, PipelineThreads.Step s.server ev srv ∧ ev.Of c
  · obtain ⟨ev, srv, hs, he⟩ := hserver
    have haccount := PipelineThreads.step_account hi hf hs c
    rw [gained_of he, show PipelineThreads.spent c ev = 1 from if_pos he] at haccount
    obtain ⟨s', hs', rfl, hout, hwaiting, hprinted⟩ := quiet_step hs (by rintro t junk data rfl; exact he)
    refine ⟨_, s', hs', ?_, ?_⟩
    · cases ev with
      | own e =>
        cases e with
        | accept | recv => exact absurd he id
        | _ => exact he
      | queue => exact he
    · unfold togo State.asked
      rw [hout, hwaiting, hprinted]
      omega
  have hno : ∀ ev t, PipelineThreads.Step s.server ev t → ¬ ev.Of c := fun ev t hs he => hserver ⟨ev, t, hs, he⟩
  have hreceived : (s.server.base.received fd).length < 2 ^ w := by omega
  cases hout : s.outgoing fd with
  | cons data rest =>
    obtain ⟨caps, hth, hfd⟩ := at_recv hi hf h.serving hc hreceived hno
    obtain ⟨e, s', hs, he, hout', hwaiting, hprinted, hmeasure⟩ := recv_moves h hl hth hfd hout
    refine ⟨e, s', hs, he, ?_⟩
    unfold togo State.asked
    rw [hout, hout', hwaiting, hprinted, List.length_cons]
    omega
  | nil =>
    exact client_moves h hl hout (PipelineThreads.sent_of_resting h.server hc hreceived hno) hd

/-- A client that is connected can be brought to its last line. -/
theorem finishes (h : Inv typed s) (hl : ∀ fd, ∀ l ∈ typed fd, Short l) (hlt : (typed fd).length < 2 ^ w)
    (hc : s.server.base.conns[c]? = some fd) : ∃ evs s', (system w typed).Run s evs s' ∧ (∀ e ∈ evs, By c fd e) ∧
      (s'.sessions fd).printed = (typed fd).map text := by
  have hs : ∀ x : State w, (Inv typed x ∧ x.server.base.conns[c]? = some fd) →
      ¬ (typed fd).length ≤ (x.sessions fd).printed.length → ∃ e y, (system w typed).step x e y ∧ By c fd e ∧
        (Inv typed y ∧ y.server.base.conns[c]? = some fd) ∧ togo (typed fd) c fd y < togo (typed fd) c fd x := by
    rintro x ⟨hx, hcx⟩ hd
    obtain ⟨e, y, hstep, he, hless⟩ := moves hx (hl fd) hlt hcx (Nat.lt_of_not_le hd)
    exact ⟨e, y, hstep, he, ⟨step_inv hx hl hstep, conns_keep hstep hcx⟩, hless⟩
  obtain ⟨evs, s', hrun, hevs, ⟨hi, -⟩, hd⟩ := Machine.exists_run (togo (typed fd) c fd) hs ⟨h, hc⟩
  refine ⟨evs, s', hrun, hevs, ?_⟩
  rw [(hi.clients fd).printed, List.take_of_length_le hd]

/-- `main` starts the threads of the connection it is at. -/
theorem create_moves (hm : s.server.base.main ≠ .accept) : ∃ s', Step s (.server (.own .create)) s' ∧
    s'.server.base.conns = s.server.base.conns ∧
    Pipeline.mainWork s'.server.base.main < Pipeline.mainWork s.server.base.main := by
  have hstep : ∃ srv, PipelineThreads.Step s.server (.own .create) srv ∧ srv.base.conns = s.server.base.conns ∧
      Pipeline.mainWork srv.base.main < Pipeline.mainWork s.server.base.main := by
    cases hmain : s.server.base.main with
    | accept => exact absurd hmain hm
    | new_listenAO new_fd q2 q3 =>
      exact ⟨_, .own rfl (.new_listenAO hmain), rfl, by simp [Pipeline.State.create, Pipeline.mainWork]⟩
    | new_AO_convert q2 q3 =>
      exact ⟨_, .own rfl (.new_AO_convert hmain), rfl, by simp [Pipeline.State.create, Pipeline.mainWork]⟩
    | new_AO_caesar q3 =>
      exact ⟨_, .own rfl (.new_AO_caesar hmain), rfl, by simp [Pipeline.State.create, Pipeline.mainWork]⟩
  obtain ⟨srv, hs, hconns, hlt⟩ := hstep
  obtain ⟨s', hs', rfl, -⟩ := quiet_step hs (by rintro t junk data ⟨⟩)
  exact ⟨s', hs', hconns, hlt⟩

/-- A client that is not connected can be. -/
theorem connects (h : Inv typed s) (hl : ∀ fd, ∀ l ∈ typed fd, Short l) (hfd : fd ∉ s.server.base.conns) :
    ∃ c evs s', (system w typed).Run s evs s' ∧ (∀ e ∈ evs, By c fd e) ∧ Inv typed s' ∧
      s'.server.base.conns[c]? = some fd := by
  have hs : ∀ x : State w, (Inv typed x ∧ x.server.base.conns = s.server.base.conns) →
      ¬ x.server.base.main = .accept → ∃ e y, (system w typed).step x e y ∧ e = .server (.own .create) ∧
        (Inv typed y ∧ y.server.base.conns = s.server.base.conns) ∧
        Pipeline.mainWork y.server.base.main < Pipeline.mainWork x.server.base.main := by
    rintro x ⟨hx, hcx⟩ hd
    obtain ⟨y, hstep, hconns, hless⟩ := create_moves hd
    exact ⟨_, y, hstep, rfl, ⟨step_inv hx hl hstep, hconns.trans hcx⟩, hless⟩
  obtain ⟨evs, x, hrun, hevs, ⟨hx, hconns⟩, hm⟩ :=
    Machine.exists_run (fun x : State w => Pipeline.mainWork x.server.base.main) hs ⟨h, rfl⟩
  have haccept : PipelineThreads.Step x.server (.own (.accept (some fd))) _ :=
    .own rfl (.accept hm (by rw [← hconns] at hfd; exact hfd))
  obtain ⟨y, hstep, hsrv, -⟩ := quiet_step haccept (by rintro t junk data ⟨⟩)
  have hrun' : (system w typed).Run s (evs ++ [.server (.own (.accept (some fd)))]) y := hrun.snoc hstep
  refine ⟨x.server.base.conns.length, _, y, hrun', fun e he => ?_, step_inv hx hl hstep, ?_⟩
  · rcases List.mem_append.1 he with he | he
    · rw [hevs e he]
      trivial
    · rw [List.mem_singleton.1 he]
      rfl
  · rw [hsrv]
    exact List.getElem?_concat_length

/-- Each client shows the replies to its own lines, in the order it has typed them,
and nothing else, whatever the others do and however the threads are scheduled; and
at any time it can be connected and come to the end of its lines by steps for itself
alone. -/
theorem answered (hl : ∀ fd, ∀ l ∈ typed fd, Short l) (hlt : ∀ fd, (typed fd).length < 2 ^ w)
    (h : (system w typed).Reachable s) (fd : Nat) :
    (s.sessions fd).printed = ((typed fd).take (s.sessions fd).printed.length).map text ∧
    ∃ c evs s', (system w typed).Run s evs s' ∧ (∀ e ∈ evs, By c fd e) ∧
      (s'.sessions fd).printed = (typed fd).map text := by
  have hi := reachable_inv hl h
  refine ⟨(hi.clients fd).printed, ?_⟩
  by_cases hfd : fd ∈ s.server.base.conns
  · obtain ⟨c, hc⟩ := List.getElem?_of_mem hfd
    exact ⟨c, finishes hi hl (hlt fd) hc⟩
  · obtain ⟨c, evs, x, hrun, hevs, hx, hc⟩ := connects hi hl hfd
    obtain ⟨evs', s', hrun', hevs', hprinted⟩ := finishes hx hl (hlt fd) hc
    refine ⟨c, evs ++ evs', s', hrun.append hrun', fun e he => ?_, hprinted⟩
    exact (List.mem_append.1 he).elim (hevs e) (hevs' e)

/-- Every client types "hi". -/
def greetings : Nat → List (List Byte) := fun _ => [[104#8, 105#8]]

theorem greetings_short (fd : Nat) : ∀ l ∈ greetings fd, Short l := by
  intro l hm
  rw [List.mem_singleton.1 hm]
  exact short_hi

theorem greetings_few (fd : Nat) : (greetings fd).length < 2 ^ 64 := Nat.one_lt_two_pow (by decide)

theorem init_greetings :
    (system 64 greetings).init (start (fun _ => []) (fun _ => List.replicate BUFFERSIZE NUL) greetings) :=
  ⟨_, _, fun _ => List.length_replicate, rfl⟩

/-- The client on descriptor 4 is answered, and after it the one on 5. -/
theorem answered_in_turn : ∃ (s s' : State 64) (evs : List Event), (s.sessions 4).printed = [[73#8, 74#8]] ∧
    (system 64 greetings).Run s evs s' ∧ (system 64 greetings).Reachable s' ∧
    (s'.sessions 5).printed = [[73#8, 74#8]] := by
  have hstart : (system 64 greetings).Reachable _ := .init init_greetings
  obtain ⟨-, c, evs, s, hrun, -, hprinted⟩ := answered greetings_short greetings_few hstart 4
  have hs := hrun.reachable hstart
  obtain ⟨-, c', evs', s', hrun', -, hprinted'⟩ := answered greetings_short greetings_few hs 5
  exact ⟨s, s', evs', hprinted, hrun', hrun'.reachable hs, hprinted'⟩

end Ex6.Sessions
