import Ex6.Lib.Blocks
import Ex6.SelectRun
import Ex6.SelectSafety
/-!
# Messages through the select server

Clients send NUL-terminated messages of up to 1024 bytes. The server receives
256 at a time and sends on what it has received, whether that is a message, a
part of one or several. `Chat` puts the server among its clients and labels
every byte with the message it is of.
-/
open Lib Lib.CString

namespace Ex6.SelectServer

/-- A byte of message number `msg`, sent on connection `sender`. -/
structure Sent where
  sender : Nat
  msg : Nat
  byte : Byte
deriving Repr, DecidableEq

structure Chat where
  server : State
  nsent : Nat
  /-- What was sent to the server on each connection. -/
  said : Nat → List Sent
  /-- What the server has not received of it. -/
  pending : Nat → List Sent
  /-- What the server has received. -/
  stream : List Sent
  /-- What the server has sent on each connection. -/
  delivered : Nat → List Sent

/-- The bytes of message number `k`. -/
def label (c k : Nat) (bytes : List Byte) : List Sent := bytes.map fun byte => ⟨c, k, byte⟩

/-- What `recv` returns of connection `c`: as much as there is and as fits. -/
def Chat.chunk (s : Chat) (c : Nat) : List Sent := (s.pending c).take s.server.rd_st.buffersize

/-- A client sends a message and its terminator. -/
def Chat.say (s : Chat) (c : Nat) (m : List Byte) : Chat :=
  { s with
    nsent := s.nsent + 1
    said := Function.update s.said c (s.said c ++ label c s.nsent (m ++ [NUL]))
    pending := Function.update s.pending c (s.pending c ++ label c s.nsent (m ++ [NUL])) }

/-- The server receives a chunk of connection `c` and is in state `t` then. What has
come to the wire of a connection is the beginning of the chunk. -/
def Chat.receive (s : Chat) (c : Nat) (t : State) : Chat :=
  { s with
    server := t
    pending := Function.update s.pending c ((s.pending c).drop s.server.rd_st.buffersize)
    stream := s.stream ++ s.chunk c
    delivered := fun d => s.delivered d ++
      (s.chunk c).take ((t.wire (.conn d)).length - (s.server.wire (.conn d)).length) }

inductive ChatEvent
  | say (c : Nat) (m : List Byte)
  | recv (c : Nat) (sent : Nat → Nat)
  | server (e : Event)

inductive Chat.Step (s : Chat) : ChatEvent → Chat → Prop
  | say {c m} : NUL ∉ m → m.length < 1024 → Chat.Step s (.say c m) (s.say c m)
  | recv {c i r sent t} : Turn s.server i r → s.server.table i = some (.conn c) →
      SelectServer.Step s.server (.recv (some ((s.chunk c).map Sent.byte)) sent) t →
      Chat.Step s (.recv c sent) (s.receive c t)
  | server {e t} : SelectServer.Step s.server e t → (∀ data sent, e ≠ .recv (some data) sent) →
      Chat.Step s (.server e) { s with server := t }

/-- The server among its clients, before anything was said. -/
def chat : Machine Chat ChatEvent where
  init s := Started s.server ∧ s.nsent = 0 ∧ (∀ c, s.said c = []) ∧ (∀ c, s.pending c = []) ∧ s.stream = [] ∧
    ∀ d, s.delivered d = []
  step := Chat.Step

structure ChatInv (s : Chat) : Prop where
  server : Inv s.server ∨ s.server.ctl = .undefined
  buffersize : s.server.rd_st.buffersize = 256
  /-- The labels are those of the bytes on the wire. -/
  wire : ∀ d, (s.delivered d).map Sent.byte = s.server.wire (.conn d)
  /-- What is sent on is something that was received. -/
  received : ∀ d, (s.delivered d).Sublist s.stream
  /-- What was said on a connection is received in order. -/
  source : ∀ c, s.stream.filter (fun a => decide (a.sender = c)) ++ s.pending c = s.said c
  label : ∀ c, ∀ a ∈ s.said c, a.sender = c ∧ a.msg < s.nsent
  sorted : ∀ c, (s.said c).Pairwise fun a b => a.msg ≤ b.msg

variable {s s' : Chat} {e : ChatEvent}

/-! ## The server's steps -/

/-- Nothing follows what is undefined. -/
theorem safe_step {s s' : State} {e : Event} (h : Inv s ∨ s.ctl = .undefined) (hs : Step s e s') :
    Inv s' ∨ s'.ctl = .undefined := by
  rcases h with hi | hu
  · by_cases he : e.InRange
    · exact .inl (inv_step hi hs he)
    · cases hs with
      | boot hc => exact absurd hc hi.started
      | @accept i r st newfd =>
        cases newfd with
        | none => exact absurd (by rintro fd ⟨⟩) he
        | some fd =>
          have hlt : ¬ fd < MAX_FDS := fun hlt => he (by rintro k ⟨⟩; exact hlt)
          right
          rw [accept_connection_overflow _ hlt]
      | _ => exact absurd (by rintro fd ⟨⟩) he
  · cases hs with
    | boot hc | select hc | select_fails hc | skip hc | done hc => rw [hu] at hc; cases hc
    | accept ht | recv ht | mismatch ht => have hc := ht.ctl; rw [hu] at hc; cases hc

theorem buffersize_called (s : State) (i : Nat) (r : Round) :
    (s.called i r).rd_st.buffersize = s.rd_st.buffersize := by
  unfold State.called
  split <;> rfl

/-- The buffer keeps its size. -/
theorem buffersize_step {s s' : State} {e : Event} (hs : Step s e s') :
    s'.rd_st.buffersize = s.rd_st.buffersize := by
  cases hs with
  | boot => exact (boot_keeps s _).2
  | @accept i r => rw [(accept_connection_keeps (s.called i r) _).2, buffersize_called]
  | @recv i r st data sent =>
    rw [← buffersize_called s i r]
    rcases handle_client_data_cases (s.called i r) st data sent with ⟨-, he⟩ | ⟨bytes, -, -, he⟩ <;> rw [he]
  | @mismatch i r => exact buffersize_called s i r
  | _ => rfl

/-! ## The chat's -/

/-- What a step delivers is the beginning of the chunk, and its labels are those of
the bytes that have gone onto the wire. -/
theorem delivered_chunk {s : Chat} {t : State} {c : Nat} {sent : Nat → Nat} (hi : Inv s.server)
    (hs : Step s.server (.recv (some ((s.chunk c).map Sent.byte)) sent) t) (d : Nat) :
    s.server.wire (.conn d) ++ ((s.chunk c).take ((t.wire (.conn d)).length -
      (s.server.wire (.conn d)).length)).map Sent.byte = t.wire (.conn d) := by
  obtain ⟨n, hn⟩ := wire_chunk hi hs (.conn d)
  rw [hn, List.length_append, Nat.add_sub_cancel_left, List.map_take]
  rw [List.length_take]
  exact congrArg _ List.take_eq_take_min.symm

theorem label_of_mem {c k : Nat} {bytes : List Byte} {a : Sent} (h : a ∈ label c k bytes) :
    a.sender = c ∧ a.msg = k := by
  obtain ⟨byte, -, rfl⟩ := List.mem_map.1 h
  exact ⟨rfl, rfl⟩

theorem chunk_said (h : ChatInv s) {c : Nat} {a : Sent} (ha : a ∈ s.chunk c) : a ∈ s.said c := by
  rw [← h.source c]
  exact List.mem_append_right _ (List.mem_of_mem_take ha)

/-- A message said has the highest number. -/
theorem chat_say (h : ChatInv s) (c : Nat) (m : List Byte) : ChatInv (s.say c m) where
  server := h.server
  buffersize := h.buffersize
  wire := h.wire
  received := h.received
  source c' := by
    by_cases hc : c' = c
    · subst hc
      simp only [Chat.say, Function.update_self]
      rw [← List.append_assoc, h.source]
    · simp only [Chat.say, Function.update_of_ne hc]
      exact h.source c'
  label c' a ha := by
    by_cases hc : c' = c
    · subst hc
      simp only [Chat.say, Function.update_self, List.mem_append] at ha
      rcases ha with ha | ha
      · obtain ⟨hsender, hmsg⟩ := h.label c' a ha
        exact ⟨hsender, Nat.lt_succ_of_lt hmsg⟩
      · obtain ⟨hsender, hmsg⟩ := label_of_mem ha
        exact ⟨hsender, by rw [hmsg]; exact Nat.lt_succ_self s.nsent⟩
    · simp only [Chat.say, Function.update_of_ne hc] at ha
      obtain ⟨hsender, hmsg⟩ := h.label c' a ha
      exact ⟨hsender, Nat.lt_succ_of_lt hmsg⟩
  sorted c' := by
    by_cases hc : c' = c
    · subst hc
      simp only [Chat.say, Function.update_self]
      refine List.pairwise_append.2 ⟨h.sorted c', ?_, fun a ha b hb => ?_⟩
      · exact List.pairwise_map.2 (List.pairwise_of_forall fun _ _ => Nat.le_refl _)
      · rw [(label_of_mem hb).2]
        exact Nat.le_of_lt (h.label c' a ha).2
    · simp only [Chat.say, Function.update_of_ne hc]
      exact h.sorted c'

/-- What is received moves from `pending` to `stream`. -/
theorem chat_recv (h : ChatInv s) {c i : Nat} {r : Round} {sent : Nat → Nat} {t : State} (ht : Turn s.server i r)
    (hs : Step s.server (.recv (some ((s.chunk c).map Sent.byte)) sent) t) : ChatInv (s.receive c t) where
  server := safe_step h.server hs
  buffersize := (buffersize_step hs).trans h.buffersize
  wire d := by
    have hi : Inv s.server := h.server.resolve_right fun hu => by
      have hc := ht.ctl
      rw [hu] at hc
      cases hc
    simp only [Chat.receive, List.map_append]
    rw [h.wire, delivered_chunk hi hs]
  received d := (h.received d).append (List.take_sublist _ _)
  source c' := by
    have hsender : ∀ a ∈ s.chunk c, a.sender = c := fun a ha => (h.label c a (chunk_said h ha)).1
    simp only [Chat.receive, List.filter_append]
    by_cases hc : c' = c
    · subst hc
      rw [List.filter_eq_self.2 fun a ha => decide_eq_true (hsender a ha), Function.update_self, List.append_assoc,
        Chat.chunk, List.take_append_drop, h.source]
    · have hnone : (s.chunk c).filter (fun a => decide (a.sender = c')) = [] :=
        List.filter_eq_nil_iff.2 fun a ha => by simp [hsender a ha, Ne.symm hc]
      rw [hnone, Function.update_of_ne hc, List.append_nil, h.source]
  label := h.label
  sorted := h.sorted

theorem chat_step (h : ChatInv s) (hs : Chat.Step s e s') : ChatInv s' := by
  cases hs with
  | say => exact chat_say h _ _
  | recv ht _ hs => exact chat_recv h ht hs
  | server hs he =>
    exact ⟨safe_step h.server hs, (buffersize_step hs).trans h.buffersize,
      fun d => (h.wire d).trans (congrFun (wire_step hs he) _).symm, h.received, h.source, h.label, h.sorted⟩

theorem chat_init (h : chat.init s) : ChatInv s := by
  obtain ⟨hstart, hn, hsaid, hpending, hstream, hdelivered⟩ := h
  obtain ⟨s0, listener, h0, -, hs, -⟩ := id hstart
  obtain ⟨hw, hb⟩ := boot_keeps s0 listener
  rw [← hs] at hw hb
  refine ⟨.inl (inv_started hstart), hb.trans h0.buffersize, fun d => ?_, fun d => ?_, fun c => ?_, fun c a ha => ?_,
    fun c => ?_⟩
  · rw [hdelivered, hw, h0.wire]
    rfl
  · rw [hdelivered]
    exact List.nil_sublist _
  · rw [hstream, hpending, hsaid]
    rfl
  · rw [hsaid] at ha
    cases ha
  · rw [hsaid]
    exact List.Pairwise.nil

theorem reachable_chat (h : chat.Reachable s) : ChatInv s :=
  h.inv (M := chat) (fun _ => chat_init) fun _ _ _ => chat_step

/-! ## Torn messages -/

/-- Message number `k` of connection `c`. -/
abbrev Message (c k : Nat) : Sent → Prop := Of Sent.sender Sent.msg c k

/-- A message of which the server has received a part is received further only
right after something else from its sender. -/
def Chat.Resumes (s : Chat) : ChatEvent → Prop
  | .recv c _ => Lib.Resumes Sent.sender Sent.msg c s.stream (s.pending c)
  | _ => True

theorem together_step (h : ChatInv s) (ht : ∀ c k, Together (Message c k) s.stream) (hs : Chat.Step s e s')
    (he : s.Resumes e) : ∀ c k, Together (Message c k) s'.stream := by
  cases hs with
  | say | server => exact ht
  | @recv c i r sent t hturn hi hs =>
    have hsize : s.server.rd_st.buffersize ≠ 0 := by rw [h.buffersize]; decide
    have hsub : (s.stream.filter (fun a => decide (a.sender = c)) ++ s.chunk c).Sublist (s.said c) := by
      rw [← h.source c]
      exact (List.Sublist.refl _).append (List.take_sublist _ _)
    exact fun c' k => (ht c' k).feed (fun a ha => (h.label c a (chunk_said h ha)).1) ((h.sorted c).sublist hsub)
      ((resumes_take hsize).2 he)

theorem torn_step (h : ChatInv s) (hs : Chat.Step s e s') (he : ¬ s.Resumes e) :
    ∃ c k, ¬ Together (Message c k) s'.stream := by
  cases hs with
  | say | server => exact absurd trivial he
  | @recv c i r sent t hturn hi hs =>
    have hsize : s.server.rd_st.buffersize ≠ 0 := by rw [h.buffersize]; decide
    have he' : ¬ Lib.Resumes Sent.sender Sent.msg c s.stream (s.chunk c) := fun hr => he ((resumes_take hsize).1 hr)
    exact ⟨c, not_together_of_not_resumes he' fun a ha => (h.label c a (chunk_said h ha)).1⟩

theorem together_of_resumes (h : (chat.meeting Chat.Resumes).Reachable s) :
    ∀ c k, Together (Message c k) s.stream := by
  have hinv : ChatInv s ∧ ∀ c k, Together (Message c k) s.stream := by
    apply h.meeting_inv (P := fun s => ChatInv s ∧ ∀ c k, Together (Message c k) s.stream)
    · intro s h0
      obtain ⟨-, -, -, -, hstream, -⟩ : chat.init s := id h0
      refine ⟨chat_init h0, fun c k => ?_⟩
      rw [hstream]
      exact ⟨[], [], [], rfl, by simp, by simp, by simp⟩
    · exact fun s e s' hi hs he => ⟨chat_step hi.1 hs, together_step hi.1 hi.2 hs he⟩
  exact hinv.2

/-! ## Clients connected throughout -/

/-- `send` transmits its whole argument, and descriptors stay within the table. -/
def Chat.Whole (s : Chat) : ChatEvent → Prop
  | .say _ _ => True
  | .recv c sent => ∀ j, (s.chunk c).length ≤ sent j
  | .server e => e.Whole

theorem inv_of_whole (h : (chat.meeting Chat.Whole).Reachable s) : Inv s.server := by
  apply h.meeting_inv (P := fun s => Inv s.server)
  · exact fun s h0 => inv_started h0.1
  · intro s e s' hi hs he
    cases hs with
    | say => exact hi
    | recv _ _ hs => exact inv_step hi hs (by rintro fd ⟨⟩)
    | server hs => exact inv_step hi hs he.1

/-- A connection that is open after a step and is not new was open before. -/
theorem open_step {s s' : State} {e : Event} (hi : Inv s) (hs : Step s e s') (he : e.InRange) :
    s.accepted ≤ s'.accepted ∧ ∀ c < s.accepted, Open s' c → Open s c := by
  cases hs with
  | boot hc => exact absurd hc hi.started
  | @accept i r st newfd =>
    cases newfd with
    | none => exact ⟨Nat.le_refl _, fun c _ h => h⟩
    | some fd =>
      obtain ⟨reac, hac, -⟩ := accept_connection_spec (s.called i r) (he fd rfl)
      rw [hac]
      refine ⟨Nat.le_succ _, ?_⟩
      rintro c hc ⟨k, hk⟩
      rcases table_open_conn.1 hk with ⟨-, hnew⟩ | ⟨-, hold⟩
      · exact absurd hnew (Nat.ne_of_lt hc)
      · exact ⟨k, hold⟩
  | @recv i r st data sent =>
    rcases handle_client_data_cases (s.called i r) st data sent with ⟨-, he'⟩ | ⟨bytes, -, -, he'⟩ <;> rw [he']
    · refine ⟨Nat.le_refl _, ?_⟩
      rintro c - ⟨k, hk⟩
      exact ⟨k, (table_close.1 hk).2⟩
    · exact ⟨Nat.le_refl _, fun c _ h => h⟩
  | _ => exact ⟨Nat.le_refl _, fun c _ h => h⟩

/-- The piece of the stream a step adds, which an open connection is sent whole. -/
theorem stream_step (hi : Inv s.server) (hs : Chat.Step s e s') (he : s.Whole e) : ∃ new, s'.stream = s.stream ++ new ∧
    ∀ d, Open s.server d → s'.delivered d = s.delivered d ++ new := by
  cases hs with
  | say | server => exact ⟨[], (List.append_nil _).symm, fun d _ => (List.append_nil _).symm⟩
  | @recv c i r sent t _ _ hs =>
    refine ⟨s.chunk c, rfl, fun d hd => ?_⟩
    have hsent : ∀ j, ((s.chunk c).map Sent.byte).length ≤ sent j := fun j => by
      rw [List.length_map]
      exact he j
    simp only [Chat.receive]
    rw [wire_whole hi hs hsent hd, List.length_append, Nat.add_sub_cancel_left, List.length_map,
      List.take_length]

/-- What a connection is sent over a stretch of the run at whose ends it is open is
what the server receives there. -/
theorem stream_run {evs : List ChatEvent} (h : (chat.meeting Chat.Whole).Reachable s)
    (hr : (chat.meeting Chat.Whole).Run s evs s') : s.server.accepted ≤ s'.server.accepted ∧ ∃ new,
      s'.stream = s.stream ++ new ∧ ∀ d < s.server.accepted, Open s'.server d →
        s'.delivered d = s.delivered d ++ new := by
  induction hr with
  | nil => exact ⟨Nat.le_refl _, [], by simp, by simp⟩
  | @snoc t u evs e hrun hs ih =>
    have hi : Inv t.server := inv_of_whole (hrun.reachable h)
    obtain ⟨hacc, new, hnew, hdel⟩ := ih
    obtain ⟨new', hnew', hdel'⟩ := stream_step hi hs.1 hs.2
    have hopen : t.server.accepted ≤ u.server.accepted ∧
        ∀ d < t.server.accepted, Open u.server d → Open t.server d := by
      cases hs.1 with
      | say => exact ⟨Nat.le_refl _, fun _ _ h => h⟩
      | recv _ _ hs' => exact open_step hi hs' (by rintro fd ⟨⟩)
      | server hs' => exact open_step hi hs' hs.2.1
    refine ⟨hacc.trans hopen.1, new ++ new', by rw [hnew', hnew, List.append_assoc], fun d hd ho => ?_⟩
    have hot := hopen.2 d (Nat.lt_of_lt_of_le hd hacc) ho
    rw [hdel' d hot, hdel d hd hot, List.append_assoc]

/-! ## Running the chat -/

/-- The outcome of a step, if there is such a step. -/
def Chat.next (s : Chat) : ChatEvent → Option Chat
  | .say c m =>
    if NUL ∉ m ∧ m.length < 1024 then some (s.say c m) else none
  | .recv c sent =>
    match s.server.ctl with
    | .scan i _ =>
      if s.server.table i = some (.conn c) then
        (SelectServer.next s.server (.recv (some ((s.chunk c).map Sent.byte)) sent)).map (s.receive c)
      else none
    | _ => none
  | .server (.recv (some _) _) => none
  | .server e => (SelectServer.next s.server e).map fun t => { s with server := t }

/-- The outcome of a sequence of steps that meet `cond`, if there is one. -/
def Chat.exec (cond : Chat → ChatEvent → Prop) [∀ s e, Decidable (cond s e)] (s : Chat) :
    List ChatEvent → Option Chat
  | [] => some s
  | e :: evs => if cond s e then (s.next e).bind fun t => t.exec cond evs else none

instance (s : Chat) (e : ChatEvent) : Decidable (s.Resumes e) := by
  cases e with
  | recv => exact inferInstanceAs (Decidable (Lib.Resumes ..))
  | _ => exact .isTrue trivial

theorem chat_next_step (h : s.next e = some s') : Chat.Step s e s' := by
  unfold Chat.next at h
  split at h
  · split at h
    · next hm => cases h; exact .say hm.1 hm.2
    · cases h
  · split at h
    · next i r hctl =>
      split at h
      · next hc =>
        obtain ⟨t, ht, rfl⟩ := Option.map_eq_some_iff.1 h
        have hs := next_step ht
        cases id hs with
        | @recv i' r' _ _ _ hturn =>
          have hctl' := hturn.ctl
          rw [hctl] at hctl'
          cases hctl'
          exact .recv hturn hc hs
      · cases h
    · cases h
  · cases h
  · next e hne =>
    obtain ⟨t, ht, rfl⟩ := Option.map_eq_some_iff.1 h
    exact .server (next_step ht) fun data sent he => hne data sent (by rw [he])

theorem chat_run_of_exec {cond : Chat → ChatEvent → Prop} [∀ s e, Decidable (cond s e)] {P : Chat → Prop}
    [DecidablePred P] {evs : List ChatEvent} (h : (s.exec cond evs).any (fun t => decide (P t)) = true) :
    ∃ t, (chat.meeting cond).Run s evs t ∧ P t := by
  induction evs generalizing s with
  | nil => exact ⟨s, .nil s, of_decide_eq_true h⟩
  | cons e evs ih =>
    obtain ⟨u, hu, hp⟩ := (Option.any_eq_true _ _).1 h
    obtain ⟨hcond, hu⟩ := Option.ite_none_right_eq_some.1 hu
    obtain ⟨t, ht, hu⟩ := Option.bind_eq_some_iff.1 hu
    obtain ⟨u', hrun, hp⟩ := ih ((Option.any_eq_true _ _).2 ⟨u, hu, hp⟩)
    exact ⟨u', (Machine.Run.single (M := chat.meeting cond) ⟨chat_next_step ht, hcond⟩).append hrun, hp⟩

/-- The chat before the first client. -/
def silence : Chat := ⟨boot stdio 3, 0, fun _ => [], fun _ => [], [], fun _ => []⟩

theorem silence_init : chat.init silence :=
  ⟨⟨stdio, 3, stdio_atBoot, rfl, rfl, rfl⟩, rfl, fun _ => rfl, fun _ => rfl, rfl, fun _ => rfl⟩

/-- Clients 0 and 1 connect. -/
def connecting : List ChatEvent := arrivals.map .server

/-! ## Messages stay together -/

/-- As long as, between two parts of a message, nothing is received from another
connection, the bytes of every message are together in whatever a client is sent;
a step that resumes a message otherwise tears it in what the server receives.
That is what was said on each connection, in order and but for what is pending;
and a client connected throughout is sent all of it. -/
theorem messages_together (s : Chat) :
    ((chat.meeting Chat.Resumes).Reachable s → ∀ d, (s.delivered d).map Sent.byte = s.server.wire (.conn d) ∧
      ∀ c k, Together (Message c k) (s.delivered d)) ∧
    (chat.Reachable s →
      (∀ e s', chat.step s e s' → ¬ s.Resumes e → ∃ c k, ¬ Together (Message c k) s'.stream) ∧
      ∀ c, s.stream.filter (fun a => decide (a.sender = c)) ++ s.pending c = s.said c) ∧
    ((chat.meeting Chat.Whole).Reachable s → ∀ evs s', (chat.meeting Chat.Whole).Run s evs s' →
      ∃ new, s'.stream = s.stream ++ new ∧
        ∀ d, Open s.server d → Open s'.server d → s'.delivered d = s.delivered d ++ new) := by
  refine ⟨fun h d => ?_, fun h => ⟨fun e s' => torn_step (reachable_chat h), (reachable_chat h).source⟩,
    fun h evs s' hr => ?_⟩
  · have hc := reachable_chat h.of_meeting
    exact ⟨hc.wire d, fun c k => (together_of_resumes h c k).sublist (hc.received d)⟩
  · obtain ⟨-, new, hnew, hdel⟩ := stream_run h hr
    refine ⟨new, hnew, fun d hd ho => hdel d ?_ ho⟩
    obtain ⟨fd, hfd⟩ := hd
    exact (inv_of_whole h).descriptors.accepted fd d hfd

/-- The first says 300 letters "a", the second "b". A round receives 256 bytes of the
first, the next round the rest and the other's message. -/
def inTurn : List ChatEvent :=
  [.say 0 (List.replicate 300 97#8), .say 1 [98#8], .server (.select {4}), .server .skip, .server .skip,
    .server .skip, .server .skip, .recv 0 fun _ => 256, .server .skip, .server .done, .server (.select {4, 5}),
    .server .skip, .server .skip, .server .skip, .server .skip, .recv 0 fun _ => 45, .recv 1 fun _ => 2]

theorem messages_together_inTurn : ∃ s : Chat, (chat.meeting Chat.Resumes).Reachable s ∧
    s.delivered 1 = label 0 0 (List.replicate 300 97#8 ++ [NUL]) ++ label 1 1 [98#8, NUL] ∧
    Together (Message 0 0) (s.delivered 1) ∧ Together (Message 1 1) (s.delivered 1) := by
  have hturn : ∃ s, (chat.meeting Chat.Resumes).Run silence (connecting ++ inTurn) s ∧
      s.delivered 1 = label 0 0 (List.replicate 300 97#8 ++ [NUL]) ++ label 1 1 [98#8, NUL] :=
    chat_run_of_exec (by decide +kernel)
  obtain ⟨s, hrun, hdel⟩ := hturn
  have r : (chat.meeting Chat.Resumes).Reachable s := hrun.reachable (.init silence_init)
  have htogether := ((messages_together s).1 r 1).2
  exact ⟨s, r, hdel, htogether 0 0, htogether 1 1⟩

/-- The first says 300 letters "a", the second "b". A round receives 256 bytes of the
one and the other's message, the next round the rest. -/
def saying : List ChatEvent :=
  [.say 0 (List.replicate 300 97#8), .say 1 [98#8], .server (.select {4, 5}), .server .skip, .server .skip,
    .server .skip, .server .skip, .recv 0 fun _ => 256, .recv 1 fun _ => 2, .server .done, .server (.select {4}),
    .server .skip, .server .skip, .server .skip, .server .skip, .recv 0 fun _ => 45]

/-- The first's own message comes back to it with the second's in its middle. -/
theorem torn_message : ∃ s0 evs s, chat.Reachable s0 ∧ Open s0.server 0 ∧ s0.stream = [] ∧ chat.Run s0 evs s ∧
    Open s.server 0 ∧ s.pending 0 = [] ∧ ¬ Together (Message 0 0) (s.delivered 0) := by
  have hconnect : ∃ s0, (chat.meeting fun _ _ => True).Run silence connecting s0 ∧
      (s0.server.table 4 = some (.conn 0) ∧ s0.stream = []) ∧
      (s0.exec (fun _ _ => True) saying).any (fun s => decide ((s.server.table 4 = some (.conn 0) ∧ s.pending 0 = []) ∧
        [⟨0, 0, 97#8⟩, ⟨1, 1, 98#8⟩, ⟨0, 0, 97#8⟩].Sublist (s.delivered 0))) = true :=
    chat_run_of_exec (by decide +kernel)
  obtain ⟨s0, hrun0, ⟨h4, hstream⟩, hexec⟩ := hconnect
  obtain ⟨s, hrun, ⟨h4', hpending⟩, hs⟩ := chat_run_of_exec hexec
  refine ⟨s0, saying, s, hrun0.of_meeting.reachable (.init silence_init), ⟨4, h4⟩, hstream, hrun.of_meeting, ⟨4, h4'⟩,
    hpending, fun ht => ?_⟩
  have hmiddle := together_iff.1 ht _ _ _ hs ⟨rfl, rfl⟩ ⟨rfl, rfl⟩
  exact absurd hmiddle.1 (by decide)

end Ex6.SelectServer
