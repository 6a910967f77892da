import Mathlib.Data.Finset.Card
import Ex6.ClientLoop
import Ex6.SelectMessages
/-!
# The select server and all its clients

Any number of clients type their lines at the select server, each at its own
pace. What one says is sent to all, so that a client's `recv` can return other
clients' messages, parts of messages or several at a time. The kernel is taken to
report a descriptor as ready only if something is there, and no client closes
its connection.

`Inv` says how far the server has come with each client: what it sends is all it
has received since it accepted that one, and who waits has its own message on the
way there or back.
-/
open Lib Lib.CString Ex6.Text Ex6.Client

namespace Ex6.ChatSessions

open SelectServer (Chat ChatEvent ChatInv Sent Open Turn Round)

structure State where
  chat : Chat
  /-- Clients whose `connect` has succeeded. They are accepted in that order. -/
  connected : Nat
  sessions : Nat → Session
  /-- The client has sent its line and is at its `recv`. -/
  waiting : Nat → Bool

inductive Event
  | server (e : ChatEvent)
  | connect
  | type (c : Nat)
  | receive (c k : Nat)

/-- There is something to accept or to receive on `fd`. -/
def State.Readable (s : State) (fd : Nat) : Prop :=
  (s.chat.server.table fd = some .listening ∧ s.chat.server.accepted < s.connected) ∨
    ∃ c, s.chat.server.table fd = some (.conn c) ∧ s.chat.pending c ≠ []

/-- What the kernel answers: `select` reports what is readable, and waits until
something is, `accept` returns a descriptor within the table, and `send` transmits its
whole argument. -/
def State.Answers (s : State) : ChatEvent → Prop
  | .say _ _ => False
  | .recv c sent => s.chat.pending c ≠ [] ∧ ∀ j, (s.chat.chunk c).length ≤ sent j
  | .server (.select ready) => ready.Nonempty ∧ ∀ fd ∈ ready, s.Readable fd
  | .server (.accept newfd) => s.chat.server.accepted < s.connected ∧ ∃ fd < MAX_FDS, newfd = some fd
  | .server (.boot _) | .server .select_fails | .server (.recv _ _) => False
  | .server .skip | .server .mismatch | .server .done => True

/-- A `recv` of the client returns the first `k` bytes; the client terminates them and
shows them. -/
def receive_some (k : Nat) (s : Session) : Session :=
  let data := s.pending.take k
  let buf := (overwrite s.buf data).set data.length NUL
  { s with pending := s.pending.drop k, buf, printed := s.printed ++ [cstr NUL buf] }

inductive Step (n : Nat) (s : State) : Event → State → Prop
  -- what the server sends comes to the clients
  | server {e chat} : Chat.Step s.chat e chat → s.Answers e →
      Step n s (.server e) { s with
        chat
        sessions := fun c => { s.sessions c with
          pending := (s.sessions c).pending ++
            ((chat.delivered c).drop (s.chat.delivered c).length).map Sent.byte } }
  | connect : s.connected < n → Step n s .connect { s with connected := s.connected + 1 }
  | type {c buffer stdin m} : c < s.connected → s.waiting c = false → (s.sessions c).stdin ≠ [] →
      get_input (s.sessions c).stdin = (buffer, stdin) → send_message buffer = some (m ++ [NUL]) →
      Chat.Step s.chat (.say c m) (s.chat.say c m) →
      Step n s (.type c) { s with
        chat := s.chat.say c m
        sessions := Function.update s.sessions c { s.sessions c with stdin }
        waiting := Function.update s.waiting c true }
  | receive {c k} : s.waiting c = true → (s.sessions c).pending ≠ [] → 0 < k → k ≤ BUFFERSIZE - 1 →
      Step n s (.receive c k) { s with
        sessions := Function.update s.sessions c (receive_some k (s.sessions c))
        waiting := Function.update s.waiting c false }

/-- The descriptors of the table that are not open. -/
def State.free (s : State) : Finset Nat := (Finset.range MAX_FDS).filter fun fd => s.chat.server.table fd = none

/-- The server and `n` clients that type `typed`, with a descriptor for each. -/
def system (n : Nat) (typed : Nat → List (List Byte)) : Machine State Event where
  init s := SelectServer.chat.init s.chat ∧ s.connected = 0 ∧ n ≤ s.free.card ∧
    ∀ c, s.waiting c = false ∧ (s.sessions c).stdin = stream NEWLINE (typed c) ∧ (s.sessions c).pending = []
  step := Step n

/-! ## The invariant -/

/-- How far a client has come with `lines`. -/
structure Typing (lines : List (List Byte)) (s : State) (c : Nat) : Prop where
  lines : ∃ done rest, lines = done ++ rest ∧ (s.sessions c).stdin = stream NEWLINE rest ∧
    (s.chat.said c).map Sent.byte = stream NUL done
  absent : s.connected ≤ c → s.chat.said c = [] ∧ s.waiting c = false
  -- its own message is on the way there or back
  waiting : s.waiting c = true → s.chat.pending c ≠ [] ∨ (s.sessions c).pending ≠ []

/-- What is sent to a client: all that the server has received since it accepted it. -/
structure Hearing (s : State) (c : Nat) : Prop where
  member : c < s.chat.server.accepted → Open s.chat.server c ∧
    ∃ old, s.chat.stream = old ++ s.chat.delivered c ∧ old.filter (fun a => decide (a.sender = c)) = []
  absent : s.chat.server.accepted ≤ c → s.chat.delivered c = [] ∧
    s.chat.stream.filter (fun a => decide (a.sender = c)) = []

/-- A walk over descriptors of which each still has something to accept or receive. -/
structure Walking (s : State) (i : Nat) (r : Round) : Prop where
  bound : i ≤ MAX_FDS
  reported : r.read_fds.Nonempty
  readable : ∀ fd ∈ r.read_fds, i ≤ fd → s.Readable fd

structure Inv (n : Nat) (typed : Nat → List (List Byte)) (s : State) : Prop where
  server : SelectServer.Inv s.chat.server
  chat : ChatInv s.chat
  running : s.chat.server.ctl ≠ .exited
  accepted : s.chat.server.accepted ≤ s.connected
  connected : s.connected ≤ n
  highest_fd : s.chat.server.reactor.highest_fd < MAX_FDS
  room : n ≤ s.free.card + s.chat.server.accepted
  walking : ∀ i r, s.chat.server.ctl = .scan i r → Walking s i r
  typing : ∀ c, Typing (typed c) s c
  hearing : ∀ c, Hearing s c

variable {n : Nat} {typed : Nat → List (List Byte)} {s s' : State} {e : Event}

/-! ## The server's steps -/

/-- A connection that is not open is sent nothing. -/
theorem wire_absent {x y : SelectServer.State} {data : List Byte} {sent : Nat → Nat} (hi : SelectServer.Inv x)
    (hs : SelectServer.Step x (.recv (some data) sent) y) {c : Nat} (hc : ¬ Open x c) :
    y.wire (.conn c) = x.wire (.conn c) := by
  apply SelectServer.wire_other hi hs
  rintro ⟨j, hj⟩
  exact hc ⟨j, hj.desc⟩

/-- The loop goes on after a turn, with one more call made. -/
def After (y : SelectServer.State) (i : Nat) (r : Round) : Prop :=
  ∃ call, y.ctl = .scan (i + 1) { r with calls := r.calls ++ [call] }

theorem recv_keeps {x y : SelectServer.State} {data : List Byte} {sent : Nat → Nat} {i : Nat} {r : Round}
    (ht : Turn x i r) (hs : SelectServer.Step x (.recv (some data) sent) y) (hne : data ≠ []) :
    y.table = x.table ∧ y.accepted = x.accepted ∧ y.reactor = x.reactor ∧ After y i r := by
  cases hs with
  | @recv j q st _ _ hturn =>
    have hctl := hturn.ctl
    rw [ht.ctl] at hctl
    cases hctl
    rcases SelectServer.handle_client_data_cases (x.called i r) st (some data) sent with ⟨hnil, -⟩ | ⟨bytes, -, -, he⟩
    · exact absurd hnil hne
    · rw [he]
      exact ⟨rfl, rfl, rfl, _, rfl⟩

theorem accept_keeps {x y : SelectServer.State} {newfd : Nat} (hs : SelectServer.Step x (.accept (some newfd)) y)
    (hlt : newfd < MAX_FDS) : y.accepted = x.accepted + 1 ∧ ∃ i r, Turn x i r ∧ After y i r := by
  cases hs with
  | @accept i r st _ ht =>
    obtain ⟨reac, hy, -⟩ := SelectServer.accept_connection_spec (x.called i r) hlt
    rw [hy]
    exact ⟨rfl, i, r, ht, _, rfl⟩

/-- What a step of the server leaves alone, where it neither accepts nor receives. -/
theorem walks {x y : SelectServer.State} {e : SelectServer.Event} (hi : SelectServer.Inv x)
    (hs : SelectServer.Step x e y) (he : ∀ fd, e ≠ .accept fd) (hr : ∀ data sent, e ≠ .recv data sent)
    (hf : e ≠ .select_fails) : y = { x with ctl := y.ctl } ∧
      ((∃ ready, e = .select ready ∧ x.ctl = .select ∧ y.ctl = .scan 0 ⟨ready, x.table, []⟩) ∨
      (∃ i r, e = .skip ∧ x.ctl = .scan i r ∧ (i : Int) ≤ x.reactor.highest_fd ∧ i ∉ r.read_fds ∧
        y.ctl = .scan (i + 1) r) ∨
      ∃ i r, e = .done ∧ x.ctl = .scan i r ∧ x.reactor.highest_fd < i ∧ y.ctl = .select) := by
  cases hs with
  | boot hc => exact absurd hc hi.started
  | select hc => exact ⟨rfl, .inl ⟨_, rfl, hc, rfl⟩⟩
  | select_fails => exact absurd rfl hf
  | skip hc hb hn => exact ⟨rfl, .inr (.inl ⟨_, _, rfl, hc, hb, hn, rfl⟩)⟩
  | accept => exact absurd rfl (he _)
  | recv => exact absurd rfl (hr _ _)
  | mismatch ht hm => exact absurd hm (SelectServer.not_mismatch hi.descriptors (hi.round _ _ ht.ctl) ht)
  | done hc hb => exact ⟨rfl, .inr (.inr ⟨_, _, rfl, hc, hb, rfl⟩)⟩

/-- Nothing has come to a session. -/
theorem arrived_nil (x : Session) {l l' : List Sent} (h : l' = l) :
    { x with pending := x.pending ++ (l'.drop l.length).map Sent.byte } = x := by
  rw [h, List.drop_length, List.map_nil, List.append_nil]

theorem Inv.turn_bound (h : Inv n typed s) {i : Nat} {r : Round} (ht : Turn s.chat.server i r) : i + 1 ≤ MAX_FDS := by
  have := ht.bound
  have := h.highest_fd
  omega

/-- `select`, `skip` and `done`. -/
theorem walk_step (h : Inv n typed s) {e : SelectServer.Event} {y : SelectServer.State}
    (hs : SelectServer.Step s.chat.server e y) (ha : s.Answers (.server e)) (he : ∀ fd, e ≠ .accept fd) :
    Inv n typed { s with chat := { s.chat with server := y } } := by
  have hr : ∀ data sent, e ≠ .recv data sent := by
    rintro data sent rfl
    exact ha
  have hf : e ≠ .select_fails := by
    rintro rfl
    exact ha
  have hchat := SelectServer.chat_step h.chat (Chat.Step.server hs fun data sent => hr (some data) sent)
  have hin : e.InRange := by
    intro fd hfd
    cases e with
    | boot => exact absurd ha id
    | accept newfd => exact absurd rfl (he newfd)
    | _ => cases hfd
  have hserver := SelectServer.inv_step h.server hs hin
  obtain ⟨hy, hcases⟩ := walks h.server hs he hr hf
  generalize y.ctl = ctl at hy hcases
  subst hy
  refine ⟨hserver, hchat, ?_, h.accepted, h.connected, h.highest_fd, h.room, ?_,
    fun c => ⟨(h.typing c).lines, (h.typing c).absent, (h.typing c).waiting⟩,
    fun c => ⟨(h.hearing c).member, (h.hearing c).absent⟩⟩
  · rcases hcases with ⟨ready, -, -, rfl⟩ | ⟨i, r, -, -, -, -, rfl⟩ | ⟨i, r, -, -, -, rfl⟩ <;> simp
  · intro j q hq
    rcases hcases with ⟨ready, rfl, -, rfl⟩ | ⟨i, r, -, hctl, hle, hnot, rfl⟩ | ⟨i, r, -, -, -, rfl⟩
    · cases hq
      exact ⟨Nat.zero_le _, ha.1, fun fd hfd _ => ha.2 fd hfd⟩
    · cases hq
      obtain ⟨-, hne, hread⟩ := h.walking _ _ hctl
      have hmax := h.highest_fd
      exact ⟨by omega, hne, fun fd hfd hlt => hread fd hfd (by omega)⟩
    · cases hq

/-- What is ahead of the walk is still readable if the server has kept it. -/
theorem walking_after (h : Inv n typed s) {i : Nat} {r : Round} (ht : Turn s.chat.server i r) {t : State}
    (hy : After t.chat.server i r) (hkeep : ∀ fd, fd ≠ i → s.Readable fd → t.Readable fd) :
    ∀ j q, t.chat.server.ctl = .scan j q → Walking t j q := by
  intro j q hq
  obtain ⟨call, hcall⟩ := hy
  rw [hcall] at hq
  cases hq
  obtain ⟨-, hne, hread⟩ := h.walking i r ht.ctl
  exact ⟨h.turn_bound ht, hne, fun fd hfd hlt => hkeep fd (by omega) (hread fd hfd (by omega))⟩

/-- One descriptor fewer. -/
theorem free_open {table : Nat → Option SelectServer.Desc} (d : SelectServer.Desc) {newfd : Nat}
    (hlt : newfd < MAX_FDS) (hfree : table newfd = none) : ((Finset.range MAX_FDS).filter fun fd =>
      Function.update table newfd (some d) fd = none).card + 1 =
    ((Finset.range MAX_FDS).filter fun fd => table fd = none).card := by
  have herase : (Finset.range MAX_FDS).filter (fun fd => Function.update table newfd (some d) fd = none) =
      ((Finset.range MAX_FDS).filter fun fd => table fd = none).erase newfd := by
    ext fd
    by_cases hfd : fd = newfd
    · simp [hfd]
    · simp [hfd]
  rw [herase]
  exact Finset.card_erase_add_one (Finset.mem_filter.2 ⟨Finset.mem_range.2 hlt, hfree⟩)

theorem accept_step (h : Inv n typed s) {newfd : Nat} {y : SelectServer.State}
    (hs : SelectServer.Step s.chat.server (.accept (some newfd)) y) (hlt : newfd < MAX_FDS)
    (hconn : s.chat.server.accepted < s.connected) : Inv n typed { s with chat := { s.chat with server := y } } := by
  have hchat := SelectServer.chat_step h.chat (Chat.Step.server hs fun _ _ he => by cases he)
  have hserver := SelectServer.inv_step h.server hs (by rintro fd hfd; cases hfd; exact hlt)
  have hd := h.server.descriptors
  cases hs with
  | @accept i r st _ ht hh hst hacc =>
    obtain ⟨hl, hfree⟩ := hacc newfd rfl
    have hi : i = s.chat.server.listener := by
      unfold SelectServer.State.arg at hst
      split at hst
      · assumption
      · cases hst
    obtain ⟨reac, hy, -, hmax, -⟩ := SelectServer.accept_connection_spec (s.chat.server.called i r) hlt
    rw [hy] at hserver hchat ⊢
    refine ⟨hserver, hchat, by simp [SelectServer.State.open_conn, SelectServer.ctl_called], hconn, h.connected,
      ?_, ?_, walking_after h ht ⟨_, rfl⟩ ?_,
      fun c => ⟨(h.typing c).lines, (h.typing c).absent, (h.typing c).waiting⟩, fun c => ⟨fun hc => ?_, fun hc => ?_⟩⟩
    · have := h.highest_fd
      simp only [hmax]
      exact max_lt this (by exact_mod_cast hlt)
    · refine h.room.trans ?_
      unfold State.free
      rw [← free_open (.conn s.chat.server.accepted) hlt hfree, Nat.add_assoc, Nat.add_comm 1]
      exact Nat.le_refl _
    · intro fd hfd hread
      rcases hread with ⟨hfd', -⟩ | ⟨c, hc, hp⟩
      · exact absurd ((hd.listening fd).1 hfd') (by rw [← hi]; exact hfd)
      · refine .inr ⟨c, SelectServer.table_open_conn.2 (.inr ⟨?_, hc⟩), hp⟩
        rintro rfl
        have hfree : s.chat.server.table fd = none := hfree
        rw [hfree] at hc
        cases hc
    · by_cases hnew : c = s.chat.server.accepted
      · subst hnew
        obtain ⟨hdel, hstream⟩ := (h.hearing _).absent (Nat.le_refl _)
        exact ⟨⟨newfd, SelectServer.table_open_conn.2 (.inl ⟨rfl, rfl⟩)⟩, s.chat.stream, by simp [hdel], hstream⟩
      · have hold : c < s.chat.server.accepted := by
          have hc : c < s.chat.server.accepted + 1 := hc
          omega
        obtain ⟨⟨fd, hfd⟩, hdel⟩ := (h.hearing c).member hold
        refine ⟨⟨fd, SelectServer.table_open_conn.2 (.inr ⟨?_, hfd⟩)⟩, hdel⟩
        rintro rfl
        have hfree : s.chat.server.table fd = none := hfree
        rw [hfree] at hfd
        cases hfd
    · have hc : s.chat.server.accepted + 1 ≤ c := hc
      exact (h.hearing c).absent (by omega)

theorem chunk_ne_nil (h : Inv n typed s) {c : Nat} (hp : s.chat.pending c ≠ []) : s.chat.chunk c ≠ [] := by
  unfold Chat.chunk
  rw [h.chat.buffersize, Ne, List.take_eq_nil_iff]
  simp [hp]

theorem recv_step (h : Inv n typed s) {c : Nat} {sent : Nat → Nat} {chat : Chat}
    (hs : Chat.Step s.chat (.recv c sent) chat) (ha : s.Answers (.recv c sent)) :
    Inv n typed { s with
      chat
      sessions := fun d => { s.sessions d with
        pending := (s.sessions d).pending ++
          ((chat.delivered d).drop (s.chat.delivered d).length).map Sent.byte } } := by
  obtain ⟨hp, hsent⟩ := ha
  have hchat := SelectServer.chat_step h.chat hs
  obtain ⟨new, hnew, hdel⟩ := SelectServer.stream_step h.server hs hsent
  cases hs with
  | @recv _ i r _ t ht hc hs =>
    have hserver := SelectServer.inv_step h.server hs (by rintro fd ⟨⟩)
    have hd := h.server.descriptors
    have hchunk := chunk_ne_nil h hp
    obtain rfl : s.chat.chunk c = new := List.append_cancel_left hnew
    obtain ⟨htable, hacc, hreac, call, hctl⟩ := recv_keeps ht hs (by simpa using hchunk)
    have hopen : ∀ d, Open t d ↔ Open s.chat.server d := fun d => by
      unfold SelectServer.Open
      rw [htable]
    have habsent : ∀ d, ¬ Open s.chat.server d → (s.chat.receive c t).delivered d = s.chat.delivered d := by
      intro d hno
      have hw := wire_absent h.server hs hno
      simp [Chat.receive, hw]
    have hcacc : c < s.chat.server.accepted := hd.accepted i c hc
    refine ⟨hserver, hchat, ?_, ?_, h.connected, ?_, ?_, walking_after h ht ⟨call, hctl⟩ ?_, fun d => ⟨?_, ?_, ?_⟩,
      fun d => ⟨fun hlt => ?_, fun hle => ?_⟩⟩
    · simp [Chat.receive, hctl]
    · simp only [Chat.receive, hacc]
      exact h.accepted
    · simp only [Chat.receive, hreac]
      exact h.highest_fd
    · simp only [State.free, Chat.receive, htable, hacc]
      exact h.room
    · intro fd hfd hread
      rcases hread with ⟨hl, hlt⟩ | ⟨d, hd', hp'⟩
      · exact .inl ⟨by simp only [Chat.receive, htable]; exact hl, by simp only [Chat.receive, hacc]; exact hlt⟩
      · refine .inr ⟨d, by simp only [Chat.receive, htable]; exact hd', ?_⟩
        have hdc : d ≠ c := by
          rintro rfl
          exact hfd (hd.distinct _ _ _ hd' hc)
        simp only [Chat.receive, Function.update_of_ne hdc]
        exact hp'
    · exact (h.typing d).lines
    · exact (h.typing d).absent
    · intro hwait
      by_cases hdc : d = c
      · subst hdc
        refine .inr fun hnil => hchunk ?_
        have hnil := (List.append_eq_nil_iff.1 hnil).2
        rw [hdel d ⟨i, hc⟩, List.drop_left, List.map_eq_nil_iff] at hnil
        exact hnil
      · refine ((h.typing d).waiting hwait).imp (fun hp' => ?_) fun hp' => by simp [hp']
        simp only [Chat.receive, Function.update_of_ne hdc]
        exact hp'
    · have hlt : d < s.chat.server.accepted := by
        rw [← hacc]
        exact hlt
      obtain ⟨ho, old, hold, hnone⟩ := (h.hearing d).member hlt
      refine ⟨(hopen d).2 ho, old, ?_, hnone⟩
      rw [hdel d ho, ← List.append_assoc, ← hold]
      rfl
    · have hle : s.chat.server.accepted ≤ d := by
        rw [← hacc]
        exact hle
      obtain ⟨hnil, hnone⟩ := (h.hearing d).absent hle
      have hno : ¬ Open s.chat.server d := by
        rintro ⟨fd, hfd⟩
        exact absurd (hd.accepted fd d hfd) (Nat.not_lt.2 hle)
      refine ⟨(habsent d hno).trans hnil, ?_⟩
      have hothers : (s.chat.chunk c).filter (fun a => decide (a.sender = d)) = [] := by
        refine List.filter_eq_nil_iff.2 fun a ha => ?_
        have hsender := (h.chat.label c a (SelectServer.chunk_said h.chat ha)).1
        rw [hsender, decide_eq_true_eq]
        omega
      simp only [Chat.receive, List.filter_append, hnone, hothers, List.append_nil]

/-! ## The clients' steps -/

/-- The server has done nothing, and there is no less for it to do. -/
theorem Inv.keep (h : Inv n typed s) (hserver : s'.chat.server = s.chat.server)
    (hstream : s'.chat.stream = s.chat.stream) (hdelivered : s'.chat.delivered = s.chat.delivered)
    (hchat : ChatInv s'.chat) (hle : s.connected ≤ s'.connected) (hn : s'.connected ≤ n)
    (hp : ∀ c, s.chat.pending c ≠ [] → s'.chat.pending c ≠ []) (htyping : ∀ c, Typing (typed c) s' c) :
    Inv n typed s' := by
  refine ⟨hserver ▸ h.server, hchat, hserver ▸ h.running, ?_, hn, hserver ▸ h.highest_fd, ?_, fun i r hctl => ?_,
    htyping, fun c => ?_⟩
  · rw [hserver]
    exact h.accepted.trans hle
  · unfold State.free
    rw [hserver]
    exact h.room
  · rw [hserver] at hctl
    obtain ⟨hb, hne, hread⟩ := h.walking i r hctl
    refine ⟨hb, hne, fun fd hfd hi => ?_⟩
    unfold State.Readable
    rw [hserver]
    exact (hread fd hfd hi).imp (fun hl => ⟨hl.1, Nat.lt_of_lt_of_le hl.2 hle⟩) fun ⟨c, hc, hpc⟩ => ⟨c, hc, hp c hpc⟩
  · obtain ⟨hm, ha⟩ := h.hearing c
    rw [← hserver, ← hstream, ← hdelivered] at hm ha
    exact ⟨hm, ha⟩

theorem connect_step (h : Inv n typed s) (hlt : s.connected < n) :
    Inv n typed { s with connected := s.connected + 1 } := by
  refine h.keep rfl rfl rfl h.chat (Nat.le_succ _) hlt (fun _ hp => hp) fun c => ?_
  exact ⟨(h.typing c).lines, fun hle => (h.typing c).absent (Nat.le_of_succ_le hle), (h.typing c).waiting⟩

theorem receive_step (h : Inv n typed s) {c k : Nat} : Inv n typed { s with
    sessions := Function.update s.sessions c (receive_some k (s.sessions c))
    waiting := Function.update s.waiting c false } := by
  refine h.keep rfl rfl rfl h.chat (Nat.le_refl _) h.connected (fun _ hp => hp) fun d => ?_
  by_cases hd : d = c
  · subst hd
    refine ⟨?_, fun hle => ⟨((h.typing d).absent hle).1, ?_⟩, fun hwait => ?_⟩
    · simp only [Function.update_self, receive_some]
      exact (h.typing d).lines
    · simp only [Function.update_self]
    · simp only [Function.update_self] at hwait
      cases hwait
  · refine ⟨?_, ?_, ?_⟩ <;> simp only [Function.update_of_ne hd]
    · exact (h.typing d).lines
    · exact (h.typing d).absent
    · exact (h.typing d).waiting

/-- What a client that has more to type sends: its next line. -/
theorem Typing.next {lines : List (List Byte)} {c : Nat} (h : Typing lines s c) (hl : ∀ l ∈ lines, Line l)
    (hne : (s.sessions c).stdin ≠ []) : ∃ done l rest, lines = done ++ l :: rest ∧
      (s.chat.said c).map Sent.byte = stream NUL done ∧ (s.sessions c).stdin = stream NEWLINE (l :: rest) ∧ Line l ∧
      ∃ buffer, get_input (s.sessions c).stdin = (buffer, stream NEWLINE rest) ∧
        send_message buffer = some (l ++ [NUL]) := by
  obtain ⟨done, rest, hlines, hstdin, hsaid⟩ := h.lines
  cases rest with
  | nil => exact absurd hstdin hne
  | cons l rest =>
    have hline : Line l := hl l (by rw [hlines]; simp)
    refine ⟨done, l, rest, hlines, hsaid, hstdin, hline, l ++ NUL :: List.replicate (1023 - l.length) NUL, ?_, ?_⟩
    · rw [hstdin, stream_cons, get_input_spec hline]
    · rw [ClientLoop.send_message_line, ClientLoop.message, cstr_append_cons NUL hline.nul []]

theorem type_step (h : Inv n typed s) (hl : ∀ c, ∀ l ∈ typed c, Line l) {c : Nat} {buffer stdin m : List Byte}
    (hc : c < s.connected) (hne : (s.sessions c).stdin ≠ []) (hget : get_input (s.sessions c).stdin = (buffer, stdin))
    (hsend : send_message buffer = some (m ++ [NUL])) (hs : Chat.Step s.chat (.say c m) (s.chat.say c m)) :
    Inv n typed { s with
      chat := s.chat.say c m
      sessions := Function.update s.sessions c { s.sessions c with stdin }
      waiting := Function.update s.waiting c true } := by
  refine h.keep rfl rfl rfl (SelectServer.chat_step h.chat hs) (Nat.le_refl _) h.connected (fun d hp => ?_) fun d => ?_
  · by_cases hd : d = c
    · subst hd
      simp [Chat.say, hp]
    · simp only [Chat.say, Function.update_of_ne hd]
      exact hp
  · by_cases hd : d = c
    · subst hd
      obtain ⟨done, l, rest, hlines, hsaid, -, -, buffer', hget', hsend'⟩ := (h.typing d).next (hl d) hne
      rw [hget, Prod.mk.injEq] at hget'
      obtain ⟨rfl, rfl⟩ := hget'
      obtain rfl : m = l := by
        rw [hsend, Option.some.injEq] at hsend'
        exact List.append_cancel_right hsend'
      refine ⟨⟨done ++ [m], rest, by rw [hlines, List.append_assoc, List.singleton_append], ?_, ?_⟩,
        fun hle => absurd hc (Nat.not_lt.2 hle), fun _ => .inl ?_⟩
      · simp only [Function.update_self]
      · have hlabel : (SelectServer.label d s.chat.nsent (m ++ [NUL])).map Sent.byte = m ++ [NUL] := by
          rw [SelectServer.label, List.map_map]
          exact List.map_id _
        simp only [Chat.say, Function.update_self, List.map_append, hsaid, hlabel]
        simp [stream]
      · simp [Chat.say, SelectServer.label]
    · refine ⟨?_, ?_, ?_⟩ <;> simp only [Chat.say, Function.update_of_ne hd]
      · exact (h.typing d).lines
      · exact (h.typing d).absent
      · exact (h.typing d).waiting

theorem inv_step (h : Inv n typed s) (hl : ∀ c, ∀ l ∈ typed c, Line l) (hs : Step n s e s') : Inv n typed s' := by
  cases hs with
  | connect hlt => exact connect_step h hlt
  | receive => exact receive_step h
  | type hc _ hne hget hsend hsay => exact type_step h hl hc hne hget hsend hsay
  | @server e chat hs ha =>
    cases e with
    | say => exact absurd ha id
    | recv => exact recv_step h hs ha
    | server e =>
      cases hs with
      | @server _ y hs hne =>
        have hsessions : (fun c => { s.sessions c with
            pending := (s.sessions c).pending ++
              ((s.chat.delivered c).drop (s.chat.delivered c).length).map Sent.byte }) = s.sessions :=
          funext fun c => arrived_nil (s.sessions c) rfl
        simp only [hsessions]
        cases e with
        | accept newfd =>
          obtain ⟨hconn, fd, hlt, rfl⟩ := ha
          exact accept_step h hs hlt hconn
        | _ => exact walk_step h hs ha (by simp)

theorem init_inv (h : (system n typed).init s) : Inv n typed s := by
  obtain ⟨hchat, hconn, hroom, hclients⟩ := h
  obtain ⟨hstart, -, hsaid, hpending, hstream, hdelivered⟩ := id hchat
  obtain ⟨s0, listener, h0, -, hs, hselect⟩ := id hstart
  have hserver := SelectServer.inv_started hstart
  have hlt : listener < MAX_FDS := by
    by_contra hn
    rw [hs, SelectServer.boot_overflow s0 hn] at hselect
    cases hselect
  obtain ⟨reac, hb, -, hhigh, -⟩ := SelectServer.boot_spec s0 hlt
  rw [hb] at hs
  have haccepted : s.chat.server.accepted = 0 := by rw [hs]; exact h0.accepted
  refine ⟨hserver, SelectServer.chat_init hchat, by rw [hselect]; simp, by omega, by omega, ?_, by omega,
    fun i r hctl => ?_,
    fun c => ⟨⟨[], typed c, rfl, (hclients c).2.1, by rw [hsaid]; rfl⟩, fun _ => ⟨hsaid c, (hclients c).1⟩,
      fun hwait => ?_⟩, fun c => ⟨fun hc => by omega, fun _ => ⟨hdelivered c, by rw [hstream]; rfl⟩⟩⟩
  · rw [hs]
    simp only [hhigh]
    exact_mod_cast hlt
  · rw [hselect] at hctl
    cases hctl
  · rw [(hclients c).1] at hwait
    cases hwait

end Ex6.ChatSessions
