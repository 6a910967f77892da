import Ex6.ChatSessions
import Ex6.Lib.Shares
/-!
# However the conversation goes

Every step of the server and of its clients brings the conversation closer to its
end. A walk of the server over what `select` has reported is paid for by its first
call: what was reported is still there when the walk comes to it, so that there is
one.
-/
open Lib Lib.CString Ex6.Text Ex6.Client

namespace Ex6.ChatSessions

open SelectServer (Chat ChatEvent Sent Turn Round)

variable {n : Nat} {typed : Nat → List (List Byte)} {s s' : State} {e : Event}

/-! ## What there is to do -/

/-- What a client has to type, to send and to receive. -/
def State.left (s : State) (c : Nat) : Nat :=
  69 * (s.sessions c).stdin.length + 67 * (s.chat.pending c).length + (s.waiting c).toNat

/-- All there is to do, a walk of the server apart. -/
def State.work (n : Nat) (s : State) : Nat :=
  68 * (n - s.connected) + 67 * (s.connected - s.chat.server.accepted) + ∑ c : Fin n, s.left c

/-- A walk takes at most 66 steps. The first call it makes pays for them. -/
def State.measure (n : Nat) (s : State) : Nat :=
  match s.chat.server.ctl with
  | .scan i r => if r.calls = [] then s.work n + (65 - i) - 67 else s.work n + (65 - i)
  | _ => s.work n

theorem Inv.work_of_readable (h : Inv n typed s) {fd : Nat} (hread : s.Readable fd) : 67 ≤ s.work n := by
  unfold State.work
  rcases hread with ⟨-, hlt⟩ | ⟨c, hc, hp⟩
  · omega
  · have hcn : c < n :=
      Nat.lt_of_lt_of_le (h.server.descriptors.accepted fd c hc) (h.accepted.trans h.connected)
    have hle : s.left c ≤ ∑ d : Fin n, s.left d :=
      Finset.single_le_sum (f := fun d : Fin n => s.left d) (fun _ _ => Nat.zero_le _) (Finset.mem_univ ⟨c, hcn⟩)
    have hpos := List.length_pos_iff.2 hp
    have hleft : 67 ≤ s.left c := by
      unfold State.left
      omega
    omega

/-- Before its first call a walk has something readable ahead. -/
theorem Inv.ahead (h : Inv n typed s) {i : Nat} {r : Round} (hctl : s.chat.server.ctl = .scan i r)
    (hcalls : r.calls = []) : ∃ fd ∈ r.read_fds, i ≤ fd ∧ s.Readable fd := by
  obtain ⟨-, ⟨fd, hfd⟩, hread⟩ := h.walking i r hctl
  have hi : i ≤ fd := by
    by_contra hlt
    have hserved := (h.server.round i r hctl).served
    have hmem : fd ∈ (List.range i).filter (fun fd => decide (fd ∈ r.read_fds)) :=
      List.mem_filter.2 ⟨List.mem_range.2 (by omega), decide_eq_true hfd⟩
    rw [← hserved, hcalls] at hmem
    cases hmem
  exact ⟨fd, hfd, hi, hread fd hfd hi⟩

/-- A client's step. -/
theorem measure_client (h' : Inv n typed s') (hctl : s'.chat.server.ctl = s.chat.server.ctl)
    (hw : s'.work n < s.work n) : s'.measure n < s.measure n := by
  unfold State.measure
  rw [← hctl]
  split
  · next i r hscan =>
    split
    · next hcalls =>
      obtain ⟨fd, -, -, hread⟩ := h'.ahead hscan hcalls
      have := h'.work_of_readable hread
      omega
    · omega
  · exact hw

/-- A turn of the server, which accepts or receives. -/
theorem measure_turn (h : Inv n typed s) {i : Nat} {r : Round} (ht : Turn s.chat.server i r)
    (hy : After s'.chat.server i r) (hw : s'.work n + 67 ≤ s.work n) : s'.measure n < s.measure n := by
  obtain ⟨call, hcall⟩ := hy
  have hi := h.turn_bound ht
  simp only [State.measure, ht.ctl, hcall, List.append_eq_nil_iff, List.cons_ne_nil, and_false, if_false]
  unfold MAX_FDS at hi
  split <;> omega

/-- A step of the walk. -/
theorem measure_walk (h : Inv n typed s) {e : SelectServer.Event} {y : SelectServer.State}
    (hs : SelectServer.Step s.chat.server e y) (ha : s.Answers (.server e)) (he : ∀ fd, e ≠ .accept fd) :
    State.measure n { s with chat := { s.chat with server := y } } < s.measure n := by
  have h' := walk_step h hs ha he
  have hr : ∀ data sent, e ≠ .recv data sent := by
    rintro data sent rfl
    exact ha
  have hf : e ≠ .select_fails := by
    rintro rfl
    exact ha
  obtain ⟨hy, hcases⟩ := walks h.server hs he hr hf
  have hwork : State.work n { s with chat := { s.chat with server := y } } = s.work n := by
    rw [hy]
    rfl
  rcases hcases with ⟨ready, -, hctl, hctl'⟩ | ⟨i, r, -, hctl, -, -, hctl'⟩ | ⟨i, r, -, hctl, hlt, hctl'⟩
  · obtain ⟨fd, -, -, hread⟩ := h'.ahead hctl' rfl
    have := h'.work_of_readable hread
    simp only [State.measure, hctl, hctl', hwork, if_true] at this ⊢
    omega
  · have hb := (h'.walking _ _ hctl').bound
    unfold MAX_FDS at hb
    simp only [State.measure, hctl, hctl', hwork]
    split
    · next hcalls =>
      obtain ⟨fd, -, -, hread⟩ := h.ahead hctl hcalls
      have := h.work_of_readable hread
      omega
    · omega
  · have hb := (h.walking _ _ hctl).bound
    unfold MAX_FDS at hb
    have hcalls : r.calls ≠ [] := by
      intro hcalls
      obtain ⟨fd, hfd, hi, -⟩ := h.ahead hctl hcalls
      have := h.server.descriptors.bound fd ((h.server.round i r hctl).pending fd hfd hi).1
      omega
    simp only [State.measure, hctl, hctl', hwork, if_neg hcalls]
    omega

theorem work_accept {y : SelectServer.State} (hacc : y.accepted = s.chat.server.accepted + 1)
    (hlt : s.chat.server.accepted < s.connected) :
    State.work n { s with chat := { s.chat with server := y } } + 67 = s.work n := by
  have hleft : ∀ c, State.left { s with chat := { s.chat with server := y } } c = s.left c := fun _ => rfl
  simp only [State.work, hacc, hleft]
  omega

/-- What one client has, and the rest of the work. -/
theorem work_client (s s' : State) {c : Nat} (hc : c < n) (hconn : s'.connected = s.connected)
    (hacc : s'.chat.server.accepted = s.chat.server.accepted) (hother : ∀ d, d ≠ c → s'.left d = s.left d) {x : Nat}
    (hself : s'.left c + x = s.left c) : s'.work n + x = s.work n := by
  have hsum := sum_step (f := fun d : Fin n => s.left d) (g := fun d : Fin n => s'.left d) (t := ⟨c, hc⟩) (a := x)
    (b := 0) (fun d hd => hother d fun he => hd (Fin.ext he)) (by simp only; omega)
  unfold State.work
  rw [hconn, hacc]
  omega

theorem work_lt {c : Nat} (hc : c < n) (hconn : s'.connected = s.connected)
    (hacc : s'.chat.server.accepted = s.chat.server.accepted) (hother : ∀ d, d ≠ c → s'.left d = s.left d)
    (hself : s'.left c < s.left c) : s'.work n < s.work n := by
  have := work_client s s' hc hconn hacc hother (x := s.left c - s'.left c) (by omega)
  omega

theorem work_recv (h : Inv n typed s) {c : Nat} {sent : Nat → Nat} {chat : Chat} {sessions : Nat → Session}
    (hs : Chat.Step s.chat (.recv c sent) chat) (hp : s.chat.pending c ≠ [])
    (hsessions : ∀ d, (sessions d).stdin = (s.sessions d).stdin) :
    State.work n { s with chat, sessions } + 67 ≤ s.work n ∧
      ∃ i r, Turn s.chat.server i r ∧ After chat.server i r := by
  have hchunk := chunk_ne_nil h hp
  cases hs with
  | @recv _ i r _ t ht hc hs =>
    obtain ⟨-, hacc, -, hafter⟩ := recv_keeps ht hs (by simpa using hchunk)
    refine ⟨?_, i, r, ht, hafter⟩
    have hcn : c < n :=
      Nat.lt_of_lt_of_le (h.server.descriptors.accepted i c hc) (h.accepted.trans h.connected)
    have hlen : (s.chat.chunk c).length + ((s.chat.receive c t).pending c).length = (s.chat.pending c).length := by
      simp only [Chat.receive, Chat.chunk, Function.update_self, ← List.length_append, List.take_append_drop]
    have hpos := List.length_pos_iff.2 hchunk
    have hwork := work_client s { s with chat := s.chat.receive c t, sessions } hcn rfl hacc
      (x := 67 * (s.chat.chunk c).length) (fun d hd => ?_) ?_
    · omega
    · simp only [State.left, hsessions, Chat.receive, Function.update_of_ne hd]
    · simp only [State.left, hsessions]
      omega

theorem measure_step (h : Inv n typed s) (hl : ∀ c, ∀ l ∈ typed c, Line l) (hs : Step n s e s') :
    s'.measure n < s.measure n := by
  have h' := inv_step h hl hs
  cases hs with
  | connect hlt =>
    refine measure_client h' rfl ?_
    have hleft : ∀ c, State.left { s with connected := s.connected + 1 } c = s.left c := fun _ => rfl
    have := h.accepted
    simp only [State.work, hleft]
    omega
  | @receive c k hwait =>
    refine measure_client h' rfl ?_
    have hcn : c < n := by
      by_contra hle
      have habsent := ((h.typing c).absent (h.connected.trans (Nat.not_lt.1 hle))).2
      rw [hwait] at habsent
      cases habsent
    refine work_lt hcn rfl rfl (fun d hd => ?_) ?_
    · simp only [State.left, Function.update_of_ne hd]
    · simp [State.left, receive_some, hwait]
  | @type c buffer stdin m hc hwait hne hget hsend hsay =>
    refine measure_client h' rfl ?_
    obtain ⟨done, l, rest, -, -, hstdin, -, buffer', hget', hsend'⟩ := (h.typing c).next (hl c) hne
    rw [hget, Prod.mk.injEq] at hget'
    obtain ⟨rfl, rfl⟩ := hget'
    rw [hsend, Option.some.injEq] at hsend'
    obtain rfl : m = l := List.append_cancel_right hsend'
    refine work_lt (Nat.lt_of_lt_of_le hc h.connected) rfl rfl (fun d hd => ?_) ?_
    · simp only [State.left, Chat.say, Function.update_of_ne hd]
    · simp only [State.left, Chat.say, Function.update_self, hstdin, hwait, stream_cons, List.length_append,
        SelectServer.label, List.length_map, List.length_cons, List.length_nil, Bool.toNat_true, Bool.toNat_false]
      omega
  | @server e chat hs ha =>
    cases e with
    | say => exact absurd ha id
    | recv =>
      obtain ⟨hw, i, r, ht, hafter⟩ := work_recv h hs ha.1 fun _ => rfl
      exact measure_turn h ht hafter hw
    | server e =>
      cases hs with
      | @server _ y hs hne =>
        cases e with
        | accept newfd =>
          obtain ⟨hconn, fd, hlt, rfl⟩ := ha
          obtain ⟨hacc, i, r, ht, hafter⟩ := accept_keeps hs hlt
          exact measure_turn h ht hafter (Nat.le_of_eq (work_accept hacc hconn))
        | _ => exact measure_walk h hs ha (by simp)

theorem measure_init (h : (system n typed).init s) :
    s.measure n ≤ 68 * n + ∑ c : Fin n, 69 * (stream NEWLINE (typed c)).length := by
  obtain ⟨⟨hstart, -, -, hpending, -⟩, hconn, -, hclients⟩ := h
  obtain ⟨s0, listener, -, -, -, hselect⟩ := hstart
  have hleft : ∀ c, s.left c = 69 * (stream NEWLINE (typed c)).length := fun c => by
    simp [State.left, (hclients c).1, (hclients c).2.1, hpending]
  simp only [State.measure, hselect, State.work, hconn, hleft]
  omega

/-! ## The end -/

/-- Nothing more can happen. -/
def Resting (n : Nat) (s : State) : Prop := ∀ e s', ¬ Step n s e s'

/-- The turn of a readable descriptor can be taken. -/
theorem turn_moves (h : Inv n typed s) {i : Nat} {r : Round} (ht : Turn s.chat.server i r) :
    ∃ e s', Step n s e s' := by
  have hd := h.server.descriptors
  have hmem := ((h.server.round i r ht.ctl).pending i ht.ready (Nat.le_refl i)).1
  have hhandler := hd.handler i hmem
  rcases (h.walking i r ht.ctl).readable i ht.ready (Nat.le_refl i) with ⟨hl, hlt⟩ | ⟨c, hc, hp⟩
  · obtain ⟨fd, hmem⟩ : s.free.Nonempty := by
      have := h.room
      have := h.connected
      exact Finset.card_pos.1 (by omega)
    obtain ⟨hfd, hnone⟩ := Finset.mem_filter.1 hmem
    have hfd := Finset.mem_range.1 hfd
    have hi := (hd.listening i).1 hl
    rw [SelectServer.handlerOf, if_pos hi] at hhandler
    have hs : SelectServer.Step s.chat.server (.accept (some fd)) _ :=
      .accept ht hhandler (if_pos hi) (by
        rintro _ ⟨⟩
        exact ⟨by rw [hd.ac_st, ← hi]; exact hl, hnone⟩)
    exact ⟨_, _, .server (.server hs fun _ _ he => by cases he) ⟨hlt, fd, hfd, rfl⟩⟩
  · have hi : i ≠ s.chat.server.listener := by
      intro hi
      rw [(hd.listening i).2 hi] at hc
      cases hc
    rw [SelectServer.handlerOf, if_neg hi] at hhandler
    have hs : SelectServer.Step s.chat.server
        (.recv (some ((s.chat.chunk c).map Sent.byte)) fun _ => (s.chat.chunk c).length) _ :=
      .recv ht hhandler (if_neg hi) (by
        rintro _ ⟨⟩
        rw [List.length_map]
        exact List.length_take_le _ _)
    exact ⟨_, _, .server (.recv ht hc hs) ⟨hp, fun _ => Nat.le_refl _⟩⟩

/-- The server waits in `select`, and nobody has connected or sent anything. -/
theorem Resting.select (hrest : Resting n s) (h : Inv n typed s) : s.chat.server.ctl = .select := by
  cases hctl : s.chat.server.ctl with
  | boot => exact absurd hctl h.server.started
  | undefined => exact absurd hctl h.server.defined
  | exited => exact absurd hctl h.running
  | select => rfl
  | scan i r =>
    exfalso
    by_cases hle : (i : Int) ≤ s.chat.server.reactor.highest_fd
    · by_cases hmem : i ∈ r.read_fds
      · obtain ⟨e, s', hs⟩ := turn_moves h ⟨hctl, hle, hmem⟩
        exact hrest e s' hs
      · exact hrest _ _ (.server (.server (.skip hctl hle hmem) fun _ _ he => by cases he) trivial)
    · exact hrest _ _ (.server (.server (.done hctl (by omega)) fun _ _ he => by cases he) trivial)

theorem Resting.not_readable (hrest : Resting n s) (h : Inv n typed s) (hctl : s.chat.server.ctl = .select) (fd : Nat) :
    ¬ s.Readable fd := by
  intro hread
  have hmem : fd ∈ s.chat.server.reactor.fds := by
    refine (h.server.descriptors.fds fd).2 ?_
    rcases hread with ⟨hl, -⟩ | ⟨c, hc, -⟩
    · exact .inl ((h.server.descriptors.listening fd).1 hl)
    · exact .inr ⟨c, hc⟩
  refine hrest _ _ (.server (.server (@SelectServer.Step.select _ {fd} hctl ?_) fun _ _ he => by cases he) ?_)
  · exact Finset.singleton_subset_iff.2 hmem
  · refine ⟨Finset.singleton_nonempty fd, fun fd' hfd' => ?_⟩
    rw [Finset.mem_singleton.1 hfd']
    exact hread

/-- A client at the end of its lines, and what the server has made of them. -/
structure Ended (lines : List (List Byte)) (s : State) (c : Nat) : Prop where
  stdin : (s.sessions c).stdin = []
  waiting : s.waiting c = false
  -- its messages, in order, are what the server has received from it
  received : (s.chat.stream.filter fun a => decide (a.sender = c)).map Sent.byte = stream NUL lines
  -- it has been sent all that the server has received since some point, and all its own
  delivered : s.chat.delivered c <:+ s.chat.stream
  own : (s.chat.delivered c).filter (fun a => decide (a.sender = c)) =
    s.chat.stream.filter fun a => decide (a.sender = c)

/-- All clients have been accepted. -/
theorem Resting.accepted (hrest : Resting n s) (h : Inv n typed s) :
    s.connected = n ∧ s.chat.server.accepted = n := by
  have hconnected : s.connected = n := by
    by_contra hne
    exact hrest _ _ (.connect (Nat.lt_of_le_of_ne h.connected hne))
  refine ⟨hconnected, ?_⟩
  by_contra hne
  have := h.accepted
  exact hrest.not_readable h (hrest.select h) _ (.inl ⟨(h.server.descriptors.listening _).2 rfl, by omega⟩)

theorem Resting.ended (hrest : Resting n s) (h : Inv n typed s) (hl : ∀ c, ∀ l ∈ typed c, Line l) {c : Nat}
    (hc : c < n) : Ended (typed c) s c := by
  have hread := hrest.not_readable h (hrest.select h)
  obtain ⟨hconnected, haccepted⟩ := hrest.accepted h
  obtain ⟨⟨fd, hfd⟩, old, hold, hnone⟩ := (h.hearing c).member (by omega)
  have hpending : s.chat.pending c = [] := by
    by_contra hp
    exact hread fd (.inr ⟨c, hfd, hp⟩)
  have hwaiting : s.waiting c = false := by
    cases hw : s.waiting c with
    | false => rfl
    | true =>
      have hp := ((h.typing c).waiting hw).resolve_left fun hp => hp hpending
      exact absurd (.receive hw hp (Nat.zero_lt_one) (by decide)) (hrest (.receive c 1) _)
  have hstdin : (s.sessions c).stdin = [] := by
    by_contra hne
    obtain ⟨done, l, rest, -, -, -, hline, buffer, hget, hsend⟩ := (h.typing c).next (hl c) hne
    exact hrest _ _ (.type (by omega) hwaiting hne hget hsend (.say hline.nul (Nat.lt_succ_of_le hline.length)))
  obtain ⟨done, rest, hlines, hrest', hsaid⟩ := (h.typing c).lines
  have hall : rest = [] := by
    cases rest with
    | nil => rfl
    | cons l rest =>
      rw [hstdin, stream_cons] at hrest'
      exact absurd hrest'.symm (by simp)
  have hsource := h.chat.source c
  rw [hpending, List.append_nil] at hsource
  refine ⟨hstdin, hwaiting, ?_, ⟨old, hold.symm⟩, ?_⟩
  · rw [hsource, hsaid, hlines, hall, List.append_nil]
  · rw [hold, List.filter_append, hnone, List.nil_append]

theorem step_falls (hl : ∀ c, ∀ l ∈ typed c, Line l) (x : State) (e : Event) (y : State) (h : Inv n typed x)
    (hs : Step n x e y) : Inv n typed y ∧ y.measure n < x.measure n :=
  ⟨inv_step h hl hs, measure_step h hl hs⟩

/-- However the steps of the clients and of the server come, the conversation is at its
end after so many; and then all clients have typed all their lines, the server has
received them, each client's in order, and has sent each client what it has received
since accepting it, the client's own lines among it. -/
theorem every_conversation (hl : ∀ c, ∀ l ∈ typed c, Line l) {s0 : State} {evs : List Event}
    (h0 : (system n typed).init s0) (h : (system n typed).Run s0 evs s) :
    evs.length ≤ 68 * n + ∑ c : Fin n, 69 * (stream NEWLINE (typed c)).length ∧
    (Resting n s → ∀ c < n, Ended (typed c) s c) := by
  obtain ⟨hi, hlen⟩ := h.length_le (step_falls hl) (init_inv h0)
  have := measure_init h0
  exact ⟨by omega, fun hrest c hc => hrest.ended hi hl hc⟩

/-- From every point some run leads to where nothing more can happen. -/
theorem exists_resting_run (h : Inv n typed s) (hl : ∀ c, ∀ l ∈ typed c, Line l) :
    ∃ evs s', (system n typed).Run s evs s' ∧ Resting n s' := by
  have hs : ∀ x : State, Inv n typed x → ¬ Resting n x → ∃ e y, (system n typed).step x e y ∧ True ∧
      Inv n typed y ∧ y.measure n < x.measure n := by
    intro x hx hmoves
    simp only [Resting, not_forall, Classical.not_not] at hmoves
    obtain ⟨e, y, hstep⟩ := hmoves
    exact ⟨e, y, hstep, trivial, step_falls hl x e y hx hstep⟩
  obtain ⟨evs, s', hr, -, -, hrest⟩ := Machine.exists_run (State.measure n) hs h
  exact ⟨evs, s', hr, hrest⟩

/-! ## Two clients -/

/-- The first says "hi", the second "yo". -/
def greetings : Nat → List (List Byte)
  | 0 => [[104#8, 105#8]]
  | _ => [[121#8, 111#8]]

/-- Nobody has connected. -/
def opening : State where
  chat := SelectServer.silence
  connected := 0
  sessions c := ⟨stream NEWLINE (greetings c), List.replicate BUFFERSIZE NUL, [], []⟩
  waiting _ := false

theorem greetings_line : ∀ c, ∀ l ∈ greetings c, Line l := by
  intro c l hm
  cases c with
  | zero | succ =>
    rw [List.mem_singleton.1 hm]
    exact ⟨by decide, by decide, by decide⟩

theorem opening_init : (system 2 greetings).init opening := by
  refine ⟨SelectServer.silence_init, rfl, Finset.one_lt_card.2 ⟨4, ?_, 5, ?_, by decide⟩, fun _ => ⟨rfl, rfl, rfl⟩⟩
  · exact Finset.mem_filter.2 ⟨by decide, rfl⟩
  · exact Finset.mem_filter.2 ⟨by decide, rfl⟩

/-- Both have been received, after at most 550 steps. -/
theorem every_conversation_two : ∃ (s : State) (evs : List Event), (system 2 greetings).Run opening evs s ∧
    evs.length ≤ 550 ∧
    (s.chat.stream.filter fun a => decide (a.sender = 0)).map Sent.byte = [104#8, 105#8, NUL] ∧
    (s.chat.stream.filter fun a => decide (a.sender = 1)).map Sent.byte = [121#8, 111#8, NUL] := by
  obtain ⟨evs, s, hr, hrest⟩ := exists_resting_run (init_inv opening_init) greetings_line
  obtain ⟨hlen, hended⟩ := every_conversation greetings_line opening_init hr
  have hbound : 68 * 2 + ∑ c : Fin 2, 69 * (stream NEWLINE (greetings c)).length = 550 := by decide
  exact ⟨s, evs, hr, hbound ▸ hlen, (hended hrest 0 (by decide)).received, (hended hrest 1 (by decide)).received⟩

end Ex6.ChatSessions
