import Ex6.SelectInvariants
import Ex6.SelectRun
/-!
# Totally ordered broadcast

Every client is sent what the clients say from its `accept` to its hang-up, in
the order in which the server gets to it. `LogInv` says so at every point of a
run: what is on the wire of a connection is what its number has `heard` in the
server's log, whose entries are what the events of the run make them (`entries_run`).
-/
open Lib Lib.CString

namespace Ex6.SelectServer

structure LogInv (s : State) : Prop where
  joined : ∀ c, .join c ∈ s.log ↔ c < s.accepted
  member : ∀ c, Log.Member c s.log ↔ ∃ fd, s.table fd = some (.conn c)
  wire : ∀ c, s.wire (.conn c) = (Log.heard c s.log).flatten
  listening : s.wire .listening = []

variable {s s' : State} {e : Event} {i : Nat} {r : Round}

/-! ## Sending to everyone -/

/-- The loop sends on `j`, and that is `d`. -/
structure Target (s : State) (j : Nat) (d : Desc) : Prop where
  set : j ∈ s.reactor.fds
  other : j ≠ s.listener
  desc : s.table j = some d

theorem Target.conn (hd : Descriptors s) {j : Nat} {d : Desc} (h : Target s j d) : ∃ c, d = .conn c := by
  rcases (hd.fds j).1 h.set with hl | ⟨c, hc⟩
  · exact absurd hl h.other
  · exact ⟨c, Option.some.inj (h.desc.symm.trans hc)⟩

theorem Target.unique (hd : Descriptors s) {j k : Nat} {d : Desc} (h : Target s j d) (h' : Target s k d) : j = k := by
  obtain ⟨c, rfl⟩ := h.conn hd
  exact hd.distinct j k c h.desc h'.desc

/-- A connection is sent to exactly if it is open. -/
theorem target_conn (hd : Descriptors s) {j c : Nat} : Target s j (.conn c) ↔ s.table j = some (.conn c) := by
  refine ⟨Target.desc, fun h => ⟨(hd.fds j).2 (.inr ⟨c, h⟩), ?_, h⟩⟩
  rintro rfl
  rw [(hd.listening _).2 rfl] at h; cases h

/-- On the target of an iteration comes what the kernel takes. -/
theorem send_if_set_target {bytes : List Byte} {sent : Nat → Nat} {j : Nat} {d : Desc} (h : Target s j d)
    (wire : Desc → List Byte) :
    send_if_set s s.listener bytes sent j wire d = wire d ++ bytes.take (sent j) := by
  unfold send_if_set
  rw [if_pos h.set, if_pos h.other, send, h.desc]
  simp

/-- An iteration leaves alone whatever it does not send on. -/
theorem send_if_set_other {bytes : List Byte} {sent : Nat → Nat} {j : Nat} {d : Desc} (h : ¬ Target s j d)
    (wire : Desc → List Byte) : send_if_set s s.listener bytes sent j wire d = wire d := by
  unfold send_if_set
  split
  · split
    · next hf hl =>
      cases hd : s.table j with
      | none => simp [send, hd]
      | some d' =>
        simp only [send, hd]
        exact Function.update_of_ne (fun he : d = d' => h ⟨hf, hl, he ▸ hd⟩) _ _
    · rfl
  · rfl

theorem send_if_set_spec {bytes : List Byte} {sent : Nat → Nat} (hs : ∀ j, bytes.length ≤ sent j) (j : Nat)
    (wire : Desc → List Byte) (d : Desc) :
    (Target s j d → send_if_set s s.listener bytes sent j wire d = wire d ++ bytes) ∧
    (¬ Target s j d → send_if_set s s.listener bytes sent j wire d = wire d) := by
  refine ⟨fun ht => ?_, fun hn => send_if_set_other hn wire⟩
  rw [send_if_set_target ht, List.take_of_length_le (hs j)]

/-- What the loop has made of the wire of `d` before its iteration `k`. -/
def SentBefore (s : State) (bytes : List Byte) (d : Desc) (k : Nat) (wire : Desc → List Byte) : Prop :=
  ((∃ j < k, Target s j d) → wire d = s.wire d ++ bytes) ∧ ((¬ ∃ j < k, Target s j d) → wire d = s.wire d)

theorem sentBefore_step (hd : Descriptors s) {bytes : List Byte} {sent : Nat → Nat} (hs : ∀ j, bytes.length ≤ sent j)
    {d : Desc} {k : Nat} {wire : Desc → List Byte} (h : SentBefore s bytes d k wire) :
    SentBefore s bytes d (k + 1) (send_if_set s s.listener bytes sent k wire) := by
  obtain ⟨hsent, hnot⟩ := send_if_set_spec (s := s) hs k wire d
  by_cases ht : Target s k d
  · -- the target of `d` is `k`, so nothing was sent on `d` before
    have hfirst : ¬ ∃ j < k, Target s j d := by
      rintro ⟨j, hj, hj'⟩
      rw [hj'.unique hd ht] at hj
      omega
    exact ⟨fun _ => by rw [hsent ht, h.2 hfirst], fun hn => absurd ⟨k, by omega, ht⟩ hn⟩
  · have hiff : (∃ j < k + 1, Target s j d) ↔ ∃ j < k, Target s j d := by
      constructor
      · rintro ⟨j, hj, hj'⟩
        have : j ≠ k := by rintro rfl; exact ht hj'
        exact ⟨j, by omega, hj'⟩
      · rintro ⟨j, hj, hj'⟩
        exact ⟨j, by omega, hj'⟩
    unfold SentBefore
    rw [hnot ht, hiff]
    exact h

/-- After the loop each connection in the master set has been sent `bytes`, once,
and nothing else has. -/
theorem broadcast_spec (hd : Descriptors s) {bytes : List Byte} {sent : Nat → Nat} (hs : ∀ j, bytes.length ≤ sent j)
    (d : Desc) :
    let wire := forLoop (send_if_set s s.listener bytes sent) 0 (s.reactor.highest_fd + 1).toNat s.wire
    ((∃ j, Target s j d) → wire d = s.wire d ++ bytes) ∧ ((¬ ∃ j, Target s j d) → wire d = s.wire d) := by
  have hinv : SentBefore s bytes d (s.reactor.highest_fd + 1).toNat (forLoop (send_if_set s s.listener bytes sent) 0
      (s.reactor.highest_fd + 1).toNat s.wire) := by
    apply forLoop_inv (Nat.zero_le _)
    · refine ⟨?_, fun _ => rfl⟩
      rintro ⟨j, hj, -⟩
      cases hj
    · exact fun _ _ _ _ hk => sentBefore_step hd hs hk
  constructor
  · rintro ⟨j, hj⟩
    have := hd.bound j hj.set
    exact hinv.1 ⟨j, by omega, hj⟩
  · intro hn
    apply hinv.2
    rintro ⟨j, -, hj⟩
    exact hn ⟨j, hj⟩

/-- What the loop has made of the wire of `d` however little the kernel takes. -/
def TakenBefore (s : State) (bytes : List Byte) (d : Desc) (k : Nat) (wire : Desc → List Byte) : Prop :=
  ((∃ j < k, Target s j d) ∨ wire d = s.wire d) ∧ ∃ n, wire d = s.wire d ++ bytes.take n

theorem takenBefore_step (hd : Descriptors s) {bytes : List Byte} {sent : Nat → Nat} {d : Desc} {k : Nat}
    {wire : Desc → List Byte} (h : TakenBefore s bytes d k wire) :
    TakenBefore s bytes d (k + 1) (send_if_set s s.listener bytes sent k wire) := by
  obtain ⟨hbefore, n, hn⟩ := h
  by_cases ht : Target s k d
  · rcases hbefore with ⟨j, hj, hj'⟩ | hsame
    · rw [hj'.unique hd ht] at hj
      omega
    · exact ⟨.inl ⟨k, by omega, ht⟩, sent k, by rw [send_if_set_target ht, hsame]⟩
  · unfold TakenBefore
    rw [send_if_set_other ht]
    refine ⟨hbefore.imp_left ?_, n, hn⟩
    rintro ⟨j, hj, hj'⟩
    exact ⟨j, by omega, hj'⟩

theorem taken_broadcast (hd : Descriptors s) (bytes : List Byte) (sent : Nat → Nat) (d : Desc) :
    TakenBefore s bytes d (s.reactor.highest_fd + 1).toNat (forLoop (send_if_set s s.listener bytes sent) 0
      (s.reactor.highest_fd + 1).toNat s.wire) := by
  apply forLoop_inv (Nat.zero_le _)
  · exact ⟨.inr rfl, 0, by simp⟩
  · exact fun _ _ _ _ hk => takenBefore_step hd hk

/-! ## What comes onto the wire -/

/-- A connection that is open. -/
def Open (s : State) (c : Nat) : Prop := ∃ fd, s.table fd = some (.conn c)

theorem boot_keeps (s : State) (listener : Nat) : (boot s listener).wire = s.wire ∧
    (boot s listener).rd_st.buffersize = s.rd_st.buffersize := by
  simp only [boot]
  split <;> exact ⟨rfl, rfl⟩

theorem accept_connection_keeps (s : State) (newfd : Option Nat) : (accept_connection s newfd).wire = s.wire ∧
    (accept_connection s newfd).rd_st = s.rd_st := by
  cases newfd with
  | none => exact ⟨rfl, rfl⟩
  | some fd =>
    simp only [accept_connection]
    split <;> exact ⟨rfl, rfl⟩

/-- Only a chunk puts something on a wire. -/
theorem wire_step (hs : Step s e s') (he : ∀ data sent, e ≠ .recv (some data) sent) : s'.wire = s.wire := by
  cases hs with
  | boot => exact (boot_keeps s _).1
  | accept => exact (accept_connection_keeps _ _).1
  | @recv i r st data sent =>
    rcases handle_client_data_cases (s.called i r) st data sent with ⟨-, he'⟩ | ⟨bytes, rfl, -, -⟩
    · rw [he']; rfl
    · exact absurd rfl (he bytes sent)
  | _ => rfl

theorem wire_recv {data : List Byte} {sent : Nat → Nat} (hi : Inv s) (hs : Step s (.recv (some data) sent) s') :
    (data = [] ∧ s'.wire = s.wire) ∨
      s'.wire = forLoop (send_if_set s s.listener data sent) 0 (s.reactor.highest_fd + 1).toNat s.wire := by
  cases hs with
  | @recv i r st _ _ ht _ ha _ =>
    obtain ⟨rfl, -⟩ := arg_rd_st ha
    rcases handle_client_data_cases (s.called i r) { s.rd_st with fd := i } (some data) sent with
      ⟨hn, he⟩ | ⟨bytes, hb, -, he⟩
    · exact .inl ⟨hn, by rw [he]; rfl⟩
    · cases hb
      have hl : s.rd_st.listener_fd = s.listener := hi.descriptors.rd_st
      have htake : (overwrite (s.called i r).buf data).take data.length = data := List.take_left
      right
      rw [he, hl, htake]
      rfl

/-- Of a chunk the beginning comes onto a wire. -/
theorem wire_chunk {data : List Byte} {sent : Nat → Nat} (hi : Inv s) (hs : Step s (.recv (some data) sent) s')
    (d : Desc) : ∃ n, s'.wire d = s.wire d ++ data.take n := by
  rcases wire_recv hi hs with ⟨-, hw⟩ | hw <;> rw [hw]
  · exact ⟨0, by simp⟩
  · exact (taken_broadcast hi.descriptors data sent d).2

/-- What no iteration sends on stays as it is. -/
theorem wire_other {data : List Byte} {sent : Nat → Nat} (hi : Inv s) (hs : Step s (.recv (some data) sent) s')
    {d : Desc} (hn : ¬ ∃ j, Target s j d) : s'.wire d = s.wire d := by
  rcases wire_recv hi hs with ⟨-, hw⟩ | hw <;> rw [hw]
  exact (taken_broadcast hi.descriptors data sent d).1.resolve_left fun ⟨j, _, hj⟩ => hn ⟨j, hj⟩

/-- Where `send` transmits its whole argument, an open connection is sent the whole
chunk. -/
theorem wire_whole {data : List Byte} {sent : Nat → Nat} (hi : Inv s) (hs : Step s (.recv (some data) sent) s')
    (hsent : ∀ j, data.length ≤ sent j) {c : Nat} (ho : Open s c) : s'.wire (.conn c) = s.wire (.conn c) ++ data := by
  rcases wire_recv hi hs with ⟨rfl, hw⟩ | hw <;> rw [hw]
  · rw [List.append_nil]
  · obtain ⟨fd, hfd⟩ := ho
    exact (broadcast_spec hi.descriptors hsent (.conn c)).1 ⟨fd, (target_conn hi.descriptors).2 hfd⟩

/-! ## The log -/

theorem LogInv.quiet (h : LogInv s) (ha : s'.accepted = s.accepted) (hl : s'.log = s.log) (ht : s'.table = s.table)
    (hw : s'.wire = s.wire) : LogInv s' :=
  ⟨by rw [hl, ha]; exact h.joined, by rw [hl, ht]; exact h.member, by rw [hl, hw]; exact h.wire,
    by rw [hw]; exact h.listening⟩

theorem LogInv.called (h : LogInv s) (i : Nat) (r : Round) : LogInv (s.called i r) := h.quiet rfl rfl rfl rfl

theorem LogInv.accept (h : LogInv s) {newfd : Nat} (hfree : s.table newfd = none) :
    LogInv (s.open_conn newfd) where
  joined c := by
    simp only [State.open_conn, List.mem_append, h.joined, List.mem_singleton, Entry.join.injEq]
    omega
  member c := by
    have hnew : .join s.accepted ∉ s.log := fun hj => absurd ((h.joined _).1 hj) (Nat.lt_irrefl _)
    by_cases hc : c = s.accepted
    · subst hc
      exact ⟨fun _ => ⟨newfd, by simp [State.open_conn]⟩, fun _ => Log.member_join hnew⟩
    · have hlog : (s.open_conn newfd).log = s.log ++ [.join s.accepted] := rfl
      rw [hlog, Log.member_append (by simp [Ne.symm hc]) (by simp), h.member]
      constructor
      · rintro ⟨fd, hfd⟩
        have hne : fd ≠ newfd := by rintro rfl; rw [hfree] at hfd; cases hfd
        exact ⟨fd, table_open_conn.2 (.inr ⟨hne, hfd⟩)⟩
      · rintro ⟨fd, hfd⟩
        rcases table_open_conn.1 hfd with ⟨-, hnew⟩ | ⟨-, hold⟩
        · exact absurd hnew hc
        · exact ⟨fd, hold⟩
  wire c := by
    simp only [State.open_conn]
    rw [Log.heard_silent rfl, h.wire]
  listening := h.listening

theorem LogInv.hang_up (h : LogInv s) (hd : Descriptors s) {c fd : Nat} (hfd : s.table fd = some (.conn c)) :
    LogInv { s with table := Function.update s.table fd none, log := s.log ++ [.leave c] } where
  joined c' := by simp [h.joined]
  member c' := by
    by_cases hc : c' = c
    · subst hc
      have hjc := ((h.member c').2 ⟨fd, hfd⟩).1
      apply iff_of_false (Log.not_member_leave hjc)
      rintro ⟨k, hk⟩
      obtain ⟨hkf, hold⟩ := table_close.1 hk
      exact hkf (hd.distinct k fd c' hold hfd)
    · rw [Log.member_append (by simp) (by simp [Ne.symm hc]), h.member]
      constructor
      · rintro ⟨k, hk⟩
        have hne : k ≠ fd := by
          rintro rfl
          rw [hfd, Option.some.injEq, Desc.conn.injEq] at hk
          exact hc hk.symm
        exact ⟨k, table_close.2 ⟨hne, hk⟩⟩
      · rintro ⟨k, hk⟩
        exact ⟨k, (table_close.1 hk).2⟩
  wire c' := by
    simp only
    rw [Log.heard_silent rfl, h.wire]
  listening := h.listening

/-- Every open connection is a member, so the broadcast reaches those that hear it. -/
theorem LogInv.say (h : LogInv s) (hd : Descriptors s) {bytes : List Byte} {sent : Nat → Nat}
    (hs : ∀ j, bytes.length ≤ sent j) (buf : List Byte) :
    LogInv { s with
      buf
      log := s.log ++ [.say bytes]
      wire := forLoop (send_if_set s s.listener bytes sent) 0 (s.reactor.highest_fd + 1).toNat s.wire } where
  joined c := by simp [h.joined]
  member c := by rw [Log.member_append (by simp) (by simp), h.member]
  wire c := by
    obtain ⟨hsent, hnot⟩ := broadcast_spec hd hs (.conn c)
    simp only
    by_cases hm : Log.Member c s.log
    · obtain ⟨fd, hfd⟩ := (h.member c).1 hm
      rw [hsent ⟨fd, (target_conn hd).2 hfd⟩, Log.heard_say hm, h.wire]
      simp
    · have hn : ¬ ∃ j, Target s j (.conn c) := by
        rintro ⟨j, hj⟩
        exact hm ((h.member c).2 ⟨j, hj.desc⟩)
      rw [hnot hn, Log.heard_say_other hm, h.wire]
  listening := by
    have hn : ¬ ∃ j, Target s j .listening := by
      rintro ⟨j, hj⟩
      obtain ⟨c, hc⟩ := hj.conn hd
      cases hc
    simp only
    rw [(broadcast_spec hd hs .listening).2 hn, h.listening]

theorem log_recv (h : LogInv s) (hd : Descriptors s) (st : read_struct) (hst : st.listener_fd = s.listener)
    {c : Nat} (hfd : s.table st.fd = some (.conn c)) {data : Option (List Byte)} {sent : Nat → Nat}
    (hs : (Event.recv data sent).SendsAll) : LogInv (handle_client_data s st data sent) := by
  rcases handle_client_data_cases s st data sent with ⟨-, he⟩ | ⟨bytes, rfl, -, he⟩ <;> rw [he]
  · refine (h.hang_up hd hfd).quiet rfl ?_ rfl rfl
    simp only [hfd]
    rfl
  · have htake : (overwrite s.buf bytes).take bytes.length = bytes := List.take_left
    rw [hst, htake]
    exact h.say hd hs _

/-- `handle_client_data` is called for connections. -/
theorem turn_conn (hi : Inv s) (ht : Turn s i r) (hne : i ≠ s.listener) : ∃ c, s.table i = some (.conn c) := by
  obtain ⟨hf, -⟩ := (hi.round i r ht.ctl).pending i ht.ready (Nat.le_refl i)
  exact ((hi.descriptors.fds i).1 hf).resolve_left hne

theorem log_step (hi : Inv s) (h : LogInv s) (ht : Step s e s') (he : e.InRange) (hs : e.SendsAll) : LogInv s' := by
  cases ht with
  | boot hc => exact absurd hc hi.started
  | select | select_fails | skip | mismatch | done => exact h.quiet rfl rfl rfl rfl
  | @accept i r st newfd ht _ _ hk =>
    cases newfd with
    | none => exact h.called i r
    | some fd =>
      obtain ⟨reac, hac, -⟩ := accept_connection_spec (s.called i r) (he fd rfl)
      rw [hac]
      exact ((h.called i r).accept (hk fd rfl).2).quiet rfl rfl rfl rfl
  | @recv i r st data sent ht _ ha _ =>
    have hd := hi.descriptors
    obtain ⟨rfl, hne⟩ := arg_rd_st ha
    obtain ⟨c, hc⟩ := turn_conn hi ht hne
    exact log_recv (h.called i r) (hd.called i r) { s.rd_st with fd := i } hd.rd_st hc hs

theorem log_started (h : Started s) : LogInv s := by
  have hi := inv_started h
  obtain ⟨s0, listener, h0, -, rfl, hc⟩ := h
  have hlt : listener < MAX_FDS := by
    by_contra hn
    rw [boot_overflow s0 hn] at hc
    cases hc
  obtain ⟨reac, hb, -⟩ := boot_spec s0 hlt
  rw [hb]
  refine ⟨by simp [h0.log, h0.accepted], fun c => ?_, by simp [h0.log, h0.wire, Log.heard, Log.since], h0.wire _⟩
  apply iff_of_false (fun hm => absurd hm.1 (by simp [h0.log]))
  rintro ⟨fd, hfd⟩
  by_cases hl : fd = listener
  · subst hl; simp at hfd
  · simp only [Function.update_of_ne hl] at hfd
    cases h0.table fd _ hfd

theorem reachable_log (h : ((server Started).under Event.Whole).Reachable s) : Inv s ∧ LogInv s :=
  h.under_inv (P := fun s => Inv s ∧ LogInv s) (fun _ h0 => ⟨inv_started h0, log_started h0⟩)
    (fun _ _ _ hi ht he => ⟨inv_step hi.1 ht he.1, log_step hi.1 hi.2 ht he.1 he.2⟩)

/-! ## The log and the events -/

/-- The entry an event makes. -/
def Event.entry : Event → List (Entry Unit (List Byte))
  | .accept (some _) => [.join ()]
  | .recv (some (byte :: bytes)) _ => [.say (byte :: bytes)]
  | .recv _ _ => [.leave ()]
  | _ => []

theorem entry_step (hi : Inv s) (hs : Step s e s') : ∃ new, s'.log = s.log ++ new ∧ new.map Entry.kind = e.entry := by
  cases hs with
  | boot hc => exact absurd hc hi.started
  | @accept i r st newfd =>
    cases newfd with
    | none => exact ⟨[], by simp [accept_connection, State.called], rfl⟩
    | some fd =>
      refine ⟨[.join s.accepted], ?_, rfl⟩
      simp only [accept_connection]
      split <;> rfl
  | @recv i r st data sent ht _ ha =>
    obtain ⟨rfl, hne⟩ := arg_rd_st ha
    obtain ⟨c, hc⟩ := turn_conn hi ht hne
    have hleave : hang_up ((s.called i r).table i) = [.leave c] := by
      rw [show (s.called i r).table i = some (.conn c) from hc]
      rfl
    cases data with
    | none => exact ⟨_, rfl, by rw [hleave]; rfl⟩
    | some bytes =>
      cases bytes with
      | nil => exact ⟨_, rfl, by rw [hleave]; rfl⟩
      | cons byte bytes => exact ⟨_, rfl, rfl⟩
  | _ => exact ⟨[], (List.append_nil _).symm, rfl⟩

/-- The log has an entry for each `accept` that returned a descriptor, for each
chunk received, with its bytes, and for each hang-up, in the order of these events. -/
theorem entries_run {promise : Event → Prop} (hp : ∀ e, promise e → e.InRange)
    (h : ((server Started).under promise).Reachable s) {evs : List Event}
    (hr : ((server Started).under promise).Run s evs s') :
    ∃ new, s'.log = s.log ++ new ∧ new.map Entry.kind = evs.flatMap Event.entry := by
  induction hr with
  | nil => exact ⟨[], (List.append_nil _).symm, rfl⟩
  | snoc hrun hs ih =>
    obtain ⟨new, hnew, hkind⟩ := ih
    obtain ⟨new', hnew', hkind'⟩ := entry_step (reachable_inv hp (hrun.reachable h)) hs.1
    refine ⟨new ++ new', by rw [hnew', hnew, List.append_assoc], ?_⟩
    rw [List.map_append, List.flatMap_append, hkind, hkind', List.flatMap_singleton]

/-! ## The broadcast -/

/-- At every point of a run the bytes sent on a connection are those received
from anyone since it was accepted, and before its hang-up if it has hung up, in
the order the server got to them; nothing is sent on the listener. So over any
stretch of the run two connections that are open at both ends are sent the same. -/
theorem ordered_broadcast (h : ((server Started).under Event.Whole).Reachable s) :
    (∀ c, s.wire (.conn c) = (Log.heard c s.log).flatten) ∧ s.wire .listening = [] ∧
    (∀ c, (.join c ∈ s.log ↔ c < s.accepted) ∧ (Log.Member c s.log ↔ Open s c)) ∧
    ∀ evs s', ((server Started).under Event.Whole).Run s evs s' →
      ∃ bytes, ∀ c, Open s c → Open s' c → s'.wire (.conn c) = s.wire (.conn c) ++ bytes := by
  obtain ⟨-, hl⟩ := reachable_log h
  refine ⟨hl.wire, hl.listening, fun c => ⟨hl.joined c, hl.member c⟩, fun evs s' hr => ?_⟩
  obtain ⟨-, hl'⟩ := reachable_log (hr.reachable h)
  obtain ⟨new, he, -⟩ := entries_run (fun _ he => he.1) h hr
  refine ⟨(new.filterMap Entry.said).flatten, fun c hc hc' => ?_⟩
  have hm := (hl.member c).2 hc
  have hm' := (hl'.member c).2 hc'
  rw [he] at hm'
  rw [hl'.wire, hl.wire, he, Log.heard_of_member hm hm', List.flatten_append]

/-- Two clients are sent what one of them says, and then the other is gone. -/
theorem ordered_broadcast_farewell : ∃ s, ((server Started).under Event.Whole).Reachable s ∧
    s.log = [.join 0, .join 1, .say [104#8, 105#8], .leave 1] ∧ s.wire (.conn 0) = [104#8, 105#8] ∧
    s.wire (.conn 1) = [104#8, 105#8] ∧ Open s 0 ∧ ¬ Open s 1 := by
  obtain ⟨s, -, hs, -, -, -, -, -, hl⟩ := farewell_run fun _ he => he
  obtain ⟨hwire, -, hopen, -⟩ := ordered_broadcast hs
  have h0 : s.wire (.conn 0) = [104#8, 105#8] := by rw [hwire, hl]; rfl
  have h1 : s.wire (.conn 1) = [104#8, 105#8] := by rw [hwire, hl]; rfl
  refine ⟨s, hs, hl, h0, h1, (hopen 0).2.1 ?_, fun ho => absurd ((hopen 1).2.2 ho) ?_⟩
  · rw [hl]
    exact ⟨by decide, by decide⟩
  · rw [hl]
    exact fun hm => hm.2 (by decide)

end Ex6.SelectServer
