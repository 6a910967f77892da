import Ex6.Lib.Peers
import Ex6.PipelineProgress
import Ex6.SelectRun
import Ex6.SelectSafety
/-!
# Clients that go away

Neither server ignores `SIGPIPE`, and neither looks whether a connection is
still there before it sends on it. As long as no such send meets a connection
that has been reset, a client that goes away costs the others nothing.
-/
open Lib Lib.CString Ex6.Text

/-! ## The active-object server -/

namespace Ex6.Pipeline
variable {w : Nat} {s : World (State w) Nat}

/-- The step sends on descriptor `fd`. -/
def Sends (s : State w) (e : Event) (fd : Nat) : Prop :=
  ∃ t funq capsul, e = .send t ∧ s.threads t = some (.ao_func funq (.after capsul)) ∧
    funq.after_func = .send_message ∧ capsul.socket = fd

/-- What is sent on a descriptor changes only in a step that sends on it. -/
theorem sends_of_sent {s s' : State w} {e : Event} {fd : Nat} (h : Step s e s') (hne : s'.sent fd ≠ s.sent fd) :
    Sends s e fd := by
  cases h with
  | @send_message t funq capsul b bytes ht hf =>
    refine ⟨t, funq, capsul, rfl, ht, hf, ?_⟩
    by_contra hfd
    exact hne (Function.update_of_ne (Ne.symm hfd) _ _)
  | _ => exact absurd rfl hne

/-- A step that sends on a descriptor adds a string there, unless it runs off the buffer. -/
theorem sent_of_sends {s s' : State w} {e : Event} {fd : Nat} (h : Step s e s') (hd : Defined s')
    (hsends : Sends s e fd) : ∃ bytes, s'.sent fd = s.sent fd ++ [bytes] := by
  obtain ⟨t, funq, capsul, rfl, ht, -, rfl⟩ := hsends
  cases h with
  | send_message ht' =>
    cases ht.symm.trans ht'
    exact ⟨_, Function.update_self _ _ _⟩
  | @send_undefined _ funq' capsul' => exact absurd (Function.update_self _ _ _) (hd t funq' capsul')

/-- The server among clients that are gone only when nothing is sent to them. -/
def spared (w : Nat) : Machine (World (State w) Nat) (WorldEvent Event Nat) :=
  sparing (server w) Sends fun _ e => e.Ended

/-- A step of the server for connection `c`. -/
def By (c : Nat) : WorldEvent Event Nat → Prop
  | .reset _ => False
  | .server e => e.Of c

/-- What a client gets does not depend on the others. -/
structure Undisturbed (s : World (State w) Nat) : Prop where
  running : s.running
  defined : Defined s.server
  /-- After the same messages from it, in a run with other clients, it has been sent the
  same as far as it has been sent anything. -/
  alike : ∀ s', (spared w).Reachable s' → ∀ fd, s'.server.received fd = s.server.received fd →
    s.server.sent fd <+: s'.server.sent fd ∨ s'.server.sent fd <+: s.server.sent fd
  /-- It can be sent all its answers by steps for it alone. -/
  delivers : ∀ c fd, s.server.conns[c]? = some fd → ¬ s.gone fd → (s.server.received fd).length < 2 ^ w →
    ∃ evs s', (spared w).Run s evs s' ∧ (∀ e ∈ evs, By c e) ∧
      s'.server.sent fd = (s.server.received fd).map answer

theorem flowing_of_spared (h : (spared w).Reachable s) : s.running ∧ Flowing s.server ∧
    ∀ fd, ∀ r ∈ s.server.received fd, NUL ∈ overwrite r.1 r.2 := by
  obtain ⟨hr, hs⟩ := World.reachable_sparing h
  exact ⟨hr, reachable_flowing hs, received_all (P := fun junk data => NUL ∈ overwrite junk data)
    (fun _ _ _ he => he) hs⟩

theorem sent_starts (h : (spared w).Reachable s) (fd : Nat) :
    s.server.sent fd <+: (s.server.received fd).map answer := by
  obtain ⟨-, hf, hnul⟩ := flowing_of_spared h
  exact hf.inv.sent_starts fun r hr => respond_spec (hnul fd r hr)

theorem delivers (h : (spared w).Reachable s) {c fd : Nat} (hc : s.server.conns[c]? = some fd) (hg : ¬ s.gone fd)
    (hlt : (s.server.received fd).length < 2 ^ w) : ∃ evs s', (spared w).Run s evs s' ∧ (∀ e ∈ evs, By c e) ∧
      s'.server.sent fd = (s.server.received fd).map answer := by
  obtain ⟨hr, hf, hnul⟩ := flowing_of_spared h
  have hstep : ∀ t : World (State w) Nat, (t.running ∧ Flowing t.server ∧ t.gone = s.gone ∧
      t.server.conns = s.server.conns ∧ t.server.received = s.server.received) →
      ¬ (t.server.main = .accept ∧ t.server.contents c = []) → ∃ e t', (spared w).step t e t' ∧ By c e ∧
        (t'.running ∧ Flowing t'.server ∧ t'.gone = s.gone ∧ t'.server.conns = s.server.conns ∧
          t'.server.received = s.server.received) ∧ t'.server.work c < t.server.work c := by
    rintro t ⟨hr, hf, hgone, hconns, hrec⟩ hd
    obtain ⟨e, t', hs, he, hwork⟩ := moves hf (hconns ▸ hc) (by rw [hrec]; exact hlt) hd
    obtain ⟨hended, hconns', hrec'⟩ := of_frame hs he
    have hspared : ∀ fd', Sends t.server e fd' → ¬ t.gone fd' := by
      rintro fd' ⟨u, funq, capsul, rfl, hu, hfunc, rfl⟩
      have hfd := sends_of hf.inv he hu hfunc
      rw [hconns, hc, Option.some.injEq] at hfd
      rw [hgone, ← hfd]
      exact hg
    exact ⟨.server e, { t with server := t' }, World.spared_step hr hs hspared hended, he,
      ⟨hr, flowing_step hf hs hended, hgone, hconns'.trans hconns, hrec'.trans hrec⟩, hwork⟩
  obtain ⟨evs, s', hrun, hevs, ⟨-, hf', -, hconns, hrec⟩, -, hd⟩ :=
    Machine.exists_run (fun t : World (State w) Nat => t.server.work c) hstep ⟨hr, hf, rfl, rfl, rfl⟩
  refine ⟨evs, s', hrun, hevs, ?_⟩
  rw [← hrec] at hnul ⊢
  exact sent_of_done hf' (hconns ▸ hc) hd (hnul fd)

theorem undisturbed (h : (spared w).Reachable s) : Undisturbed s where
  running := (flowing_of_spared h).1
  defined := (flowing_of_spared h).2.1.defined
  alike s' h' fd hrec := by
    apply List.prefix_or_prefix_of_prefix (sent_starts h fd)
    rw [← hrec]
    exact sent_starts h' fd
  delivers _ _ := delivers h

/-- Nobody can do anything to a step that sends nothing. -/
theorem quiet_step (h : (withPeers (server w) Sends).Reachable s) (hr : s.running) {e : Event} {t : State w}
    (ht : Step s.server e t) (he : ∀ u, e ≠ .send u) :
    (withPeers (server w) Sends).Reachable { s with server := t } := by
  refine h.step (World.Step.server hr ht ?_)
  rintro c ⟨u, -, -, rfl, -⟩
  exact absurd rfl (he u)

/-- A client on descriptor 4 sends "a", and resets its connection before the third
thread sends the answer; there is another client, on 5. -/
theorem killed : ∃ s : World (State 64) Nat, (withPeers (server 64) Sends).Reachable s ∧
    s.server.conns = [4, 5] ∧ ¬ s.gone 5 ∧ ¬ s.running := by
  have r : (withPeers (server 64) Sends).Reachable ⟨start fun _ => [], fun _ => False, True⟩ :=
    .init ⟨⟨_, rfl⟩, fun _ => id, trivial⟩
  have r := quiet_step r trivial (@Step.accept _ _ 4 rfl (by decide)) (by rintro u ⟨⟩)
  have r := quiet_step r trivial (Step.new_listenAO rfl) (by rintro u ⟨⟩)
  have r := quiet_step r trivial (Step.new_AO_convert rfl) (by rintro u ⟨⟩)
  have r := quiet_step r trivial (Step.new_AO_caesar rfl) (by rintro u ⟨⟩)
  have r := quiet_step r trivial (@Step.accept _ _ 5 rfl (by decide)) (by rintro u ⟨⟩)
  have r := quiet_step r trivial (@Step.recv _ _ 0 _ (List.replicate 1024 NUL) [97#8, NUL] rfl List.length_replicate
    (by decide)) (by rintro u ⟨⟩)
  have r := quiet_step r trivial (@Step.listen_enQ _ _ 0 _ _ _ 0 _ rfl rfl (by decide) rfl) (by rintro u ⟨⟩)
  have r := quiet_step r trivial (@Step.deQ _ _ 1 _ _ _ rfl rfl rfl) (by rintro u ⟨⟩)
  have r := quiet_step r trivial (@Step.before _ _ 1 _ _ _ 1 rfl rfl rfl) (by rintro u ⟨⟩)
  have r := quiet_step r trivial (@Step.loop _ _ 1 _ _ _ _ _ rfl Nat.one_pos rfl) (by rintro u ⟨⟩)
  have r := quiet_step r trivial (@Step.leave _ _ 1 _ _ _ _ rfl (Nat.lt_irrefl 1)) (by rintro u ⟨⟩)
  have r := quiet_step r trivial (@Step.insert_to_queue _ _ 1 _ _ 0 _ rfl rfl (by decide) rfl) (by rintro u ⟨⟩)
  have r := quiet_step r trivial (@Step.deQ _ _ 2 _ _ _ rfl rfl rfl) (by rintro u ⟨⟩)
  have r := quiet_step r trivial (@Step.before _ _ 2 _ _ _ 1 rfl rfl rfl) (by rintro u ⟨⟩)
  have r := quiet_step r trivial (@Step.loop _ _ 2 _ _ _ _ _ rfl Nat.one_pos rfl) (by rintro u ⟨⟩)
  have r := quiet_step r trivial (@Step.leave _ _ 2 _ _ _ _ rfl (Nat.lt_irrefl 1)) (by rintro u ⟨⟩)
  have r := r.step (World.Step.reset trivial (c := 4))
  have r := r.step (World.Step.killed trivial (@Step.send_message _ _ 2 _ _ _ _ rfl rfl rfl rfl)
    ⟨2, _, _, rfl, rfl, rfl, rfl⟩ (.inr rfl))
  refine ⟨_, r, rfl, ?_, id⟩
  rintro (h | h)
  · exact h
  · cases h
end Ex6.Pipeline

/-! ## The select server -/

namespace Ex6.SelectServer
variable {s : World State Nat} {promise : Event → Prop}

/-- The step sends on connection `c`: a chunk goes out to all connections in the
master set. -/
def Sends (s : State) (e : Event) (c : Nat) : Prop :=
  ∃ (data : List Byte) (sent : Nat → Nat) (j : Nat), e = .recv (some data) sent ∧ data ≠ [] ∧
    (j : Int) ≤ s.reactor.highest_fd ∧ j ∈ s.reactor.fds ∧ j ≠ s.rd_st.listener_fd ∧ s.table j = some (.conn c)

/-- What was put on the wire of a connection changes only in a step that sends on it. -/
theorem sends_of_wire {s s' : State} {e : Event} {c : Nat} (hi : Inv s) (h : Step s e s')
    (hne : s'.wire (.conn c) ≠ s.wire (.conn c)) : Sends s e c := by
  have hrecv : ∃ data sent, e = .recv (some data) sent := by
    by_contra hn
    exact hne (congrFun (wire_step h fun data sent he => hn ⟨data, sent, he⟩) _)
  obtain ⟨data, sent, rfl⟩ := hrecv
  have htarget : ∃ j, Target s j (.conn c) := by
    by_contra hn
    exact hne (wire_other hi h hn)
  obtain ⟨j, hj⟩ := htarget
  refine ⟨data, sent, j, rfl, ?_, hi.descriptors.bound j hj.set, hj.set, ?_, hj.desc⟩
  · rintro rfl
    obtain ⟨n, hn⟩ := wire_chunk hi h (.conn c)
    exact hne (by rw [hn, List.take_nil, List.append_nil])
  · rw [hi.descriptors.rd_st]
    exact hj.other

/-- A step that sends on a connection puts a chunk there, if `send` transmits its whole
argument. -/
theorem wire_of_sends {s s' : State} {e : Event} {c : Nat} (hi : Inv s) (h : Step s e s') (he : e.SendsAll)
    (hsends : Sends s e c) : ∃ data, data ≠ [] ∧ s'.wire (.conn c) = s.wire (.conn c) ++ data := by
  obtain ⟨data, sent, j, rfl, hne, -, -, -, hj⟩ := hsends
  exact ⟨data, hne, wire_whole hi h he ⟨j, hj⟩⟩

/-- `select` fails only when it is given a descriptor that is not open. -/
def Within (promise : Event → Prop) (s : State) (e : Event) : Prop :=
  promise e ∧ (e = .select_fails → ∃ fd ∈ s.reactor.fds, s.table fd = none)

/-- The server among clients that are gone only when nothing is sent to them. -/
def spared (promise : Event → Prop) : Machine (World State Nat) (WorldEvent Event Nat) :=
  sparing (server Started) Sends (Within promise)

/-- What is said reaches every client that is there, whoever has left. -/
structure Undisturbed (s : World State Nat) : Prop where
  wire : ∀ c, s.server.wire (.conn c) = (Log.heard c s.server.log).flatten
  /-- In a run whose log differs by the departure of `d` alone, everyone else has been sent
  the same. -/
  alike : ∀ s', (spared Event.Whole).Reachable s' → ∀ d,
    s'.server.log = s.server.log.filter (fun e => !decide (e = .leave d)) →
    ∀ c, d ≠ c → s'.server.wire (.conn c) = s.server.wire (.conn c)
  /-- Whoever is there can still say something. -/
  listens : s.server.ctl = .select → (∀ c, Open s.server c → ¬ s.gone c) → ∀ c, Open s.server c → ∀ data, data ≠ [] →
    data.length ≤ s.server.rd_st.buffersize → ∃ evs s', (spared Event.Whole).Run s evs s' ∧
      s'.server.log = s.server.log ++ [.say data]

theorem within_step {s s' : State} {e : Event} (hp : ∀ e, promise e → e.InRange)
    (h : Inv s ∧ s.ctl ≠ .exited) (hs : Step s e s') (he : Within promise s e) : Inv s' ∧ s'.ctl ≠ .exited := by
  obtain ⟨hi, hx⟩ := h
  refine ⟨inv_step hi hs (hp e he.1), ?_⟩
  cases hs with
  | boot hc => exact absurd hc hi.started
  | select_fails =>
    obtain ⟨fd, hm, hclosed⟩ := he.2 rfl
    exact absurd hclosed (hi.descriptors.open_of_mem hm)
  | @accept i r st newfd =>
    cases newfd with
    | none => simp [accept_connection, ctl_called]
    | some fd =>
      obtain ⟨reac, hac, -⟩ := accept_connection_spec (s.called i r) (hp _ he.1 fd rfl)
      rw [hac]
      simp [State.open_conn, ctl_called]
  | @recv i r st data sent =>
    rcases handle_client_data_cases (s.called i r) st data sent with ⟨-, he⟩ | ⟨bytes, -, -, he⟩ <;> rw [he] <;>
      simp [ctl_called]
  | _ => simp

theorem inv_of_spared (hp : ∀ e, promise e → e.InRange) (h : (spared promise).Reachable s) :
    s.running ∧ Inv s.server ∧ s.server.ctl ≠ .exited := by
  obtain ⟨hr, hs⟩ := World.reachable_sparing h
  refine ⟨hr, hs.meeting_inv (P := fun s => Inv s ∧ s.ctl ≠ .exited) (fun s0 h0 => ?_)
    fun _ _ _ hi ht he => within_step hp hi ht he⟩
  obtain ⟨s1, listener, -, -, -, hc⟩ := id h0
  exact ⟨inv_started h0, by rw [hc]; simp⟩

theorem log_of_spared (h : (spared Event.Whole).Reachable s) : Inv s.server ∧ LogInv s.server :=
  (World.reachable_sparing h).2.meeting_inv (P := fun s => Inv s ∧ LogInv s)
    (fun _ h0 => ⟨inv_started h0, log_started h0⟩)
    fun _ _ _ hi ht he => ⟨inv_step hi.1 ht he.1.1, log_step hi.1 hi.2 ht he.1.1 he.1.2⟩

/-- A step that receives no chunk, and brings no descriptor beyond the table to the
reactor. -/
def Event.Quiet : Event → Prop
  | .recv (some _) _ | .select_fails => False
  | .boot listener => listener < MAX_FDS
  | .accept (some newfd) => newfd < MAX_FDS
  | _ => True

instance (e : Event) : Decidable e.Quiet := by
  unfold Event.Quiet
  split <;> infer_instance

/-- A quiet event sends nothing, and keeps the promises. -/
theorem quiet {e : Event} (h : e.Quiet) (u : State) : (∀ c, ¬ Sends u e c) ∧ Within Event.Whole u e := by
  refine ⟨?_, ⟨?_, ?_⟩, ?_⟩
  · rintro c ⟨data, sent, -, rfl, -⟩
    exact h
  · intro fd hfd
    cases e with
    | boot listener => cases hfd; exact h
    | accept newfd => cases hfd; exact h
    | _ => cases hfd
  · cases e with
    | recv data sent =>
      cases data with
      | none => trivial
      | some data => exact absurd h id
    | _ => trivial
  · rintro rfl
    exact absurd h id

theorem quiet_arrivals : ∀ e ∈ arrivals, e.Quiet := by decide

theorem quiet_turnOf (fd : Nat) : ∀ e ∈ turnOf fd, e.Quiet := by
  intro e he
  rw [turnOf, List.mem_append, List.mem_singleton, List.mem_replicate] at he
  rcases he with rfl | ⟨-, rfl⟩ <;> trivial

theorem listens (h : (spared Event.Whole).Reachable s) (hc : s.server.ctl = .select)
    (hg : ∀ c, Open s.server c → ¬ s.gone c) {c : Nat} (ho : Open s.server c) {data : List Byte} (hne : data ≠ [])
    (hlen : data.length ≤ s.server.rd_st.buffersize) : ∃ evs s', (spared Event.Whole).Run s evs s' ∧
      s'.server.log = s.server.log ++ [.say data] := by
  obtain ⟨hr, hi, -⟩ := inv_of_spared (fun _ he => he.1) h
  obtain ⟨fd, hfd⟩ := ho
  have hd := hi.descriptors
  have hm : fd ∈ s.server.reactor.fds := (hd.fds fd).2 (.inr ⟨c, hfd⟩)
  have hl : fd ≠ s.server.listener := by
    rintro rfl
    rw [(hd.listening _).2 rfl] at hfd
    cases hfd
  have hh : s.server.reactor.handler fd = some .handle_client_data := by simpa [handlerOf, hl] using hd.handler fd hm
  obtain ⟨hrun, hturn⟩ := turn_run hd hc hm
  -- up to the turn of `fd` nothing is sent
  have hturn' := World.silent_run hr hrun fun e he => quiet (quiet_turnOf fd e he)
  generalize ht : { s.server with ctl := Ctl.scan fd ⟨{fd}, s.server.table, []⟩ } = t at hrun hturn hturn'
  obtain ⟨st, hst, hsize⟩ : ∃ st, t.arg fd = .rd_st st ∧ st.buffersize = s.server.rd_st.buffersize := by
    subst ht
    exact ⟨_, if_neg hl, rfl⟩
  have hrecv : Step t (.recv (some data) fun _ => data.length) _ :=
    .recv hturn (by rw [← ht]; exact hh) hst (by rintro bytes ⟨⟩; rw [hsize]; exact hlen)
  refine ⟨_, _, hturn'.snoc (World.spared_step (s := { s with server := t }) hr hrecv ?_ ?_), ?_⟩
  · rintro c' ⟨-, -, j, -, -, -, -, -, hj⟩
    rw [← ht] at hj
    exact hg c' ⟨j, hj⟩
  · exact ⟨⟨by simp [Event.InRange, Event.installs], fun _ => Nat.le_refl _⟩, by simp⟩
  · rcases handle_client_data_cases (t.called fd ⟨{fd}, s.server.table, []⟩) st (some data) fun _ => data.length with
      ⟨he, -⟩ | ⟨bytes, hb, -, he⟩
    · exact absurd he hne
    · cases hb
      rw [he, ← ht]
      rfl

theorem undisturbed (h : (spared Event.Whole).Reachable s) : Undisturbed s where
  wire := (log_of_spared h).2.wire
  alike s' h' d hlog c hc := by
    rw [(log_of_spared h').2.wire, (log_of_spared h).2.wire, hlog, Log.heard_filter hc]
  listens hc hg c ho data hne hlen := listens h hc hg ho hne hlen

/-! ## Two clients -/

/-- The world before the first client. -/
def opening : World State Nat := ⟨boot stdio 3, fun _ => False, True⟩

theorem opening_reachable : (spared Event.Whole).Reachable opening :=
  .init ⟨⟨stdio, 3, stdio_atBoot, rfl, rfl, rfl⟩, fun _ => id, trivial⟩

/-- The server closes its end of the second connection, and comes to the first. -/
def closing : List Event := turnOf 5 ++ [.recv none fun _ => 0, .done] ++ turnOf 4

theorem quiet_closing : ∀ e ∈ closing, e.Quiet := by decide

/-- The second resets its connection, and the server closes it before the first says
"hi". -/
theorem closed_in_time : ∃ s, (spared Event.Whole).Reachable s ∧ s.gone 1 ∧
    s.server.log = [.join 0, .join 1, .leave 1, .say [104#8, 105#8]] := by
  have harrivals : ∃ t, (server Started).Run (boot stdio 3) arrivals t ∧ (exec t closing).any (fun t' => decide
      ((t'.reactor.fds = {3, 4} ∧ t'.table 3 = some .listening ∧ t'.table 4 = some (.conn 0)) ∧
        (next t' sayHi).any (fun u => decide (u.log = [.join 0, .join 1, .leave 1, .say [104#8, 105#8]])) = true)) =
          true := run_of_exec (by decide +kernel)
  obtain ⟨t, hrun, ht⟩ := harrivals
  obtain ⟨t', hrun', ⟨hfds, h3, h4⟩, hhi⟩ := run_of_exec ht
  obtain ⟨u, hu, hlog⟩ := (Option.any_eq_true _ _).1 hhi
  have r := (World.silent_run trivial hrun fun e he => quiet (quiet_arrivals e he)).reachable opening_reachable
  have r := r.step (World.reset_step trivial 1)
  have r := (World.silent_run trivial hrun' fun e he => quiet (quiet_closing e he)).reachable r
  refine ⟨_, r.step (World.spared_step trivial (next_step hu) ?_ ?_), .inr rfl, of_decide_eq_true hlog⟩
  · rintro c ⟨-, -, j, -, -, -, hj, -, hc⟩ (hg | rfl)
    · exact hg
    · -- neither the listener nor the first client is the second
      rw [hfds, Finset.mem_insert, Finset.mem_singleton] at hj
      rcases hj with rfl | rfl
      · rw [h3] at hc; cases hc
      · rw [h4] at hc; cases hc
  · exact ⟨⟨by rintro fd ⟨⟩, fun _ => Nat.le_refl 2⟩, by rintro ⟨⟩⟩

/-- The server has come to the first client when the second resets its connection, and is
killed. -/
theorem killed : ∃ s, (withPeers (server Started) Sends).Reachable s ∧ s.server.table 4 = some (.conn 0) ∧
    ¬ s.gone 0 ∧ ¬ s.running := by
  have hfirst : ∃ t, (server Started).Run (boot stdio 3) (arrivals ++ turnOf 4) t ∧ (next t sayHi).isSome ∧
      (5 ≤ t.reactor.highest_fd ∧ 5 ∈ t.reactor.fds ∧ 5 ≠ t.rd_st.listener_fd ∧ t.table 5 = some (.conn 1)) ∧
      t.table 4 = some (.conn 0) := run_of_exec (by decide +kernel)
  obtain ⟨t, hrun, hhi, ⟨hle, hfds, hl, h5⟩, h4⟩ := hfirst
  obtain ⟨u, hu⟩ := step_of_next hhi
  have hquiet : ∀ e ∈ arrivals ++ turnOf 4, e.Quiet := fun e he =>
    (List.mem_append.1 he).elim (quiet_arrivals e) (quiet_turnOf 4 e)
  have r := (World.silent_run trivial hrun fun e he => quiet (hquiet e he)).reachable opening_reachable
  have r := (r.step (World.reset_step trivial 1)).of_meeting
  have hsends : Sends t sayHi 1 := ⟨_, _, 5, rfl, by simp, hle, hfds, hl, h5⟩
  refine ⟨_, r.step (World.Step.killed trivial hu hsends (.inr rfl)), h4, ?_, id⟩
  rintro (h | h)
  · exact h
  · cases h

end Ex6.SelectServer

namespace Ex6.Disconnect

/-- As long as the active-object server sends on no connection that has been reset
and `recv` leaves a NUL in every buffer, and as long as the select server receives
a chunk only while all its connections are there, and has none beyond the table,
both servers run on and nobody notices that another has gone. A step that sends
on a connection that has been reset ends them. -/
theorem others_unaffected (w : Nat) :
    ((∀ s, (Pipeline.spared w).Reachable s → Pipeline.Undisturbed s) ∧
      ∀ s e s', (withPeers (Pipeline.server w) Pipeline.Sends).step s e s' →
        (s'.running ↔ Spared Pipeline.Sends s e)) ∧
    (∀ s, (SelectServer.spared SelectServer.Event.InRange).Reachable s →
      s.running ∧ s.server.ctl ≠ .exited ∧ s.server.ctl ≠ .undefined) ∧
    (∀ s, (SelectServer.spared SelectServer.Event.Whole).Reachable s → SelectServer.Undisturbed s) ∧
      ∀ s e s', (withPeers (SelectServer.server SelectServer.Started) SelectServer.Sends).step s e s' →
        (s'.running ↔ Spared SelectServer.Sends s e) := by
  refine ⟨⟨fun s => Pipeline.undisturbed, fun s e s' hs => hs.running_iff⟩, fun s h => ?_,
    fun s => SelectServer.undisturbed, fun s e s' hs => hs.running_iff⟩
  obtain ⟨hr, hi, hx⟩ := SelectServer.inv_of_spared (fun _ => id) h
  exact ⟨hr, hx, hi.defined⟩

/-- Of two clients the one that is left is sent what it says. -/
theorem others_unaffected_closed : ∃ s : World SelectServer.State Nat,
    (SelectServer.spared SelectServer.Event.Whole).Reachable s ∧ s.gone 1 ∧
    s.server.log = [.join 0, .join 1, .leave 1, .say [104#8, 105#8]] ∧ s.server.wire (.conn 0) = [104#8, 105#8] ∧
    s.server.wire (.conn 1) = [] := by
  obtain ⟨s, hs, hg, hlog⟩ := SelectServer.closed_in_time
  have hwire := ((others_unaffected 64).2.2.1 s hs).wire
  refine ⟨s, hs, hg, hlog, ?_, ?_⟩
  · rw [hwire, hlog]
    rfl
  · rw [hwire, hlog]
    rfl

/-- A client that resets its connection at the wrong moment takes either server with it,
while another is still there. -/
theorem killed_by_reset :
    (∃ s : World (Pipeline.State 64) Nat, (withPeers (Pipeline.server 64) Pipeline.Sends).Reachable s ∧
      s.server.conns = [4, 5] ∧ ¬ s.gone 5 ∧ ¬ s.running) ∧
    ∃ s, (withPeers (SelectServer.server SelectServer.Started) SelectServer.Sends).Reachable s ∧
      s.server.table 4 = some (.conn 0) ∧ ¬ s.gone 0 ∧ ¬ s.running :=
  ⟨Pipeline.killed, SelectServer.killed⟩

end Ex6.Disconnect
