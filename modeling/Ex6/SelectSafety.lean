import Ex6.SelectBroadcast
/-!
# Safety of the select server

What the invariants say of every run: which descriptors are watched, which
handler is called on what, that the calls on record are those of the events
(`roundOf_run`), and when the handler table is used within its bounds.
-/
open Lib Lib.CString

namespace Ex6.SelectServer
variable {s s' : State} {e : Event} {i : Nat} {r : Round}

/-! ## The master set -/

/-- The master set is the listener and the connections accepted and not closed,
all of them open and within the range of the scan; and a failed `accept` changes
nothing in the reactor. -/
theorem master_set (h : ((server Started).under Event.InRange).Reachable s) :
    (∀ fd, fd ∈ s.reactor.fds ↔ fd = s.listener ∨ ∃ c, s.table fd = some (.conn c)) ∧
    (∀ fd ∈ s.reactor.fds, s.table fd ≠ none ∧ (fd : Int) ≤ s.reactor.highest_fd) ∧
    ∀ s', Step s (.accept none) s' → s'.reactor = s.reactor := by
  have hd := (reachable_inv (fun _ he => he) h).descriptors
  refine ⟨hd.fds, fun fd hm => ⟨hd.open_of_mem hm, hd.bound fd hm⟩, fun s' hs => ?_⟩
  cases hs with
  | accept => rfl

/-- Of two clients one is there. -/
theorem master_set_farewell : ∃ s, ((server Started).under Event.InRange).Reachable s ∧ s.reactor.fds = {3, 4} ∧
    s.reactor.highest_fd = 5 ∧ (∃ c, s.table 4 = some (.conn c)) ∧ ¬ ∃ c, s.table 5 = some (.conn c) := by
  obtain ⟨s, -, hs, -, -, hl, hfds, hh, -⟩ := farewell_run fun _ he => he.1
  obtain ⟨hmem, -⟩ := master_set hs
  refine ⟨s, hs, hfds, hh, ((hmem 4).1 ?_).resolve_left ?_, fun h5 => absurd ((hmem 5).2 (.inr h5)) ?_⟩
  · rw [hfds]
    decide
  · rw [hl]
    decide
  · rw [hfds]
    decide

/-! ## Dispatch -/

/-- How often a number occurs among those of a range that are in a set. -/
theorem count_served (ready : Finset Nat) (n fd : Nat) :
    ((List.range n).filter (fun k => decide (k ∈ ready))).count fd = if fd ∈ ready ∧ fd < n then 1 else 0 := by
  have hnd : ((List.range n).filter (fun k => decide (k ∈ ready))).Nodup := List.nodup_range.filter _
  by_cases hm : fd ∈ ready ∧ fd < n
  · rw [if_pos hm]
    exact List.count_eq_one_of_mem hnd (by simp [hm.1, hm.2])
  · rw [if_neg hm, List.count_eq_zero]
    simp only [List.mem_filter, List.mem_range, decide_eq_true_eq]
    exact fun hc => hm ⟨hc.2, hc.1⟩

/-- Within a round every call is of the handler that belongs to its descriptor, on
that handler's struct, for the connection `select` reported. The descriptors
served are those reported among the ones passed, once each, and at the end of
the loop all have been passed. -/
theorem dispatch_once (h : ((server Started).under Event.InRange).Reachable s) :
    s.ctl ≠ .undefined ∧ ∀ i r, s.ctl = .scan i r →
      (∀ call ∈ r.calls, Served s.listener r call) ∧
      (∀ fd, (r.calls.map Call.fd).count fd = if fd ∈ r.read_fds ∧ fd < i then 1 else 0) ∧
      (s.reactor.highest_fd < i → ∀ fd ∈ r.read_fds, fd < i) := by
  have hi := reachable_inv (fun _ he => he) h
  refine ⟨hi.defined, fun i r hc => ?_⟩
  have hr := hi.round i r hc
  refine ⟨hr.calls, fun fd => by rw [hr.served, count_served], fun hh fd hm => ?_⟩
  by_contra hle
  -- what is reported and ahead is in the master set, hence in the range of the scan
  have := hi.descriptors.bound fd (hr.pending fd hm (by omega)).1
  omega

/-- Two clients were reported, and one of them had hung up. -/
theorem dispatch_once_farewell : ∃ s r, ((server Started).under Event.InRange).Reachable s ∧ s.ctl = .scan 6 r ∧
    (∀ call ∈ r.calls, Served 3 r call) ∧ (r.calls.map Call.fd).count 3 = 0 ∧ (r.calls.map Call.fd).count 4 = 1 ∧
    (r.calls.map Call.fd).count 5 = 1 := by
  obtain ⟨s, r, hs, hc, hready, hl, -⟩ := farewell_run fun _ he => he.1
  obtain ⟨hserved, hcount, -⟩ := (dispatch_once hs).2 6 r hc
  rw [hl] at hserved
  simp only [hready] at hcount
  exact ⟨s, r, hs, hc, hserved, hcount 3, hcount 4, hcount 5⟩

/-! ## The calls and the events -/

/-- The handler a step calls. -/
def Event.handler : Event → Option Handler
  | .accept _ => some .accept_connection
  | .recv _ _ => some .handle_client_data
  | _ => none

/-- The handlers that events call, each with its place among them. -/
def dispatched (evs : List Event) : List (Nat × Option Handler) :=
  evs.zipIdx.filterMap fun (e, i) => e.handler.map fun f => (i, some f)

theorem dispatched_snoc (evs : List Event) (e : Event) :
    dispatched (evs ++ [e]) = dispatched evs ++ (e.handler.map fun f => (evs.length, some f)).toList := by
  unfold dispatched
  rw [List.zipIdx_append, List.filterMap_append]
  cases he : e.handler <;> simp [he]

/-- What `select` reported last, and the events since. -/
def lastRound (last : Option (Finset Nat × List Event)) : List Event → Option (Finset Nat × List Event)
  | [] => last
  | .select ready :: evs => lastRound (some (ready, [])) evs
  | e :: evs => lastRound (last.map fun (ready, since) => (ready, since ++ [e])) evs

theorem lastRound_append (last : Option (Finset Nat × List Event)) (evs evs' : List Event) :
    lastRound last (evs ++ evs') = lastRound (lastRound last evs) evs' := by
  induction last, evs using lastRound.induct with
  | case1 => rfl
  | case2 last ready evs ih => exact ih
  | case3 last e evs hne ih =>
    rw [List.cons_append, lastRound.eq_3 _ _ _ hne, lastRound.eq_3 _ _ _ hne]
    exact ih

/-- The walk is over what `select` reported last, it has come to the index that is the
number of events since, and it has called what these called, each where it was. -/
def RoundOf (evs : List Event) (i : Nat) (r : Round) : Prop :=
  ∃ since, lastRound none evs = some (r.read_fds, since) ∧ since.length = i ∧
    r.calls.map (fun call => (call.fd, call.handler)) = dispatched since

theorem RoundOf.skip {evs : List Event} (h : RoundOf evs i r) : RoundOf (evs ++ [.skip]) (i + 1) r := by
  obtain ⟨since, hlast, hi, hcalls⟩ := h
  refine ⟨since ++ [.skip], by rw [lastRound_append, hlast]; rfl, by rw [List.length_append, hi]; rfl, ?_⟩
  rw [dispatched_snoc, hcalls]
  exact (List.append_nil _).symm

theorem RoundOf.called {evs : List Event} (h : RoundOf evs i r) {f : Handler} (he : e.handler = some f)
    (hf : s.reactor.handler i = some f) : RoundOf (evs ++ [e]) (i + 1)
      { r with calls := r.calls ++ [⟨i, s.reactor.handler i, s.arg i, s.table i⟩] } := by
  obtain ⟨since, hlast, hi, hcalls⟩ := h
  refine ⟨since ++ [e], ?_, by rw [List.length_append, hi]; rfl, ?_⟩
  · rw [lastRound_append, hlast]
    cases e with
    | accept | recv => rfl
    | _ => cases he
  · rw [dispatched_snoc, List.map_append, hcalls, he, hi, hf]
    rfl

theorem ctl_accept (s : State) (newfd : Option Nat) :
    (accept_connection s newfd).ctl = s.ctl ∨ (accept_connection s newfd).ctl = .undefined := by
  cases newfd with
  | none => exact .inl rfl
  | some fd =>
    simp only [accept_connection]
    split
    · exact .inr rfl
    · exact .inl rfl

theorem roundOf_step {evs : List Event} (h : ∀ i r, s.ctl = .scan i r → RoundOf evs i r) (hs : Step s e s') :
    ∀ i r, s'.ctl = .scan i r → RoundOf (evs ++ [e]) i r := by
  intro j r' hc'
  cases hs with
  | boot =>
    simp only [boot] at hc'
    split at hc' <;> cases hc'
  | @select ready =>
    cases hc'
    exact ⟨[], by rw [lastRound_append]; rfl, rfl, rfl⟩
  | select_fails | mismatch | done => cases hc'
  | skip hc =>
    cases hc'
    exact (h _ _ hc).skip
  | @accept i r st newfd ht hh =>
    rcases ctl_accept (s.called i r) newfd with hctl | hctl <;> rw [hctl] at hc' <;> cases hc'
    exact (h i r ht.ctl).called rfl hh
  | @recv i r st data sent ht hh =>
    have hctl : (handle_client_data (s.called i r) st data sent).ctl = (s.called i r).ctl := by
      rcases handle_client_data_cases (s.called i r) st data sent with ⟨-, he⟩ | ⟨bytes, -, -, he⟩ <;> rw [he]
    rw [hctl] at hc'
    cases hc'
    exact (h i r ht.ctl).called rfl hh

/-- The calls a round has recorded are those that the events since `select` made. -/
theorem roundOf_run {init : State → Prop} {evs : List Event} (h0 : ∀ i r, s.ctl ≠ .scan i r)
    (h : (server init).Run s evs s') : ∀ i r, s'.ctl = .scan i r → RoundOf evs i r := by
  induction h with
  | nil => exact fun i r hc => absurd hc (h0 i r)
  | snoc _ hs ih => exact roundOf_step ih hs

/-! ## The handler table -/

/-- A run that has brought nothing beyond the table to the reactor. -/
theorem inv_of_inRange {s0 : State} {evs : List Event} (h : (server AtBoot).Run s0 evs s) (h0 : AtBoot s0)
    (hr : ∀ e ∈ evs, e.InRange) : AtBoot s ∨ Inv s := by
  apply (h.under hr).keeps (P := fun s => AtBoot s ∨ Inv s) _ (.inl h0)
  rintro t e u (hb | hi) ⟨ht, he⟩
  · cases ht with
    | boot _ hfree => exact .inr (inv_boot hb (he _ rfl))
    | select hc | select_fails hc | skip hc | done hc => rw [hb.ctl] at hc; cases hc
    | accept ht | recv ht | mismatch ht => have hc := ht.ctl; rw [hb.ctl] at hc; cases hc
  · exact .inr (inv_step hi ht he)

theorem accept_connection_accesses (s : State) (newfd : Option Nat) :
    (accept_connection s newfd).accesses = s.accesses ++ newfd.toList := by
  cases newfd with
  | none => simp [accept_connection]
  | some fd =>
    by_cases hlt : fd < MAX_FDS
    · obtain ⟨reac, hs, -⟩ := accept_connection_spec s hlt
      simp [hs]
    · simp [accept_connection_overflow s hlt]

theorem handle_client_data_accesses (s : State) (st : read_struct) (data : Option (List Byte)) (sent : Nat → Nat) :
    (handle_client_data s st data sent).accesses = s.accesses := by
  rcases handle_client_data_cases s st data sent with ⟨-, he⟩ | ⟨bytes, -, -, he⟩ <;> rw [he]

/-- What a step adds to the accesses, in particular the descriptor it brings to
`InstallHandler`. -/
theorem accesses_step (h : Step s e s') :
    s.accesses ⊆ s'.accesses ∧ ∀ fd, e.installs = some fd → fd ∈ s'.accesses := by
  cases h with
  | @boot listener =>
    have hb : (boot s listener).accesses = s.accesses ++ [listener] := by
      simp only [boot]
      split <;> rfl
    rw [hb]
    exact ⟨List.subset_append_left _ _, by rintro fd ⟨⟩; simp⟩
  | @accept i r st newfd =>
    rw [accept_connection_accesses]
    refine ⟨fun k hk => ?_, ?_⟩
    · simp [State.called, hk]
    · rintro fd hfd
      cases newfd with
      | none => cases hfd
      | some k => cases hfd; simp
  | @recv i r st data sent =>
    rw [handle_client_data_accesses]
    exact ⟨fun k hk => by simp [State.called, hk], by rintro fd ⟨⟩⟩
  | mismatch => exact ⟨fun k hk => by simp [State.called, hk], by rintro fd ⟨⟩⟩
  | _ => exact ⟨fun _ hk => hk, by rintro fd ⟨⟩⟩

theorem installs_logged {s0 : State} {evs : List Event} (h : (server AtBoot).Run s0 evs s) :
    ∀ e ∈ evs, ∀ fd, e.installs = some fd → fd ∈ s.accesses := by
  apply h.inv (R := fun _ evs s => ∀ e ∈ evs, ∀ fd, e.installs = some fd → fd ∈ s.accesses) (by simp)
  rintro s0 evs t e u - ih ht e' he' fd hfd
  obtain ⟨hsub, hnew⟩ := accesses_step ht
  rcases List.mem_append.1 he' with he' | he'
  · exact hsub (ih e' he' fd hfd)
  · rw [List.mem_singleton.1 he'] at hfd
    exact hnew fd hfd

/-- The table is used within its bounds exactly in the runs in which the listener
and everything `accept` returned are in its range; only then does no entry
reach into the bits of `fds`. -/
theorem handlers_in_range {s0 : State} {evs : List Event} (h0 : AtBoot s0)
    (h : (server AtBoot).Run s0 evs s) :
    (∀ fd ∈ s.accesses, fd < MAX_FDS ∧ Reactor.slot fd + Reactor.slot_size ≤ Reactor.fds_offset) ↔
      ∀ e ∈ evs, e.InRange := by
  refine ⟨fun ha e he fd hfd => (ha fd (installs_logged h e he fd hfd)).1, fun hr fd hm => ?_⟩
  rw [Reactor.slot_end_le, and_self]
  rcases inv_of_inRange h h0 hr with hb | hi
  · rw [hb.accesses] at hm; cases hm
  · exact hi.accesses fd hm

/-! ## One client too many -/

/-- The loop passes what was not reported. -/
theorem scan_run {init : State → Prop} {j : Nat} (hc : s.ctl = .scan i r) (hij : i ≤ j)
    (hj : ∀ k, i ≤ k → k < j → (k : Int) ≤ s.reactor.highest_fd ∧ k ∉ r.read_fds) :
    (server init).Run s (List.replicate (j - i) .skip) { s with ctl := .scan j r } := by
  induction j, hij using Nat.le_induction with
  | base => rw [Nat.sub_self, ← hc]; exact .nil s
  | succ j hij ih =>
    have hr := ih fun k hk hkj => hj k hk (by omega)
    obtain ⟨hb, hn⟩ := hj j hij (by omega)
    rw [Nat.succ_sub hij, List.replicate_succ']
    exact hr.snoc (.skip rfl hb hn)

/-- Only `fd` is reported, and the loop passes all before it. -/
def turnOf (fd : Nat) : List Event := [.select {fd}] ++ List.replicate fd .skip

/-- From `select`, the loop comes to any descriptor of the master set that alone is
reported. -/
theorem turn_run {init : State → Prop} {fd : Nat} (hd : Descriptors s) (hc : s.ctl = .select)
    (hfd : fd ∈ s.reactor.fds) :
    (server init).Run s (turnOf fd) { s with ctl := .scan fd ⟨{fd}, s.table, []⟩ } ∧
      Turn { s with ctl := .scan fd ⟨{fd}, s.table, []⟩ } fd ⟨{fd}, s.table, []⟩ := by
  have hbound := hd.bound _ hfd
  refine ⟨?_, rfl, hbound, Finset.mem_singleton_self fd⟩
  apply (Machine.Run.single (M := server init) (Step.select hc (Finset.singleton_subset_iff.2 hfd))).append
  refine scan_run rfl (Nat.zero_le _) fun k _ hk => ⟨?_, ?_⟩
  · change (k : Int) ≤ s.reactor.highest_fd
    omega
  · rw [Finset.mem_singleton]
    omega

theorem installs_skips (n : Nat) : (List.replicate n Event.skip).filterMap Event.installs = [] :=
  List.filterMap_replicate_of_none rfl

/-- The round in which only the listener is ready. -/
def listenerOnly (s : State) : Round := ⟨{s.listener}, s.table, []⟩

/-- The state in which that round comes to the listener. -/
def atListener (s : State) : State := { s with ctl := .scan s.listener (listenerOnly s) }

/-- The state in which it calls `accept_connection`. -/
def atAccept (s : State) : State := (atListener s).called s.listener (listenerOnly s)

/-- Before `select`, a connection can come in on any free descriptor. -/
theorem accept_run (hi : Inv s) (hc : s.ctl = .select) {fd : Nat} (hfree : s.table fd = none) :
    ∃ evs, (server AtBoot).Run s evs (accept_connection (atAccept s) (some fd)) ∧
      evs.filterMap Event.installs = [fd] := by
  have hd := hi.descriptors
  have hl : s.listener ∈ s.reactor.fds := (hd.fds _).2 (.inl rfl)
  obtain ⟨hrun, hturn⟩ := turn_run hd hc hl
  have hh : s.reactor.handler s.listener = some .accept_connection := by simpa [handlerOf] using hd.handler _ hl
  have harg : (atListener s).arg s.listener = .ac_st s.ac_st := if_pos rfl
  have hlisten : s.table s.ac_st.listener_fd = some .listening := by rw [hd.ac_st]; exact (hd.listening _).2 rfl
  refine ⟨_, hrun.snoc (.accept hturn hh harg ?_), ?_⟩
  · rintro k ⟨⟩
    exact ⟨hlisten, hfree⟩
  · rw [turnOf, List.filterMap_append, List.filterMap_append, installs_skips]
    rfl

/-- Within the table it is then a client among the others. -/
theorem client_run (hi : Inv s) (hc : s.ctl = .select) {fd : Nat} (hlt : fd < MAX_FDS) (hfree : s.table fd = none) :
    ∃ evs s', (server AtBoot).Run s evs s' ∧ evs.filterMap Event.installs = [fd] ∧
      Inv s' ∧ s'.ctl = .select ∧ ∀ k, s'.table k ≠ none ↔ k = fd ∨ s.table k ≠ none := by
  obtain ⟨evs, hrun, hevs⟩ := accept_run hi hc hfree
  have hin : ∀ e ∈ evs, e.InRange := by
    intro e he k hk
    have : k ∈ evs.filterMap Event.installs := List.mem_filterMap.2 ⟨e, he, hk⟩
    rw [hevs, List.mem_singleton] at this
    rwa [this]
  obtain ⟨reac, hacc, -, hh, -⟩ := accept_connection_spec (atAccept s) hlt
  rw [hacc] at hrun
  have hle : (s.listener : Int) ≤ reac.highest_fd := by
    rw [hh]
    exact (hi.descriptors.bound _ ((hi.descriptors.fds _).2 (.inl rfl))).trans (le_max_left _ _)
  have hskip := hrun.append (scan_run (j := (reac.highest_fd + 1).toNat) rfl (by omega)
    fun k hk hkj => ⟨by simp only; omega, by simp [listenerOnly]; omega⟩)
  have hdone := hskip.snoc (Step.done rfl (by simp only; omega))
  refine ⟨_, _, hdone, by simp [hevs, installs_skips, Event.installs], inv_run hdone hi fun e he => ?_, rfl,
    fun k => ?_⟩
  · simp only [List.mem_append, List.mem_replicate, List.mem_singleton] at he
    rcases he with (he | ⟨-, rfl⟩) | rfl
    · exact hin e he
    · rintro k ⟨⟩
    · rintro k ⟨⟩
  · by_cases hk : k = fd
    · subst hk; simp [State.open_conn]
    · simp [State.open_conn, atAccept, atListener, State.called, hk]

/-- Sixty clients connected at once, each on the lowest free descriptor. -/
theorem clients_run (n : Nat) (hn : n ≤ 60) :
    ∃ evs s, (server AtBoot).Run stdio evs s ∧ evs.filterMap Event.installs = List.range' 3 (n + 1) ∧
      Inv s ∧ s.ctl = .select ∧ ∀ k, s.table k ≠ none ↔ k < 4 + n := by
  induction n with
  | zero =>
    have hrun : (server AtBoot).Run stdio [.boot 3] (boot stdio 3) := .single (.boot rfl rfl)
    obtain ⟨reac, hb, -⟩ := boot_spec stdio (show 3 < MAX_FDS by decide)
    refine ⟨_, _, hrun, rfl, inv_boot stdio_atBoot (by decide), by rw [hb], fun k => ?_⟩
    rw [hb]
    by_cases hk : k = 3
    · subst hk; simp
    · simp only [Function.update_of_ne hk]
      change (if k < 3 then some Desc.file else none) ≠ none ↔ k < 4
      split <;> simp <;> omega
  | succ n ih =>
    obtain ⟨evs, s, hrun, hevs, hi, hc, ht⟩ := ih (by omega)
    have hfree : s.table (4 + n) = none := by
      by_contra h
      exact absurd ((ht _).1 h) (by omega)
    have hlt : 4 + n < MAX_FDS := by simp only [MAX_FDS]; omega
    obtain ⟨evs', s', hrun', hevs', hi', hc', ht'⟩ := client_run hi hc hlt hfree
    refine ⟨_, s', hrun.append hrun', ?_, hi', hc', fun k => ?_⟩
    · rw [List.filterMap_append, hevs, hevs', List.range'_concat (s := 3) (n := n + 1)]
      congr 2
      omega
    · rw [ht', ht]; omega

theorem handlers_in_range_sixty : ∃ evs s, (server AtBoot).Run stdio evs s ∧
    evs.filterMap Event.installs = List.range' 3 61 ∧
    ∀ fd ∈ s.accesses, fd < MAX_FDS ∧ Reactor.slot fd + Reactor.slot_size ≤ Reactor.fds_offset := by
  obtain ⟨evs, s, hrun, hevs, -⟩ := clients_run 60 (Nat.le_refl _)
  refine ⟨evs, s, hrun, hevs, (handlers_in_range stdio_atBoot hrun).2 fun e he fd hfd => ?_⟩
  have hm : fd ∈ evs.filterMap Event.installs := List.mem_filterMap.2 ⟨e, he, hfd⟩
  rw [hevs, List.mem_range'_1] at hm
  simp only [MAX_FDS]
  omega

/-- The listener is on 3 and the clients on 4, 5 and so on: the sixty-first
installs its handler over the bits of `fds`. -/
theorem sixty_first_client :
    ∃ s0 evs s, AtBoot s0 ∧ (server AtBoot).Run s0 evs s ∧
      evs.filterMap Event.installs = List.range' 3 62 ∧
      ∃ fd ∈ s.accesses, ¬ (fd < MAX_FDS ∧ Reactor.slot fd + Reactor.slot_size ≤ Reactor.fds_offset) := by
  obtain ⟨evs, s, hrun, hevs, hi, hc, ht⟩ := clients_run 60 (Nat.le_refl _)
  have hfree : s.table 64 = none := by
    by_contra h
    exact absurd ((ht _).1 h) (by omega)
  obtain ⟨evs', hrun', hevs'⟩ := accept_run hi hc hfree
  refine ⟨stdio, _, _, stdio_atBoot, hrun.append hrun', ?_, 64, ?_, by decide⟩
  · rw [List.filterMap_append, hevs, hevs', List.range'_concat (s := 3) (n := 61)]
  · rw [accept_connection_accesses]; simp

end Ex6.SelectServer
