import Ex6.SelectServer
/-!
# Invariants of the select server

`Descriptors` ties the master set, the handler table and `highest_fd` to the
descriptors the process has open; `RoundInv` does the same for a walk that is
under way. A step that brings no descriptor beyond the table to the reactor
keeps both, and then no handler is ever called wrongly.
-/
open Lib Lib.CString

namespace Ex6.SelectServer

/-- The handler that belongs to a descriptor. -/
def handlerOf (listener fd : Nat) : Handler :=
  if fd = listener then .accept_connection else .handle_client_data

structure Descriptors (s : State) : Prop where
  ac_st : s.ac_st.listener_fd = s.listener
  rd_st : s.rd_st.listener_fd = s.listener
  listening : ∀ fd, s.table fd = some .listening ↔ fd = s.listener
  accepted : ∀ fd c, s.table fd = some (.conn c) → c < s.accepted
  distinct : ∀ fd fd' c, s.table fd = some (.conn c) → s.table fd' = some (.conn c) → fd = fd'
  fds : ∀ fd, fd ∈ s.reactor.fds ↔ fd = s.listener ∨ ∃ c, s.table fd = some (.conn c)
  bound : ∀ fd ∈ s.reactor.fds, (fd : Int) ≤ s.reactor.highest_fd
  handler : ∀ fd ∈ s.reactor.fds, s.reactor.handler fd = some (handlerOf s.listener fd)

/-- A call of the right handler, on its own struct, for what `select` reported. -/
structure Served (listener : Nat) (r : Round) (call : Call) : Prop where
  handler : call.handler = some (handlerOf listener call.fd)
  ac_st : call.fd = listener → call.arg = .ac_st ⟨listener⟩
  rd_st : call.fd ≠ listener → ∃ st, call.arg = .rd_st st ∧ st.fd = call.fd
  desc : call.desc ≠ none ∧ call.desc = r.table call.fd

/-- What is left of the round is as `select` reported it, and what is behind has
been served. -/
structure RoundInv (s : State) (i : Nat) (r : Round) : Prop where
  pending : ∀ fd ∈ r.read_fds, i ≤ fd → fd ∈ s.reactor.fds ∧ s.table fd = r.table fd
  served : r.calls.map Call.fd = (List.range i).filter (fun fd => decide (fd ∈ r.read_fds))
  calls : ∀ call ∈ r.calls, Served s.listener r call

structure Inv (s : State) : Prop where
  descriptors : Descriptors s
  started : s.ctl ≠ .boot
  defined : s.ctl ≠ .undefined
  accesses : ∀ fd ∈ s.accesses, fd < MAX_FDS
  round : ∀ i r, s.ctl = .scan i r → RoundInv s i r

variable {s s' : State} {e : Event} {i : Nat} {r : Round}

theorem lt_of_handler {reac : Reactor} {fd : Nat} {f : Handler} (h : reac.handler fd = some f) : fd < MAX_FDS := by
  unfold Reactor.handler at h
  split at h
  · assumption
  · cases h

theorem Descriptors.open_of_mem (h : Descriptors s) {fd : Nat} (hm : fd ∈ s.reactor.fds) : s.table fd ≠ none := by
  rcases (h.fds fd).1 hm with rfl | ⟨c, hc⟩
  · rw [(h.listening _).2 rfl]; simp
  · rw [hc]; simp

theorem Descriptors.lt_of_mem (h : Descriptors s) {fd : Nat} (hm : fd ∈ s.reactor.fds) : fd < MAX_FDS :=
  lt_of_handler (h.handler fd hm)

/-- The struct `handle_client_data` is called with. -/
theorem arg_rd_st {st : read_struct} (h : s.arg i = .rd_st st) : st = { s.rd_st with fd := i } ∧ i ≠ s.listener := by
  unfold State.arg at h
  split at h
  · cases h
  · next hne => exact ⟨(Arg.rd_st.inj h).symm, hne⟩

/-! ## The handlers -/

/-- `accept_connection` on a new descriptor within the table. -/
theorem accept_connection_spec (s : State) {newfd : Nat} (h : newfd < MAX_FDS) :
    ∃ reac, accept_connection s (some newfd) =
        { s.open_conn newfd with reactor := reac, accesses := s.accesses ++ [newfd] } ∧
      reac.fds = insert newfd s.reactor.fds ∧ reac.highest_fd = max s.reactor.highest_fd newfd ∧
      reac.handler = Function.update s.reactor.handler newfd (some .handle_client_data) := by
  obtain ⟨reac, hr, hf, hh, hd⟩ := Reactor.InstallHandler_spec (s.reactor.FD_SET newfd) .handle_client_data h
  refine ⟨{ reac with highest_fd := if (newfd : Int) > reac.highest_fd then newfd else reac.highest_fd },
    ?_, ?_, ?_, ?_⟩
  · simp only [accept_connection, State.open_conn]
    rw [hr]
  · simpa using hf
  · -- the handler repeats what `InstallHandler` has already done
    simp only [Reactor.FD_SET_highest_fd] at hh
    simp only [hh]
    split <;> omega
  · exact hd

theorem accept_connection_overflow (s : State) {newfd : Nat} (h : ¬ newfd < MAX_FDS) :
    accept_connection s (some newfd) =
      { s.open_conn newfd with accesses := s.accesses ++ [newfd], ctl := .undefined } := by
  simp only [accept_connection, State.open_conn]
  rw [Reactor.InstallHandler_eq_none h]

/-- A connection is the new one, or one that was there. -/
theorem table_open_conn {newfd fd c : Nat} : (s.open_conn newfd).table fd = some (.conn c) ↔
    (fd = newfd ∧ c = s.accepted) ∨ (fd ≠ newfd ∧ s.table fd = some (.conn c)) := by
  by_cases hfd : fd = newfd
  · simp [State.open_conn, hfd, eq_comm]
  · simp [State.open_conn, hfd]

theorem Descriptors.accept (h : Descriptors s) {newfd : Nat} (hlt : newfd < MAX_FDS) (hfree : s.table newfd = none) :
    Descriptors (accept_connection s (some newfd)) := by
  obtain ⟨reac, hs, hf, hh, hd⟩ := accept_connection_spec s hlt
  have hl : newfd ≠ s.listener := by
    rintro rfl
    rw [(h.listening _).2 rfl] at hfree; cases hfree
  have hn : newfd ∉ s.reactor.fds := fun hm => h.open_of_mem hm hfree
  rw [hs]
  constructor
  case ac_st => exact h.ac_st
  case rd_st => exact h.rd_st
  case listening =>
    intro fd
    by_cases hfd : fd = newfd
    · subst hfd; simp [State.open_conn, hl]
    · simpa [State.open_conn, Function.update_of_ne hfd] using h.listening fd
  case accepted =>
    intro fd c hc
    have hlater : c ≤ s.accepted := by
      rcases table_open_conn.1 hc with ⟨-, rfl⟩ | ⟨-, hold⟩
      · exact Nat.le_refl _
      · exact (h.accepted fd c hold).le
    exact Nat.lt_succ_of_le hlater
  case distinct =>
    -- the new connection has a number no open descriptor has
    have hnew : ∀ fd c, s.table fd = some (.conn c) → c ≠ s.accepted := fun fd c hc => (h.accepted fd c hc).ne
    intro fd fd' c hc hc'
    rcases table_open_conn.1 hc with ⟨hfd, hn⟩ | ⟨-, ho⟩ <;>
      rcases table_open_conn.1 hc' with ⟨hfd', hn'⟩ | ⟨-, ho'⟩
    · exact hfd.trans hfd'.symm
    · exact absurd hn (hnew fd' c ho')
    · exact absurd hn' (hnew fd c ho)
    · exact h.distinct fd fd' c ho ho'
  case fds =>
    intro fd
    by_cases hfd : fd = newfd
    · subst hfd; simp [hf, State.open_conn]
    · simpa [hf, State.open_conn, hfd] using h.fds fd
  case bound =>
    intro fd hm
    simp only [hf, Finset.mem_insert] at hm
    simp only [hh]
    rcases hm with rfl | hm
    · exact le_max_right _ _
    · exact (h.bound fd hm).trans (le_max_left _ _)
  case handler =>
    intro fd hm
    simp only [hf, Finset.mem_insert] at hm
    rcases hm with rfl | hm
    · simp [hd, handlerOf, State.open_conn, hl]
    · have hfd : fd ≠ newfd := fun he => hn (he ▸ hm)
      simpa [hd, State.open_conn, Function.update_of_ne hfd] using h.handler fd hm

/-- `handle_client_data` either closes its descriptor or sends to everyone. -/
theorem handle_client_data_cases (s : State) (st : read_struct) (data : Option (List Byte)) (sent : Nat → Nat) :
    (data.getD [] = [] ∧ handle_client_data s st data sent =
      { s with
        table := Function.update s.table st.fd none
        log := s.log ++ hang_up (s.table st.fd)
        reactor := s.reactor.FD_CLR st.fd }) ∨
    ∃ bytes, data = some bytes ∧ bytes ≠ [] ∧ handle_client_data s st data sent =
      { s with
        buf := overwrite s.buf bytes
        log := s.log ++ [.say bytes]
        wire := forLoop (send_if_set s st.listener_fd ((overwrite s.buf bytes).take bytes.length) sent) 0
          (s.reactor.highest_fd + 1).toNat s.wire } := by
  match data with
  | none => exact .inl ⟨rfl, rfl⟩
  | some [] => exact .inl ⟨rfl, rfl⟩
  | some (b :: bs) => exact .inr ⟨_, rfl, by simp, rfl⟩

/-- What is open after a `close` was open before, at another number. -/
theorem table_close {table : Nat → Option Desc} {closed fd : Nat} {desc : Desc} :
    Function.update table closed none fd = some desc ↔ fd ≠ closed ∧ table fd = some desc := by
  by_cases hfd : fd = closed
  · simp [hfd]
  · simp [hfd]

theorem Descriptors.client_data (h : Descriptors s) (st : read_struct) (hne : st.fd ≠ s.listener)
    (data : Option (List Byte)) (sent : Nat → Nat) : Descriptors (handle_client_data s st data sent) := by
  rcases handle_client_data_cases s st data sent with ⟨-, hs⟩ | ⟨bytes, -, -, hs⟩ <;> rw [hs]
  · constructor
    case ac_st => exact h.ac_st
    case rd_st => exact h.rd_st
    case listening =>
      intro fd
      rw [table_close, h.listening fd]
      exact and_iff_right_of_imp fun he => he ▸ Ne.symm hne
    case accepted => exact fun fd c hc => h.accepted fd c (table_close.1 hc).2
    case distinct => exact fun fd fd' c hc hc' => h.distinct fd fd' c (table_close.1 hc).2 (table_close.1 hc').2
    case fds =>
      intro fd
      by_cases hfd : fd = st.fd
      · subst hfd; simp [hne]
      · simpa [hfd] using h.fds fd
    case bound => exact fun fd hm => h.bound fd (Finset.mem_of_mem_erase hm)
    case handler => exact fun fd hm => h.handler fd (Finset.mem_of_mem_erase hm)
  · exact ⟨h.ac_st, h.rd_st, h.listening, h.accepted, h.distinct, h.fds, h.bound, h.handler⟩

theorem Descriptors.goto (h : Descriptors s) (ctl : Ctl) : Descriptors { s with ctl } :=
  ⟨h.ac_st, h.rd_st, h.listening, h.accepted, h.distinct, h.fds, h.bound, h.handler⟩

theorem Descriptors.called (h : Descriptors s) (i : Nat) (r : Round) : Descriptors (s.called i r) := by
  refine ⟨h.ac_st, ?_, h.listening, h.accepted, h.distinct, h.fds, h.bound, h.handler⟩
  unfold State.called
  split <;> exact h.rd_st

/-! ## A round -/

theorem RoundInv.begin {ready : Finset Nat} (hr : ready ⊆ s.reactor.fds) :
    RoundInv s 0 ⟨ready, s.table, []⟩ where
  pending fd hm _ := ⟨hr hm, rfl⟩
  served := by simp
  calls := by simp

/-- What is behind, or not reported, may change. -/
theorem RoundInv.keep (h : RoundInv s i r) (hl : s'.listener = s.listener)
    (hs : ∀ fd ∈ r.read_fds, i ≤ fd → fd ∈ s.reactor.fds → fd ∈ s'.reactor.fds ∧ s'.table fd = s.table fd) :
    RoundInv s' i r where
  pending fd hm hi := by
    obtain ⟨hf, ht⟩ := h.pending fd hm hi
    obtain ⟨hf', ht'⟩ := hs fd hm hi hf
    exact ⟨hf', ht'.trans ht⟩
  served := h.served
  calls := hl ▸ h.calls

theorem RoundInv.skip (h : RoundInv s i r) (hi : i ∉ r.read_fds) : RoundInv s (i + 1) r where
  pending fd hm hle := h.pending fd hm (by omega)
  served := by simp [h.served, List.range_succ, List.filter_append, hi]
  calls := h.calls

/-- The handler a turn calls is the right one, and gets its own struct. -/
theorem served_of_turn (hd : Descriptors s) (hr : RoundInv s i r) (ht : Turn s i r) :
    Served s.listener r ⟨i, s.reactor.handler i, s.arg i, s.table i⟩ := by
  obtain ⟨hf, htab⟩ := hr.pending i ht.ready (Nat.le_refl i)
  refine ⟨hd.handler i hf, fun hi => ?_, fun hi => ?_, hd.open_of_mem hf, htab⟩
  · simp only at hi
    rw [State.arg, if_pos hi, ← hd.ac_st]
  · simp only at hi
    exact ⟨_, by rw [State.arg, if_neg hi], rfl⟩

theorem RoundInv.called (hd : Descriptors s) (h : RoundInv s i r) (ht : Turn s i r) :
    RoundInv (s.called i r) (i + 1) { r with calls := r.calls ++ [⟨i, s.reactor.handler i, s.arg i, s.table i⟩] } where
  pending fd hm hle := h.pending fd hm (by omega)
  served := by simp [h.served, List.range_succ, List.filter_append, ht.ready]
  calls call hc := by
    rcases List.mem_append.1 hc with hc | hc
    · have hs := h.calls call hc
      exact ⟨hs.handler, hs.ac_st, hs.rd_st, hs.desc⟩
    · rw [List.mem_singleton] at hc
      subst hc
      have hs := served_of_turn hd h ht
      exact ⟨hs.handler, hs.ac_st, hs.rd_st, hs.desc⟩

theorem ctl_called (s : State) (i : Nat) (r : Round) : (s.called i r).ctl = .scan (i + 1)
    { r with calls := r.calls ++ [⟨i, s.reactor.handler i, s.arg i, s.table i⟩] } := rfl

/-- A turn's call is not a mismatch. -/
theorem not_mismatch (hd : Descriptors s) (hr : RoundInv s i r) (ht : Turn s i r) :
    ¬ Mismatch (s.reactor.handler i) (s.arg i) := by
  have hs := served_of_turn hd hr ht
  have hh : s.reactor.handler i = some (handlerOf s.listener i) := hs.handler
  by_cases hi : i = s.listener
  · have ha : s.arg i = .ac_st ⟨s.listener⟩ := hs.ac_st hi
    rw [hh, ha]
    simp [handlerOf, hi, Mismatch]
  · obtain ⟨st, ha, -⟩ : ∃ st, s.arg i = .rd_st st ∧ st.fd = i := hs.rd_st hi
    rw [hh, ha]
    simp [handlerOf, hi, Mismatch]

/-! ## Every step -/

theorem accesses_called (hi : Inv s) (ht : Turn s i r) : ∀ fd ∈ (s.called i r).accesses, fd < MAX_FDS := by
  intro fd hm
  rcases List.mem_append.1 hm with hm | hm
  · exact hi.accesses fd hm
  · rw [List.mem_singleton.1 hm]
    exact hi.descriptors.lt_of_mem ((hi.round i r ht.ctl).pending i ht.ready (Nat.le_refl i)).1

theorem accept_step (hi : Inv s) (ht : Turn s i r) {newfd : Option Nat}
    (hlt : ∀ fd, newfd = some fd → fd < MAX_FDS) (hfree : ∀ fd, newfd = some fd → s.table fd = none) :
    Inv (accept_connection (s.called i r) newfd) := by
  have hd := hi.descriptors
  have hr := (hi.round i r ht.ctl).called hd ht
  have hacc := accesses_called hi ht
  cases newfd with
  | none =>
    exact ⟨hd.called i r, by simp [accept_connection, ctl_called], by simp [accept_connection, ctl_called], hacc,
      by rintro j r' h; cases h; exact hr⟩
  | some fd =>
    have hfd := hfree fd rfl
    have hd' := (hd.called i r).accept (hlt fd rfl) hfd
    obtain ⟨reac, hs, hf, -, -⟩ := accept_connection_spec (s.called i r) (hlt fd rfl)
    rw [hs] at hd' ⊢
    refine ⟨hd', by simp [State.open_conn, ctl_called], by simp [State.open_conn, ctl_called], ?_, ?_⟩
    · intro k hk
      rcases List.mem_append.1 hk with hk | hk
      · exact hacc k hk
      · rw [List.mem_singleton.1 hk]; exact hlt fd rfl
    · rintro j r' h
      cases h
      refine hr.keep rfl fun k _ _ hk => ⟨by rw [hf]; exact Finset.mem_insert_of_mem hk, ?_⟩
      have hne : k ≠ fd := by rintro rfl; exact hd.open_of_mem hk hfd
      exact Function.update_of_ne hne _ _

theorem recv_step (hi : Inv s) (ht : Turn s i r) {st : read_struct} (hst : s.arg i = .rd_st st)
    (data : Option (List Byte)) (sent : Nat → Nat) : Inv (handle_client_data (s.called i r) st data sent) := by
  have hd := hi.descriptors
  have hr := (hi.round i r ht.ctl).called hd ht
  have hacc := accesses_called hi ht
  obtain ⟨rfl, hne⟩ := arg_rd_st hst
  have hd' := (hd.called i r).client_data { s.rd_st with fd := i } hne data sent
  rcases handle_client_data_cases (s.called i r) { s.rd_st with fd := i } data sent with
    ⟨-, hs⟩ | ⟨bytes, -, -, hs⟩ <;> rw [hs] at hd' ⊢
  · refine ⟨hd', by simp [ctl_called], by simp [ctl_called], hacc, ?_⟩
    rintro j r' h
    cases h
    -- the descriptor that is closed is behind
    refine hr.keep rfl fun k _ hle hk => ?_
    have hk' : k ≠ i := by omega
    exact ⟨Finset.mem_erase.2 ⟨hk', hk⟩, Function.update_of_ne hk' _ _⟩
  · refine ⟨hd', by simp [ctl_called], by simp [ctl_called], hacc, ?_⟩
    rintro j r' h
    cases h
    exact hr.keep rfl fun k _ _ hk => ⟨hk, rfl⟩

theorem inv_step (hi : Inv s) (h : Step s e s') (he : e.InRange) : Inv s' := by
  have hd := hi.descriptors
  cases h with
  | boot hc => exact absurd hc hi.started
  | select hc hr =>
    refine ⟨hd.goto _, by simp, by simp, hi.accesses, ?_⟩
    rintro i r h
    cases h
    exact (RoundInv.begin hr).keep rfl fun _ _ _ hf => ⟨hf, rfl⟩
  | select_fails =>
    exact ⟨hd.goto _, by simp, by simp, hi.accesses, by rintro i r ⟨⟩⟩
  | skip hc _ hn =>
    refine ⟨hd.goto _, by simp, by simp, hi.accesses, ?_⟩
    rintro i r h
    cases h
    exact ((hi.round _ _ hc).skip hn).keep rfl fun _ _ _ hf => ⟨hf, rfl⟩
  | accept ht _ _ hk => exact accept_step hi ht he fun fd hfd => (hk fd hfd).2
  | recv ht _ ha _ => exact recv_step hi ht ha _ _
  | mismatch ht hm => exact absurd hm (not_mismatch hd (hi.round _ _ ht.ctl) ht)
  | done =>
    exact ⟨hd.goto _, by simp, by simp, hi.accesses, by rintro i r ⟨⟩⟩

theorem inv_run {init : State → Prop} {evs : List Event} (h : (server init).Run s evs s') (hi : Inv s)
    (he : ∀ e ∈ evs, e.InRange) : Inv s' :=
  (h.under he).keeps (fun _ _ _ hi ⟨ht, hr⟩ => inv_step hi ht hr) hi

/-! ## Start-up -/

theorem boot_spec (s : State) {listener : Nat} (h : listener < MAX_FDS) :
    ∃ reac, boot s listener =
        { s with
          listener
          ac_st := ⟨listener⟩
          rd_st := { s.rd_st with listener_fd := listener }
          table := Function.update s.table listener (some .listening)
          accesses := s.accesses ++ [listener]
          reactor := reac
          ctl := .select } ∧
      reac.fds = insert listener s.reactor.fds ∧ reac.highest_fd = listener ∧
      reac.handler = Function.update s.reactor.handler listener (some .accept_connection) := by
  obtain ⟨reac, hr, hf, -, hd⟩ := Reactor.InstallHandler_spec (s.reactor.FD_SET listener) .accept_connection h
  refine ⟨{ reac with highest_fd := listener }, ?_, by simpa using hf, rfl, hd⟩
  simp only [boot]
  rw [hr]

theorem boot_overflow (s : State) {listener : Nat} (h : ¬ listener < MAX_FDS) : (boot s listener).ctl = .undefined := by
  simp only [boot]
  rw [Reactor.InstallHandler_eq_none h]

theorem inv_boot (hs : AtBoot s) {listener : Nat} (h : listener < MAX_FDS) : Inv (boot s listener) := by
  obtain ⟨reac, hb, hf, hh, hd⟩ := boot_spec s h
  obtain ⟨junk, hj⟩ := hs.reactor
  have hfile : ∀ fd, fd ≠ listener → Function.update s.table listener (some .listening) fd = s.table fd :=
    fun fd hfd => Function.update_of_ne hfd _ _
  have hconn : ∀ fd c, Function.update s.table listener (some .listening) fd ≠ some (.conn c) := by
    intro fd c hc
    by_cases hfd : fd = listener
    · subst hfd; simp at hc
    · rw [hfile fd hfd] at hc
      cases hs.table fd _ hc
  have hmem : ∀ fd, fd ∈ reac.fds ↔ fd = listener := by simp [hf, hj, Reactor.newReactor]
  rw [hb]
  refine ⟨⟨rfl, rfl, fun fd => ?_, fun fd c hc => absurd hc (hconn fd c), fun fd _ c hc => absurd hc (hconn fd c), ?_,
    ?_, ?_⟩, by simp, by simp, ?_, by rintro i r ⟨⟩⟩
  · by_cases hfd : fd = listener
    · subst hfd; simp
    · refine ⟨fun hl => ?_, fun hl => absurd hl hfd⟩
      simp only [hfile fd hfd] at hl
      cases hs.table fd _ hl
  · simp [hmem, hconn]
  · intro fd hm
    rw [(hmem fd).1 hm]
    simp [hh]
  · intro fd hm
    rw [(hmem fd).1 hm]
    simp [hd, handlerOf]
  · simpa [hs.accesses] using h

theorem inv_started (h : Started s) : Inv s := by
  obtain ⟨s0, listener, h0, -, rfl, hc⟩ := h
  refine inv_boot h0 ?_
  by_contra hn
  rw [boot_overflow s0 hn] at hc
  cases hc

theorem reachable_inv {promise : Event → Prop} (hp : ∀ e, promise e → e.InRange)
    (h : ((server Started).under promise).Reachable s) : Inv s :=
  h.under_inv (P := Inv) (fun _ h0 => inv_started h0) (fun _ e _ hi ht he => inv_step hi ht (hp e he))

end Ex6.SelectServer
