import Ex6.SelectServer
/-!
# Running the select server

Given the kernel's answers a step of the select server has one outcome. `next`
computes it, so that runs on given answers can be evaluated.
-/
open Lib

namespace Ex6.SelectServer

instance (h : Option Handler) (arg : Arg) : Decidable (Mismatch h arg) := by
  unfold Mismatch
  split <;> infer_instance

/-- `accept` may return `newfd`. -/
def Accepts (s : State) (st : accept_struct) (newfd : Option Nat) : Prop :=
  ∀ fd ∈ newfd, s.table st.listener_fd = some .listening ∧ s.table fd = none

instance (s : State) (st : accept_struct) (newfd : Option Nat) : Decidable (Accepts s st newfd) :=
  inferInstanceAs (Decidable (∀ fd ∈ newfd, _))

/-- `recv` may return `data`. -/
def Receives (st : read_struct) (data : Option (List Byte)) : Prop := ∀ bytes ∈ data, bytes.length ≤ st.buffersize

instance (st : read_struct) (data : Option (List Byte)) : Decidable (Receives st data) :=
  inferInstanceAs (Decidable (∀ bytes ∈ data, _))

/-- A turn of descriptor `i`. -/
def nextTurn (s : State) (i : Nat) (r : Round) : Event → Option State
  | .accept newfd =>
    match s.reactor.handler i, s.arg i with
    | some .accept_connection, .ac_st st =>
      if Accepts s st newfd then some (accept_connection (s.called i r) newfd) else none
    | _, _ => none
  | .recv data sent =>
    match s.reactor.handler i, s.arg i with
    | some .handle_client_data, .rd_st st =>
      if Receives st data then some (handle_client_data (s.called i r) st data sent) else none
    | _, _ => none
  | .mismatch =>
    if Mismatch (s.reactor.handler i) (s.arg i) then some { s.called i r with ctl := .undefined } else none
  | _ => none

/-- The outcome of a step, if there is such a step. -/
def next (s : State) (e : Event) : Option State :=
  match s.ctl with
  | .boot =>
    match e with
    | .boot listener => if s.table listener = none then some (boot s listener) else none
    | _ => none
  | .select =>
    match e with
    | .select ready =>
      if ready ⊆ s.reactor.fds then some { s with ctl := .scan 0 ⟨ready, s.table, []⟩ } else none
    | .select_fails => some { s with ctl := .exited }
    | _ => none
  | .scan i r =>
    if (i : Int) ≤ s.reactor.highest_fd then
      if i ∈ r.read_fds then nextTurn s i r e
      else
        match e with
        | .skip => some { s with ctl := .scan (i + 1) r }
        | _ => none
    else
      match e with
      | .done => some { s with ctl := .select }
      | _ => none
  | _ => none

variable {s t : State} {e : Event} {evs : List Event}

theorem nextTurn_step {i : Nat} {r : Round} (ht : Turn s i r) (h : nextTurn s i r e = some t) : Step s e t := by
  unfold nextTurn at h
  split at h
  · split at h
    · next hh ha =>
      split at h
      · next hacc =>
        cases h
        exact .accept ht hh ha hacc
      · cases h
    · cases h
  · split at h
    · next hh ha =>
      split at h
      · next hrecv =>
        cases h
        exact .recv ht hh ha hrecv
      · cases h
    · cases h
  · split at h
    · next hm =>
      cases h
      exact .mismatch ht hm
    · cases h
  · cases h

theorem next_step (h : next s e = some t) : Step s e t := by
  unfold next at h
  split at h
  · next hc =>
    split at h
    · split at h
      · next hfree => cases h; exact .boot hc hfree
      · cases h
    · cases h
  · next hc =>
    split at h
    · split at h
      · next hready => cases h; exact .select hc hready
      · cases h
    · cases h; exact .select_fails hc
    · cases h
  · next i r hc =>
    split at h
    · next hbound =>
      split at h
      · next hready => exact nextTurn_step ⟨hc, hbound, hready⟩ h
      · next hready =>
        split at h
        · cases h; exact .skip hc hbound hready
        · cases h
    · next hbound =>
      split at h
      · cases h; exact .done hc (by omega)
      · cases h
  · cases h

theorem step_next (h : Step s e t) : next s e = some t := by
  unfold next
  cases h with
  | boot hc hfree => simp only [hc, hfree, if_true]
  | select hc hready => simp only [hc, hready, if_true]
  | select_fails hc => simp only [hc]
  | skip hc hbound hready => simp only [hc, hbound, hready, if_true, if_false]
  | accept ht hh ha hacc =>
    have hacc' : Accepts s _ _ := hacc
    simp only [ht.ctl, ht.bound, ht.ready, if_true, nextTurn, hh, ha, hacc']
  | recv ht hh ha hrecv =>
    have hrecv' : Receives _ _ := hrecv
    simp only [ht.ctl, ht.bound, ht.ready, if_true, nextTurn, hh, ha, hrecv']
  | mismatch ht hm => simp only [ht.ctl, ht.bound, ht.ready, if_true, nextTurn, hm]
  | done hc hbound => simp only [hc, Int.not_le.2 hbound, if_false]

/-- The kernel's answer determines what a step leads to. -/
theorem step_iff : Step s e t ↔ next s e = some t := ⟨step_next, next_step⟩

theorem step_unique {t' : State} (h : Step s e t) (h' : Step s e t') : t = t' :=
  Option.some.inj ((step_next h).symm.trans (step_next h'))

/-- The outcome of a sequence of steps, if there is one. -/
def exec (s : State) : List Event → Option State
  | [] => some s
  | e :: evs => (next s e).bind fun t => exec t evs

theorem exec_run {init : State → Prop} (h : exec s evs = some t) : (server init).Run s evs t := by
  induction evs generalizing s with
  | nil => cases h; exact .nil _
  | cons e evs ih =>
    obtain ⟨u, hu, h⟩ := Option.bind_eq_some_iff.1 h
    exact (Machine.Run.single (M := server init) (next_step hu)).append (ih h)

/-- A run that can be evaluated, and what can be decided of its outcome. -/
theorem run_of_exec {init : State → Prop} {P : State → Prop} [DecidablePred P]
    (h : (exec s evs).any (fun t => decide (P t)) = true) : ∃ t, (server init).Run s evs t ∧ P t := by
  obtain ⟨t, ht, hp⟩ := (Option.any_eq_true _ _).1 h
  exact ⟨t, exec_run ht, of_decide_eq_true hp⟩

theorem step_of_next (h : (next s e).isSome) : ∃ t, Step s e t := by
  obtain ⟨t, ht⟩ := Option.isSome_iff_exists.1 h
  exact ⟨t, next_step ht⟩

/-! ## Two clients -/

/-- Clients connect on descriptors 4 and 5. -/
def arrivals : List Event :=
  [.select {3}, .skip, .skip, .skip, .accept (some 4), .skip, .done,
    .select {3}, .skip, .skip, .skip, .accept (some 5), .skip, .skip, .done]

def sayHi : Event := .recv (some [104#8, 105#8]) fun _ => 2

/-- The client on 4 says "hi" and the one on 5 has hung up. -/
def farewell : List Event :=
  [.select {4, 5}, .skip, .skip, .skip, .skip, sayHi, .recv none fun _ => 0]

theorem farewell_whole : ∀ e ∈ arrivals ++ farewell, e.Whole := by
  simp [arrivals, farewell, sayHi, Event.Whole, Event.InRange, Event.SendsAll, Event.installs, MAX_FDS]

/-- Where the walk over what `select` reported is. -/
def Ctl.walk : Ctl → Option (Nat × Finset Nat)
  | .scan i r => some (i, r.read_fds)
  | _ => none

/-- Both have been served, and the loop is past its last descriptor. -/
theorem farewell_run {promise : Event → Prop} (hp : ∀ e : Event, e.Whole → promise e) :
    ∃ s r, ((server Started).under promise).Reachable s ∧ s.ctl = .scan 6 r ∧ r.read_fds = {4, 5} ∧
      s.listener = 3 ∧ s.reactor.fds = {3, 4} ∧ s.reactor.highest_fd = 5 ∧
      s.log = [.join 0, .join 1, .say [104#8, 105#8], .leave 1] := by
  obtain ⟨s, hrun, hwalk, hfacts⟩ : ∃ s, (server Started).Run (boot stdio 3) (arrivals ++ farewell) s ∧
      s.ctl.walk = some (6, {4, 5}) ∧ s.listener = 3 ∧ s.reactor.fds = {3, 4} ∧ s.reactor.highest_fd = 5 ∧
      s.log = [.join 0, .join 1, .say [104#8, 105#8], .leave 1] := run_of_exec (by decide +kernel)
  have hreach : ((server Started).under promise).Reachable s :=
    (hrun.under fun e he => hp e (farewell_whole e he)).reachable (.init ⟨stdio, 3, stdio_atBoot, rfl, rfl, rfl⟩)
  cases hc : s.ctl with
  | scan i r =>
    rw [hc] at hwalk
    obtain ⟨rfl, hready⟩ := Prod.mk.inj (Option.some.inj hwalk)
    exact ⟨s, r, hreach, hc, hready, hfacts⟩
  | _ =>
    rw [hc] at hwalk
    cases hwalk

end Ex6.SelectServer
