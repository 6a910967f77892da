import Ex6.PipelineOrder
import Ex6.QueueCalls
/-!
# The active-object server, statement by statement

In `Pipeline` the calls of `enQ` and `deQ` are one step each. Here they are what
`Monitor` has for them: the thread takes the mutex of the queue, sleeps if it has
to, changes the list, and comes back to its loop when it has unlocked. The rest
of the server is as it is there.

The server so made does what the one of `Pipeline` does (`simulation`): a call
counts as made when the list changes, and from then on the thread as back.
-/
open Lib Ex6.Queue Ex6.Text Ex6.Pipeline Ex6.QueueCalls

namespace Ex6.PipelineThreads

structure State (w : Nat) where
  /-- All but the queues, where the threads are between their calls. -/
  base : Pipeline.State w
  queues : Nat → Monitor.State w capsula Nat

inductive Event
  /-- A step outside the queues. -/
  | own (e : Pipeline.Event)
  /-- A statement of thread `t` in `enQ` or `deQ` of queue `k`. -/
  | queue (k t : Nat) (a : Monitor.Act capsula)

variable {w : Nat}

/-- The server with its lists as they are. -/
def State.view (s : State w) : Pipeline.State w := { s.base with queues := fun k => (s.queues k).q }

/-- The queue a thread is about to call, and the call. -/
def call : Option Thread → Option (Nat × Op capsula)
  | some (.listenAO caps (.enQ capsul)) => caps.q_send.map fun q => (q, .enQ capsul)
  | some (.ao_func funq .deQ) => some (funq.q, .deQ)
  | some (.ao_func funq (.after capsul)) =>
    match funq.after_func with
    | .insert_to_queue => some (capsul.q, .enQ capsul)
    | .send_message => none
  | _ => none

/-- Where a thread goes on when its call has returned. -/
def after (res : Option capsula) : Thread → Thread
  | .listenAO caps _ => .listenAO caps .recv
  | .ao_func funq _ =>
    match res with
    | some capsul => .ao_func funq (.before capsul)
    | none => .ao_func funq .deQ

def entry : Op capsula → Monitor.Act capsula
  | .enQ member => .enQ member
  | .deQ => .deQ

/-- What a thread does between the call and the return. -/
def inside : Monitor.Act capsula → Bool
  | .enQ _ | .deQ | .unlock => false
  | _ => true

/-- `enQ` and `deQ` are no steps of the server's own. -/
def outside : Pipeline.Event → Bool
  | .enQ _ _ | .deQ _ => false
  | _ => true

/-- The queues from the `n`th to the `n'`th are new. -/
def renew (n n' : Nat) (queues : Nat → Monitor.State w capsula Nat) : Nat → Monitor.State w capsula Nat :=
  fun k => if n ≤ k ∧ k < n' then Monitor.start else queues k

def State.setQ (s : State w) (k : Nat) (q : Monitor.State w capsula Nat) : State w :=
  { s with queues := Function.update s.queues k q }

inductive Step (s : State w) : Event → State w → Prop
  | own {e v} : outside e = true → Pipeline.Step s.view e v →
      Step s (.own e) ⟨v, renew s.base.nqueues v.nqueues s.queues⟩
  | call {k t op q} : call (s.base.threads t) = some (k, op) → Monitor.Step (s.queues k) (t, entry op) q →
      Step s (.queue k t (entry op)) (s.setQ k q)
  | inside {k t a q} : inside a = true → Monitor.Step (s.queues k) (t, a) q → Step s (.queue k t a) (s.setQ k q)
  | ret {k t th q} : s.base.threads t = some th → Monitor.Step (s.queues k) (t, .unlock) q →
      Step s (.queue k t .unlock)
        { s.setQ k q with base := s.base.goto t (after (result ((s.queues k).pc t)) th) }

/-- The server, from any content of the memory its buffers come from. -/
def machine (w : Nat) : Machine (State w) Event where
  init s := ∃ buffers, s = ⟨Pipeline.start buffers, fun _ => Monitor.start⟩
  step := Step

/-! ## As the server whose calls are one step -/

/-- Where thread `t` is if its call, once it has changed the list, counts as returned. -/
def ahead (queues : Nat → Monitor.State w capsula Nat) (t : Nat) (th : Option Thread) : Option Thread :=
  match call th with
  | some (k, _) =>
    match status ((queues k).pc t) with
    | .done res => th.map (after res)
    | _ => th
  | none => th

def State.abs (s : State w) : Pipeline.State w :=
  { s.view with threads := fun t => ahead s.queues t (s.base.threads t) }

/-- The calls where they change the list, and what is not a call. -/
def effect : Event → Option Pipeline.Event
  | .own e => some e
  | .queue _ t (.insert a) => some (.enQ t a)
  | .queue _ t .remove => some (.deQ t)
  | _ => none

/-- A status in the course of a call. -/
inductive Fits : Op capsula → Status (Op capsula) (Option capsula) → Prop
  | called (op : Op capsula) : Fits op (.called op)
  | enQ (member : capsula) : Fits (.enQ member) (.done none)
  | deQ (ret : capsula) : Fits .deQ (.done (some ret))

/-- Thread `t` is in a queue of its connection for the call it is at, and has come to `st`. -/
def In (s : State w) (k t : Nat) (st : Status (Op capsula) (Option capsula)) : Prop :=
  k < s.base.nqueues ∧ k / 2 = t / 3 ∧ ∃ op, call (s.base.threads t) = some (k, op) ∧ Fits op st

structure Inv (s : State w) : Prop where
  queues : ∀ k, Monitor.Inv (s.queues k)
  calls : ∀ k t, status ((s.queues k).pc t) ≠ .idle → In s k t (status ((s.queues k).pc t))
  abs : Pipeline.Inv s.abs

variable {s s' : State w}

theorem Inv.idle (h : Inv s) {t : Nat} (ht : call (s.base.threads t) = none) (k : Nat) :
    status ((s.queues k).pc t) = .idle := by
  by_contra hne
  obtain ⟨-, -, op, hop, -⟩ := h.calls k t hne
  rw [ht] at hop
  cases hop

/-- A thread is in one queue at a time. -/
theorem Inv.idle_other (h : Inv s) {t k j : Nat} {op : Op capsula} (ht : call (s.base.threads t) = some (k, op))
    (hj : j ≠ k) : status ((s.queues j).pc t) = .idle := by
  by_contra hne
  obtain ⟨-, -, op', hop, -⟩ := h.calls j t hne
  rw [ht] at hop
  cases hop
  exact hj rfl

theorem ahead_idle {queues : Nat → Monitor.State w capsula Nat} {t : Nat}
    (h : ∀ k, status ((queues k).pc t) = .idle) (th : Option Thread) : ahead queues t th = th := by
  unfold ahead
  split
  · rw [h]
  · rfl

/-- Where the thread is depends on its status alone. -/
theorem ahead_congr {queues queues' : Nat → Monitor.State w capsula Nat} {t : Nat}
    (h : ∀ k, status ((queues' k).pc t) = status ((queues k).pc t)) (th : Option Thread) :
    ahead queues' t th = ahead queues t th := by
  unfold ahead
  simp only [h]

theorem ahead_done {queues : Nat → Monitor.State w capsula Nat} {t k : Nat} {th : Thread} {op : Op capsula}
    {res : Option capsula} (ht : call (some th) = some (k, op)) (hd : status ((queues k).pc t) = .done res) :
    ahead queues t (some th) = some (after res th) := by
  unfold ahead
  simp only [ht, hd, Option.map_some]

theorem ahead_called {queues : Nat → Monitor.State w capsula Nat} {t k : Nat} {th : Option Thread}
    {op op' : Op capsula} (ht : call th = some (k, op)) (hd : status ((queues k).pc t) = .called op') :
    ahead queues t th = th := by
  unfold ahead
  simp only [ht, hd]

/-! ## The server's own steps -/

/-- The thread a step is of. `create` is where a new thread begins. -/
def actor (p : Pipeline.State w) : Pipeline.Event → Option Nat
  | .accept _ => none
  | .create => some p.nthreads
  | .recv t _ _ | .enQ t _ | .deQ t | .stage t | .send t => some t

variable {p p' : Pipeline.State w} {e : Pipeline.Event}

/-- A step of one thread does not depend on where the others are, and leaves them
there; outside the queues it leaves these alone. -/
theorem step_local (hs : Pipeline.Step p e p') {t : Nat} (ha : actor p e = some t) (ho : outside e = true) :
    p'.queues = p.queues ∧ p'.nqueues = p.nqueues ∧ (∃ th, p'.threads = Function.update p.threads t (some th)) ∧
    ∀ threads, threads t = p.threads t →
      Pipeline.Step { p with threads } e { p' with threads := Function.update threads t (p'.threads t) } := by
  cases hs with
  | accept_fails | accept => cases ha
  | listen_enQ | deQ | insert_to_queue => cases ho
  | new_listenAO hm =>
    cases ha
    refine ⟨rfl, rfl, ⟨_, rfl⟩, fun threads _ => ?_⟩
    simp only [State.create, Function.update_self]
    exact .new_listenAO hm
  | new_AO_convert hm =>
    cases ha
    refine ⟨rfl, rfl, ⟨_, rfl⟩, fun threads _ => ?_⟩
    simp only [State.create, Function.update_self]
    exact .new_AO_convert hm
  | new_AO_caesar hm =>
    cases ha
    refine ⟨rfl, rfl, ⟨_, rfl⟩, fun threads _ => ?_⟩
    simp only [State.create, Function.update_self]
    exact .new_AO_caesar hm
  | recv ht hj hd =>
    cases ha
    refine ⟨rfl, rfl, ⟨_, rfl⟩, fun threads he => ?_⟩
    simp only [State.goto, Function.update_self]
    exact Pipeline.Step.recv (s := { p with threads }) (he.trans ht) hj hd
  | recv_fails ht =>
    cases ha
    refine ⟨rfl, rfl, ⟨_, rfl⟩, fun threads he => ?_⟩
    simp only [State.goto, Function.update_self]
    exact Pipeline.Step.recv_fails (s := { p with threads }) (he.trans ht)
  | before ht hb hn =>
    cases ha
    refine ⟨rfl, rfl, ⟨_, rfl⟩, fun threads he => ?_⟩
    simp only [State.goto, Function.update_self]
    exact Pipeline.Step.before (s := { p with threads }) (he.trans ht) hb hn
  | before_undefined ht hb hn =>
    cases ha
    refine ⟨rfl, rfl, ⟨_, rfl⟩, fun threads he => ?_⟩
    simp only [State.goto, Function.update_self]
    exact Pipeline.Step.before_undefined (s := { p with threads }) (he.trans ht) hb hn
  | loop ht hi hb =>
    cases ha
    refine ⟨rfl, rfl, ⟨_, rfl⟩, fun threads he => ?_⟩
    simp only [State.goto, Function.update_self]
    exact Pipeline.Step.loop (s := { p with threads }) (he.trans ht) hi hb
  | leave ht hi =>
    cases ha
    refine ⟨rfl, rfl, ⟨_, rfl⟩, fun threads he => ?_⟩
    simp only [State.goto, Function.update_self]
    exact Pipeline.Step.leave (s := { p with threads }) (he.trans ht) hi
  | send_message ht hf hb hm =>
    cases ha
    refine ⟨rfl, rfl, ⟨_, rfl⟩, fun threads he => ?_⟩
    simp only [State.goto, Function.update_self]
    exact Pipeline.Step.send_message (s := { p with threads }) (he.trans ht) hf hb hm
  | send_undefined ht hf hb hm =>
    cases ha
    refine ⟨rfl, rfl, ⟨_, rfl⟩, fun threads he => ?_⟩
    simp only [State.goto, Function.update_self]
    exact Pipeline.Step.send_undefined (s := { p with threads }) (he.trans ht) hf hb hm

/-- And the thread is at no call. -/
theorem call_actor (hunborn : p.threads p.nthreads = none) (hs : Pipeline.Step p e p') {t : Nat}
    (ha : actor p e = some t) (ho : outside e = true) : call (p.threads t) = none := by
  cases hs with
  | accept_fails | accept => cases ha
  | listen_enQ | deQ | insert_to_queue => cases ho
  | new_listenAO | new_AO_convert | new_AO_caesar =>
    cases ha
    rw [hunborn]
    rfl
  | recv ht | recv_fails ht | before ht | before_undefined ht | loop ht | leave ht =>
    cases ha
    rw [ht]
    rfl
  | send_message ht hf | send_undefined ht hf =>
    cases ha
    rw [ht]
    simp only [call, hf]

theorem call_lt (h : Pipeline.Inv p) {t k : Nat} {op : Op capsula} (ht : call (p.threads t) = some (k, op)) :
    k < p.nqueues ∧ k / 2 = t / 3 := by
  have hlen : ∀ {c fd : Nat}, p.conns[c]? = some fd → 2 * c + 1 < p.nqueues := fun {c fd} hc => by
    have hlt := (List.getElem?_eq_some_iff.1 hc).1
    have hq := h.main.1
    omega
  cases hth : p.threads t with
  | none =>
    rw [hth] at ht
    cases ht
  | some th =>
    rw [hth] at ht
    cases h.wired t th hth with
    | @listenAO c fd pc hc =>
      have := hlen hc
      cases pc with
      | enQ capsul =>
        cases ht
        omega
      | _ => cases ht
    | @convert c fd pc hc =>
      have := hlen hc
      cases pc with
      | deQ =>
        cases ht
        simp only
        omega
      | after capsul =>
        have hq : capsul.q = 2 * c + 1 := (h.belongs c (capsul, fromCaesar) (by
          simp [contents, hth, load, AfterFunc.rest])).1
        cases ht
        omega
      | _ => cases ht
    | @caesar c fd pc hc =>
      have := hlen hc
      cases pc with
      | deQ =>
        cases ht
        simp only
        omega
      | _ => cases ht

/-! ## The statements of a call -/

variable {q q' : Monitor.State w capsula Nat} {pc : Monitor.Pc capsula} {t k : Nat} {op : Op capsula}
  {a : Monitor.Act capsula}

/-- Thread `t` comes to `st` and the others stay. -/
def Turns (q q' : Monitor.State w capsula Nat) (t : Nat) (st : Status (Op capsula) (Option capsula)) : Prop :=
  ∀ u, status (q'.pc u) = Function.update (fun u => status (q.pc u)) t st u

theorem turns {st : Status (Op capsula) (Option capsula)} (h : q'.pc = Function.update q.pc t pc)
    (hst : status pc = st) : Turns q q' t st := by
  intro u
  rw [h, ← hst]
  exact congrFun (apply_update status q.pc t pc) u

theorem step_entry (h : Monitor.Step q (t, entry op) q') :
    status (q.pc t) = .idle ∧ q'.q = q.q ∧ Turns q q' t (.called op) := by
  cases op with
  | enQ member =>
    cases h with
    | enQ ht => exact ⟨congrArg status ht, rfl, turns rfl rfl⟩
  | deQ =>
    cases h with
    | deQ ht => exact ⟨congrArg status ht, rfl, turns rfl rfl⟩

theorem step_insert {a : Addr} (h : Monitor.Step q (t, .insert a) q') : ∃ member,
    status (q.pc t) = .called (.enQ member) ∧ a ∉ q.q.heap ∧ enQ q.q a member = some q'.q ∧
    Turns q q' t (.done none) := by
  cases h with
  | insert ht ha hq => exact ⟨_, congrArg status ht, ha, hq, turns rfl rfl⟩

theorem step_remove (hi : Monitor.Inv q) (h : Monitor.Step q (t, .remove) q') : ∃ ret,
    status (q.pc t) = .called .deQ ∧ blocked q.q = false ∧ private_deQ q.q = some (ret, q'.q) ∧
    Turns q q' t (.done (some ret)) := by
  cases h with
  | remove ht hq => exact ⟨_, congrArg status ht, hi.remove _ ht, hq, turns rfl rfl⟩

theorem step_unlock (h : Monitor.Step q (t, .unlock) q') :
    status (q.pc t) = .done (result (q.pc t)) ∧ q'.q = q.q ∧ Turns q q' t .idle := by
  cases h with
  | unlockEnQ ht | unlockDeQ ht =>
    rw [ht]
    exact ⟨rfl, rfl, turns rfl rfl⟩

/-- The others in queue `k` and all in the other queues. -/
theorem Turns.others {st : Status (Op capsula) (Option capsula)} (h : Turns (s.queues k) q t st) {j u : Nat}
    (hu : j = k → u ≠ t) : status (((s.setQ k q).queues j).pc u) = status ((s.queues j).pc u) := by
  by_cases hj : j = k
  · subst hj
    simp only [State.setQ, Function.update_self]
    rw [h u, Function.update_of_ne (hu rfl)]
  · simp only [State.setQ, Function.update_of_ne hj]

theorem Turns.self {st : Status (Op capsula) (Option capsula)} (h : Turns (s.queues k) q t st) :
    status (((s.setQ k q).queues k).pc t) = st := by
  simp only [State.setQ, Function.update_self]
  rw [h t, Function.update_self]

/-! ## The simulation -/

theorem state_congr (p : Pipeline.State w) {queues queues' : Nat → queue w capsula}
    {threads threads' : Nat → Option Thread} (hq : queues' = queues) (ht : threads' = threads) :
    ({ p with queues := queues', threads := threads' } : Pipeline.State w) = { p with queues, threads } := by
  rw [hq, ht]

theorem lists_setQ (s : State w) (k : Nat) (q : Monitor.State w capsula Nat) :
    (fun j => ((s.setQ k q).queues j).q) = Function.update (fun j => (s.queues j).q) k q.q :=
  apply_update (fun m : Monitor.State w capsula Nat => m.q) s.queues k q

/-- A statement that leaves the list alone. -/
theorem lists_same (hq : q.q = (s.queues k).q) : (fun j => ((s.setQ k q).queues j).q) = fun j => (s.queues j).q := by
  rw [lists_setQ, hq]
  exact Function.update_eq_self k fun j => (s.queues j).q

theorem abs_silent (hs : Monitor.Step (s.queues k) (t, a) q) (he : QueueCalls.effect (s.queues k) (t, a) = none) :
    (s.setQ k q).abs = s.abs := by
  obtain ⟨hstatus, hq, -⟩ := QueueCalls.step_silent hs he
  refine state_congr s.base (lists_same hq) (funext fun u => ahead_congr (fun j => ?_) _)
  by_cases hj : j = k
  · subst hj
    simp only [State.setQ, Function.update_self, hstatus]
  · simp only [State.setQ, Function.update_of_ne hj]

theorem abs_call (h : Inv s) (ht : call (s.base.threads t) = some (k, op))
    (hs : Monitor.Step (s.queues k) (t, entry op) q) : (s.setQ k q).abs = s.abs := by
  obtain ⟨hidle, hq, hturns⟩ := step_entry hs
  refine state_congr s.base (lists_same hq) (funext fun u => ?_)
  by_cases hu : u = t
  · subst hu
    have hbase : (s.setQ k q).base.threads u = s.base.threads u := rfl
    rw [hbase, ahead_called ht hturns.self, ahead_idle]
    intro j
    by_cases hj : j = k
    · exact hj ▸ hidle
    · exact h.idle_other ht hj
  · exact ahead_congr (fun j => hturns.others fun _ => hu) _

/-- The thread comes back to where it counts as being. -/
theorem abs_ret (h : Inv s) {th : Thread} (hth : s.base.threads t = some th)
    (hs : Monitor.Step (s.queues k) (t, .unlock) q) :
    ({ s.setQ k q with base := s.base.goto t (after (result ((s.queues k).pc t)) th) } : State w).abs = s.abs := by
  obtain ⟨hdone, hq, hturns⟩ := step_unlock hs
  obtain ⟨-, -, op, hop, -⟩ := h.calls k t (by rw [hdone]; simp)
  refine state_congr s.base (lists_same hq) (funext fun u => ?_)
  show ahead (s.setQ k q).queues u (Function.update s.base.threads t _ u) = ahead s.queues u (s.base.threads u)
  by_cases hu : u = t
  · subst hu
    rw [Function.update_self, hth]
    rw [hth] at hop
    rw [ahead_done hop hdone, ahead_idle]
    intro j
    by_cases hj : j = k
    · rw [hj]
      exact hturns.self
    · rw [hturns.others fun he => absurd he hj]
      exact h.idle_other (hth ▸ hop) hj
  · rw [Function.update_of_ne hu]
    exact ahead_congr (fun j => hturns.others fun _ => hu) _

/-- A call that takes effect counts as returned. -/
theorem abs_commit {th : Thread} {res : Option capsula} (hth : s.base.threads t = some th)
    (hop : call (some th) = some (k, op)) (hturns : Turns (s.queues k) q t (.done res)) :
    (s.setQ k q).abs = (s.abs.goto t (after res th)).setQ k q.q := by
  refine state_congr s.base (lists_setQ s k q) (funext fun u => ?_)
  show ahead (s.setQ k q).queues u (s.base.threads u) =
    Function.update (fun v => ahead s.queues v (s.base.threads v)) t (some (after res th)) u
  by_cases hu : u = t
  · subst hu
    rw [Function.update_self, hth, ahead_done hop hturns.self]
  · rw [Function.update_of_ne hu]
    exact ahead_congr (fun j => hturns.others fun _ => hu) _

theorem enQ_step {th : Thread} {member : capsula} {a : Addr} {q' : queue w capsula} (hth : p.threads t = some th)
    (hop : call (some th) = some (k, .enQ member)) (ha : a ∉ (p.queues k).heap)
    (he : enQ (p.queues k) a member = some q') :
    Pipeline.Step p (.enQ t a) ((p.goto t (after none th)).setQ k q') := by
  cases th with
  | listenAO caps pc =>
    cases pc with
    | enQ capsul =>
      obtain ⟨r, hr, hrk⟩ := Option.map_eq_some_iff.1 hop
      cases hrk
      exact .listen_enQ hth hr ha he
    | _ => cases hop
  | ao_func funq pc =>
    cases pc with
    | after capsul =>
      cases hf : funq.after_func with
      | insert_to_queue =>
        simp only [call, hf] at hop
        cases hop
        exact .insert_to_queue hth hf ha he
      | send_message =>
        simp only [call, hf] at hop
        cases hop
    | _ => cases hop

theorem deQ_step {th : Thread} {ret : capsula} {q' : queue w capsula} (hth : p.threads t = some th)
    (hop : call (some th) = some (k, .deQ)) (hb : blocked (p.queues k) = false)
    (hd : private_deQ (p.queues k) = some (ret, q')) :
    Pipeline.Step p (.deQ t) ((p.goto t (after (some ret) th)).setQ k q') := by
  cases th with
  | listenAO caps pc =>
    cases pc with
    | enQ capsul =>
      obtain ⟨r, hr, hrk⟩ := Option.map_eq_some_iff.1 hop
      cases hrk
    | _ => cases hop
  | ao_func funq pc =>
    cases pc with
    | deQ =>
      cases hop
      exact .deQ hth hb hd
    | after capsul =>
      cases hf : funq.after_func <;> simp only [call, hf] at hop <;> cases hop
    | _ => cases hop

theorem base_unborn (h : Inv s) : s.base.threads s.base.nthreads = none := by
  have hn : ahead s.queues s.base.nthreads (s.base.threads s.base.nthreads) = none := h.abs.unborn _ (Nat.le_refl _)
  cases hth : s.base.threads s.base.nthreads with
  | none => rfl
  | some th =>
    rw [hth] at hn
    unfold ahead at hn
    split at hn
    · split at hn <;> cases hn
    · cases hn

theorem renew_self (n : Nat) (queues : Nat → Monitor.State w capsula Nat) : renew n n queues = queues := by
  funext k
  exact if_neg fun h => Nat.lt_irrefl n (Nat.lt_of_le_of_lt h.1 h.2)

theorem status_eq_idle {pc : Monitor.Pc capsula} (h : status pc = .idle) : pc = .idle := by
  cases pc <;> first | rfl | cases h

/-- Nobody is in a queue that is not there yet. -/
theorem pc_renew (h : Inv s) (n k t : Nat) : (renew s.base.nqueues n s.queues k).pc t = (s.queues k).pc t := by
  unfold renew
  split
  case isTrue hk =>
    by_contra hne
    have hlt := (h.calls k t fun hidle => hne (status_eq_idle hidle).symm).1
    omega
  case isFalse => rfl

theorem status_renew (h : Inv s) (n k t : Nat) :
    status ((renew s.base.nqueues n s.queues k).pc t) = status ((s.queues k).pc t) :=
  congrArg status (pc_renew h n k t)

/-- Two new queues are two that `createQ` has made. -/
theorem lists_renew (n : Nat) (queues : Nat → Monitor.State w capsula Nat) :
    (fun k => (renew n (n + 2) queues k).q) =
      Function.update (Function.update (fun k => (queues k).q) n (createQ w capsula)) (n + 1) (createQ w capsula) := by
  funext k
  by_cases hk : k = n + 1
  · subst hk
    rw [Function.update_self]
    exact congrArg Monitor.State.q (if_pos ⟨by omega, by omega⟩)
  · rw [Function.update_of_ne hk]
    by_cases hk' : k = n
    · subst hk'
      rw [Function.update_self]
      exact congrArg Monitor.State.q (if_pos ⟨by omega, by omega⟩)
    · rw [Function.update_of_ne hk']
      exact congrArg Monitor.State.q (if_neg (by omega))

theorem abs_own (h : Inv s) (ho : outside e = true) (hs : Pipeline.Step s.view e p) :
    Pipeline.Step s.abs e (⟨p, renew s.base.nqueues p.nqueues s.queues⟩ : State w).abs := by
  cases ha : actor s.view e with
  | some t =>
    have hcall : call (s.base.threads t) = none := call_actor (p := s.view) (base_unborn h) hs ha ho
    obtain ⟨hq, hn, ⟨th, hth⟩, hlocal⟩ := step_local hs ha ho
    have hstep := hlocal s.abs.threads (ahead_idle (h.idle hcall) _)
    have hsame : (⟨p, renew s.base.nqueues p.nqueues s.queues⟩ : State w).abs =
        { p with threads := Function.update s.abs.threads t (p.threads t) } := by
      have hrenew : renew s.base.nqueues p.nqueues s.queues = s.queues := by
        rw [hn]
        exact renew_self s.base.nqueues s.queues
      rw [hrenew]
      refine state_congr p hq.symm (funext fun u => ?_)
      show ahead s.queues u (p.threads u) = _
      rw [hth]
      by_cases hu : u = t
      · subst hu
        rw [Function.update_self, Function.update_self]
        exact ahead_idle (h.idle hcall) _
      · rw [Function.update_of_ne hu, Function.update_of_ne hu]
        rfl
    rw [hsame]
    exact hstep
  | none =>
    have hthreads : (fun t => ahead (renew s.base.nqueues p.nqueues s.queues) t (s.base.threads t)) = s.abs.threads :=
      funext fun t => ahead_congr (status_renew h _ · t) _
    cases hs with
    | accept_fails hm =>
      have hsame : (⟨s.view, renew s.base.nqueues s.view.nqueues s.queues⟩ : State w).abs = s.abs := by
        refine state_congr s.base ?_ hthreads
        exact congrArg (fun queues k => (queues k).q) (renew_self s.base.nqueues s.queues)
      rw [hsame]
      exact Pipeline.Step.accept_fails (s := s.abs) hm
    | @accept new_fd hm hfd =>
      have hsame := state_congr { s.base with
        main := .new_listenAO new_fd s.base.nqueues (s.base.nqueues + 1)
        conns := s.base.conns ++ [new_fd]
        nqueues := s.base.nqueues + 2 } (lists_renew s.base.nqueues s.queues) hthreads
      exact Eq.mpr (congrArg (Pipeline.Step s.abs _) hsame) (Pipeline.Step.accept (s := s.abs) hm hfd)
    | _ => cases ha

/-! ## What every step keeps -/

theorem queues_setQ (h : Inv s) (hs : Monitor.Step (s.queues k) (t, a) q) : ∀ j, Monitor.Inv ((s.setQ k q).queues j) :=
  (Function.forall_update_iff s.queues fun _ q => Monitor.Inv q).2
    ⟨Monitor.inv_step (h.queues k) hs, fun j _ => h.queues j⟩

theorem calls_silent (h : Inv s) (hs : Monitor.Step (s.queues k) (t, a) q)
    (he : QueueCalls.effect (s.queues k) (t, a) = none) :
    ∀ j u, status (((s.setQ k q).queues j).pc u) ≠ .idle → In s j u (status (((s.setQ k q).queues j).pc u)) := by
  obtain ⟨hstatus, -⟩ := QueueCalls.step_silent hs he
  intro j u
  have hsame : status (((s.setQ k q).queues j).pc u) = status ((s.queues j).pc u) := by
    by_cases hj : j = k
    · subst hj
      simp only [State.setQ, Function.update_self, hstatus]
    · simp only [State.setQ, Function.update_of_ne hj]
  rw [hsame]
  exact h.calls j u

theorem calls_turns {st : Status (Op capsula) (Option capsula)} (h : Inv s) (hturns : Turns (s.queues k) q t st)
    (hself : st ≠ .idle → In s k t st) :
    ∀ j u, status (((s.setQ k q).queues j).pc u) ≠ .idle → In s j u (status (((s.setQ k q).queues j).pc u)) := by
  intro j u
  by_cases hju : j = k ∧ u = t
  · obtain ⟨rfl, rfl⟩ := hju
    rw [hturns.self]
    exact hself
  · rw [hturns.others fun hj hu => hju ⟨hj, hu⟩]
    exact h.calls j u

theorem calls_own (h : Inv s) (ho : outside e = true) (hs : Pipeline.Step s.view e p) :
    ∀ k t, status ((renew s.base.nqueues p.nqueues s.queues k).pc t) ≠ .idle →
      In ⟨p, renew s.base.nqueues p.nqueues s.queues⟩ k t
        (status ((renew s.base.nqueues p.nqueues s.queues k).pc t)) := by
  intro k t
  rw [status_renew h]
  intro hne
  obtain ⟨hlt, hkt, op, hop, hfits⟩ := h.calls k t hne
  cases ha : actor s.view e with
  | some u =>
    have hcall : call (s.base.threads u) = none := call_actor (p := s.view) (base_unborn h) hs ha ho
    obtain ⟨-, hn, ⟨th, hth⟩, -⟩ := step_local hs ha ho
    have htu : t ≠ u := by
      rintro rfl
      rw [hcall] at hop
      cases hop
    refine ⟨by rw [hn]; exact hlt, hkt, op, ?_, hfits⟩
    rw [hth, Function.update_of_ne htu]
    exact hop
  | none =>
    cases hs with
    | accept_fails => exact ⟨hlt, hkt, op, hop, hfits⟩
    | accept => exact ⟨Nat.lt_add_right 2 hlt, hkt, op, hop, hfits⟩
    | _ => cases ha

/-- Who enters a queue is one of the threads of its connection. -/
theorem in_of_call (h : Inv s) (ht : call (s.base.threads t) = some (k, op))
    (hidle : status ((s.queues k).pc t) = .idle) : In s k t (.called op) := by
  have hall : ∀ j, status ((s.queues j).pc t) = .idle := fun j => by
    by_cases hj : j = k
    · exact hj ▸ hidle
    · exact h.idle_other ht hj
  have ht' : call (s.abs.threads t) = some (k, op) := (congrArg call (ahead_idle hall _)).trans ht
  obtain ⟨hlt, hkt⟩ := call_lt h.abs ht'
  exact ⟨hlt, hkt, op, ht, .called op⟩

/-- The call whose effect is due is the one the thread is at. -/
theorem called_at (h : Inv s) (hc : status ((s.queues k).pc t) = .called op) : ∃ th, s.base.threads t = some th ∧
    k < s.base.nqueues ∧ k / 2 = t / 3 ∧ call (some th) = some (k, op) ∧ s.abs.threads t = some th := by
  obtain ⟨hlt, hkt, op', hop, hfits⟩ := h.calls k t (by rw [hc]; simp)
  rw [hc] at hfits
  cases hfits
  cases hth : s.base.threads t with
  | none =>
    rw [hth] at hop
    cases hop
  | some th =>
    refine ⟨th, rfl, hlt, hkt, hth ▸ hop, ?_⟩
    exact (ahead_called hop hc).trans hth

/-- Between its call and its return a thread changes the list or nothing that counts. -/
theorem inside_cases (hi : inside a = true) : (∃ x, a = .insert x) ∨ a = .remove ∨
    (∀ k t, effect (.queue k t a) = none) ∧
      ∀ (q : Monitor.State w capsula Nat) t, QueueCalls.effect q (t, a) = none := by
  cases a with
  | insert x => exact .inl ⟨x, rfl⟩
  | remove => exact .inr (.inl rfl)
  | enQ | deQ | unlock => cases hi
  | _ => exact .inr (.inr ⟨fun _ _ => rfl, fun _ _ => rfl⟩)

/-- A step is the one that is seen of it, or none. -/
theorem step_abs (h : Inv s) {ev : Event} (hs : Step s ev s') :
    (effect ev = none → s'.abs = s.abs) ∧ ∀ e, effect ev = some e → Pipeline.Step s.abs e s'.abs := by
  cases hs with
  | own ho hs => exact ⟨fun he => (by cases he), fun e he => by cases he; exact abs_own h ho hs⟩
  | @call k t op q ht hs =>
    have he : effect (.queue k t (entry op)) = none := by cases op <;> rfl
    exact ⟨fun _ => abs_call h ht hs, fun e he' => by rw [he] at he'; cases he'⟩
  | ret ht hs => exact ⟨fun _ => abs_ret h ht hs, fun e he => by cases he⟩
  | @inside k t a q hi hs =>
    rcases inside_cases hi with ⟨x, rfl⟩ | rfl | ⟨he, hsilent⟩
    · refine ⟨fun he => (by cases he), fun e he => ?_⟩
      cases he
      obtain ⟨member, hc, ha, hq, hturns⟩ := step_insert hs
      obtain ⟨th, hth, -, -, hop, hth'⟩ := called_at h hc
      rw [abs_commit hth hop hturns]
      exact enQ_step hth' hop ha hq
    · refine ⟨fun he => (by cases he), fun e he => ?_⟩
      cases he
      obtain ⟨ret, hc, hb, hq, hturns⟩ := step_remove (h.queues k) hs
      obtain ⟨th, hth, -, -, hop, hth'⟩ := called_at h hc
      rw [abs_commit hth hop hturns]
      exact deQ_step hth' hop hb hq
    · exact ⟨fun _ => abs_silent hs (hsilent _ _), fun e he' => by rw [he] at he'; cases he'⟩

theorem step_inv (h : Inv s) {ev : Event} (hs : Step s ev s') : Inv s' := by
  have habs : Pipeline.Inv s'.abs := by
    cases he : effect ev with
    | none =>
      rw [(step_abs h hs).1 he]
      exact h.abs
    | some e => exact Pipeline.inv_step h.abs ((step_abs h hs).2 e he)
  cases hs with
  | own ho hs =>
    refine ⟨fun k => ?_, calls_own h ho hs, habs⟩
    simp only [renew]
    split
    · exact Monitor.inv_start
    · exact h.queues k
  | call ht hs =>
    obtain ⟨hidle, -, hturns⟩ := step_entry hs
    exact ⟨queues_setQ h hs, calls_turns h hturns fun _ => in_of_call h ht hidle, habs⟩
  | @ret k t th q hth hs =>
    obtain ⟨hdone, -, hturns⟩ := step_unlock hs
    obtain ⟨-, -, op, hop, -⟩ := h.calls k t (by rw [hdone]; simp)
    refine ⟨queues_setQ h hs, fun j u hne => ?_, habs⟩
    obtain ⟨hlt, hju, op', hop', hfits⟩ := calls_turns h hturns (fun hne => absurd rfl hne) j u hne
    have hu : u ≠ t := by
      -- the thread that returns is in no other queue
      rintro rfl
      rw [hop] at hop'
      cases hop'
      exact hne hturns.self
    refine ⟨hlt, hju, op', ?_, hfits⟩
    show call (Function.update s.base.threads t _ u) = _
    rw [Function.update_of_ne hu]
    exact hop'
  | @inside k t a q hi hs =>
    rcases inside_cases hi with ⟨x, rfl⟩ | rfl | ⟨-, hsilent⟩
    · obtain ⟨member, hc, -, -, hturns⟩ := step_insert hs
      obtain ⟨th, hth, hlt, hkt, hop, -⟩ := called_at h hc
      exact ⟨queues_setQ h hs, calls_turns h hturns fun _ => ⟨hlt, hkt, _, hth ▸ hop, .enQ member⟩, habs⟩
    · obtain ⟨ret, hc, -, -, hturns⟩ := step_remove (h.queues k) hs
      obtain ⟨th, hth, hlt, hkt, hop, -⟩ := called_at h hc
      exact ⟨queues_setQ h hs, calls_turns h hturns fun _ => ⟨hlt, hkt, _, hth ▸ hop, .deQ ret⟩, habs⟩
    · exact ⟨queues_setQ h hs, calls_silent h hs (hsilent _ _), habs⟩

theorem abs_start (buffers : Nat → List Byte) :
    (⟨Pipeline.start buffers, fun _ => Monitor.start⟩ : State w).abs = Pipeline.start buffers := rfl

theorem inv_start (buffers : Nat → List Byte) : Inv (⟨Pipeline.start buffers, fun _ => Monitor.start⟩ : State w) :=
  ⟨fun _ => Monitor.inv_start, fun _ _ hne => absurd rfl hne, Pipeline.inv_start buffers⟩

theorem simulation : Simulation (machine w) (Pipeline.server w) (fun _ => effect) State.abs Inv where
  init s := by
    rintro ⟨buffers, rfl⟩
    exact ⟨inv_start buffers, buffers, abs_start buffers⟩
  inv _ _ _ hi hs := step_inv hi hs
  silent _ _ _ hi hs he := (step_abs hi hs).1 he
  seen _ _ _ _ hi hs he := (step_abs hi hs).2 _ he

/-- Whatever the interleaving of the statements, the run is one of the server whose
calls are one step each, with the calls in the order in which they change the
lists. It leaves the same connections, lists, buffers and messages, and every
thread that is at no call where it is. -/
theorem calls_in_one_step {buffers : Nat → List Byte} {evs : List Pipeline.Event}
    (h : (machine w).Observed (fun _ => effect) ⟨Pipeline.start buffers, fun _ => Monitor.start⟩ evs s) :
    ∃ p, (Pipeline.server w).Run (Pipeline.start buffers) evs p ∧ p.conns = s.base.conns ∧
      (∀ k, p.queues k = (s.queues k).q) ∧ p.buffers = s.base.buffers ∧ p.received = s.base.received ∧
      p.sent = s.base.sent ∧ ∀ t, call (s.base.threads t) = none → p.threads t = s.base.threads t := by
  obtain ⟨hi, hrun⟩ := simulation.observed h (inv_start buffers)
  exact ⟨s.abs, hrun, rfl, fun _ => rfl, rfl, rfl, rfl, fun t ht => ahead_idle (hi.idle ht) _⟩

/-- The second thread waits at its queue while the first puts a message into it. -/
theorem calls_in_one_step_handed : ∃ p : Pipeline.State 64,
    (Pipeline.server 64).Run (Pipeline.start fun _ => [])
      [.accept (some 4), .create, .create, .recv 0 (List.replicate 1024 NUL) (some [97#8, NUL]), .enQ 0 7, .deQ 1] p ∧
      p.conns = [4] := by
  have r : (machine 64).Observed (fun _ => effect) ⟨Pipeline.start fun _ => [], fun _ => Monitor.start⟩ []
    ⟨Pipeline.start fun _ => [], fun _ => Monitor.start⟩ := .nil _
  have r := r.snoc (.own rfl (@Pipeline.Step.accept _ _ 4 rfl (by decide)))
  have r := r.snoc (.own rfl (.new_listenAO rfl))
  have r := r.snoc (.own rfl (.new_AO_convert rfl))
  have r := r.snoc (@Step.call _ _ 0 1 .deQ _ rfl (.deQ rfl))
  have r := r.snoc (.inside (t := 1) (k := 0) rfl (.lockDeQ (.inl rfl) rfl))
  have r := r.snoc (.inside (t := 1) (k := 0) rfl (.testBlocked rfl (by decide)))
  have r := r.snoc (.own rfl (@Pipeline.Step.recv _ _ 0 _ (List.replicate 1024 NUL) [97#8, NUL] rfl
    List.length_replicate (by decide)))
  have r := r.snoc (.inside (t := 1) (k := 0) rfl (.wait rfl))
  have r := r.snoc (@Step.call _ _ 0 0 (.enQ _) _ rfl (.enQ rfl))
  have r := r.snoc (.inside (t := 0) (k := 0) rfl (.lockEnQ rfl rfl))
  have r := r.snoc (.inside (t := 0) (k := 0) (a := .insert 7) rfl (.insert rfl (by decide) rfl))
  have r := r.snoc (.inside (t := 0) (k := 0) rfl (.broadcast rfl))
  have r := r.snoc (.ret (t := 0) (k := 0) rfl (.unlockEnQ rfl))
  have r := r.snoc (.inside (t := 1) (k := 0) rfl (.lockDeQ (.inr rfl) rfl))
  have r := r.snoc (.inside (t := 1) (k := 0) rfl (.testReady rfl (by decide)))
  have r := r.snoc (.inside (t := 1) (k := 0) rfl (.remove rfl rfl))
  obtain ⟨p, hrun, hconns, -⟩ := calls_in_one_step r
  exact ⟨p, hrun, hconns⟩

end Ex6.PipelineThreads
