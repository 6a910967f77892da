import Ex6.ActiveObject
/-!
# Cancelling an active object's thread

`destroy_AO` calls `pthread_cancel` on the thread of its active object. The
request takes effect where the thread comes to a cancellation point: the
`printf` of `ao_func`, some places in the two functions, and the
`pthread_cond_wait` of `deQ`. That one is left with the mutex acquired,
cancelled or not, and `queue` pushes no cleanup handler that would release it.
The calls on a mutex are no cancellation points.

The other threads call `enQ` and `deQ` on all queues, in any interleaving.
`usable_iff`: after the cancellation they can have the mutex if and only if it
did not take effect in the wait. If it did, no thread gets it ever again
(`locked_out`).
-/
open Lib

namespace Ex6.Cancel

open ActiveObject

variable {K V T : Type} {w : Nat} {funq : arg_functions_queue K V}

structure State (w : Nat) (T : Type) (funq : arg_functions_queue K V) where
  threads : ActiveObject.State w T funq
  /-- `pthread_cancel` has been called. -/
  cancelled : Bool
  /-- The cancelled worker has ended. -/
  ended : Bool

def start : State w T funq := ⟨ActiveObject.start, false, false⟩

inductive Event (K V T : Type)
  | goes (e : ActiveObject.Event K V T)
  | pthread_cancel
  | takes_effect

variable [DecidableEq K] [DecidableEq T]

/-- `cancellable` are the cancellation points in the two functions. -/
inductive Step (ao : T) (cancellable : ∀ p, (funq.func p).Loc → Prop) (s : State w T funq) :
    Event K V T → State w T funq → Prop
  | other {t k a m} : t ≠ ao → Monitor.Step (s.threads.queues k) (t, a) m →
      (Calls a → ∀ k', (s.threads.queues k').pc t = .idle) →
      Step ao cancellable s (.goes (.thread t k a)) { s with threads := s.threads.setQ k m }
  | work {e threads} : s.ended = false → Work ao s.threads e threads →
      Step ao cancellable s (.goes e) { s with threads := threads }
  | pthread_cancel : Step ao cancellable s .pthread_cancel { s with cancelled := true }
  | printf : s.cancelled = true → s.ended = false → s.threads.pc = .ready →
      Step ao cancellable s .takes_effect { s with ended := true }
  | body {p l} : s.cancelled = true → s.ended = false → s.threads.pc = .body p l → cancellable p l →
      Step ao cancellable s .takes_effect { s with ended := true }
  | wait : s.cancelled = true → s.ended = false → (s.threads.queues funq.q).pc ao = .deqWait →
      Step ao cancellable s .takes_effect { s with ended := true }
  -- asleep, it is woken first, and has to wait for the mutex
  | woken {m} : s.cancelled = true → s.ended = false → (s.threads.queues funq.q).pc ao = .deqWoken →
      Monitor.Step (s.threads.queues funq.q) (ao, .lock) m →
      Step ao cancellable s .takes_effect { s with threads := s.threads.setQ funq.q m, ended := true }

def machine (w : Nat) (ao : T) (funq : arg_functions_queue K V) (cancellable : ∀ p, (funq.func p).Loc → Prop) :
    Machine (State w T funq) (Event K V T) where
  init s := s = start
  step := Step ao cancellable

/-- In `pthread_cond_wait`. -/
def condWait : Monitor.Pc V → Bool
  | .deqWait | .deqAsleep | .deqWoken => true
  | _ => false

/-- A step that makes no new call. -/
def Event.goesOn : Event K V T → Bool
  | .goes (.thread _ _ a) => !a.external
  | _ => false

/-- The worker does not own the queue's mutex, and every other thread that is about to
take it, in `enQ` or `deQ`, can get it without a new call by anyone. -/
def Usable (ao : T) (cancellable : ∀ p, (funq.func p).Loc → Prop) (s : State w T funq) : Prop :=
  (s.threads.queues funq.q).owner ≠ some ao ∧
    ∀ u, u ≠ ao → ((s.threads.queues funq.q).pc u).locking = true →
      ∃ evs t, (machine w ao funq cancellable).Run s evs t ∧ (∀ e ∈ evs, e.goesOn = true) ∧
        (t.threads.queues funq.q).owner = some u

variable {ao : T} {cancellable : ∀ p, (funq.func p).Loc → Prop} {s s' t : State w T funq} {e : Event K V T}
  {evs : List (Event K V T)}

/-! ## What holds with and without the cancellation -/

theorem inCall_step (hi : InCall ao s.threads) (h : Step ao cancellable s e s') : InCall ao s'.threads := by
  cases h with
  | other hne hm => exact hi.other hne hm
  | work _ hw => exact hi.work hw
  | pthread_cancel | printf | body | wait => exact hi
  | woken _ _ hpc hm =>
    refine ⟨monitors_step hi.monitors hm, allows_setQ ?_ fun k' _ => hi.allows k'⟩
    rw [(Monitor.step_moves hm).2]
    exact hi.allows funq.q

theorem reachable_inCall (h : (machine w ao funq cancellable).Reachable s) : InCall ao s.threads :=
  h.inv (P := fun s => InCall ao s.threads) (fun _ h0 => h0 ▸ (start_inv ao).toInCall) fun _ _ _ => inCall_step

theorem run_inCall (hr : (machine w ao funq cancellable).Run s evs t) (hi : InCall ao s.threads) :
    InCall ao t.threads :=
  hr.keeps (P := fun s => InCall ao s.threads) (fun _ _ _ => inCall_step) hi

/-- The other threads' steps in one queue, as steps of the whole. -/
theorem run_others {k : K} {m : Monitor.State w V T} {es : List (T × Monitor.Act V)}
    (hr : (Monitor.machine w V T).Run (s.threads.queues k) es m) (hes : ∀ e ∈ es, e.1 ≠ ao ∧ e.2.external = false) :
    (machine w ao funq cancellable).Run s (es.map fun e => .goes (.thread e.1 k e.2))
      { s with threads := s.threads.setQ k m } := by
  generalize hq : s.threads.queues k = m₀ at hr
  induction hr with
  | nil =>
    subst hq
    rw [setQ_self]
    exact .nil s
  | @snoc m m' es e _ hm ih =>
    obtain ⟨hne, ha⟩ := hes e (by simp)
    have hlast : Step ao cancellable { s with threads := s.threads.setQ k m } (.goes (.thread e.1 k e.2))
        { s with threads := (s.threads.setQ k m).setQ k m' } := by
      refine .other hne ?_ fun hc => ?_
      · rw [setQ_queues_self]
        exact hm
      · obtain ⟨u, a⟩ := e
        cases a with
        | enQ | deQ => cases ha
        | _ => exact hc.elim
    rw [setQ_setQ] at hlast
    rw [List.map_append]
    exact .snoc (ih fun e he => hes e (by simp [he])) hlast

/-! ## Cancelled outside the wait -/

/-- The worker has ended outside all calls. -/
def Gone (ao : T) (s : State w T funq) : Prop := s.ended = true ∧ ∀ k, ((s.threads.queues k).pc ao).kind = .idle

theorem gone_step (hg : Gone ao s) (h : Step ao cancellable s e s') : Gone ao s' := by
  obtain ⟨hended, hidle⟩ := hg
  cases h with
  | other hne hm => exact ⟨hended, fun k' => (kind_other hm (Ne.symm hne) k').trans (hidle k')⟩
  | pthread_cancel => exact ⟨hended, hidle⟩
  | work hgoes | printf _ hgoes | body _ hgoes | wait _ hgoes | woken _ hgoes => rw [hended] at hgoes; cases hgoes

theorem run_gone (hr : (machine w ao funq cancellable).Run s evs t) (hg : Gone ao s) : Gone ao t :=
  hr.keeps (fun _ _ _ => gone_step) hg

theorem Gone.usable (hg : Gone ao s) (hi : InCall ao s.threads) : Usable ao cancellable s := by
  have howner : (s.threads.queues funq.q).owner ≠ some ao := hi.owner_ne (hg.2 funq.q)
  refine ⟨howner, fun u hu hlocking => ?_⟩
  obtain ⟨es, m, hr, hes, ho⟩ := Monitor.acquired (Monitor.reachable_inv (hi.monitors funq.q)) hlocking
  have hothers : ∀ e ∈ es, e.1 ≠ ao ∧ e.2.external = false := by
    intro e he
    obtain ⟨hwho, ha⟩ := hes e he
    rcases hwho with hwho | hwho
    · exact ⟨fun hao => howner (hao ▸ hwho), ha⟩
    · exact ⟨hwho ▸ hu, ha⟩
  refine ⟨_, _, run_others hr hothers, fun e he => ?_, by simpa using ho⟩
  obtain ⟨e', he', rfl⟩ := List.mem_map.1 he
  show (!e'.2.external) = true
  rw [(hothers e' he').2]
  rfl

/-! ## Cancelled in the wait -/

/-- The worker has ended with the mutex. -/
def Keeps (ao : T) (s : State w T funq) : Prop := s.ended = true ∧ (s.threads.queues funq.q).owner = some ao

theorem keeps_step (hk : Keeps ao s) (hi : InCall ao s.threads) (h : Step ao cancellable s e s') : Keeps ao s' := by
  obtain ⟨hended, howner⟩ := hk
  cases h with
  | @other t k a m hne hm =>
    refine ⟨hended, ?_⟩
    by_cases hq : funq.q = k
    · subst hq
      rw [setQ_queues_self]
      exact Monitor.step_owner_other (Monitor.reachable_inv (hi.monitors _)) hm howner (Ne.symm hne)
    · rw [setQ_queues_ne s.threads hq]
      exact howner
  | pthread_cancel => exact ⟨hended, howner⟩
  | work hgoes | printf _ hgoes | body _ hgoes | wait _ hgoes | woken _ hgoes => rw [hended] at hgoes; cases hgoes

/-- Where the worker stands when the cancellation takes effect decides how it ends. -/
theorem takes_effect (hi : InCall ao s.threads) (h : Step ao cancellable s .takes_effect s') :
    if condWait ((s.threads.queues funq.q).pc ao) then Keeps ao s' else Gone ao s' := by
  have hidle : ∀ {pc : Monitor.Pc V}, pc.kind = .idle → condWait pc = false := by
    intro pc hpc
    cases pc <;> first | rfl | cases hpc
  cases h with
  | printf _ _ hpc | body _ _ hpc =>
    have hall := hi.allows
    rw [hpc] at hall
    rw [hidle (hall funq.q)]
    exact ⟨rfl, hall⟩
  | wait _ _ hpc =>
    rw [hpc]
    exact ⟨rfl, Monitor.owner_of (Monitor.reachable_inv (hi.monitors funq.q)) hpc rfl⟩
  | woken _ _ hpc hm =>
    rw [hpc]
    refine ⟨rfl, ?_⟩
    rw [setQ_queues_self]
    cases hm with
    | lockEnQ | lockDeQ => rfl

/-- A worker that is cancelled in `pthread_cond_wait` keeps the mutex for ever. -/
theorem locked_out (h : (machine w ao funq cancellable).Reachable s) (he : Step ao cancellable s .takes_effect s')
    (hwait : condWait ((s.threads.queues funq.q).pc ao) = true) (hr : (machine w ao funq cancellable).Run s' evs t) :
    (t.threads.queues funq.q).owner = some ao := by
  have hi := reachable_inCall h
  have hkeeps : Keeps ao s' := by
    have := takes_effect hi he
    rwa [if_pos hwait] at this
  have hrun : InCall ao t.threads ∧ Keeps ao t :=
    hr.keeps (P := fun s => InCall ao s.threads ∧ Keeps ao s)
      (fun _ _ _ hp hst => ⟨inCall_step hp.1 hst, keeps_step hp.2 hp.1 hst⟩) ⟨inCall_step hi he, hkeeps⟩
  exact hrun.2.2

/-! ## The queue after the cancellation -/

/-- However all threads go on, the other threads can have the queue's mutex, if
and only if the worker was not in `pthread_cond_wait` when the cancellation took
effect. -/
theorem usable_iff (h : (machine w ao funq cancellable).Reachable s) (he : Step ao cancellable s .takes_effect s') :
    (∀ evs t, (machine w ao funq cancellable).Run s' evs t → Usable ao cancellable t) ↔
      condWait ((s.threads.queues funq.q).pc ao) = false := by
  have hi := reachable_inCall h
  constructor
  · intro husable
    rw [← Bool.not_eq_true]
    intro hwait
    exact (husable [] s' (.nil s')).1 (locked_out h he hwait (.nil s'))
  · intro hwait evs t hr
    have hgone : Gone ao s' := by
      have := takes_effect hi he
      rwa [if_neg (by rw [hwait]; simp)] at this
    exact (run_gone hr hgone).usable (run_inCall hr (inCall_step hi he))

/-- The worker is cancelled at the `printf`. -/
theorem usable_iff_printf : ∃ s s' : State 64 Bool (K := Unit) ⟨(), again, again⟩,
    Step true (fun _ _ => False) s .takes_effect s' ∧
    ∀ evs t, (machine 64 true ⟨(), again, again⟩ fun _ _ => False).Run s' evs t → Usable true (fun _ _ => False) t := by
  have r : (machine 64 true (K := Unit) ⟨(), again, again⟩ fun _ _ => False).Reachable start := .init rfl
  have r := r.step Step.pthread_cancel
  exact ⟨_, _, .printf rfl rfl rfl, (usable_iff r (.printf rfl rfl rfl)).2 rfl⟩

/-- The worker is cancelled while it waits at the empty queue. -/
theorem cancelled_in_wait : ∃ s s' : State 64 Bool (K := Unit) ⟨(), again, again⟩,
    (machine 64 true ⟨(), again, again⟩ fun _ _ => False).Reachable s ∧
    Step true (fun _ _ => False) s .takes_effect s' ∧ ¬ Usable true (fun _ _ => False) s' := by
  have r : (machine 64 true (K := Unit) ⟨(), again, again⟩ fun _ _ => False).Reachable start := .init rfl
  have r := r.step (Step.work rfl (.ready rfl))
  have r := r.step (Step.work rfl (.deQ rfl (.deQ rfl) (by simp) (by simp)))
  have r := r.step (Step.work rfl (.deQ rfl (.lockDeQ (.inl rfl) rfl) (by simp) (by simp)))
  have r := r.step (Step.work rfl (.deQ rfl (.testBlocked rfl (by decide)) (by simp) (by simp)))
  have r := r.step (Step.work rfl (.deQ rfl (.wait rfl) (by simp) (by simp)))
  have r := r.step Step.pthread_cancel
  have r := r.step (Step.work rfl (.deQ rfl (.wake rfl) (by simp) (by simp)))
  exact ⟨_, _, r, .woken rfl rfl rfl (.lockDeQ (.inr rfl) rfl), fun husable => husable.1 rfl⟩

end Ex6.Cancel
