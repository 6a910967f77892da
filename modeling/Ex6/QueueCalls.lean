import Ex6.Monitor
import Ex6.Lib.Simulation
import Ex6.Lib.Linearizable
/-!
# The queue as its callers see it

`Monitor` has every statement of `enQ` and `deQ`; a caller sees the calls and
the returns. A call takes effect where it changes the list, under the mutex, and
so whatever the threads do, the history of their calls and returns is one of a
first-in-first-out list whose operations happen one at a time
(`history_linearizable`).
-/
open Lib Ex6.Queue Ex6.Monitor

namespace Ex6.QueueCalls

inductive Op (V : Type)
  | enQ (member : V)
  | deQ

inductive FifoStep {V : Type} : List V → Op V → Option V → List V → Prop
  | enQ {xs : List V} {member : V} : FifoStep xs (.enQ member) none (xs ++ [member])
  | deQ {x : V} {xs : List V} : FifoStep (x :: xs) .deQ (some x) xs

/-- First in, first out: what a queue is for. On the empty list `deQ` has no step. -/
def fifo (V : Type) : Object (Op V) (Option V) (List V) := ⟨[], FifoStep⟩

variable {w : Nat} {V T : Type}

/-- Whether a thread's call, if it is in one, has taken effect. -/
def status : Pc V → Status (Op V) (Option V)
  | .idle => .idle
  | .enqLock member | .enqInsert member => .called (.enQ member)
  | .enqBroadcast | .enqUnlock => .done none
  | .deqLock | .deqTest | .deqWait | .deqAsleep | .deqWoken | .deqRemove => .called .deQ
  | .deqUnlock ret => .done (some ret)

/-- What a thread at `pc` returns when it unlocks. -/
def result : Pc V → Option V
  | .deqUnlock ret => some ret
  | _ => none

def effect (s : State w V T) : T × Act V → Option (AtomicEvent T (Op V) (Option V))
  | (t, .enQ member) => some (.act (.call t (.enQ member)))
  | (t, .deQ) => some (.act (.call t .deQ))
  | (t, .insert _) | (t, .remove) => some (.commit t)
  | (t, .unlock) => some (.act (.ret t (result (s.pc t))))
  | _ => none

/-- The calls and the returns. -/
def history (s : State w V T) : T × Act V → Option (Action T (Op V) (Option V))
  | (t, .enQ member) => some (.call t (.enQ member))
  | (t, .deQ) => some (.call t .deQ)
  | (t, .unlock) => some (.ret t (result (s.pc t)))
  | _ => none

def abs (s : State w V T) : Shared T (Op V) (Option V) (List V) :=
  ⟨s.enqueued.drop s.dequeued.length, fun t => status (s.pc t)⟩

theorem history_eq (s : State w V T) (e : T × Act V) : history s e = (effect s e).bind AtomicEvent.action := by
  obtain ⟨t, a⟩ := e
  cases a <;> rfl

theorem status_wakeup (pc : Pc V) : status pc.wakeup = status pc := by cases pc <;> rfl

variable [DecidableEq T] {s s' : State w V T} {e : T × Act V}

/-! ## What a step changes -/

/-- Outside of calls, commits and returns nothing changes for a caller. -/
theorem step_silent (h : Step s e s') (he : effect s e = none) :
    (∀ t, status (s'.pc t) = status (s.pc t)) ∧ s'.q = s.q ∧ s'.enqueued = s.enqueued ∧ s'.dequeued = s.dequeued := by
  cases h with
  | lockEnQ ht | testBlocked ht | testReady ht | wait ht | wake ht =>
    exact ⟨congrFun (apply_update_eq (by rw [ht]; rfl)), rfl, rfl, rfl⟩
  | lockDeQ ht => rcases ht with ht | ht <;> exact ⟨congrFun (apply_update_eq (by rw [ht]; rfl)), rfl, rfl, rfl⟩
  | broadcast ht =>
    refine ⟨fun u => ?_, rfl, rfl, rfl⟩
    refine (congrFun (apply_update_eq (by rw [wakeAll, status_wakeup, ht]; rfl)) u).trans ?_
    exact status_wakeup (s.pc u)
  | _ => cases he

theorem silent (h : Step s e s') (he : effect s e = none) : abs s' = abs s := by
  obtain ⟨hstatus, -, henq, hdeq⟩ := step_silent h he
  unfold abs
  simp only [hstatus, henq, hdeq]

/-- Of the others, a broadcast moves those that sleep. -/
theorem step_others {t u : T} {a : Act V} (h : Step s (t, a) s') (hu : u ≠ t) :
    s'.pc u = s.pc u ∨ a = .broadcast ∧ s'.pc u = (s.pc u).wakeup := by
  cases h with
  | broadcast => exact .inr ⟨rfl, Function.update_of_ne hu _ _⟩
  | _ => exact .inl (Function.update_of_ne hu _ _)

/-- The list is changed as the callers' list is. -/
theorem commits {t : T} {op : Op V} {res : Option V} {p : Pc V} {enqueued dequeued : List V}
    (hp : status (s.pc t) = .called op) (hd : status p = .done res)
    (hs : FifoStep (s.enqueued.drop s.dequeued.length) op res (enqueued.drop dequeued.length)) :
    AtomicStep (fifo V) (abs s) (.commit t)
      ⟨enqueued.drop dequeued.length, fun u => status (Function.update s.pc t p u)⟩ := by
  rw [apply_update, hd]
  exact AtomicStep.commit (s := abs s) hp hs

theorem seen (hi : Inv s) (h : Step s e s') {d : AtomicEvent T (Op V) (Option V)} (he : effect s e = some d) :
    (atomic (fifo V) T).step (abs s) d (abs s') := by
  obtain ⟨xs, hx, hxs⟩ := hi.holds
  have hw : s.enqueued.drop s.dequeued.length = xs := by rw [hxs, List.drop_left]
  cases h with
  | @enQ t member ht =>
    cases he
    unfold abs
    rw [apply_update]
    exact AtomicStep.call (s := abs s) (congrArg status ht)
  | deQ ht =>
    cases he
    unfold abs
    rw [apply_update]
    exact AtomicStep.call (s := abs s) (congrArg status ht)
  | @insert t member a q' ht =>
    cases he
    refine commits (congrArg status ht) rfl ?_
    have hle : s.dequeued.length ≤ s.enqueued.length := by rw [hxs]; simp
    rw [List.drop_append_of_le_length hle]
    exact .enQ
  | @remove t ret q' ht hq =>
    cases he
    refine commits (congrArg status ht) rfl ?_
    obtain ⟨ys, rfl, -, -⟩ := hx.of_deQ hq
    have hxs' : s.enqueued = (s.dequeued ++ [ret]) ++ ys := by simp [hxs]
    rw [hw, hxs', List.drop_left]
    exact .deQ
  | unlockEnQ ht =>
    cases he
    unfold abs
    rw [apply_update]
    exact AtomicStep.ret (s := abs s) (by rw [ht]; exact congrArg status ht)
  | unlockDeQ ht =>
    cases he
    unfold abs
    rw [apply_update]
    exact AtomicStep.ret (s := abs s) (by rw [ht]; exact congrArg status ht)
  | _ => cases he

theorem simulation : Simulation (machine w V T) (atomic (fifo V) T) effect abs Inv where
  init s hs := by
    cases hs
    exact ⟨inv_start, rfl⟩
  inv _ _ _ hi ht := inv_step hi ht
  silent _ _ _ _ ht he := silent ht he
  seen _ _ _ _ hi ht he := seen hi ht he

/-- Whatever the interleaving of the statements of any number of threads that
call `enQ` and `deQ`, there is an order of the calls that agrees with the order
in which calls returned before others were made, and in which every `deQ`
returns the oldest value that is in the queue. -/
theorem history_linearizable {H : List (Action T (Op V) (Option V))}
    (h : (machine w V T).Observed history start H s) : Linearizable (fifo V) H := by
  obtain ⟨evs, hr, rfl⟩ := h.part history_eq
  exact atomic_linearizable (simulation.observed hr inv_start).2

/-- A `deQ` that waits for an `enQ` called after it. -/
theorem history_linearizable_waiting :
    Linearizable (fifo Nat) [.call false .deQ, .call true (.enQ 7), .ret true none, .ret false (some 7)] := by
  have r : (machine 64 Nat Bool).Observed history start [] start := .nil _
  have r := r.snoc (Step.deQ (t := false) rfl)
  have r := r.snoc (Step.lockDeQ (t := false) (.inl rfl) rfl)
  have r := r.snoc (Step.testBlocked (t := false) rfl rfl)
  have r := r.snoc (Step.wait (t := false) rfl)
  have r := r.snoc (@Step.enQ _ _ _ _ _ true 7 rfl)
  have r := r.snoc (Step.lockEnQ (t := true) rfl rfl)
  have r := r.snoc (Step.insert (t := true) (a := 0) rfl (by decide) rfl)
  have r := r.snoc (Step.broadcast (t := true) rfl)
  have r := r.snoc (Step.unlockEnQ (t := true) rfl)
  have r := r.snoc (Step.lockDeQ (t := false) (.inr rfl) rfl)
  have r := r.snoc (Step.testReady (t := false) rfl (by decide))
  have r := r.snoc (Step.remove (t := false) rfl rfl)
  have r := r.snoc (Step.unlockDeQ (t := false) rfl)
  exact history_linearizable r

end Ex6.QueueCalls
