import Mathlib.Logic.Function.Basic
import Ex6.Lib.Machine
import Ex6.Lib.Mutex
/-!
# Guards

The constructor of a `Guard` takes the one lock of the class and the destructor
gives it back. The copy constructor is the compiler's: it takes nothing, and
the copy gives the lock back all the same.

A thread opens and leaves scopes and declares guards as it likes, which covers
every program; what a scope has declared is destroyed in reverse order.
-/
open Lib

namespace Ex6.Guards

/-- How a live `Guard` came to be. -/
inductive Guard
  | constructed
  | copied
deriving Repr, DecidableEq

/-- The scopes a thread is in and the guards declared in each, both from the
latest on; and whether it is on its way out of the innermost. -/
structure Thread where
  scopes : List (List Guard)
  leaving : Bool
deriving Repr, DecidableEq

/-- The live guards of a thread, from the latest on. -/
def Thread.live (th : Thread) : List Guard := th.scopes.flatten

/-- The thread has a live guard. -/
def Thread.holds (th : Thread) : Bool := !th.live.isEmpty

structure State (T : Type) where
  /-- `Guard::lock`: its owner. -/
  lock : Option T
  threads : T → Thread

/-- `copy t u` copies a guard of `u`; after `destroy t rest`, `rest` guards of `t`
are still live. -/
inductive Event (T : Type)
  | enter (t : T)
  | construct (t : T)
  | copy (t u : T)
  | leave (t : T)
  | destroy (t : T) (rest : Nat)
  | exited (t : T)

variable {T : Type} [DecidableEq T]

def start : State T := ⟨none, fun _ => ⟨[], false⟩⟩

/-- Thread `t` goes on with `th`. -/
def State.goto (s : State T) (t : T) (th : Thread) : State T := { s with threads := Function.update s.threads t th }

inductive Step (s : State T) : Event T → State T → Prop
  | enter {t scopes} : s.threads t = ⟨scopes, false⟩ → Step s (.enter t) (s.goto t ⟨[] :: scopes, false⟩)
  -- `Guard::Guard`: `pthread_mutex_lock` returns once the lock is free
  | construct {t scope scopes} : s.threads t = ⟨scope :: scopes, false⟩ → s.lock = none →
      Step s (.construct t) { s.goto t ⟨(.constructed :: scope) :: scopes, false⟩ with lock := some t }
  | copy {t u scope scopes} : s.threads t = ⟨scope :: scopes, false⟩ → (s.threads u).holds = true →
      Step s (.copy t u) (s.goto t ⟨(.copied :: scope) :: scopes, false⟩)
  | leave {t scope scopes} : s.threads t = ⟨scope :: scopes, false⟩ →
      Step s (.leave t) (s.goto t ⟨scope :: scopes, true⟩)
  -- `Guard::~Guard`: `pthread_mutex_unlock`
  | destroy {t g scope scopes} : s.threads t = ⟨(g :: scope) :: scopes, true⟩ →
      Step s (.destroy t (scope :: scopes).flatten.length)
        { s.goto t ⟨scope :: scopes, true⟩ with lock := none }
  | exited {t scopes} : s.threads t = ⟨[] :: scopes, true⟩ → Step s (.exited t) (s.goto t ⟨scopes, false⟩)

/-- Any number of threads, from before their first scope on. -/
def machine (T : Type) [DecidableEq T] : Machine (State T) (Event T) where
  init s := s = start
  step := Step

/-- At most one thread has a live guard. -/
def Exclusive (s : State T) : Prop :=
  ∀ t u, (s.threads t).holds = true → (s.threads u).holds = true → u = t

/-- A guard is copied by its own thread, and is its thread's last when it dies. -/
def Event.Careful : Event T → Prop
  | .copy t u => u = t
  | .destroy _ rest => rest = 0
  | _ => True

/-! ## Careful threads -/

variable {s t' : State T} {e : Event T} {evs : List (Event T)}

theorem step_owned (h : Owned Thread.holds s.threads s.lock) (hs : Step s e t') (he : e.Careful) :
    Owned Thread.holds t'.threads t'.lock := by
  cases hs with
  | enter ht => exact h.keep (by rw [ht]; rfl)
  | construct ht hl =>
    rw [hl] at h
    exact h.acquire rfl
  | @copy t u scope scopes ht hu =>
    obtain rfl : u = t := he
    exact h.keep (by rw [hu]; rfl)
  | leave ht => exact h.keep (by rw [ht]; rfl)
  | destroy ht =>
    apply h.release (by rw [ht]; rfl)
    have hlive : (_ :: _).flatten = [] := List.length_eq_zero_iff.1 he
    simp only [Thread.holds, Thread.live, hlive]
    rfl
  | exited ht => exact h.keep (by rw [ht]; rfl)

theorem reachable_owned (h : ((machine T).under Event.Careful).Reachable s) :
    Owned Thread.holds s.threads s.lock := by
  refine h.under_inv (fun s hi => ?_) fun s e t => step_owned
  rw [show s = start from hi]
  intro t
  simp [start, Thread.holds, Thread.live]

/-- Of threads that are careful with their guards, one at a time has any. -/
theorem exclusive_of_careful (h : (machine T).Run start evs s) (he : ∀ e ∈ evs, e.Careful) : Exclusive s := by
  have hr := (h.under he).reachable (.init rfl)
  exact fun t u => (reachable_owned hr).unique

/-- One thread takes the lock and gives it back, and another takes it and copies its guard. -/
theorem exclusive_of_careful_two : ∃ s : State Bool, (machine Bool).Run start
    [.enter false, .construct false, .leave false, .destroy false 0, .exited false, .enter true, .construct true,
      .copy true true] s ∧ s.lock = some true ∧ (s.threads true).live = [.copied, .constructed] ∧ Exclusive s := by
  have r := Machine.Run.nil (M := machine Bool) start
  have r := r.snoc (@Step.enter _ _ _ false [] rfl)
  have r := r.snoc (@Step.construct _ _ _ false [] [] rfl rfl)
  have r := r.snoc (@Step.leave _ _ _ false [.constructed] [] rfl)
  have r := r.snoc (@Step.destroy _ _ _ false .constructed [] [] rfl)
  have r := r.snoc (@Step.exited _ _ _ false [] rfl)
  have r := r.snoc (@Step.enter _ _ _ true [] rfl)
  have r := r.snoc (@Step.construct _ _ _ true [] [] rfl rfl)
  have r := r.snoc (@Step.copy _ _ _ true true [.constructed] [] rfl rfl)
  refine ⟨_, r, rfl, rfl, exclusive_of_careful r fun e he => ?_⟩
  simp only [List.nil_append, List.cons_append, List.mem_cons, List.not_mem_nil, or_false] at he
  rcases he with rfl | rfl | rfl | rfl | rfl | rfl | rfl | rfl
  case inr.inr.inr.inl => rfl
  case inr.inr.inr.inr.inr.inr.inr => rfl
  all_goals exact trivial

/-- Two guards of one thread, the second a copy: its death lets another thread in. -/
theorem copy_lets_in : ¬ ∀ (evs : List (Event Bool)) (s : State Bool),
    (machine Bool).Run start evs s → Exclusive s := by
  intro h
  have r := Machine.Run.nil (M := machine Bool) start
  have r := r.snoc (@Step.enter _ _ _ true [] rfl)
  have r := r.snoc (@Step.enter _ _ _ false [] rfl)
  have r := r.snoc (@Step.construct _ _ _ false [] [] rfl rfl)
  have r := r.snoc (@Step.enter _ _ _ false [[.constructed]] rfl)
  have r := r.snoc (@Step.copy _ _ _ false false [] [[.constructed]] rfl rfl)
  have r := r.snoc (@Step.leave _ _ _ false [.copied] [[.constructed]] rfl)
  have r := r.snoc (@Step.destroy _ _ _ false .copied [] [[.constructed]] rfl)
  have r := r.snoc (@Step.construct _ _ _ true [] [] rfl rfl)
  cases h _ _ r true false rfl rfl

/-! ## Copies -/

theorem live_of_not_holds {th : Thread} (h : th.holds = false) : th.live = [] := by
  simpa [Thread.holds] using h

/-- Constructing takes a free lock, so that the thread had no guard before. -/
theorem one_step (hown : Owned Thread.holds s.threads s.lock) (hone : ∀ t, (s.threads t).live.length ≤ 1)
    (hs : Step s e t') (hno : ∀ t u, e ≠ .copy t u) : ∀ t, (t'.threads t).live.length ≤ 1 := by
  have hgoto : ∀ {t th}, th.live.length ≤ 1 → ∀ u, (Function.update s.threads t th u).live.length ≤ 1 := by
    intro t th hth u
    by_cases hu : u = t
    · subst hu; rw [Function.update_self]; exact hth
    · rw [Function.update_of_ne hu]; exact hone u
  cases hs with
  | @enter t scopes ht => exact hgoto (by have := hone t; rw [ht] at this; exact this)
  | @construct t scope scopes ht hl =>
    rw [hl] at hown
    have hlive := live_of_not_holds (hown.outside t)
    rw [ht] at hlive
    have hnil : scope ++ scopes.flatten = [] := hlive
    apply hgoto
    show (.constructed :: scope ++ scopes.flatten).length ≤ 1
    rw [List.cons_append, hnil]
    exact Nat.le_refl 1
  | @copy t u => exact absurd rfl (hno t u)
  | @leave t scope scopes ht => exact hgoto (by have := hone t; rw [ht] at this; exact this)
  | @destroy t g scope scopes ht =>
    have hlen := hone t
    rw [ht] at hlen
    exact hgoto (Nat.le_of_succ_le hlen)
  | @exited t scopes ht => exact hgoto (by have := hone t; rw [ht] at this; exact this)

/-- Without copies a thread has one guard at most, so that all are careful. -/
theorem careful_of_no_copy (h : (machine T).Run start evs s) (hno : ∀ t u, .copy t u ∉ evs) :
    ∀ e ∈ evs, e.Careful := by
  suffices hinv : (∀ e ∈ evs, e.Careful) ∧ Owned Thread.holds s.threads s.lock ∧
      ∀ t, (s.threads t).live.length ≤ 1 from hinv.1
  induction h with
  | nil => exact ⟨by simp, fun t => by simp [start, Thread.holds, Thread.live], fun t => by simp [start, Thread.live]⟩
  | @snoc s s' evs e hr hs ih =>
    obtain ⟨hevs, hown, hone⟩ := ih fun t u ht => hno t u (by simp [ht])
    have hcareful : e.Careful := by
      cases hs with
      | @copy t u => exact absurd (by simp) (hno t u)
      | @destroy t g scope scopes ht =>
        have hlen := hone t
        rw [ht] at hlen
        exact Nat.le_zero.1 (Nat.le_of_succ_le_succ hlen)
      | _ => exact trivial
    refine ⟨fun e' he' => ?_, step_owned hown hs hcareful, fun t => ?_⟩
    · rcases List.mem_append.1 he' with he' | he'
      · exact hevs e' he'
      · rw [List.mem_singleton.1 he']; exact hcareful
    · exact one_step hown hone hs (fun t u he => hno t u (by rw [he]; simp)) t

/-- The first step that is not careful breaks the exclusion, or frees the lock
under a live guard, and then any thread that constructs one breaks it. -/
theorem careless (hs : Step s e t') (he : ¬ e.Careful) :
    ¬ Exclusive t' ∨ ∃ t, ∀ u scope scopes, u ≠ t → t'.threads u = ⟨scope :: scopes, false⟩ →
      ∃ u', Step t' (.construct u) u' ∧ ¬ Exclusive u' := by
  cases hs with
  | @copy t u scope scopes ht hu =>
    refine .inl fun hex => he ?_
    by_cases hne : u = t
    · exact hne
    · apply hex t u
      · simp only [State.goto, Function.update_self]; rfl
      · simp only [State.goto, Function.update_of_ne hne]; exact hu
  | @destroy t g scope scopes ht =>
    refine .inr ⟨t, fun u scope' scopes' hne hu => ⟨_, .construct hu rfl, fun hex => hne (hex t u ?_ ?_)⟩⟩
    · have hlive : (scope :: scopes).flatten ≠ [] := fun hnil => he (List.length_eq_zero_iff.2 hnil)
      simp only [State.goto, Function.update_of_ne (Ne.symm hne), Function.update_self, Thread.holds, Thread.live]
      simpa using hlive
    · simp only [State.goto, Function.update_self]; rfl
  | _ => exact absurd trivial he

end Ex6.Guards
