import Mathlib.Algebra.BigOperators.Ring.Finset
import Ex6.Guards
import Ex6.Lib.Shares
/-!
# Programs with guards, and when they come to their end

The threads run programs that open scopes, declare a `Guard` in them and leave them.
The lock of the class knows nothing of who has it, so that a thread that declares a
guard while it has one waits for itself, and all others with it. `complete_iff` says
that this is the only thing to avoid.
-/
open Lib

namespace Ex6.GuardPrograms

open Guards (Guard Thread)

/-- What a program does about guards: it opens a scope, declares a guard in it, and comes
to the end of it. -/
inductive Stmt
  | scope
  | guard
  | close
deriving Repr, DecidableEq

/-- From so many scopes the program closes each, and declares guards in scopes only. -/
def Closes : List Stmt → Nat → Prop
  | [], depth => depth = 0
  | .scope :: rest, depth => Closes rest (depth + 1)
  | .guard :: rest, depth => 0 < depth ∧ Closes rest depth
  | .close :: _, 0 => False
  | .close :: rest, depth + 1 => Closes rest depth

/-- One guard more in the innermost scope. -/
def declared : List Nat → List Nat
  | [] => []
  | n :: live => (n + 1) :: live

/-- With so many guards in its scopes, the program goes on to declare one while another
lives. -/
def Nests : List Stmt → List Nat → Bool
  | [], _ => false
  | .scope :: rest, live => Nests rest (0 :: live)
  | .guard :: rest, live => decide (0 < live.sum) || Nests rest (declared live)
  | .close :: rest, live => Nests rest live.tail

structure State (T : Type) where
  guards : Guards.State T
  /-- What the threads have before them. -/
  rest : T → List Stmt

variable {T : Type} [DecidableEq T]

/-- The destructors run by themselves at the end of a scope. -/
inductive Step (s : State T) : Guards.Event T → State T → Prop
  | scope {t rest g} : s.rest t = .scope :: rest → Guards.Step s.guards (.enter t) g →
      Step s (.enter t) ⟨g, Function.update s.rest t rest⟩
  | guard {t rest g} : s.rest t = .guard :: rest → Guards.Step s.guards (.construct t) g →
      Step s (.construct t) ⟨g, Function.update s.rest t rest⟩
  | close {t rest g} : s.rest t = .close :: rest → Guards.Step s.guards (.leave t) g →
      Step s (.leave t) ⟨g, Function.update s.rest t rest⟩
  | destroy {t n g} : Guards.Step s.guards (.destroy t n) g → Step s (.destroy t n) { s with guards := g }
  | exited {t g} : Guards.Step s.guards (.exited t) g → Step s (.exited t) { s with guards := g }

def start (programs : T → List Stmt) : State T := ⟨Guards.start, programs⟩

def machine (programs : T → List Stmt) : Machine (State T) (Guards.Event T) where
  init s := s = start programs
  step := Step

/-- The thread is at the end of its program. -/
def Done (s : State T) (t : T) : Prop := s.rest t = [] ∧ s.guards.threads t = ⟨[], false⟩

/-- No thread has a step to make. -/
def Resting (s : State T) : Prop := ∀ e s', ¬ Step s e s'

/-! ## The invariant -/

/-- The scopes a thread is in once it has left the one it may be leaving. -/
def outer (th : Thread) : List (List Guard) := if th.leaving then th.scopes.tail else th.scopes

/-- How far a thread has come with its program. -/
structure Along (program : List Stmt) (th : Thread) (rest : List Stmt) : Prop where
  closes : Closes rest (outer th).length
  nests : Nests rest ((outer th).map List.length) = Nests program []
  leaving : th.leaving = true → th.scopes ≠ []
  one : th.live.length ≤ 1

structure Inv (programs : T → List Stmt) (s : State T) : Prop where
  owned : Owned Thread.holds s.guards.threads s.guards.lock
  threads : ∀ t, Along (programs t) (s.guards.threads t) (s.rest t)

variable {programs : T → List Stmt} {s s' : State T} {e : Guards.Event T} {t : T}

/-- Where one thread has gone on, its program may have, too. -/
theorem along_update (h : ∀ u, Along (programs u) (s.guards.threads u) (s.rest u)) {th : Thread} {rest : List Stmt}
    (ht : Along (programs t) th rest) (u : T) :
    Along (programs u) (Function.update s.guards.threads t th u) (Function.update s.rest t rest u) := by
  by_cases hu : u = t
  · subst hu
    rw [Function.update_self, Function.update_self]
    exact ht
  · rw [Function.update_of_ne hu, Function.update_of_ne hu]
    exact h u

theorem along_goto (h : ∀ u, Along (programs u) (s.guards.threads u) (s.rest u)) {th : Thread}
    (ht : Along (programs t) th (s.rest t)) (u : T) :
    Along (programs u) (Function.update s.guards.threads t th u) (s.rest u) := by
  have hnew := along_update h ht u
  rwa [Function.update_eq_self] at hnew

theorem along_step (h : Inv programs s) (hs : Step s e s') :
    ∀ u, Along (programs u) (s'.guards.threads u) (s'.rest u) := by
  cases hs with
  | @scope t rest g hr hg =>
    cases hg with
    | @enter _ scopes ht =>
      have ha := h.threads t
      rw [hr, ht] at ha
      exact along_update h.threads ⟨ha.closes, ha.nests, by simp, ha.one⟩
  | @guard t rest g hr hg =>
    cases hg with
    | @construct _ scope scopes ht hl =>
      have ha := h.threads t
      rw [hr, ht] at ha
      -- whoever takes the free lock has no guard
      have hlive : (scope :: scopes).flatten = [] := by
        have hno := (hl ▸ h.owned).outside t
        rw [ht] at hno
        simpa [Thread.holds, Thread.live] using hno
      refine along_update h.threads ⟨ha.closes.2, ?_, by simp, ?_⟩
      · have hsum : ((scope :: scopes).map List.length).sum = 0 := by
          rw [← List.length_flatten, hlive]
          rfl
        rw [← ha.nests]
        simp only [outer, Nests, Bool.false_eq_true, if_false, hsum, Nat.lt_irrefl, decide_false, Bool.false_or]
        rfl
      · change ((Guard.constructed :: scope) ++ scopes.flatten).length ≤ 1
        rw [List.cons_append, show scope ++ scopes.flatten = [] from hlive]
        exact Nat.le_refl 1
  | @close t rest g hr hg =>
    cases hg with
    | @leave _ scope scopes ht =>
      have ha := h.threads t
      rw [hr, ht] at ha
      exact along_update h.threads ⟨ha.closes, ha.nests, by simp, ha.one⟩
  | @destroy t n g hg =>
    cases hg with
    | @destroy _ g scope scopes ht =>
      have ha := h.threads t
      rw [ht] at ha
      exact along_goto h.threads ⟨ha.closes, ha.nests, by simp, Nat.le_of_succ_le ha.one⟩
  | @exited t g hg =>
    cases hg with
    | @exited _ scopes ht =>
      have ha := h.threads t
      rw [ht] at ha
      exact along_goto h.threads ⟨ha.closes, ha.nests, by simp, ha.one⟩

theorem inv_step (h : Inv programs s) (hs : Step s e s') : Inv programs s' := by
  refine ⟨?_, along_step h hs⟩
  cases hs with
  | scope _ hg => exact Guards.step_owned h.owned hg trivial
  | guard _ hg => exact Guards.step_owned h.owned hg trivial
  | close _ hg => exact Guards.step_owned h.owned hg trivial
  | exited hg => exact Guards.step_owned h.owned hg trivial
  | @destroy t n g hg =>
    apply Guards.step_owned h.owned hg
    cases hg with
    | destroy ht =>
      have hone := (h.threads t).one
      rw [ht] at hone
      exact Nat.le_zero.1 (Nat.le_of_succ_le_succ hone)

omit [DecidableEq T] in
theorem inv_start (hc : ∀ t, Closes (programs t) 0) : Inv programs (start programs) where
  owned t := by simp [start, Guards.start, Thread.holds, Thread.live]
  threads t := ⟨hc t, rfl, by simp [start, Guards.start], Nat.zero_le 1⟩

/-! ## Who waits -/

/-- A thread that leaves a scope has a step to make. -/
theorem leaves (h : Inv programs s) (hl : (s.guards.threads t).leaving = true) : ∃ e s', Step s e s' := by
  have hne := (h.threads t).leaving hl
  cases hth : s.guards.threads t with
  | mk scopes leaving =>
    rw [hth] at hl hne
    obtain rfl : leaving = true := hl
    match scopes with
    | [] => exact absurd rfl hne
    | [] :: scopes => exact ⟨_, _, .exited (.exited hth)⟩
    | (g :: scope) :: scopes => exact ⟨_, _, .destroy (.destroy hth)⟩

/-- A thread that has none and is not done is in its scopes, before a declaration, and
finds the lock taken. -/
theorem waits (h : Inv programs s) (hr : Resting s) (hd : ¬ Done s t) :
    (s.guards.threads t).leaving = false ∧ (∃ rest, s.rest t = .guard :: rest) ∧ s.guards.lock ≠ none := by
  have hl : (s.guards.threads t).leaving = false := by
    rw [← Bool.not_eq_true]
    intro hl
    obtain ⟨e, s', hs⟩ := leaves h hl
    exact hr e s' hs
  refine ⟨hl, ?_⟩
  have ha := (h.threads t).closes
  cases hth : s.guards.threads t with
  | mk scopes leaving =>
    rw [hth] at hl ha
    obtain rfl : leaving = false := hl
    cases hrest : s.rest t with
    | nil =>
      rw [hrest] at ha
      obtain rfl : scopes = [] := List.length_eq_zero_iff.1 ha
      exact absurd ⟨hrest, hth⟩ hd
    | cons stmt rest =>
      rw [hrest] at ha
      cases stmt with
      | scope => exact absurd (.scope hrest (.enter hth)) (hr _ _)
      | guard =>
        refine ⟨⟨rest, rfl⟩, fun hlock => ?_⟩
        obtain ⟨scope, scopes, rfl⟩ := List.exists_cons_of_length_pos ha.1
        exact absurd (.guard hrest (.construct hth hlock)) (hr _ _)
      | close =>
        match scopes with
        | [] => exact ha.elim
        | scope :: scopes => exact absurd (.close hrest (.leave hth)) (hr _ _)

/-- Where all wait, whoever has the lock is about to declare a guard. -/
theorem nests_of_waits (h : Inv programs s) (hr : Resting s) (hd : ¬ Done s t) :
    ∃ u, Nests (programs u) [] = true := by
  obtain ⟨-, -, hlock⟩ := waits h hr hd
  obtain ⟨u, hu⟩ := Option.ne_none_iff_exists'.1 hlock
  have hholds : (s.guards.threads u).holds = true := (h.owned u).2 hu
  have hdu : ¬ Done s u := by
    intro hdone
    rw [hdone.2] at hholds
    cases hholds
  obtain ⟨hl, ⟨rest, hrest⟩, -⟩ := waits h hr hdu
  refine ⟨u, ?_⟩
  have hpos : 0 < (s.guards.threads u).live.length := by
    apply List.length_pos_iff.2
    intro hnil
    simp [Thread.holds, hnil] at hholds
  rw [← (h.threads u).nests, hrest, outer, hl, Nests, ← List.length_flatten]
  simp only [Bool.false_eq_true, if_false, Bool.or_eq_true, decide_eq_true_eq]
  exact .inl hpos

/-! ## How long it takes -/

/-- What is left for a thread to do, at most. -/
def left (th : Thread) (rest : List Stmt) : Nat := 2 * rest.length + th.live.length + th.leaving.toNat

def work [Fintype T] (s : State T) : Nat := ∑ t, left (s.guards.threads t) (s.rest t)

theorem work_update [Fintype T] {g : Guards.State T} {r : T → List Stmt}
    (hg : ∀ u, u ≠ t → g.threads u = s.guards.threads u ∧ r u = s.rest u)
    (ht : left (g.threads t) (r t) < left (s.guards.threads t) (s.rest t)) : work ⟨g, r⟩ < work s := by
  have hsum : ∑ u, left (g.threads u) (r u) + 1 ≤ ∑ u, left (s.guards.threads u) (s.rest u) + 0 := by
    refine sum_spread (t := t) (d := 0) (fun u hu => ?_) (by omega)
    rw [(hg u hu).1, (hg u hu).2]
    exact Nat.le_refl _
  exact hsum

/-- A statement counts twice, as a guard is to be destroyed and a scope to be left. -/
theorem work_step [Fintype T] (hs : Step s e s') : work s' < work s := by
  cases hs with
  | @scope t rest g hr hg =>
    cases hg with
    | @enter _ scopes ht =>
      refine work_update (t := t) (fun u hu => ⟨Function.update_of_ne hu _ _, Function.update_of_ne hu _ _⟩) ?_
      simp [left, Thread.live, Guards.State.goto, hr, ht]
  | @guard t rest g hr hg =>
    cases hg with
    | @construct _ scope scopes ht hl =>
      refine work_update (t := t) (fun u hu => ⟨Function.update_of_ne hu _ _, Function.update_of_ne hu _ _⟩) ?_
      simp only [left, Function.update_self, Thread.live, Guards.State.goto, List.flatten_cons, List.cons_append,
        List.length_cons, Bool.toNat_false, hr, ht]
      omega
  | @close t rest g hr hg =>
    cases hg with
    | @leave _ scope scopes ht =>
      refine work_update (t := t) (fun u hu => ⟨Function.update_of_ne hu _ _, Function.update_of_ne hu _ _⟩) ?_
      simp only [left, Function.update_self, Thread.live, Guards.State.goto, List.length_cons, Bool.toNat_true,
        Bool.toNat_false, hr, ht]
      omega
  | @destroy t n g hg =>
    cases hg with
    | @destroy _ g scope scopes ht =>
      refine work_update (t := t) (fun u hu => ⟨Function.update_of_ne hu _ _, rfl⟩) ?_
      simp [left, Thread.live, Guards.State.goto, ht]
  | @exited t g hg =>
    cases hg with
    | @exited _ scopes ht =>
      refine work_update (t := t) (fun u hu => ⟨Function.update_of_ne hu _ _, rfl⟩) ?_
      simp [left, Thread.live, Guards.State.goto, ht]

/-- Every run comes to its end, of as many steps as the programs have statements, twice;
and the threads are then at the end of their programs unless one of these declares a
guard while another of its own lives. -/
theorem complete_iff [Fintype T] {programs : T → List Stmt} {evs : List (Guards.Event T)} {s : State T}
    (hc : ∀ t, Closes (programs t) 0) (h : (machine programs).Run (start programs) evs s) :
    evs.length ≤ 2 * ∑ t, (programs t).length ∧
      (Resting s → ((∀ t, Done s t) ↔ ∀ t, Nests (programs t) [] = false)) := by
  obtain ⟨hi, hlen⟩ := Machine.Run.length_le (M := machine programs) (P := Inv programs) (μ := work)
    (fun s e s' hi hs => ⟨inv_step hi hs, work_step hs⟩) h (inv_start hc)
  constructor
  · have hwork : work (start programs) = 2 * ∑ t, (programs t).length := by
      rw [work, Finset.mul_sum]
      rfl
    omega
  · intro hr
    constructor
    · intro hd t
      rw [← (hi.threads t).nests, (hd t).1]
      rfl
    · intro hn t
      by_contra hd
      obtain ⟨u, hu⟩ := nests_of_waits hi hr hd
      rw [hn u] at hu
      cases hu

/-- One program declares two guards in a scope, the other one guard. -/
def nested : Bool → List Stmt
  | true => [.scope, .guard, .guard, .close]
  | false => [.scope, .guard, .close]

/-- The first waits for itself, and the second for the first. -/
theorem complete_iff_nested : ∃ s : State Bool,
    (machine nested).Run (start nested) [.enter false, .enter true, .construct true] s ∧ Resting s ∧
    ¬ ∀ t, Done s t := by
  have r := Machine.Run.nil (M := machine nested) (start nested)
  have r := r.snoc (Step.scope (t := false) rfl (.enter rfl))
  have r := r.snoc (Step.scope (t := true) rfl (.enter rfl))
  have r := r.snoc (Step.guard (t := true) rfl (.construct rfl rfl))
  have hc : ∀ t, Closes (nested t) 0 := by
    intro t
    cases t
    · exact ⟨Nat.one_pos, rfl⟩
    · exact ⟨Nat.one_pos, Nat.one_pos, rfl⟩
  obtain ⟨-, hall⟩ := complete_iff hc r
  suffices hr : Resting _ by
    refine ⟨_, r, hr, fun hd => ?_⟩
    cases (hall hr).1 hd true
  intro e s' hs
  cases hs with
  | @scope t _ _ hr => cases t <;> cases hr
  | @close t _ _ hr => cases t <;> cases hr
  | guard hr hg =>
    cases hg with
    | construct ht hl => cases hl
  | @destroy t _ _ hg =>
    cases hg with
    | destroy ht => cases t <;> cases ht
  | @exited t _ hg =>
    cases hg with
    | exited ht => cases t <;> cases ht

end Ex6.GuardPrograms
