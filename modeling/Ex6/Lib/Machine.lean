import Mathlib.Logic.Function.Basic
/-!
# Transition systems

A program that waits for threads or for the kernel is a `Machine`: its states
at start and its labelled steps. Properties of every run are proved once per
step, through `Reachable.inv` (a state invariant) or `Run.inv` (an invariant
between two points of a run). `under` is the machine in a world whose events
keep a promise, and `meeting` as long as its steps meet a condition.
-/

namespace Lib

/-- A labelled transition system. -/
structure Machine (σ ε : Type) where
  init : σ → Prop
  step : σ → ε → σ → Prop

namespace Machine
variable {σ ε : Type} (M : Machine σ ε)

/-- `Run s evs t`: the steps labelled `evs`, in order, lead from `s` to `t`. -/
inductive Run : σ → List ε → σ → Prop
  | nil (s : σ) : Run s [] s
  | snoc {s t u : σ} {evs : List ε} {e : ε} : Run s evs t → M.step t e u → Run s (evs ++ [e]) u

/-- The states some run from an initial state ends in. -/
inductive Reachable : σ → Prop
  | init {s : σ} : M.init s → Reachable s
  | step {s t : σ} {e : ε} : Reachable s → M.step s e t → Reachable t

variable {M}

/-- A property of the initial states that every step keeps holds in every
reachable state. -/
theorem Reachable.inv {P : σ → Prop} (h0 : ∀ s, M.init s → P s)
    (hs : ∀ s e t, P s → M.step s e t → P t) {s : σ} (h : M.Reachable s) : P s := by
  induction h with
  | init hi => exact h0 _ hi
  | step _ ht ih => exact hs _ _ _ ih ht

/-- A relation to the start of the run that every step keeps holds at its end. -/
theorem Run.inv {R : σ → List ε → σ → Prop} (h0 : ∀ s, R s [] s)
    (hs : ∀ s evs t e u, M.Run s evs t → R s evs t → M.step t e u → R s (evs ++ [e]) u)
    {s t : σ} {evs : List ε} (h : M.Run s evs t) : R s evs t := by
  induction h with
  | nil => exact h0 _
  | snoc hr ht ih => exact hs _ _ _ _ _ hr ih ht

/-- What every step keeps holds at the end of a run if it holds at its start. -/
theorem Run.keeps {P : σ → Prop} (hs : ∀ s e t, P s → M.step s e t → P t) {s t : σ} {evs : List ε}
    (h : M.Run s evs t) (h0 : P s) : P t := by
  induction h with
  | nil => exact h0
  | snoc _ ht ih => exact hs _ _ _ ih ht

theorem Run.reachable {s t : σ} {evs : List ε} (h : M.Run s evs t) (hs : M.Reachable s) : M.Reachable t := by
  induction h with
  | nil => exact hs
  | snoc _ ht ih => exact .step ih ht

theorem Run.single {s t : σ} {e : ε} (h : M.step s e t) : M.Run s [e] t :=
  .snoc (.nil s) h

theorem Run.append {s t u : σ} {evs evs' : List ε} (h : M.Run s evs t) (h' : M.Run t evs' u) :
    M.Run s (evs ++ evs') u := by
  induction h' with
  | nil => simpa using h
  | snoc _ ht ih => rw [← List.append_assoc]; exact .snoc ih ht

/-- What `f` gives for the events, added up. -/
def total (f : ε → Nat) : List ε → Nat
  | [] => 0
  | e :: evs => f e + total f evs

theorem total_append (f : ε → Nat) (evs evs' : List ε) : total f (evs ++ evs') = total f evs + total f evs' := by
  induction evs with
  | nil => exact (Nat.zero_add _).symm
  | cons e evs ih => simp only [List.cons_append, total, ih, Nat.add_assoc]

theorem total_mul (k : Nat) (f : ε → Nat) (evs : List ε) : total (fun e => k * f e) evs = k * total f evs := by
  induction evs with
  | nil => rfl
  | cons e evs ih => simp only [total, ih, Nat.mul_add]

/-- Where no step spends more of `μ` than it gains, and what `μ` falls by, no run does. -/
theorem Run.account {P : σ → Prop} {μ : σ → Nat} {spent gained : ε → Nat}
    (hs : ∀ s e t, P s → M.step s e t → P t ∧ μ t + spent e ≤ μ s + gained e) {s t : σ} {evs : List ε}
    (h : M.Run s evs t) (h0 : P s) : P t ∧ μ t + total spent evs ≤ μ s + total gained evs := by
  induction h with
  | nil => exact ⟨h0, Nat.le_refl _⟩
  | @snoc t u evs e _ ht ih =>
    obtain ⟨hp, hle⟩ := ih
    obtain ⟨hp', hle'⟩ := hs t e u hp ht
    refine ⟨hp', ?_⟩
    simp only [total_append, total]
    omega

/-- Where every step brings `μ` down, a run has no more steps than that allows. -/
theorem Run.length_le {P : σ → Prop} {μ : σ → Nat} (hs : ∀ s e t, P s → M.step s e t → P t ∧ μ t < μ s)
    {s t : σ} {evs : List ε} (h : M.Run s evs t) (h0 : P s) : P t ∧ evs.length + μ t ≤ μ s := by
  induction h with
  | nil => exact ⟨h0, by simp⟩
  | @snoc t u evs e _ ht ih =>
    obtain ⟨hp, hle⟩ := ih
    obtain ⟨hp', hlt⟩ := hs t e u hp ht
    refine ⟨hp', ?_⟩
    rw [List.length_append, List.length_singleton]
    omega

/-- Where every state of a kind that is not done has a step that brings it closer,
some run gets done. -/
theorem exists_run {P D : σ → Prop} {allowed : ε → Prop} (μ : σ → Nat)
    (hs : ∀ s, P s → ¬ D s → ∃ e t, M.step s e t ∧ allowed e ∧ P t ∧ μ t < μ s) {s : σ} (h : P s) :
    ∃ evs t, M.Run s evs t ∧ (∀ e ∈ evs, allowed e) ∧ P t ∧ D t := by
  induction hn : μ s using Nat.strongRecOn generalizing s with
  | ind n ih =>
    by_cases hd : D s
    · exact ⟨[], s, .nil s, by simp, h, hd⟩
    · obtain ⟨e, t, hst, he, ht, hlt⟩ := hs s h hd
      obtain ⟨evs, u, hr, hevs, hu, hdu⟩ := ih (μ t) (hn ▸ hlt) ht rfl
      refine ⟨[e] ++ evs, u, (Run.single hst).append hr, fun e' he' => ?_, hu, hdu⟩
      rcases List.mem_append.1 he' with he' | he'
      · rw [List.mem_singleton.1 he']; exact he
      · exact hevs e' he'

/-! ## Promises -/

/-- The machine, as long as its events keep `promise`. -/
def under (M : Machine σ ε) (promise : ε → Prop) : Machine σ ε where
  init := M.init
  step s e t := M.step s e t ∧ promise e

variable {promise : ε → Prop}

theorem Reachable.under_inv {P : σ → Prop} (h0 : ∀ s, M.init s → P s)
    (hs : ∀ s e t, P s → M.step s e t → promise e → P t) {s : σ} (h : (M.under promise).Reachable s) : P s :=
  h.inv (M := M.under promise) h0 fun s e t hp ht => hs s e t hp ht.1 ht.2

theorem Reachable.under_step {s t : σ} {e : ε} (h : (M.under promise).Reachable s) (ht : M.step s e t)
    (he : promise e) : (M.under promise).Reachable t :=
  .step h ⟨ht, he⟩

theorem Reachable.of_under {s : σ} (h : (M.under promise).Reachable s) : M.Reachable s :=
  h.inv (M := M.under promise) (fun _ h0 => .init h0) fun _ _ _ hs ht => .step hs ht.1

theorem Run.under {s t : σ} {evs : List ε} (h : M.Run s evs t) (he : ∀ e ∈ evs, promise e) :
    (M.under promise).Run s evs t := by
  induction h with
  | nil => exact .nil _
  | snoc _ ht ih => exact .snoc (ih fun e h => he e (by simp [h])) ⟨ht, he _ (by simp)⟩

theorem Run.of_under {s t : σ} {evs : List ε} (h : (M.under promise).Run s evs t) :
    M.Run s evs t ∧ ∀ e ∈ evs, promise e := by
  induction h with
  | nil => exact ⟨.nil _, by simp⟩
  | snoc _ ht ih =>
    refine ⟨.snoc ih.1 ht.1, fun e he => ?_⟩
    rcases List.mem_append.1 he with he | he
    · exact ih.2 e he
    · rw [List.mem_singleton.1 he]; exact ht.2

/-! ## Conditions -/

/-- The machine, as long as its steps meet `cond` in the state they start in. -/
def meeting (M : Machine σ ε) (cond : σ → ε → Prop) : Machine σ ε where
  init := M.init
  step s e t := M.step s e t ∧ cond s e

variable {cond : σ → ε → Prop}

theorem Reachable.meeting_inv {P : σ → Prop} (h0 : ∀ s, M.init s → P s)
    (hs : ∀ s e t, P s → M.step s e t → cond s e → P t) {s : σ} (h : (M.meeting cond).Reachable s) : P s :=
  h.inv (M := M.meeting cond) h0 fun s e t hp ht => hs s e t hp ht.1 ht.2

theorem Run.meeting {s t : σ} {evs : List ε} (h : M.Run s evs t) (hc : ∀ e ∈ evs, ∀ u, cond u e) :
    (M.meeting cond).Run s evs t := by
  induction h with
  | nil => exact .nil _
  | snoc _ ht ih => exact .snoc (ih fun e he => hc e (by simp [he])) ⟨ht, hc _ (by simp) _⟩

theorem Run.of_meeting {s t : σ} {evs : List ε} (h : (M.meeting cond).Run s evs t) : M.Run s evs t := by
  induction h with
  | nil => exact .nil _
  | snoc _ ht ih => exact ih.snoc ht.1

theorem Reachable.of_meeting {s : σ} (h : (M.meeting cond).Reachable s) : M.Reachable s :=
  h.inv (M := M.meeting cond) (fun _ h0 => .init h0) fun _ _ _ hs ht => .step hs ht.1

end Machine

/-! ## A step of one thread -/

/-- What is at `p'` after `t` has moved to `p` is another thread that was there,
or `t`. -/
theorem update_cases {T P : Type} [DecidableEq T] {pc : T → P} {t u : T} {p p' : P}
    (h : Function.update pc t p u = p') : (u ≠ t ∧ pc u = p') ∨ (u = t ∧ p = p') := by
  by_cases hu : u = t
  · subst hu; exact .inr ⟨rfl, by simpa using h⟩
  · exact .inl ⟨hu, by simpa [Function.update_of_ne hu] using h⟩

/-- Seen through `f`, the threads are where they were but for `t`. -/
theorem apply_update {T P Q : Type} [DecidableEq T] (f : P → Q) (pc : T → P) (t : T) (p : P) :
    (fun u => f (Function.update pc t p u)) = Function.update (fun u => f (pc u)) t (f p) :=
  Function.comp_update f pc t p

theorem apply_update_eq {T P Q : Type} [DecidableEq T] {f : P → Q} {pc : T → P} {t : T} {p : P}
    (hp : f p = f (pc t)) : (fun u => f (Function.update pc t p u)) = fun u => f (pc u) := by
  rw [apply_update, hp]
  exact Function.update_eq_self t fun u => f (pc u)

end Lib
