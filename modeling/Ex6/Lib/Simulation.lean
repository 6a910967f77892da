import Ex6.Lib.Machine
/-!
# Simulations

A run can be looked at through what is seen of its steps (`Observed`). A
`Simulation` of one machine by another maps the states, so that a step of the
first is a step of the second, the one that is seen, or changes nothing there.
What holds in every reachable state of the second then holds of the first.
-/

namespace Lib
variable {σ τ ε δ γ : Type}

namespace Machine

/-- A run, and what `see` tells of its steps: nothing or one thing of each. -/
inductive Observed (M : Machine σ ε) (see : σ → ε → Option δ) : σ → List δ → σ → Prop
  | nil (s : σ) : Observed M see s [] s
  | snoc {s t u : σ} {seen : List δ} {e : ε} :
      Observed M see s seen t → M.step t e u → Observed M see s (seen ++ (see t e).toList) u

variable {M : Machine σ ε} {see : σ → ε → Option δ} {s t : σ}

theorem Observed.reachable {seen : List δ} (h : M.Observed see s seen t) (hs : M.Reachable s) : M.Reachable t := by
  induction h with
  | nil => exact hs
  | snoc _ ht ih => exact .step ih ht

/-- Who sees part of what another sees has seen that part of the run. -/
theorem Observed.part {see' : σ → ε → Option γ} {f : δ → Option γ} (hf : ∀ s e, see' s e = (see s e).bind f)
    {seen' : List γ} (h : M.Observed see' s seen' t) :
    ∃ seen, M.Observed see s seen t ∧ seen' = seen.filterMap f := by
  induction h with
  | nil => exact ⟨[], .nil _, rfl⟩
  | @snoc t u seen' e _ ht ih =>
    obtain ⟨seen, hr, rfl⟩ := ih
    refine ⟨_, hr.snoc ht, ?_⟩
    rw [List.filterMap_append, hf]
    cases see t e with
    | none => rfl
    | some d => cases hd : f d <;> simp [hd]

end Machine

/-- `N` does what is seen of `M`. -/
structure Simulation (M : Machine σ ε) (N : Machine τ δ) (see : σ → ε → Option δ) (abs : σ → τ) (Inv : σ → Prop) :
    Prop where
  init : ∀ s, M.init s → Inv s ∧ N.init (abs s)
  inv : ∀ s e t, Inv s → M.step s e t → Inv t
  silent : ∀ s e t, Inv s → M.step s e t → see s e = none → abs t = abs s
  seen : ∀ s e t d, Inv s → M.step s e t → see s e = some d → N.step (abs s) d (abs t)

namespace Simulation
variable {M : Machine σ ε} {N : Machine τ δ} {see : σ → ε → Option δ} {abs : σ → τ} {Inv : σ → Prop} {s t : σ}

theorem observed (h : Simulation M N see abs Inv) {seen : List δ} (hr : M.Observed see s seen t) (hs : Inv s) :
    Inv t ∧ N.Run (abs s) seen (abs t) := by
  induction hr with
  | nil => exact ⟨hs, .nil _⟩
  | @snoc t u seen e _ ht ih =>
    obtain ⟨hi, hr⟩ := ih
    refine ⟨h.inv t e u hi ht, ?_⟩
    cases he : see t e with
    | none =>
      rw [h.silent t e u hi ht he, Option.toList_none, List.append_nil]
      exact hr
    | some d => exact hr.snoc (h.seen t e u d hi ht he)

theorem reachable (h : Simulation M N see abs Inv) (hs : M.Reachable s) : Inv s ∧ N.Reachable (abs s) := by
  induction hs with
  | init hi => exact ⟨(h.init _ hi).1, .init (h.init _ hi).2⟩
  | @step s t e _ ht ih =>
    obtain ⟨hi, hr⟩ := ih
    refine ⟨h.inv s e t hi ht, ?_⟩
    cases he : see s e with
    | none =>
      rw [h.silent s e t hi ht he]
      exact hr
    | some d => exact hr.step (h.seen s e t d hi ht he)

/-- A promise about what is seen is kept on both sides. -/
theorem under (h : Simulation M N see abs Inv) {p : ε → Prop} {q : δ → Prop}
    (hpq : ∀ s e d, see s e = some d → p e → q d) : Simulation (M.under p) (N.under q) see abs Inv where
  init := h.init
  inv s e t hi ht := h.inv s e t hi ht.1
  silent s e t hi ht := h.silent s e t hi ht.1
  seen s e t d hi ht he := ⟨h.seen s e t d hi ht.1 he, hpq s e d he ht.2⟩

end Simulation

end Lib
