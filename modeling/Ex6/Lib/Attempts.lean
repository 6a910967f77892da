/-!
# Trying one after the other

A loop goes through a list until an entry works or makes the program give up.
Where an attempt that fails leaves what `view` shows as it was, the entry the loop
stops at has been tried in the view of the start, and the ones before it have failed
in that view.
-/

namespace Lib

/-- How one iteration of the loop ends. -/
inductive Attempt (σ : Type)
  | next (s : σ)
  | found (s : σ)
  | exits (code : Nat) (s : σ)

/-- How the loop ends: past the end of the list, at the entry that works, or with the
program. -/
inductive Attempts (α σ : Type)
  | null (s : σ)
  | found (p : α) (s : σ)
  | exits (code : Nat) (s : σ)

variable {α σ τ : Type}

def attempts (body : σ → α → Attempt σ) (s : σ) : List α → Attempts α σ
  | [] => .null s
  | p :: ps =>
    match body s p with
    | .next s => attempts body s ps
    | .found s => .found p s
    | .exits code s => .exits code s

/-- The attempt at `p` has failed in the view of `s`. -/
def Failed (body : σ → α → Attempt σ) (view : σ → τ) (s : σ) (p : α) : Prop :=
  ∃ t u, view t = view s ∧ body t p = .next u

/-- The end of the loop over `ps`, told by what happens in the view of `s`. -/
inductive Tried (body : σ → α → Attempt σ) (view : σ → τ) (s : σ) (ps : List α) : Attempts α σ → Prop
  | null {t} : (∀ p ∈ ps, Failed body view s p) → view t = view s → Tried body view s ps (.null t)
  | found {before p after t u} : ps = before ++ p :: after → (∀ q ∈ before, Failed body view s q) →
      view t = view s → body t p = .found u → Tried body view s ps (.found p u)
  | exits {before p after t code u} : ps = before ++ p :: after → (∀ q ∈ before, Failed body view s q) →
      view t = view s → body t p = .exits code u → Tried body view s ps (.exits code u)

theorem Failed.of_view {body : σ → α → Attempt σ} {view : σ → τ} {s t : σ} {p : α} (h : Failed body view t p)
    (hv : view t = view s) : Failed body view s p := by
  obtain ⟨u, v, hu, hb⟩ := h
  exact ⟨u, v, hu.trans hv, hb⟩

/-- One more entry, which has failed. -/
theorem Tried.cons {body : σ → α → Attempt σ} {view : σ → τ} {s t : σ} {p : α} {ps : List α} {r : Attempts α σ}
    (h : Tried body view t ps r) (hv : view t = view s) (hp : Failed body view s p) :
    Tried body view s (p :: ps) r := by
  have hcons : ∀ qs : List α, (∀ q ∈ qs, Failed body view t q) → ∀ q ∈ p :: qs, Failed body view s q := by
    intro qs hqs q hq
    rcases List.mem_cons.1 hq with rfl | hq
    · exact hp
    · exact (hqs q hq).of_view hv
  cases h with
  | null hall ht => exact .null (hcons ps hall) (ht.trans hv)
  | found hps hall ht hb => exact .found (congrArg (List.cons p) hps) (hcons _ hall) (ht.trans hv) hb
  | exits hps hall ht hb => exact .exits (congrArg (List.cons p) hps) (hcons _ hall) (ht.trans hv) hb

theorem attempts_tried {body : σ → α → Attempt σ} {view : σ → τ}
    (hkeep : ∀ s p t, body s p = .next t → view t = view s) (s : σ) (ps : List α) :
    Tried body view s ps (attempts body s ps) := by
  induction ps generalizing s with
  | nil => exact .null (by simp) rfl
  | cons p ps ih =>
    unfold attempts
    cases hb : body s p with
    | next t =>
      have hv := hkeep s p t hb
      exact (ih t).cons hv ⟨s, t, rfl, hb⟩
    | found t => exact .found (List.nil_append (p :: ps)).symm (by simp) rfl hb
    | exits code t => exact .exits (List.nil_append (p :: ps)).symm (by simp) rfl hb

end Lib
