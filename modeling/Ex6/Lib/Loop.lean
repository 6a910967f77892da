import Mathlib.Data.List.Basic
/-!
# Counted loops

`forLoop body i n s` is `for(; i < n; i++) s = body i s`. A property of it is
shown by an invariant that one iteration carries from `i` to `i + 1`.
-/

namespace Lib
variable {σ : Type}

def forLoop (body : Nat → σ → σ) (i n : Nat) (s : σ) : σ :=
  (List.range' i (n - i)).foldl (fun s k => body k s) s

theorem forLoop_step (body : Nat → σ → σ) {i n : Nat} (s : σ) (h : i < n) :
    forLoop body i n s = forLoop body (i + 1) n (body i s) := by
  obtain ⟨k, hk⟩ : ∃ k, n - i = k + 1 := ⟨n - i - 1, by omega⟩
  simp only [forLoop, hk, List.range'_succ, List.foldl_cons, show n - (i + 1) = k by omega]

theorem forLoop_done (body : Nat → σ → σ) {i n : Nat} (s : σ) (h : n ≤ i) : forLoop body i n s = s := by
  simp [forLoop, Nat.sub_eq_zero_of_le h]

/-- What one iteration carries from `i` to `i + 1`, the loop carries from its
start to its end. -/
theorem forLoop_inv {body : Nat → σ → σ} {P : Nat → σ → Prop} {i n : Nat} {s : σ} (hi : i ≤ n) (h0 : P i s)
    (hs : ∀ k s, i ≤ k → k < n → P k s → P (k + 1) (body k s)) : P n (forLoop body i n s) := by
  induction hk : n - i generalizing i s with
  | zero =>
    obtain rfl : i = n := by omega
    rw [forLoop_done body s (Nat.le_refl i)]
    exact h0
  | succ k ih =>
    have hlt : i < n := by omega
    rw [forLoop_step body s hlt]
    exact ih hlt (hs i s (Nat.le_refl i) hlt h0) (fun m s hm => hs m s (by omega)) (by omega)

end Lib
