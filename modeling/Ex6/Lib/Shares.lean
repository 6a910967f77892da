import Mathlib.Algebra.Order.BigOperators.Group.Finset
/-!
# Sums over threads

What the threads of a program have between them is a sum of shares. A step of
one thread changes its own share, and may raise every other by a constant.
-/

namespace Lib

variable {T M : Type} [Fintype T] [DecidableEq T] {t : T}

/-- What `t` takes from a common store or gives to it is what the store changes by. -/
theorem sum_step [AddCommMonoid M] {f g : T → M} {a b : M} (hu : ∀ u, u ≠ t → g u = f u)
    (ht : a + g t = b + f t) : a + ∑ u, g u = b + ∑ u, f u := by
  have he : ∑ u ∈ Finset.univ.erase t, g u = ∑ u ∈ Finset.univ.erase t, f u :=
    Finset.sum_congr rfl fun u hmem => hu u (Finset.ne_of_mem_erase hmem)
  rw [← Finset.add_sum_erase _ g (Finset.mem_univ t), ← Finset.add_sum_erase _ f (Finset.mem_univ t), he,
    ← add_assoc, ht, add_assoc]

/-- A step that raises the others' shares pays for all of them. -/
theorem sum_spread {f g : T → Nat} {a b d : Nat} (hu : ∀ u, u ≠ t → g u ≤ f u + d)
    (ht : g t + a + Fintype.card T * d ≤ f t + b) : ∑ u, g u + a ≤ ∑ u, f u + b := by
  have hle : ∑ u ∈ Finset.univ.erase t, g u ≤ ∑ u ∈ Finset.univ.erase t, (f u + d) :=
    Finset.sum_le_sum fun u hmem => hu u (Finset.ne_of_mem_erase hmem)
  have hcard : (Finset.univ.erase t).card * d ≤ Fintype.card T * d :=
    Nat.mul_le_mul_right _ (Finset.card_le_univ _)
  rw [Finset.sum_add_distrib, Finset.sum_const_nat fun _ _ => rfl] at hle
  rw [← Finset.add_sum_erase _ g (Finset.mem_univ t), ← Finset.add_sum_erase _ f (Finset.mem_univ t)]
  omega

end Lib
