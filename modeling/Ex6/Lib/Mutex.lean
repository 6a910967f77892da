import Mathlib.Logic.Function.Basic
/-!
# A mutex and the threads it keeps apart

Each thread `t` is at a place `pc t` of its code, some of them inside a
critical section. `Owned` says that the mutex's owner, if any, is the one
thread inside. The lemmas below say that it is kept by a step that stays on
its side of the section's border, by one that takes the free mutex to enter,
and by one that leaves and releases it.
-/

namespace Lib

variable {T P : Type} {inside : P → Bool} {pc : T → P} {owner : Option T}

/-- The owner of the mutex is exactly the thread inside. -/
def Owned (inside : P → Bool) (pc : T → P) (owner : Option T) : Prop := ∀ t, inside (pc t) = true ↔ owner = some t

namespace Owned

/-- Two threads inside are one. -/
theorem unique (h : Owned inside pc owner) {t u : T} (ht : inside (pc t) = true) (hu : inside (pc u) = true) :
    u = t := by
  rw [h t] at ht
  rw [h u, ht] at hu
  exact (Option.some.inj hu).symm

theorem owner_eq (h : Owned inside pc owner) {t : T} (ht : inside (pc t) = true) : owner = some t := (h t).1 ht

theorem outside (h : Owned inside pc none) (t : T) : inside (pc t) = false := by
  rw [← Bool.not_eq_true, h t]; simp

/-- Moving every thread without crossing the border changes nothing. -/
theorem map {f : P → P} (h : Owned inside pc owner) (hf : ∀ p, inside (f p) = inside p) :
    Owned inside (fun t => f (pc t)) owner := by
  intro u; rw [hf]; exact h u

variable [DecidableEq T] {t : T} {p : P}

/-- A step outside does not move the owner. -/
theorem map_update (h : Owned inside pc owner) (ht : inside (pc t) = false) :
    owner.map (Function.update pc t p) = owner.map pc := by
  cases owner with
  | none => rfl
  | some u =>
    have hu : u ≠ t := fun hut => by
      rw [← hut, (h u).2 rfl] at ht; cases ht
    simp [Function.update_of_ne hu]

theorem keep (h : Owned inside pc owner) (hp : inside p = inside (pc t)) :
    Owned inside (Function.update pc t p) owner := by
  intro u
  by_cases hu : u = t
  · subst hu; rw [Function.update_self, hp]; exact h u
  · rw [Function.update_of_ne hu]; exact h u

theorem acquire (h : Owned inside pc none) (hp : inside p = true) : Owned inside (Function.update pc t p) (some t) := by
  intro u
  by_cases hu : u = t
  · subst hu; simp [hp]
  · rw [Function.update_of_ne hu, h u]; simp [Ne.symm hu]

theorem release (h : Owned inside pc owner) (ht : inside (pc t) = true) (hp : inside p = false) :
    Owned inside (Function.update pc t p) none := by
  intro u
  by_cases hu : u = t
  · subst hu; simp [hp]
  · rw [Function.update_of_ne hu, h u, h.owner_eq ht]; simp [Ne.symm hu]

end Owned

end Lib
