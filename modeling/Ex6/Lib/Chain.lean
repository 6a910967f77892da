import Mathlib.Data.List.Nodup
/-!
# Chains in a memory

`cell a` is what the memory holds at address `a`: a payload and a link, or
nothing. `Seg cell p l q`: following the links from `p` visits exactly the
cells `l` (address and payload) and arrives at `q`. A null-terminated chain is
a segment that arrives at `none`.
-/

namespace Lib

variable {α β : Type}

/-- The cells `l` link `p` to `q`. -/
def Seg (cell : α → Option (β × Option α)) : Option α → List (α × β) → Option α → Prop
  | p, [], q => p = q
  | p, x :: l, q => p = some x.1 ∧ ∃ next, cell x.1 = some (x.2, next) ∧ Seg cell next l q

namespace Seg
variable {cell cell' : α → Option (β × Option α)} {p q : Option α}

theorem append_iff {l l' : List (α × β)} :
    Seg cell p (l ++ l') q ↔ ∃ r, Seg cell p l r ∧ Seg cell r l' q := by
  induction l generalizing p with
  | nil => simp [Seg]
  | cons x l ih =>
    simp only [List.cons_append, Seg, ih]
    constructor
    · rintro ⟨hp, next, hc, r, hl, hr⟩
      exact ⟨r, ⟨hp, next, hc, hl⟩, hr⟩
    · rintro ⟨r, ⟨hp, next, hc, hl⟩, hr⟩
      exact ⟨hp, next, hc, r, hl, hr⟩

/-- Memory that holds the same cells holds the same segment. -/
theorem congr {l : List (α × β)} (h : Seg cell p l q) (hc : ∀ x ∈ l, cell' x.1 = cell x.1) : Seg cell' p l q := by
  induction l generalizing p with
  | nil => exact h
  | cons x l ih =>
    obtain ⟨hp, next, hx, hl⟩ := h
    exact ⟨hp, next, by rw [hc x (by simp), hx], ih hl (fun y hy => hc y (by simp [hy]))⟩

/-- A null-terminated chain is determined by where it starts. -/
theorem unique {l l' : List (α × β)} (h : Seg cell p l none) (h' : Seg cell p l' none) : l = l' := by
  induction l generalizing p l' with
  | nil =>
    cases l' with
    | nil => rfl
    | cons y l' => obtain ⟨hp, -⟩ := h'; rw [h] at hp; cases hp
  | cons x l ih =>
    obtain ⟨hp, next, hx, hl⟩ := h
    cases l' with
    | nil => rw [h'] at hp; cases hp
    | cons y l' =>
      obtain ⟨hp', next', hy, hl'⟩ := h'
      have h1 : x.1 = y.1 := Option.some.inj (hp.symm.trans hp')
      rw [h1, hy, Option.some.injEq, Prod.mk.injEq] at hx
      obtain ⟨h2, rfl⟩ := hx
      rw [ih hl hl', Prod.ext h1 h2.symm]

/-- A null-terminated chain never comes back to a cell. -/
theorem nodup {l : List (α × β)} (h : Seg cell p l none) : (l.map Prod.fst).Nodup := by
  induction l generalizing p with
  | nil => simp
  | cons x l ih =>
    obtain ⟨-, next, hx, hl⟩ := id h
    refine List.nodup_cons.2 ⟨fun hm => ?_, ih hl⟩
    obtain ⟨y, hy, hyx⟩ := List.mem_map.1 hm
    obtain ⟨l1, l2, rfl⟩ := List.append_of_mem hy
    obtain ⟨r, -, hr⟩ := append_iff.1 hl
    -- the chain from the second visit on is also the chain from the first
    have hsame : x :: (l1 ++ y :: l2) = y :: l2 := unique h (by
      have : r = p := by rw [hr.1, h.1, hyx]
      exact this ▸ hr)
    have := congrArg List.length hsame
    simp at this
    omega

theorem cell_of_mem {l : List (α × β)} (h : Seg cell p l q) {x : α × β} (hx : x ∈ l) :
    ∃ next, cell x.1 = some (x.2, next) := by
  obtain ⟨l1, l2, rfl⟩ := List.append_of_mem hx
  obtain ⟨r, -, hr⟩ := append_iff.1 h
  obtain ⟨-, next, hc, -⟩ := hr
  exact ⟨next, hc⟩

theorem eq_nil_iff {l : List (α × β)} (h : Seg cell p l none) : p = none ↔ l = [] := by
  cases l with
  | nil => exact iff_of_true h rfl
  | cons x l => exact iff_of_false (by rw [h.1]; simp) (by simp)

/-- The last cell of a null-terminated chain has a null link. -/
theorem last_cell {l : List (α × β)} {z : α × β} (h : Seg cell p (l ++ [z]) none) : cell z.1 = some (z.2, none) := by
  obtain ⟨r, -, -, next, hc, hn⟩ := append_iff.1 h
  cases hn
  exact hc

/-- Linking a new last cell after the old one extends the chain. -/
theorem snoc {l : List (α × β)} {z b : α × β} (h : Seg cell p (l ++ [z]) none) (hl : ∀ x ∈ l, cell' x.1 = cell x.1)
    (hz : cell' z.1 = some (z.2, some b.1)) (hb : cell' b.1 = some (b.2, none)) :
    Seg cell' p (l ++ [z] ++ [b]) none := by
  obtain ⟨r, h1, hr, -⟩ := append_iff.1 h
  rw [List.append_assoc]
  exact append_iff.2 ⟨r, h1.congr hl, hr, some b.1, hz, rfl, none, hb, rfl⟩

end Seg

end Lib
