import Mathlib.Data.List.Nodup
/-!
# Lines of workers over shared memory

Items move along a line and come out at its end; there is one line for each
`c : C`. The content of an item is in memory, where workers change it in place,
step by step. `rest` is what is still to be made of the content, so `image` is
what will come out, given the memory as it is.

`Balanced` says that what has come out of a line followed by the images of what
is on it is what is due from it, and that no two items share memory. It is kept
when an item comes in with memory of its own, when a worker does part of an
item's work, and when the first item leaves.
-/

namespace Lib
variable {C B μ ω : Type}

structure Item (B μ ω : Type) where
  buf : B
  rest : μ → ω

namespace Item

/-- What will come out for the item. -/
def image (mem : B → μ) (x : Item B μ ω) : ω := x.rest (mem x.buf)

theorem image_congr {mem mem' : B → μ} {x : Item B μ ω} (h : mem' x.buf = mem x.buf) : x.image mem' = x.image mem := by
  rw [image, image, h]

end Item

/-- `items c` are on the line of `c`, the first to come out in front. -/
structure Balanced (mem : B → μ) (items : C → List (Item B μ ω)) (out due : C → List ω) : Prop where
  total : ∀ c, out c ++ (items c).map (Item.image mem) = due c
  nodup : ∀ c, ((items c).map Item.buf).Nodup
  apart : ∀ c c', c ≠ c' → ∀ x ∈ items c, ∀ y ∈ items c', x.buf ≠ y.buf

namespace Balanced
variable {mem mem' : B → μ} {items items' : C → List (Item B μ ω)} {out out' due due' : C → List ω} {c : C}
  {x a : Item B μ ω} {xs ys : List (Item B μ ω)}

theorem empty (mem : B → μ) : Balanced mem (fun _ : C => ([] : List (Item B μ ω))) (fun _ => []) (fun _ => []) where
  total _ := rfl
  nodup _ := List.nodup_nil
  apart _ _ _ _ h := by cases h

/-- The images of a list do not depend on memory none of its items is in. -/
theorem images_congr (xs : List (Item B μ ω)) (h : ∀ y ∈ xs, mem' y.buf = mem y.buf) :
    xs.map (Item.image mem') = xs.map (Item.image mem) :=
  List.map_congr_left fun y hy => Item.image_congr (h y hy)

/-- An item comes in, with memory that no item is in. -/
theorem enter (h : Balanced mem items out due) (hfresh : ∀ c, ∀ y ∈ items c, y.buf ≠ x.buf)
    (hmem : ∀ b, b ≠ x.buf → mem' b = mem b) (hc : items' c = items c ++ [x])
    (hother : ∀ c', c' ≠ c → items' c' = items c') (hdue : due' c = due c ++ [x.image mem'])
    (hdue' : ∀ c', c' ≠ c → due' c' = due c') : Balanced mem' items' out due' where
  total c' := by
    have hsame := images_congr (items c') fun y hy => hmem y.buf (hfresh c' y hy)
    by_cases he : c' = c
    · subst he
      rw [hc, hdue, List.map_append, hsame, ← List.append_assoc, h.total]
      rfl
    · rw [hother c' he, hdue' c' he, hsame, h.total]
  nodup c' := by
    by_cases he : c' = c
    · subst he
      rw [hc, List.map_append, List.nodup_append]
      refine ⟨h.nodup c', by simp, ?_⟩
      intro b hb b' hb'
      obtain ⟨y, hy, rfl⟩ := List.mem_map.1 hb
      simp only [List.map_cons, List.map_nil, List.mem_singleton] at hb'
      rw [hb']
      exact hfresh c' y hy
    · rw [hother c' he]; exact h.nodup c'
  apart c1 c2 hne y hy z hz := by
    by_cases h1 : c1 = c
    · subst h1
      rw [hother c2 (Ne.symm hne)] at hz
      rw [hc, List.mem_append, List.mem_singleton] at hy
      rcases hy with hy | rfl
      · exact h.apart _ _ hne y hy z hz
      · exact (hfresh c2 z hz).symm
    · rw [hother c1 h1] at hy
      by_cases h2 : c2 = c
      · subst h2
        rw [hc, List.mem_append, List.mem_singleton] at hz
        rcases hz with hz | rfl
        · exact h.apart _ _ hne y hy z hz
        · exact hfresh c1 y hy
      · rw [hother c2 h2] at hz
        exact h.apart _ _ hne y hy z hz

/-- The other items of its line are not in an item's memory. -/
theorem others (h : Balanced mem items out due) (hc : items c = xs ++ x :: ys) :
    (∀ y ∈ xs, y.buf ≠ x.buf) ∧ ∀ y ∈ ys, y.buf ≠ x.buf := by
  have hn := h.nodup c
  rw [hc, List.map_append, List.map_cons, List.nodup_append, List.nodup_cons] at hn
  obtain ⟨-, ⟨hx, -⟩, hd⟩ := hn
  exact ⟨fun y hy => hd _ (List.mem_map_of_mem hy) _ (by simp), fun y hy he => hx (he ▸ List.mem_map_of_mem hy)⟩

/-- A worker does part of an item's work, in the item's own memory. -/
theorem work (h : Balanced mem items out due) (hc : items c = xs ++ x :: ys) (hbuf : a.buf = x.buf)
    (himage : a.image mem' = x.image mem) (hmem : ∀ b, b ≠ x.buf → mem' b = mem b)
    (hc' : items' c = xs ++ a :: ys) (hother : ∀ c', c' ≠ c → items' c' = items c') :
    Balanced mem' items' out due where
  total c' := by
    by_cases he : c' = c
    · subst he
      obtain ⟨hx, hy⟩ := h.others hc
      rw [← h.total, hc', hc, List.map_append, List.map_append, List.map_cons, List.map_cons, himage,
        images_congr xs fun y hm => hmem y.buf (hx y hm), images_congr ys fun y hm => hmem y.buf (hy y hm)]
    · have hxc : x ∈ items c := by rw [hc]; simp
      rw [hother c' he, ← h.total c']
      congr 1
      exact images_congr _ fun y hm => hmem y.buf (h.apart c' c he y hm x hxc)
  nodup c' := by
    by_cases he : c' = c
    · subst he
      have hn := h.nodup c'
      rw [hc, List.map_append, List.map_cons] at hn
      rw [hc', List.map_append, List.map_cons, hbuf]
      exact hn
    · rw [hother c' he]; exact h.nodup c'
  apart c1 c2 hne y hy z hz := by
    -- whatever is on a line now was there before, perhaps as `x`
    have hmem' : ∀ c', ∀ y ∈ items' c', ∃ y' ∈ items c', y'.buf = y.buf := by
      intro c' y hy
      by_cases he : c' = c
      · subst he
        rw [hc', List.mem_append, List.mem_cons] at hy
        rw [hc]
        rcases hy with hy | rfl | hy
        · exact ⟨y, by simp [hy], rfl⟩
        · exact ⟨x, by simp, hbuf.symm⟩
        · exact ⟨y, by simp [hy], rfl⟩
      · rw [hother c' he] at hy
        exact ⟨y, hy, rfl⟩
    obtain ⟨y', hy', ey⟩ := hmem' c1 y hy
    obtain ⟨z', hz', ez⟩ := hmem' c2 z hz
    rw [← ey, ← ez]
    exact h.apart c1 c2 hne y' hy' z' hz'

/-- The first item comes out, as what it has become. -/
theorem deliver (h : Balanced mem items out due) (hc : items c = x :: xs) (hc' : items' c = xs)
    (hother : ∀ c', c' ≠ c → items' c' = items c') (hout : out' c = out c ++ [x.image mem])
    (hout' : ∀ c', c' ≠ c → out' c' = out c') : Balanced mem items' out' due where
  total c' := by
    by_cases he : c' = c
    · subst he
      rw [← h.total, hc', hc, hout, List.map_cons, List.append_assoc]
      rfl
    · rw [hother c' he, hout' c' he, h.total]
  nodup c' := by
    by_cases he : c' = c
    · subst he
      have hn := h.nodup c'
      rw [hc, List.map_cons, List.nodup_cons] at hn
      rw [hc']
      exact hn.2
    · rw [hother c' he]; exact h.nodup c'
  apart c1 c2 hne y hy z hz := by
    have hmem' : ∀ c', ∀ y ∈ items' c', y ∈ items c' := by
      intro c' y hy
      by_cases he : c' = c
      · subst he
        rw [hc'] at hy
        rw [hc]
        exact List.mem_cons_of_mem x hy
      · rwa [hother c' he] at hy
    exact h.apart c1 c2 hne y (hmem' c1 y hy) z (hmem' c2 z hz)

end Balanced

end Lib
