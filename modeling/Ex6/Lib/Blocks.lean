import Mathlib.Data.List.TakeWhile
/-!
# Streams of blocks

Several sources feed one stream, piece by piece; what a source sends is divided
into numbered blocks. `Together` says that a block arrives in one piece. It does
as long as no block is resumed after another source's piece.
-/

namespace Lib
open List
variable {α C : Type} {P : α → Prop} {l l' : List α}

/-- Those of `l` that satisfy `P` stand together. -/
def Together (P : α → Prop) (l : List α) : Prop :=
  ∃ front block back, l = front ++ block ++ back ∧ (∀ a ∈ block, P a) ∧ (∀ a ∈ front, ¬ P a) ∧ ∀ a ∈ back, ¬ P a

theorem three_sublist_append {a b c : α} (h : [a, b, c] <+ l ++ l') :
    [a, b, c] <+ l ∨ ([a, b] <+ l ∧ c ∈ l') ∨ (a ∈ l ∧ [b, c] <+ l') ∨ [a, b, c] <+ l' := by
  obtain ⟨x, y, hxy, hx, hy⟩ := sublist_append_iff.1 h
  match x, hxy with
  | [], hxy => exact .inr (.inr (.inr (by rw [hxy]; exact hy)))
  | [x], hxy =>
    simp only [singleton_append, cons.injEq] at hxy
    obtain ⟨rfl, rfl⟩ := hxy
    exact .inr (.inr (.inl ⟨singleton_sublist.1 hx, hy⟩))
  | [x, x'], hxy =>
    simp only [cons_append, nil_append, cons.injEq] at hxy
    obtain ⟨rfl, rfl, rfl⟩ := hxy
    exact .inr (.inl ⟨hx, singleton_sublist.1 hy⟩)
  | x :: x' :: x'' :: xs, hxy =>
    simp only [cons_append, cons.injEq, nil_eq_append_iff] at hxy
    obtain ⟨rfl, rfl, rfl, rfl, rfl⟩ := hxy
    exact .inl hx

/-- Elements stand together if and only if nothing else stands between two of them. -/
theorem together_iff : Together P l ↔ ∀ a b c, [a, b, c] <+ l → P a → P c → P b := by
  constructor
  · rintro ⟨front, block, back, rfl, hblock, hfront, hback⟩ a b c h ha hc
    rcases three_sublist_append h with h | ⟨-, h⟩ | ⟨-, h⟩ | h
    · rcases three_sublist_append h with h | ⟨h, -⟩ | ⟨h, -⟩ | h
      · exact absurd ha (hfront a (h.subset (by simp)))
      · exact absurd ha (hfront a (h.subset (by simp)))
      · exact absurd ha (hfront a h)
      · exact hblock b (h.subset (by simp))
    · exact absurd hc (hback c h)
    · exact absurd hc (hback c (h.subset (by simp)))
    · exact absurd hc (hback c (h.subset (by simp)))
  · intro h
    induction l with
    | nil => exact ⟨[], [], [], rfl, by simp, by simp, by simp⟩
    | cons x l ih =>
      obtain ⟨front, block, back, rfl, hblock, hfront, hback⟩ := ih fun a b c hs => h a b c (hs.cons x)
      by_cases hx : P x
      · cases front with
        | nil => exact ⟨[], x :: block, back, rfl, by simpa [hx] using hblock, hfront, hback⟩
        | cons f front =>
          cases block with
          | nil =>
            refine ⟨[], [x], f :: front ++ [] ++ back, rfl, by simpa using hx, by simp, fun a ha => ?_⟩
            rw [append_nil, mem_append] at ha
            exact ha.elim (hfront a) (hback a)
          | cons b block =>
            -- `f` stands between `x` and `b`
            have hs : [x, f, b] <+ x :: (f :: front ++ b :: block ++ back) := by simp
            exact absurd (h x f b hs hx (hblock b (by simp))) (hfront f (by simp))
      · exact ⟨x :: front, block, back, rfl, hblock, by simpa [hx] using hfront, hback⟩

/-- Leaving some out does not take the others apart. -/
theorem Together.sublist (h : Together P l) (hs : l' <+ l) : Together P l' :=
  together_iff.2 fun a b c h' => together_iff.1 h a b c (h'.trans hs)

/-! ## One piece more -/

section Feed
variable (src : α → C) (num : α → Nat) {c : C} {k : Nat} {piece : List α}

/-- Block number `k` of source `c`. -/
def Of (c : C) (k : Nat) (a : α) : Prop := src a = c ∧ num a = k

/-- If a block is resumed with what `c` sends next, the stream ends with something
from `c`. -/
def Resumes (c : C) (l next : List α) : Prop :=
  ∀ a ∈ next.head?, (∃ b ∈ l, Of src num c (num a) b) → ∃ z ∈ l.getLast?, src z = c

instance [DecidableEq C] (c : C) (k : Nat) (a : α) : Decidable (Of src num c k a) :=
  inferInstanceAs (Decidable (_ ∧ _))

instance [DecidableEq C] (c : C) (l next : List α) : Decidable (Resumes src num c l next) :=
  inferInstanceAs (Decidable (∀ a ∈ next.head?, _))

variable {src num}

/-- However much of what is next is received, it begins the same. -/
theorem resumes_take {next : List α} {n : Nat} (hn : n ≠ 0) :
    Resumes src num c l (next.take n) ↔ Resumes src num c l next := by
  unfold Resumes
  rw [head?_take, if_neg hn]

/-- Where a source sends its blocks one after the other, a block is resumed by the
last that was received. -/
theorem last_of_resumed [DecidableEq C]
    (hs : (l.filter (fun a => decide (src a = c)) ++ piece).Pairwise fun a b => num a ≤ num b)
    (hsrc : ∀ a ∈ piece, src a = c) (hr : Resumes src num c l piece) {a d : α} (hal : a ∈ l)
    (ha : Of src num c k a) (hdp : d ∈ piece) (hd : Of src num c k d) : ∃ z ∈ l.getLast?, Of src num c k z := by
  obtain ⟨hown, hpiece, hcross⟩ := pairwise_append.1 hs
  have hmem : ∀ {b}, b ∈ l → src b = c → b ∈ l.filter fun a => decide (src a = c) := fun hb hc =>
    mem_filter.2 ⟨hb, decide_eq_true hc⟩
  cases piece with
  | nil => cases hdp
  | cons x piece =>
    have hxk : num x = k := by
      have hle : num a ≤ num x := hcross a (hmem hal ha.1) x (by simp)
      have hge : num x ≤ num d := by
        rcases mem_cons.1 hdp with rfl | hdp
        · exact Nat.le_refl _
        · exact rel_of_pairwise_cons hpiece hdp
      rw [ha.2] at hle
      rw [hd.2] at hge
      omega
    obtain ⟨z, hz, hzc⟩ := hr x rfl ⟨a, hal, by rw [hxk]; exact ha⟩
    refine ⟨z, hz, hzc, ?_⟩
    obtain ⟨init, rfl⟩ := getLast?_eq_some_iff.1 hz
    have hzx : num z ≤ num x := hcross z (hmem (by simp) hzc) x (by simp)
    have haz : num a ≤ num z := by
      rcases mem_append.1 hal with hal | hal
      · rw [filter_append, pairwise_append] at hown
        exact hown.2.2 a (mem_filter.2 ⟨hal, decide_eq_true ha.1⟩) z (by simp [hzc])
      · rw [mem_singleton.1 hal]
    rw [ha.2] at haz
    omega

/-- As long as no block is resumed after another source's piece, all stand together. -/
theorem Together.feed [DecidableEq C] {c' : C} (h : Together (Of src num c' k) l) (hsrc : ∀ a ∈ piece, src a = c)
    (hs : (l.filter (fun a => decide (src a = c)) ++ piece).Pairwise fun a b => num a ≤ num b)
    (hr : Resumes src num c l piece) : Together (Of src num c' k) (l ++ piece) := by
  obtain ⟨-, hpiece, hcross⟩ := pairwise_append.1 hs
  rw [together_iff] at h ⊢
  intro a b d hsub ha hd
  have hown : d ∈ piece → c = c' := fun hdp => (hsrc d hdp).symm.trans hd.1
  rcases three_sublist_append hsub with hsub | ⟨hsub, hdp⟩ | ⟨hal, hsub⟩ | hsub
  · exact h a b d hsub ha hd
  · obtain rfl := hown hdp
    obtain ⟨z, hz, hzk⟩ := last_of_resumed hs hsrc hr (hsub.subset (by simp)) ha hdp hd
    obtain ⟨init, rfl⟩ := getLast?_eq_some_iff.1 hz
    obtain ⟨x, y, hxy, hx, hy⟩ := sublist_append_iff.1 hsub
    simp only [sublist_cons_iff, sublist_nil] at hy
    rcases hy with rfl | ⟨-, rfl, rfl⟩
    · rw [append_nil] at hxy
      subst hxy
      exact h a b z (hx.append (Sublist.refl [z])) ha hzk
    · obtain ⟨-, hbz⟩ := append_inj' (show [a] ++ [b] = x ++ [z] from hxy) rfl
      rw [(cons.inj hbz).1]
      exact hzk
  · obtain rfl := hown (hsub.subset (by simp))
    have hbp : b ∈ piece := hsub.subset (by simp)
    have hab : num a ≤ num b := hcross a (mem_filter.2 ⟨hal, decide_eq_true ha.1⟩) b hbp
    have hbd : num b ≤ num d := rel_of_pairwise_cons (hpiece.sublist hsub) (by simp)
    rw [ha.2] at hab
    rw [hd.2] at hbd
    exact ⟨hsrc b hbp, by omega⟩
  · obtain rfl := hown (hsub.subset (by simp))
    have hp := hpiece.sublist hsub
    have hab : num a ≤ num b := rel_of_pairwise_cons hp (by simp)
    have hbd : num b ≤ num d := rel_of_pairwise_cons (pairwise_cons.1 hp).2 (by simp)
    rw [ha.2] at hab
    rw [hd.2] at hbd
    exact ⟨hsrc b (hsub.subset (by simp)), by omega⟩

/-- A block that is resumed after another source's piece is torn. -/
theorem not_together_of_not_resumes (h : ¬ Resumes src num c l piece) (hsrc : ∀ a ∈ piece, src a = c) :
    ∃ k, ¬ Together (Of src num c k) (l ++ piece) := by
  simp only [Resumes, not_forall, not_exists, not_and] at h
  obtain ⟨a, ha, ⟨b, hb, hbk⟩, hlast⟩ := h
  refine ⟨num a, fun ht => ?_⟩
  rcases eq_nil_or_concat l with rfl | ⟨init, z, rfl⟩
  · cases hb
  rw [concat_eq_append] at hb hlast ht
  have hz : src z ≠ c := hlast z (by simp)
  have hbi : b ∈ init := by
    rcases mem_append.1 hb with hb | hb
    · exact hb
    · rw [mem_singleton.1 hb] at hbk
      exact absurd hbk.1 hz
  have hap : a ∈ piece := mem_of_mem_head? ha
  -- `z` stands between `b` and `a`
  have hs : [b] ++ [z] ++ [a] <+ init ++ [z] ++ piece :=
    ((singleton_sublist.2 hbi).append (Sublist.refl [z])).append (singleton_sublist.2 hap)
  exact hz (together_iff.1 ht b z a hs hbk ⟨hsrc a hap, rfl⟩).1

end Feed

end Lib
