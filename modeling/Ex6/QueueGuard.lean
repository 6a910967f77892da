import Ex6.QueueHistory
/-!
# What `deQ` waits on

`enQ` counts `size` up, modulo 2^w, and `deQ` does not count it down, so the
guard `deQ` waits on compares with 0 the number of values that have ever come.
`guard_exact_iff` says after which calls it still tells an empty list from one
that is not, and so whether a consumer can fall asleep with a value there.
-/
open Lib Ex6.Queue

namespace Ex6.QueueHistory

def Op.isEnQ {V : Type} : Op V → Bool
  | .enQ _ _ => true
  | .deQ => false

variable {w : Nat} {V : Type} {s t : State w V} {ops : List (Op V)}

/-- How many of the calls are `enQ`, and how many `deQ`. -/
def enQs (ops : List (Op V)) : Nat := ops.countP Op.isEnQ

def deQs (ops : List (Op V)) : Nat := ops.countP fun op => !op.isEnQ

@[simp] theorem enQs_enQ (ops : List (Op V)) (a : Addr) (member : V) :
    enQs (ops ++ [.enQ a member]) = enQs ops + 1 := by
  simp [enQs, Op.isEnQ]

@[simp] theorem enQs_deQ (ops : List (Op V)) : enQs (ops ++ [.deQ]) = enQs ops := by
  simp [enQs, Op.isEnQ]

@[simp] theorem deQs_enQ (ops : List (Op V)) (a : Addr) (member : V) : deQs (ops ++ [.enQ a member]) = deQs ops := by
  simp [deQs, Op.isEnQ]

@[simp] theorem deQs_deQ (ops : List (Op V)) : deQs (ops ++ [.deQ]) = deQs ops + 1 := by
  simp [deQs, Op.isEnQ]

/-- Each call brings or takes one value. -/
theorem run_counts (h : (machine w V).Run s ops t) :
    t.enqueued.length = s.enqueued.length + enQs ops ∧ t.dequeued.length = s.dequeued.length + deQs ops := by
  induction h with
  | nil => simp [enQs, deQs]
  | snoc _ hs ih =>
    obtain ⟨hen, hde⟩ := ih
    cases hs with
    | enQ => exact ⟨by simp; omega, by simp [hde]⟩
    | deQ => exact ⟨by simp [hen], by simp; omega⟩

theorem start_counts (h : (machine w V).Run start ops s) :
    s.enqueued.length = enQs ops ∧ s.dequeued.length = deQs ops := by
  simpa [start] using run_counts h

/-! ## When the guard is right -/

theorem Inv.waiting_eq_nil_iff (h : Inv s) : s.waiting = [] ↔ s.enqueued.length = s.dequeued.length := by
  have hle := h.dequeued_length_le
  rw [State.waiting, List.drop_eq_nil_iff]
  omega

theorem Inv.size_eq_zero_iff (h : Inv s) : s.q.size = 0 ↔ 2 ^ w ∣ s.enqueued.length := by
  have hsize : s.q.size = BitVec.ofNat w s.enqueued.length := h.size
  rw [hsize, Nat.dvd_iff_mod_eq_zero, ← BitVec.toNat_ofNat]
  constructor
  · intro h0
    rw [h0]
    rfl
  · intro h0
    exact BitVec.eq_of_toNat_eq (h0.trans BitVec.toNat_zero.symm)

/-- The guard is about the values that have come, where it should be about those
that wait. -/
theorem Inv.blocked_iff (h : Inv s) : blocked s.q = true ↔ 2 ^ w ∣ s.enqueued.length ∨ s.waiting = [] := by
  unfold blocked
  rw [Bool.or_eq_true, decide_eq_true_iff, h.size_eq_zero_iff, Option.isNone_iff_eq_none, h.holds_waiting.head_eq_none]

/-- The guard holds where the list is empty and nowhere else: a value that is there
lets the next `deQ` pass, and a thread that goes to sleep leaves none behind. -/
structure Exact (s : State w V) : Prop where
  guard : blocked s.q = true ↔ linked s.q = []
  passes : s.waiting ≠ [] → ∃ t, Step s .deQ t
  asleep : ∀ (T : Type) [DecidableEq T] (m m' : Monitor.State w V T) (t : T), (Monitor.machine w V T).Reachable m →
    m.q = s.q → Monitor.Step m (t, .wait) m' → linked s.q = []

theorem Inv.exact_iff (h : Inv s) :
    Exact s ↔ ¬ 2 ^ w ∣ s.enqueued.length ∨ s.enqueued.length = s.dequeued.length := by
  have hlinked := h.top_waiting.1
  rw [← h.waiting_eq_nil_iff]
  constructor
  · intro he
    by_contra hno
    rw [not_or, not_not] at hno
    have hempty := he.guard.1 (h.blocked_iff.2 (.inl hno.1))
    exact hno.2 (hlinked ▸ hempty)
  · intro hor
    have hguard : blocked s.q = true ↔ linked s.q = [] := by
      rw [h.blocked_iff, hlinked]
      tauto
    refine ⟨hguard, fun hne => ?_, fun T _ m m' t hm hq hs => ?_⟩
    · obtain ⟨x, xs, hx⟩ := List.exists_cons_of_ne_nil hne
      refine h.deQ_enabled (x := x) (by rw [hx]; rfl) (Nat.pos_of_ne_zero fun h0 => ?_)
      have hdvd := h.size_eq_zero_iff.1 (BitVec.eq_of_toNat_eq (h0.trans BitVec.toNat_zero.symm))
      exact hor.elim (fun hn => hn hdvd) hne
    · -- it holds the mutex between the test and the wait
      cases hs with
      | wait hpc => exact hguard.1 (hq ▸ (Monitor.reachable_inv hm).wait t hpc)

/-- The guard is exact as long as the number of values that have come is no multiple
of 2^w, or all of them are gone. -/
theorem guard_exact_iff (h : (machine w V).Run start ops s) : Exact s ↔ ¬ 2 ^ w ∣ enQs ops ∨ enQs ops = deQs ops := by
  obtain ⟨hen, hde⟩ := start_counts h
  rw [(run_inv h).exact_iff, hen, hde]

/-- One of three values is gone, and two would be found; or all are gone, and none. -/
theorem guard_exact_iff_three :
    (∃ t : State 64 Nat, (machine 64 Nat).Run start [.enQ 0 5, .enQ 1 6, .enQ 2 7, .deQ] t ∧ t.waiting = [6, 7] ∧
      Exact t) ∧
    ∃ t : State 64 Nat, (machine 64 Nat).Run start [.enQ 0 5, .deQ] t ∧ t.waiting = [] ∧ Exact t := by
  constructor
  · obtain ⟨s, t, r, hde, -, hwaiting, -⟩ := three_run
    have r := r.snoc hde
    exact ⟨t, r, hwaiting, (guard_exact_iff r).2 (.inl (by decide))⟩
  · exact ⟨_, enQ_deQ_run, rfl, (guard_exact_iff enQ_deQ_run).2 (.inr rfl)⟩

/-! ## A run that wraps the counter -/

/-- At every point of the run the list has fewer than 2^w values. -/
def Short (w : Nat) (ops : List (Op V)) : Prop :=
  ∀ pre u, pre <+: ops → (machine w V).Run start pre u → (linked u.q).length < 2 ^ w

theorem linked_length (h : (machine w V).Run start ops s) : (linked s.q).length = enQs ops - deQs ops := by
  obtain ⟨hen, hde⟩ := start_counts h
  rw [(run_inv h).top_waiting.1, State.waiting, List.length_drop, hen, hde]

/-- A value goes before the next one comes, as long as the counter has not wrapped. -/
theorem exists_paired (member : V) {n : Nat} (hn : n < 2 ^ w) :
    ∃ (ops : List (Op V)) (s : State w V), (machine w V).Run start ops s ∧ enQs ops = n ∧ deQs ops = n ∧
      ∀ pre, pre <+: ops → enQs pre ≤ deQs pre + 1 := by
  induction n with
  | zero =>
    refine ⟨[], start, .nil _, rfl, rfl, fun pre hpre => ?_⟩
    rw [List.prefix_nil.1 hpre]
    exact Nat.zero_le _
  | succ n ih =>
    obtain ⟨ops, s, hr, hen, hde, hpre⟩ := ih (Nat.lt_of_succ_lt hn)
    obtain ⟨a, t, ht⟩ := (run_inv hr).enQ_enabled member
    have hrt : (machine w V).Run start (ops ++ [.enQ a member]) t := hr.snoc ht
    have hinvt := run_inv hrt
    obtain ⟨hlen, hlen'⟩ := start_counts hrt
    rw [enQs_enQ, hen] at hlen
    rw [deQs_enQ, hde] at hlen'
    have hexact : Exact t := by
      rw [hinvt.exact_iff, hlen]
      exact .inl (Nat.not_dvd_of_pos_of_lt (Nat.succ_pos n) hn)
    obtain ⟨u, hu⟩ := hexact.passes (by rw [Ne, hinvt.waiting_eq_nil_iff]; omega)
    refine ⟨ops ++ [.enQ a member] ++ [.deQ], u, hrt.snoc hu, by rw [enQs_deQ, enQs_enQ, hen],
      by rw [deQs_deQ, deQs_enQ, hde], fun pre hp => ?_⟩
    rcases List.prefix_concat_iff.1 hp with rfl | hp
    · rw [enQs_deQ, deQs_deQ, enQs_enQ, deQs_enQ, hen, hde]
      omega
    · rcases List.prefix_concat_iff.1 hp with rfl | hp
      · rw [enQs_enQ, deQs_enQ, hen, hde]
      · exact hpre pre hp

/-- One more value, and the counter is back at 0 with that value linked. -/
theorem exists_wrapped (member : V) (hw : 1 < 2 ^ w) :
    ∃ (ops : List (Op V)) (s : State w V), (machine w V).Run start ops s ∧ Short w ops ∧ 2 ^ w ∣ enQs ops ∧
      enQs ops ≠ deQs ops := by
  obtain ⟨ops, s, hr, hen, hde, hpre⟩ := exists_paired (w := w) member (n := 2 ^ w - 1) (by omega)
  obtain ⟨a, t, ht⟩ := (run_inv hr).enQ_enabled member
  have hrt : (machine w V).Run start (ops ++ [.enQ a member]) t := hr.snoc ht
  have hcount : enQs (ops ++ [.enQ a member]) = 2 ^ w := by
    rw [enQs_enQ, hen]
    omega
  refine ⟨_, t, hrt, fun pre u hp hu => ?_, hcount ▸ Nat.dvd_refl _, ?_⟩
  · rw [linked_length hu]
    rcases List.prefix_concat_iff.1 hp with rfl | hp
    · rw [hcount, deQs_enQ, hde]
      omega
    · have hle := hpre pre hp
      omega
  · rw [hcount, deQs_enQ, hde]
    omega

/-- With 2^64 values enqueued one at a time and all but the last dequeued, `deQ`
goes to sleep on the last one. -/
theorem guard_after_wrap : ¬ ∀ (ops : List (Op Nat)) (s : State 64 Nat),
    (machine 64 Nat).Run start ops s → Short 64 ops → Exact s := by
  intro h
  obtain ⟨ops, s, hr, hshort, hdvd, hne⟩ := exists_wrapped (w := 64) (V := Nat) 5 (by decide)
  have hor := (run_inv hr).exact_iff.1 (h ops s hr hshort)
  rw [(start_counts hr).1, (start_counts hr).2] at hor
  exact hor.elim (fun hn => hn hdvd) hne

end Ex6.QueueHistory
