import Ex6.Monitor
/-!
# Histories of a queue

A queue from `createQ` on, as the sequence of its calls that have returned.
`reachable_monitor` makes every interleaving of threads such a sequence, in the
order of the mutex.
-/
open Lib Ex6.Queue

namespace Ex6.QueueHistory

/-- A call that has returned; `new Node` gave `enQ` the address. -/
inductive Op (V : Type)
  | enQ (a : Addr) (member : V)
  | deQ

structure State (w : Nat) (V : Type) where
  q : queue w V
  enqueued : List V
  dequeued : List V

variable {w : Nat} {V : Type}

def start : State w V := ⟨createQ w V, [], []⟩

/-- The values enqueued and not yet dequeued, the oldest first. -/
def State.waiting (s : State w V) : List V := s.enqueued.drop s.dequeued.length

inductive Step (s : State w V) : Op V → State w V → Prop
  | enQ {a member q'} : a ∉ s.q.heap → enQ s.q a member = some q' →
      Step s (.enQ a member) ⟨q', s.enqueued ++ [member], s.dequeued⟩
  | deQ {ret q'} : blocked s.q = false → private_deQ s.q = some (ret, q') →
      Step s .deQ ⟨q', s.enqueued, s.dequeued ++ [ret]⟩

/-- One queue and the calls that return, from `createQ` on. -/
def machine (w : Nat) (V : Type) : Machine (State w V) (Op V) where
  init s := s = start
  step := Step

/-! ## The list and the counter -/

/-- The list is what has come and not gone; the counter is what has come. -/
structure Inv (s : State w V) : Prop where
  holds : ∃ xs, Holds s.q xs ∧ s.enqueued = s.dequeued ++ xs
  size : Size s.q = BitVec.ofNat w s.enqueued.length

variable {s t : State w V} {op : Op V} {ops : List (Op V)}

theorem start_inv : Inv (start : State w V) := ⟨⟨[], holds_createQ, rfl⟩, rfl⟩

theorem step_inv (h : Inv s) (hs : Step s op t) : Inv t := by
  obtain ⟨xs, hq, he⟩ := h.holds
  cases hs with
  | enQ ha hen =>
    obtain ⟨hq', hsize⟩ := hq.of_enQ ha hen
    refine ⟨⟨_, hq', by rw [he, List.append_assoc]⟩, ?_⟩
    have h0 : s.q.size = BitVec.ofNat w s.enqueued.length := h.size
    rw [Size, hsize, h0, List.length_append, List.length_singleton, BitVec.ofNat_add]
    rfl
  | deQ hb hde =>
    obtain ⟨ys, rfl, hy, hsize⟩ := hq.of_deQ hde
    exact ⟨⟨ys, hy, by rw [he]; simp⟩, hsize.trans h.size⟩

theorem reachable_inv (h : (machine w V).Reachable s) : Inv s :=
  h.inv (fun _ hi => hi ▸ start_inv) fun _ _ _ => step_inv

theorem run_inv (h : (machine w V).Run start ops s) : Inv s :=
  reachable_inv (h.reachable (.init rfl))

theorem Inv.holds_waiting (h : Inv s) : Holds s.q s.waiting := by
  obtain ⟨xs, hq, he⟩ := h.holds
  rw [State.waiting, he, List.drop_left]
  exact hq

/-- Whatever has been dequeued, the links, `top` and the next `deQ` agree. -/
theorem Inv.top_waiting (h : Inv s) : linked s.q = s.waiting ∧ top s.q = s.waiting.head? :=
  ⟨h.holds_waiting.linked_eq, top_eq h.holds_waiting⟩

/-- A `deQ` takes the value `top` reads. -/
theorem Inv.deQ_eq (h : Inv s) (hs : Step s .deQ t) : ∃ x, top s.q = some x ∧ t.dequeued = s.dequeued ++ [x] := by
  cases hs with
  | deQ hb hde =>
    obtain ⟨ys, hys, -⟩ := h.holds_waiting.of_deQ hde
    rw [top_eq h.holds_waiting, hys]
    exact ⟨_, rfl, rfl⟩

/-- Threads that hold the mutex one after the other make a history. -/
theorem reachable_monitor {T : Type} [DecidableEq T] {s : Monitor.State w V T}
    (h : (Monitor.machine w V T).Reachable s) : (machine w V).Reachable ⟨s.q, s.enqueued, s.dequeued⟩ := by
  induction h with
  | init hi => cases hi; exact .init rfl
  | step hr hs ih =>
    cases hs with
    | insert _ ha hen => exact .step ih (.enQ ha hen)
    | remove hpc hde => exact .step ih (.deQ ((Monitor.reachable_inv hr).remove _ hpc) hde)
    | _ => exact ih

/-! ## `Size` and `top` -/

/-- Every value that came or went did so in one of the calls. -/
theorem run_lengths (h : (machine w V).Run s ops t) :
    t.enqueued.length + t.dequeued.length = s.enqueued.length + s.dequeued.length + ops.length ∧
    (t.dequeued = [] ↔ s.dequeued = [] ∧ .deQ ∉ ops) := by
  induction h with
  | nil => simp
  | snoc _ hs ih =>
    cases hs with
    | enQ => exact ⟨by simp; omega, by simp [ih.2]⟩
    | deQ => exact ⟨by simp; omega, by simp⟩

/-- `Size` counts the values enqueued and not yet dequeued, which are the ones
linked, and where it is not 0 `top` reads the one the next `deQ` returns. -/
structure Agrees (s : State w V) : Prop where
  size : (Size s.q).toNat = s.waiting.length
  linked : (linked s.q).length = s.waiting.length
  readable : 0 < (Size s.q).toNat ↔ (top s.q).isSome
  oldest : 0 < (Size s.q).toNat → ∃ x, top s.q = some x ∧ s.waiting.head? = some x ∧
    (∃ t, Step s .deQ t) ∧ ∀ t, Step s .deQ t → t.dequeued = s.dequeued ++ [x]

theorem Inv.size_toNat (h : Inv s) (hlt : s.enqueued.length < 2 ^ w) : (Size s.q).toNat = s.enqueued.length := by
  rw [h.size, BitVec.toNat_ofNat, Nat.mod_eq_of_lt hlt]

theorem Inv.dequeued_length_le (h : Inv s) : s.dequeued.length ≤ s.enqueued.length := by
  obtain ⟨xs, -, he⟩ := h.holds
  rw [he, List.length_append]
  exact Nat.le_add_right _ _

/-- An `enQ` never waits. -/
theorem Inv.enQ_enabled (h : Inv s) (member : V) : ∃ a t, Step s (.enQ a member) t := by
  obtain ⟨a, q', ha, he⟩ := h.holds_waiting.exists_enQ member
  exact ⟨a, _, .enQ ha he⟩

/-- A `deQ` need not wait where there is a value and the counter has not wrapped. -/
theorem Inv.deQ_enabled (h : Inv s) {x : V} (hx : s.waiting.head? = some x) (hsize : 0 < (Size s.q).toNat) :
    ∃ t, Step s .deQ t := by
  obtain ⟨xs, hxs⟩ : ∃ xs, s.waiting = x :: xs := List.head?_eq_some_iff.1 hx
  have hq := hxs ▸ h.holds_waiting
  obtain ⟨q', hde, -⟩ := private_deQ_spec hq
  have h0 : s.q.size ≠ 0#w := fun he => by
    rw [Size, he, BitVec.toNat_zero] at hsize
    exact Nat.lt_irrefl 0 hsize
  exact ⟨_, .deQ (not_blocked hq h0) hde⟩

theorem Inv.agrees (h : Inv s) (hlt : s.enqueued.length < 2 ^ w) (hde : s.dequeued = []) : Agrees s := by
  have hw : s.waiting = s.enqueued := by rw [State.waiting, hde]; rfl
  have hsize := h.size_toNat hlt
  obtain ⟨hlinked, htop⟩ := h.top_waiting
  refine ⟨by rw [hsize, hw], by rw [hlinked], ?_, fun hpos => ?_⟩
  · rw [hsize, htop, hw, List.length_pos_iff, Option.isSome_iff_ne_none, Ne, Ne, List.head?_eq_none_iff]
  · obtain ⟨x, hx⟩ : ∃ x, s.waiting.head? = some x := by
      rw [← Option.isSome_iff_exists, Option.isSome_iff_ne_none, Ne, List.head?_eq_none_iff, hw, ← Ne,
        ← List.length_pos_iff, ← hsize]
      exact hpos
    refine ⟨x, htop.trans hx, hx, h.deQ_enabled hx hpos, fun t ht => ?_⟩
    obtain ⟨y, hy, hd⟩ := h.deQ_eq ht
    obtain rfl := Option.some.inj (hy.symm.trans (htop.trans hx))
    exact hd

/-- `Size` and `top` agree with the queue as long as nothing has been dequeued:
the counter is never taken down. -/
theorem size_agrees_iff (h : (machine w V).Run start ops s) (hlt : ops.length < 2 ^ w) : Agrees s ↔ .deQ ∉ ops := by
  obtain ⟨hlen, hde⟩ := run_lengths h
  have hinv := run_inv h
  have henq : s.enqueued.length < 2 ^ w := by simp only [start, List.length_nil] at hlen; omega
  constructor
  · intro ha
    have hsize := ha.size
    rw [hinv.size_toNat henq, State.waiting, List.length_drop] at hsize
    have hle := hinv.dequeued_length_le
    have h0 : s.dequeued = [] := List.length_eq_zero_iff.1 (by omega)
    exact (hde.1 h0).2
  · intro hno
    exact hinv.agrees henq (hde.2 ⟨rfl, hno⟩)

/-- One value, which goes to a node at address 0. -/
theorem enQ_run : (machine 64 Nat).Run start [.enQ 0 5]
    ⟨⟨(∅ : Heap Nat).insert 0 ⟨5, none⟩, some 0, 1⟩, [5], []⟩ :=
  .single (Step.enQ (by simp [start, createQ]) rfl)

/-- One value is enqueued and dequeued, and its node stays. -/
theorem enQ_deQ_run : (machine 64 Nat).Run start [.enQ 0 5, .deQ]
    ⟨⟨(∅ : Heap Nat).insert 0 ⟨5, none⟩, none, 1⟩, [5], [5]⟩ :=
  .snoc enQ_run (Step.deQ rfl rfl)

/-- Three values, of which the first is dequeued. -/
theorem three_run : ∃ s t : State 64 Nat, (machine 64 Nat).Run start [.enQ 0 5, .enQ 1 6, .enQ 2 7] s ∧
    Step s .deQ t ∧ s.waiting = [5, 6, 7] ∧ t.waiting = [6, 7] ∧ t.dequeued = [5] ∧
    Seg (cell s.q.heap) s.q.head [(0, 5), (1, 6), (2, 7)] none := by
  have r := enQ_run.snoc (@Step.enQ _ _ _ 1 6 _ (by decide) rfl)
  have r := r.snoc (@Step.enQ _ _ _ 2 7 _ (by decide) rfl)
  exact ⟨_, _, r, .deQ rfl rfl, rfl, rfl, rfl, rfl, _, rfl, rfl, _, rfl, rfl, _, rfl, rfl⟩

theorem size_agrees_iff_three : ∃ s : State 64 Nat,
    (machine 64 Nat).Run start [.enQ 0 5, .enQ 1 6, .enQ 2 7] s ∧ s.waiting = [5, 6, 7] ∧ Agrees s := by
  obtain ⟨s, -, r, -, hwaiting, -⟩ := three_run
  exact ⟨s, r, hwaiting, (size_agrees_iff r (by decide)).2 (by simp)⟩

/-- With its one value dequeued the queue is empty and `Size` is 1. -/
theorem size_after_deQ : ¬ ∀ (ops : List (Op Nat)) (s : State 64 Nat),
    (machine 64 Nat).Run start ops s → ops.length < 2 ^ 64 → Agrees s := by
  intro h
  have hsize := (h _ _ enQ_deQ_run (by decide)).size
  exact absurd hsize (by decide)

end Ex6.QueueHistory
