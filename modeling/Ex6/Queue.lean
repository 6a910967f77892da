import Mathlib.Data.Fintype.EquivFin
import Mathlib.Data.List.AList
import Mathlib.Data.List.Perm.Subperm
import Ex6.Lib.Chain
/-!
# The queue

The queue is a singly linked list in a heap of nodes. The functions below run
what the source runs while it holds the queue's mutex; `Holds q xs` says that
the nodes linked from `head` are a null-terminated chain with the values `xs`,
and the spec lemmas say what each function does to `xs`.
-/
open Lib

namespace Ex6

/-- An address the allocator hands out. -/
abbrev Addr := Nat

namespace Queue

structure Node (V : Type) where
  current : V
  next : Option Addr
deriving Repr, DecidableEq

/-- The nodes allocated and not deleted, by address. -/
abbrev Heap (V : Type) := AList (fun _ : Addr => Node V)

end Queue

/-- `class queue`: `size_t` has `w` bits. The mutex and the condition variable
are in the threads' model. -/
structure queue (w : Nat) (V : Type) where
  heap : Queue.Heap V
  head : Option Addr
  size : BitVec w

namespace Queue
variable {w : Nat} {V : Type}

/-- `queue::queue`, `createQ`. -/
def createQ (w : Nat) (V : Type) : queue w V := ⟨∅, none, 0⟩

/-- `while(curr->next != nullptr) curr = curr->next;` from `curr`, undefined on
a node that is not there. -/
def find_tail (heap : Heap V) : Nat → Addr → Option Addr
  | 0, _ => none
  | fuel + 1, curr =>
    match heap.lookup curr with
    | none => none
    | some n =>
      match n.next with
      | none => some curr
      | some next => find_tail heap fuel next

/-- `enQ` between the lock and the broadcast, where `new Node` returns `a`. No
chain of distinct nodes is longer than the heap, which bounds the walk. -/
def enQ (q : queue w V) (a : Addr) (member : V) : Option (queue w V) :=
  let size := q.size + 1
  match q.head with
  | none => some ⟨q.heap.insert a ⟨member, none⟩, some a, size⟩
  | some head => do
    let curr ← find_tail q.heap q.heap.keys.length head
    let heap := q.heap.insert a ⟨member, none⟩
    let node ← heap.lookup curr
    some ⟨heap.insert curr { node with next := some a }, q.head, size⟩

/-- `private_deQ`: undefined when `head` is null. It leaves `size` and the
node it unlinks as they are. -/
def private_deQ (q : queue w V) : Option (V × queue w V) := do
  let ret ← q.head
  let node ← q.heap.lookup ret
  some (node.current, { q with head := node.next })

/-- `this->size == 0 || !this->head`, what `deQ` waits on. -/
def blocked (q : queue w V) : Bool := decide (q.size = 0) || q.head.isNone

/-- `top`: undefined when `head` is null, like all that follows a null pointer. -/
def top (q : queue w V) : Option V := do
  let head ← q.head
  let node ← q.heap.lookup head
  some node.current

/-- `Size`. -/
def Size (q : queue w V) : BitVec w := q.size

/-! ## The list a queue holds -/

/-- A node as its value and its link. -/
def cell (heap : Heap V) (a : Addr) : Option (V × Option Addr) :=
  (heap.lookup a).map (fun n => (n.current, n.next))

/-- The values linked from `p`, as far as `fuel` goes. -/
def values (heap : Heap V) : Nat → Option Addr → List V
  | 0, _ => []
  | _, none => []
  | fuel + 1, some a =>
    match heap.lookup a with
    | none => []
    | some n => n.current :: values heap fuel n.next

/-- The values linked from `head`. -/
def linked (q : queue w V) : List V := values q.heap q.heap.keys.length q.head

/-- The nodes linked from `head` are a null-terminated chain, with values `xs`. -/
def Holds (q : queue w V) (xs : List V) : Prop :=
  ∃ l, Seg (cell q.heap) q.head l none ∧ l.map Prod.snd = xs

theorem cell_insert (heap : Heap V) (a : Addr) (n : Node V) : cell (heap.insert a n) a = some (n.current, n.next) := by
  simp [cell]

theorem cell_insert_ne (heap : Heap V) {a b : Addr} (n : Node V) (h : b ≠ a) :
    cell (heap.insert a n) b = cell heap b := by
  simp [cell, AList.lookup_insert_ne h]

theorem mem_of_cell {heap : Heap V} {a : Addr} {x : V × Option Addr} (h : cell heap a = some x) : a ∈ heap := by
  obtain ⟨n, hn, -⟩ := Option.map_eq_some_iff.1 h
  exact AList.lookup_isSome.1 (by rw [hn]; rfl)

theorem holds_createQ : Holds (createQ w V) [] := ⟨[], rfl, rfl⟩

theorem Holds.unique {q : queue w V} {xs ys : List V} (h : Holds q xs) (h' : Holds q ys) : xs = ys := by
  obtain ⟨l, hl, rfl⟩ := h
  obtain ⟨l', hl', rfl⟩ := h'
  rw [hl.unique hl']

theorem Holds.head_eq_none {q : queue w V} {xs : List V} (h : Holds q xs) : q.head = none ↔ xs = [] := by
  obtain ⟨l, hl, rfl⟩ := h
  rw [hl.eq_nil_iff, List.map_eq_nil_iff]

/-- The chain's nodes are in the heap, so the chain is no longer than it. -/
theorem chain_length_le {heap : Heap V} {p : Option Addr} {l : List (Addr × V)} (h : Seg (cell heap) p l none) :
    l.length ≤ heap.keys.length := by
  have hs : l.map Prod.fst ⊆ heap.keys := by
    intro a ha
    obtain ⟨x, hx, rfl⟩ := List.mem_map.1 ha
    obtain ⟨next, hc⟩ := h.cell_of_mem hx
    exact AList.mem_keys.1 (mem_of_cell hc)
  simpa using (h.nodup.subperm hs).length_le

theorem values_eq {heap : Heap V} {p : Option Addr} {l : List (Addr × V)} (h : Seg (cell heap) p l none) {fuel : Nat}
    (hf : l.length ≤ fuel) : values heap fuel p = l.map Prod.snd := by
  induction l generalizing p fuel with
  | nil =>
    have hp : p = none := h
    subst hp
    cases fuel <;> rfl
  | cons x l ih =>
    obtain ⟨fuel, rfl⟩ : ∃ k, fuel = k + 1 := ⟨fuel - 1, by simp at hf; omega⟩
    obtain ⟨rfl, next, hc, hl⟩ := h
    obtain ⟨n, hn, hx⟩ := Option.map_eq_some_iff.1 hc
    simp only [Prod.mk.injEq] at hx
    simp only [values, hn, hx.1, hx.2, ih hl (by simpa using hf), List.map_cons]

theorem Holds.linked_eq {q : queue w V} {xs : List V} (h : Holds q xs) : linked q = xs := by
  obtain ⟨l, hl, rfl⟩ := h
  exact values_eq hl (chain_length_le hl)

theorem find_tail_spec {heap : Heap V} {l : List (Addr × V)} {z : Addr × V} {curr : Addr}
    (h : Seg (cell heap) (some curr) (l ++ [z]) none) {fuel : Nat} (hf : l.length < fuel) :
    find_tail heap fuel curr = some z.1 := by
  induction l generalizing curr fuel with
  | nil =>
    obtain ⟨fuel, rfl⟩ : ∃ k, fuel = k + 1 := ⟨fuel - 1, by simp at hf; omega⟩
    have hc := Seg.last_cell (l := []) h
    obtain rfl : curr = z.1 := Option.some.inj h.1
    obtain ⟨n, hn, hx⟩ := Option.map_eq_some_iff.1 hc
    simp only [Prod.mk.injEq] at hx
    simp [find_tail, hn, hx.2]
  | cons x l ih =>
    obtain ⟨fuel, rfl⟩ : ∃ k, fuel = k + 1 := ⟨fuel - 1, by simp at hf; omega⟩
    obtain ⟨hp, next, hc, hl⟩ := h
    cases hp
    obtain ⟨n, hn, hx⟩ := Option.map_eq_some_iff.1 hc
    simp only [Prod.mk.injEq] at hx
    obtain ⟨b, hb⟩ : ∃ b, next = some b := by
      cases l with
      | nil => exact ⟨_, hl.1⟩
      | cons y l => exact ⟨_, hl.1⟩
    rw [hb] at hl
    simp only [find_tail, hn, hx.2, hb]
    exact ih hl (by simpa using hf)

/-- There is always an address for another node. -/
theorem exists_fresh (heap : Heap V) : ∃ a, a ∉ heap := by
  obtain ⟨a, ha⟩ := Infinite.exists_notMem_finset heap.keys.toFinset
  exact ⟨a, by rwa [List.mem_toFinset, ← AList.mem_keys] at ha⟩

/-- On an empty list `enQ` makes the new node the head. -/
theorem enQ_nil {q : queue w V} (h : q.head = none) (a : Addr) (member : V) :
    enQ q a member = some ⟨q.heap.insert a ⟨member, none⟩, some a, q.size + 1⟩ := by
  simp only [enQ, h]

/-- A fresh address is that of no node of a chain. -/
theorem ne_of_fresh {heap : Heap V} {p : Option Addr} {l : List (Addr × V)} (h : Seg (cell heap) p l none) {a : Addr}
    (ha : a ∉ heap) : ∀ x ∈ l, x.1 ≠ a := by
  rintro x hx rfl
  obtain ⟨next, hc⟩ := h.cell_of_mem hx
  exact ha (mem_of_cell hc)

/-- On any other list `enQ` links the new node behind the last one. -/
theorem enQ_chain {q : queue w V} {l : List (Addr × V)} {z : Addr × V} (h : Seg (cell q.heap) q.head (l ++ [z]) none)
    {a : Addr} (ha : a ∉ q.heap) (member : V) :
    enQ q a member = some ⟨(q.heap.insert a ⟨member, none⟩).insert z.1 ⟨z.2, some a⟩, q.head, q.size + 1⟩ := by
  obtain ⟨head, hh⟩ : ∃ head, q.head = some head := Option.ne_none_iff_exists'.1 (by simp [h.eq_nil_iff])
  have hza : z.1 ≠ a := ne_of_fresh h ha z (by simp)
  have ht : find_tail q.heap q.heap.keys.length head = some z.1 :=
    find_tail_spec (hh ▸ h) (by have := chain_length_le h; simp at this; omega)
  obtain ⟨n, hn, hnz⟩ := Option.map_eq_some_iff.1 h.last_cell
  simp only [Prod.mk.injEq] at hnz
  have hlook : (q.heap.insert a ⟨member, none⟩).lookup z.1 = some n := by rw [AList.lookup_insert_ne hza, hn]
  simp only [enQ, hh, ht, hlook, Option.bind_eq_bind, Option.bind_some, hnz.1]

/-- The chain after `enQ`, whatever fresh address the allocator returns. -/
theorem enQ_seg {q : queue w V} {l : List (Addr × V)} (h : Seg (cell q.heap) q.head l none) {a : Addr}
    (ha : a ∉ q.heap) (member : V) :
    ∃ q', enQ q a member = some q' ∧ Seg (cell q'.heap) q'.head (l ++ [(a, member)]) none ∧ q'.size = q.size + 1 := by
  rcases List.eq_nil_or_concat l with rfl | ⟨l, z, rfl⟩
  · exact ⟨_, enQ_nil h a member, ⟨rfl, none, cell_insert _ _ _, rfl⟩, rfl⟩
  · rw [List.concat_eq_append] at h ⊢
    have hne := ne_of_fresh h ha
    have hnd := h.nodup
    rw [List.map_append, List.nodup_append] at hnd
    refine ⟨_, enQ_chain h ha member, h.snoc (fun x hx => ?_) ?_ ?_, rfl⟩
    · have hxz : x.1 ≠ z.1 := hnd.2.2 x.1 (List.mem_map_of_mem hx) z.1 (by simp)
      rw [cell_insert_ne _ _ hxz, cell_insert_ne _ _ (hne x (by simp [hx]))]
    · rw [cell_insert]
    · rw [cell_insert_ne _ _ (Ne.symm (hne z (by simp))), cell_insert]

/-- `enQ` appends its argument. -/
theorem enQ_spec {q : queue w V} {xs : List V} (h : Holds q xs) {a : Addr} (ha : a ∉ q.heap) (member : V) :
    ∃ q', enQ q a member = some q' ∧ Holds q' (xs ++ [member]) ∧ q'.size = q.size + 1 := by
  obtain ⟨l, hl, rfl⟩ := h
  obtain ⟨q', he, hl', hsize⟩ := enQ_seg hl ha member
  exact ⟨q', he, ⟨_, hl', by simp⟩, hsize⟩

/-- `top` reads the first value, where there is one. -/
theorem top_eq {q : queue w V} {xs : List V} (h : Holds q xs) : top q = xs.head? := by
  obtain ⟨l, hl, rfl⟩ := h
  cases l with
  | nil =>
    have hn : q.head = none := hl
    simp only [top, hn]
    rfl
  | cons y l =>
    obtain ⟨hp, next, hc, hl⟩ := hl
    obtain ⟨n, hn, hny⟩ := Option.map_eq_some_iff.1 hc
    simp only [Prod.mk.injEq] at hny
    simp only [top, hp, hn, Option.bind_eq_bind, Option.bind_some, hny.1]
    rfl

/-- `private_deQ` moves `head` to the second node. -/
theorem private_deQ_seg {q : queue w V} {x : Addr × V} {l : List (Addr × V)}
    (h : Seg (cell q.heap) q.head (x :: l) none) :
    ∃ next, private_deQ q = some (x.2, { q with head := next }) ∧ Seg (cell q.heap) next l none := by
  obtain ⟨hp, next, hc, hl⟩ := h
  obtain ⟨n, hn, hnx⟩ := Option.map_eq_some_iff.1 hc
  simp only [Prod.mk.injEq] at hnx
  refine ⟨next, ?_, hl⟩
  simp only [private_deQ, hp, hn, Option.bind_eq_bind, Option.bind_some, hnx.1, hnx.2]

/-- `private_deQ` returns the first value and unlinks it. -/
theorem private_deQ_spec {q : queue w V} {x : V} {xs : List V} (h : Holds q (x :: xs)) :
    ∃ q', private_deQ q = some (x, q') ∧ Holds q' xs ∧ q'.size = q.size := by
  obtain ⟨l, hl, hx⟩ := h
  cases l with
  | nil => cases hx
  | cons y l =>
    simp only [List.map_cons, List.cons.injEq] at hx
    obtain ⟨next, hd, hl⟩ := private_deQ_seg hl
    exact ⟨{ q with head := next }, hx.1 ▸ hd, ⟨l, hl, hx.2⟩, rfl⟩

/-- `enQ` always finds an address for its node. -/
theorem Holds.exists_enQ {q : queue w V} {xs : List V} (h : Holds q xs) (member : V) :
    ∃ a q', a ∉ q.heap ∧ enQ q a member = some q' := by
  obtain ⟨a, ha⟩ := exists_fresh q.heap
  obtain ⟨q', he, -⟩ := enQ_spec h ha member
  exact ⟨a, q', ha, he⟩

/-- What a call that has returned has done to the chain. -/
theorem seg_of_enQ {q q' : queue w V} {l : List (Addr × V)} (h : Seg (cell q.heap) q.head l none) {a : Addr}
    (ha : a ∉ q.heap) {member : V} (he : enQ q a member = some q') :
    Seg (cell q'.heap) q'.head (l ++ [(a, member)]) none ∧ q'.size = q.size + 1 := by
  obtain ⟨q'', he', hl', hsize⟩ := enQ_seg h ha member
  obtain rfl := Option.some.inj (he.symm.trans he')
  exact ⟨hl', hsize⟩

theorem seg_of_deQ {q q' : queue w V} {l : List (Addr × V)} (h : Seg (cell q.heap) q.head l none) {ret : V}
    (hd : private_deQ q = some (ret, q')) :
    ∃ x l' next, l = x :: l' ∧ ret = x.2 ∧ q' = { q with head := next } ∧ Seg (cell q.heap) next l' none := by
  cases l with
  | nil => simp [private_deQ, show q.head = none from h] at hd
  | cons x l' =>
    obtain ⟨next, hd', hl'⟩ := private_deQ_seg h
    obtain ⟨rfl, rfl⟩ := Prod.mk.inj (Option.some.inj (hd.symm.trans hd'))
    exact ⟨x, l', next, rfl, rfl, rfl, hl'⟩

/-- And to the list and the counter. -/
theorem Holds.of_enQ {q q' : queue w V} {xs : List V} (h : Holds q xs) {a : Addr} (ha : a ∉ q.heap) {member : V}
    (he : enQ q a member = some q') : Holds q' (xs ++ [member]) ∧ q'.size = q.size + 1 := by
  obtain ⟨l, hl, rfl⟩ := h
  obtain ⟨hl', hsize⟩ := seg_of_enQ hl ha he
  exact ⟨⟨_, hl', by simp⟩, hsize⟩

theorem Holds.of_deQ {q q' : queue w V} {xs : List V} (h : Holds q xs) {x : V} (hd : private_deQ q = some (x, q')) :
    ∃ ys, xs = x :: ys ∧ Holds q' ys ∧ q'.size = q.size := by
  obtain ⟨l, hl, rfl⟩ := h
  obtain ⟨y, l', next, rfl, rfl, rfl, hl'⟩ := seg_of_deQ hl hd
  exact ⟨l'.map Prod.snd, rfl, ⟨l', hl', rfl⟩, rfl⟩

/-- A queue that holds something lets a `deQ` pass, unless its counter says 0. -/
theorem not_blocked {q : queue w V} {x : V} {xs : List V} (h : Holds q (x :: xs)) (hsize : q.size ≠ 0#w) :
    blocked q = false := by
  have hhead : q.head ≠ none := fun hn => List.cons_ne_nil _ _ (h.head_eq_none.1 hn)
  simp [blocked, hsize, Option.isNone_eq_false_iff, Option.isSome_iff_ne_none, hhead]

end Queue

end Ex6
