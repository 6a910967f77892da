import Ex6.QueueHistory
/-!
# The nodes of a queue

`enQ` makes a node and links it; `deQ` unlinks one and does not delete it; the
destructor deletes what is linked (`sweeps_chain`). `heap_refines_list` says what
the two calls do to the nodes and to the list they stand for, and `tidy_iff` after
which histories the nodes that are live are the nodes that are linked.
-/
open Lib

namespace Ex6.Queue
variable {w : Nat} {V : Type}

/-! ## The destructor -/

/-- The locals of `~queue`, the heap, and what has been deleted so far. -/
structure Sweep (V : Type) where
  heap : Heap V
  cur : Option Addr
  prev : Option Addr
  deleted : List Addr

/-- `delete(p)`, undefined for a node that is not there. -/
def delete (s : Sweep V) : Option Addr → Option (Sweep V)
  | none => some s
  | some a =>
    match s.heap.lookup a with
    | none => none
    | some _ => some { s with heap := s.heap.erase a, deleted := s.deleted ++ [a] }

/-- `cur = cur->next; delete(prev); prev = cur;` -/
def sweep_next (s : Sweep V) (cur : Addr) : Option (Sweep V) := do
  let node ← s.heap.lookup cur
  let s ← delete { s with cur := node.next } s.prev
  some { s with prev := s.cur }

/-- `while(cur != nullptr)`, for at most `fuel` iterations. -/
def sweep : Nat → Sweep V → Option (Sweep V)
  | fuel, s =>
    match s.cur with
    | none => some s
    | some cur =>
      match fuel with
      | 0 => none
      | fuel + 1 => sweep_next s cur >>= sweep fuel

/-- `destroyQ`, which calls `~queue`. No chain is longer than the heap, which bounds
the loop. `head` is left as it is. -/
def destroyQ (q : queue w V) : Option (queue w V) := do
  let s ← sweep q.heap.keys.length ⟨q.heap, q.head, q.head, []⟩
  some { q with heap := s.heap }

/-- The heap without the nodes at `as`. -/
def freed (heap : Heap V) (as : List Addr) : Heap V := as.foldl (fun heap a => heap.erase a) heap

theorem mem_freed {as : List Addr} {b : Addr} {heap : Heap V} : b ∈ freed heap as ↔ b ∈ heap ∧ b ∉ as := by
  induction as generalizing heap with
  | nil => simp [freed]
  | cons a as ih =>
    have hrec : b ∈ freed (heap.erase a) as ↔ b ∈ heap.erase a ∧ b ∉ as := ih
    rw [show freed heap (a :: as) = freed (heap.erase a) as from rfl, hrec, AList.mem_erase, List.mem_cons]
    tauto

theorem cell_erase_ne (heap : Heap V) {a b : Addr} (h : b ≠ a) : cell (heap.erase a) b = cell heap b := by
  simp [cell, AList.lookup_erase_ne h]

/-- `cur->next` is read before the node is deleted, and the rest of the chain stays. -/
theorem sweep_next_seg {heap : Heap V} {p : Option Addr} {x : Addr × V} {l : List (Addr × V)}
    (h : Seg (cell heap) p (x :: l) none) (deleted : List Addr) :
    ∃ next, p = some x.1 ∧
      sweep_next ⟨heap, p, p, deleted⟩ x.1 = some ⟨heap.erase x.1, next, next, deleted ++ [x.1]⟩ ∧
      Seg (cell (heap.erase x.1)) next l none := by
  have hnd := h.nodup
  rw [List.map_cons, List.nodup_cons] at hnd
  obtain ⟨rfl, next, hc, hl⟩ := h
  obtain ⟨n, hn, hnx⟩ := Option.map_eq_some_iff.1 hc
  simp only [Prod.mk.injEq] at hnx
  refine ⟨next, rfl, ?_, hl.congr fun y hy => ?_⟩
  · simp only [sweep_next, delete, hn, hnx.2, Option.bind_eq_bind, Option.bind_some]
  · apply cell_erase_ne
    exact fun he => hnd.1 (he ▸ List.mem_map_of_mem hy)

/-- The loop deletes a chain from its head on, reading no node it has deleted. -/
theorem sweep_seg {heap : Heap V} {p : Option Addr} {l : List (Addr × V)} (h : Seg (cell heap) p l none)
    (deleted : List Addr) {fuel : Nat} (hf : l.length ≤ fuel) :
    sweep fuel ⟨heap, p, p, deleted⟩ =
      some ⟨freed heap (l.map Prod.fst), none, none, deleted ++ l.map Prod.fst⟩ := by
  induction l generalizing heap p deleted fuel with
  | nil =>
    have hp : p = none := h
    subst hp
    unfold sweep
    simp [freed]
  | cons x l ih =>
    obtain ⟨fuel, rfl⟩ : ∃ k, fuel = k + 1 := ⟨fuel - 1, by simp at hf; omega⟩
    obtain ⟨next, rfl, hnext, hl⟩ := sweep_next_seg h deleted
    unfold sweep
    simp only [hnext, Option.bind_eq_bind, Option.bind_some, ih hl _ (show l.length ≤ fuel by simpa using hf),
      List.map_cons, List.append_assoc, List.singleton_append]
    rfl

/-- The destructor runs to its end, and the nodes linked from `head` are gone. -/
theorem destroyQ_seg {q : queue w V} {l : List (Addr × V)} (h : Seg (cell q.heap) q.head l none) :
    destroyQ q = some { q with heap := freed q.heap (l.map Prod.fst) } := by
  simp only [destroyQ, sweep_seg h [] (chain_length_le h), Option.bind_eq_bind, Option.bind_some]

/-- The loop with no bound on it. An iteration is labelled with the node whose `next` it reads. -/
def loop (V : Type) : Machine (Sweep V) Addr where
  init s := s.prev = s.cur ∧ s.deleted = []
  step s cur t := s.cur = some cur ∧ sweep_next s cur = some t

/-- What the bounded loop returns is where the loop ends. -/
theorem sweep_run {fuel : Nat} {s t : Sweep V} (h : sweep fuel s = some t) :
    ∃ reads, (loop V).Run s reads t ∧ t.cur = none := by
  induction fuel generalizing s with
  | zero =>
    unfold sweep at h
    split at h
    · rename_i hc
      exact ⟨[], Option.some.inj h ▸ .nil s, Option.some.inj h ▸ hc⟩
    · cases h
  | succ fuel ih =>
    unfold sweep at h
    split at h
    · rename_i hc
      exact ⟨[], Option.some.inj h ▸ .nil s, Option.some.inj h ▸ hc⟩
    · rename_i cur hc
      obtain ⟨u, hu, ht⟩ := Option.bind_eq_some_iff.1 h
      obtain ⟨reads, hr, hend⟩ := ih ht
      exact ⟨[cur] ++ reads, (Machine.Run.single (M := loop V) ⟨hc, hu⟩).append hr, hend⟩

theorem freed_concat (heap : Heap V) (as : List Addr) (a : Addr) :
    freed heap (as ++ [a]) = (freed heap as).erase a := by
  simp [freed]

theorem lookup_freed {as : List Addr} {b : Addr} (hb : b ∉ as) (heap : Heap V) :
    (freed heap as).lookup b = heap.lookup b := by
  induction as generalizing heap with
  | nil => rfl
  | cons a as ih =>
    rw [List.mem_cons, not_or] at hb
    calc
      (freed heap (a :: as)).lookup b = (freed (heap.erase a) as).lookup b := rfl
      _ = (heap.erase a).lookup b := ih hb.2 _
      _ = heap.lookup b := AList.lookup_erase_ne hb.1

/-- Between two iterations on the chain `l`: the nodes before `cur` are the ones deleted,
`prev` has caught up, and the chain from `cur` on is as it was. -/
structure Sweeping (heap : Heap V) (l : List (Addr × V)) (s : Sweep V) : Prop where
  caught_up : s.prev = s.cur
  heap : s.heap = freed heap s.deleted
  split : ∃ l1 l2, l = l1 ++ l2 ∧ s.deleted = l1.map Prod.fst ∧ Seg (cell s.heap) s.cur l2 none

variable {heap : Heap V} {l : List (Addr × V)} {s t : Sweep V} {reads : List Addr}

theorem Sweeping.start {p : Option Addr} (h : Seg (cell heap) p l none) : Sweeping heap l ⟨heap, p, p, []⟩ :=
  ⟨rfl, rfl, [], l, rfl, rfl, h⟩

/-- An iteration is defined, and deletes the node it has read. -/
theorem Sweeping.next (h : Sweeping heap l s) {cur : Addr} (hc : s.cur = some cur) :
    ∃ t, sweep_next s cur = some t ∧ Sweeping heap l t ∧ t.deleted = s.deleted ++ [cur] := by
  obtain ⟨l1, l2, rfl, hdel, hl2⟩ := h.split
  cases l2 with
  | nil =>
    have hnone : s.cur = none := hl2
    rw [hc] at hnone
    cases hnone
  | cons x l2 =>
    obtain ⟨next, hx, hnext, hl⟩ := sweep_next_seg hl2 s.deleted
    obtain rfl : cur = x.1 := Option.some.inj (hc.symm.trans hx)
    obtain ⟨heap', p, prev, deleted⟩ := s
    obtain rfl : prev = p := h.caught_up
    exact ⟨_, hnext, ⟨rfl, by rw [freed_concat, ← h.heap], l1 ++ [x], l2, by simp, by simp [← hdel], hl⟩, rfl⟩

/-- Whatever the number of iterations, they have deleted the nodes they have read. -/
theorem Sweeping.run (h : Sweeping heap l s) (hr : (loop V).Run s reads t) :
    Sweeping heap l t ∧ t.deleted = s.deleted ++ reads := by
  induction hr with
  | nil => exact ⟨h, (List.append_nil _).symm⟩
  | snoc _ ht ih =>
    obtain ⟨hu, hdel⟩ := ih
    obtain ⟨t', ht', hsweep, hdel'⟩ := hu.next ht.1
    obtain rfl := Option.some.inj (ht.2.symm.trans ht')
    exact ⟨hsweep, by rw [hdel', hdel, List.append_assoc]⟩

theorem Sweeping.deleted_prefix (h : Sweeping heap l s) : s.deleted <+: l.map Prod.fst := by
  obtain ⟨l1, l2, rfl, hdel, -⟩ := h.split
  rw [hdel, List.map_append]
  exact List.prefix_append _ _

/-- What holds of the loop on the chain `l` once it has read `reads`. -/
structure Swept (heap : Heap V) (l : List (Addr × V)) (reads : List Addr) (s : Sweep V) : Prop where
  order : reads <+: l.map Prod.fst
  deleted : s.deleted = reads
  gone : ∀ a ∈ s.deleted, a ∉ s.heap
  next : ∀ cur, s.cur = some cur → cur ∉ s.deleted ∧
    ∃ t, (loop V).step s cur t ∧ t.deleted = s.deleted ++ [cur]
  ended : s.cur = none → reads = l.map Prod.fst
  outside : ∀ b, b ∉ l.map Prod.fst → b ∉ s.deleted ∧ s.heap.lookup b = heap.lookup b

theorem Sweeping.swept (h : Sweeping heap l s) (hnd : (l.map Prod.fst).Nodup) (hdel : s.deleted = reads) :
    Swept heap l reads s := by
  have hpre := h.deleted_prefix
  refine ⟨hdel ▸ hpre, hdel, fun a ha hheap => ?_, fun cur hc => ?_, fun hc => ?_, fun b hb => ?_⟩
  · rw [h.heap] at hheap
    exact (mem_freed.1 hheap).2 ha
  · obtain ⟨t, ht, hsweep, hdel'⟩ := h.next hc
    -- what is deleted next is still part of a chain without repetition
    have hnd' : (s.deleted ++ [cur]).Nodup := hdel' ▸ hnd.sublist hsweep.deleted_prefix.sublist
    exact ⟨fun hm => (List.nodup_append.1 hnd').2.2 cur hm cur (by simp) rfl, t, ⟨hc, ht⟩, hdel'⟩
  · obtain ⟨l1, l2, rfl, hl1, hl2⟩ := h.split
    obtain rfl := hl2.eq_nil_iff.1 hc
    rw [← hdel, hl1, List.append_nil]
  · have hb' : b ∉ s.deleted := fun hm => hb (hpre.subset hm)
    exact ⟨hb', by rw [h.heap, lookup_freed hb']⟩

/-- On a chain of any length `destroyQ` comes to its end, with the nodes of the chain
deleted, each once and from `head` on. On the way no iteration reads a node that has
been deleted or deletes a node outside the chain. -/
theorem sweeps_chain {q : queue w V} {l : List (Addr × V)} (h : Seg (cell q.heap) q.head l none) :
    (l.map Prod.fst).Nodup ∧
    (∃ s, (loop V).Run ⟨q.heap, q.head, q.head, []⟩ (l.map Prod.fst) s ∧ s.cur = none ∧
      s.deleted = l.map Prod.fst ∧ destroyQ q = some { q with heap := s.heap }) ∧
    ∀ reads s, (loop V).Run ⟨q.heap, q.head, q.head, []⟩ reads s → Swept q.heap l reads s := by
  refine ⟨h.nodup, ?_, fun reads s hr => ?_⟩
  · obtain ⟨reads, hr, hend⟩ := sweep_run (sweep_seg h [] (chain_length_le h))
    obtain ⟨-, hreads⟩ := (Sweeping.start h).run hr
    obtain rfl : l.map Prod.fst = reads := hreads
    exact ⟨_, hr, hend, rfl, destroyQ_seg h⟩
  · obtain ⟨hs, hdel⟩ := (Sweeping.start h).run hr
    exact hs.swept h.nodup hdel

/-- Of two linked nodes and one that is not linked. -/
theorem sweeps_chain_two : ∃ s, (loop Nat).Run
    ⟨(((∅ : Heap Nat).insert 0 ⟨5, some 1⟩).insert 1 ⟨6, none⟩).insert 2 ⟨7, some 0⟩, some 0, some 0, []⟩ [0, 1] s ∧
    s.deleted = [0, 1] := by
  obtain ⟨s, hr, -, hdel, -⟩ := (sweeps_chain (w := 64) (l := [(0, 5), (1, 6)])
    (q := ⟨(((∅ : Heap Nat).insert 0 ⟨5, some 1⟩).insert 1 ⟨6, none⟩).insert 2 ⟨7, some 0⟩, some 0, 2⟩)
    ⟨rfl, some 1, rfl, rfl, none, rfl, rfl⟩).2.1
  exact ⟨s, hr, hdel⟩

/-- `head` is left dangling: run again, the destructor has nothing to do or reads a
deleted node. -/
theorem destroyQ_again {q q' : queue w V} {xs : List V} (h : Holds q xs) (hq : destroyQ q = some q') :
    (∃ xs, Holds q' xs) ∨ destroyQ q' = none := by
  obtain ⟨l, hseg, -⟩ := id h
  rw [destroyQ_seg hseg] at hq
  obtain rfl := Option.some.inj hq
  cases l with
  | nil => exact .inl ⟨xs, h⟩
  | cons x l =>
    obtain ⟨hhead, -⟩ := hseg
    generalize hheap : freed q.heap ((x :: l).map Prod.fst) = heap
    have hgone : heap.lookup x.1 = none := by
      rw [← hheap, AList.lookup_eq_none, mem_freed]
      simp
    right
    unfold destroyQ
    rw [hhead]
    cases heap.keys.length with
    | zero => rfl
    | succ fuel =>
      unfold sweep sweep_next
      simp [hgone]

end Ex6.Queue

namespace Ex6.QueueHistory
open Ex6.Queue
variable {w : Nat} {V : Type} {s t : State w V} {op : Op V} {ops : List (Op V)}

/-! ## What is live -/

/-- The live nodes are the ones linked from `head`, each once. -/
def Owned (q : queue w V) : Prop := ∃ l, Seg (cell q.heap) q.head l none ∧ q.heap.keys.Perm (l.map Prod.fst)

/-- Every node that was made and is not linked has been unlinked by a `deQ`. -/
def Accounted (s : State w V) : Prop :=
  ∃ l unlinked, Seg (cell s.q.heap) s.q.head l none ∧ s.q.heap.keys.Perm (unlinked ++ l.map Prod.fst) ∧
    unlinked.length = s.dequeued.length

theorem keys_insert_fresh {heap : Heap V} {a : Addr} (ha : a ∉ heap) (n : Node V) :
    (heap.insert a n).keys = a :: heap.keys := by
  rw [AList.keys_insert, List.erase_of_not_mem (mt AList.mem_keys.2 ha)]

theorem keys_insert_live {heap : Heap V} {a : Addr} (ha : a ∈ heap) (n : Node V) :
    (heap.insert a n).keys.Perm heap.keys := by
  rw [AList.keys_insert]
  exact (List.perm_cons_erase (AList.mem_keys.1 ha)).symm

/-- `enQ` makes one node. -/
theorem keys_enQ {q q' : queue w V} {l : List (Addr × V)} (h : Seg (cell q.heap) q.head l none) {a : Addr}
    (ha : a ∉ q.heap) {member : V} (he : enQ q a member = some q') : q'.heap.keys.Perm (a :: q.heap.keys) := by
  rcases List.eq_nil_or_concat l with rfl | ⟨l, z, rfl⟩
  · rw [enQ_nil h, Option.some.injEq] at he
    subst he
    rw [keys_insert_fresh ha]
  · rw [List.concat_eq_append] at h
    rw [enQ_chain h ha, Option.some.injEq] at he
    subst he
    have hz : z.1 ∈ q.heap.insert a ⟨member, none⟩ :=
      (AList.mem_insert _).2 (.inr (mem_of_cell h.last_cell))
    rw [← keys_insert_fresh ha ⟨member, none⟩]
    exact keys_insert_live hz _

theorem accounted_step (h : Accounted s) (hs : Step s op t) : Accounted t := by
  obtain ⟨l, unlinked, hl, hkeys, hlen⟩ := h
  cases hs with
  | @enQ a member q' ha he =>
    refine ⟨_, unlinked, (seg_of_enQ hl ha he).1, ?_, hlen⟩
    calc
      q'.heap.keys.Perm (a :: s.q.heap.keys) := keys_enQ hl ha he
      (a :: s.q.heap.keys).Perm (a :: (unlinked ++ l.map Prod.fst)) := hkeys.cons a
      (a :: (unlinked ++ l.map Prod.fst)).Perm (unlinked ++ (l ++ [(a, member)]).map Prod.fst) := by
        rw [List.map_append, ← List.append_assoc]
        exact (List.perm_append_singleton a _).symm
  | @deQ ret q' hb hd =>
    obtain ⟨x, l', next, rfl, -, rfl, hl'⟩ := seg_of_deQ hl hd
    -- the node stays where it is, unlinked
    exact ⟨l', unlinked ++ [x.1], hl', by simpa using hkeys, by simp [hlen]⟩

theorem accounted (h : (machine w V).Reachable s) : Accounted s :=
  h.inv (fun _ hi => hi ▸ ⟨[], [], rfl, .nil, rfl⟩) fun _ _ _ => accounted_step

theorem owned_of_dequeued (h : Accounted s) (h0 : s.dequeued = []) : Owned s.q := by
  obtain ⟨l, unlinked, hl, hkeys, hlen⟩ := h
  rw [h0, List.length_nil, List.length_eq_zero_iff] at hlen
  subst hlen
  exact ⟨l, hl, hkeys⟩

theorem dequeued_of_owned (h : Accounted s) (ho : Owned s.q) : s.dequeued = [] := by
  obtain ⟨l, unlinked, hl, hkeys, hlen⟩ := h
  obtain ⟨l', hl', hkeys'⟩ := ho
  obtain rfl := hl.unique hl'
  have hlength := (hkeys.symm.trans hkeys').length_eq
  rw [List.length_append] at hlength
  exact List.length_eq_zero_iff.1 (by omega)

/-- What the owner of a queue may expect of its nodes after `ops`: the live ones are
the linked ones, every `deQ` has deleted the node it took out, and `destroyQ`
leaves none. -/
structure Tidy (ops : List (Op V)) (s : State w V) : Prop where
  owned : Owned s.q
  deleted : ∀ pre post u u', ops = pre ++ .deQ :: post → (machine w V).Run start pre u → Step u .deQ u' →
    ∀ a, u.q.head = some a → a ∉ u'.q.heap
  swept : ∃ q', destroyQ s.q = some q' ∧ q'.heap.keys = []

/-- Nodes are owned by the list exactly as long as nothing has been dequeued. -/
theorem tidy_iff (h : (machine w V).Run start ops s) : Tidy ops s ↔ .deQ ∉ ops := by
  have hacc := accounted (h.reachable (.init rfl))
  have hde := (run_lengths h).2
  constructor
  · intro ht
    exact (hde.1 (dequeued_of_owned hacc ht.owned)).2
  · intro hno
    have howned := owned_of_dequeued hacc (hde.2 ⟨rfl, hno⟩)
    refine ⟨howned, fun pre post _ _ he => absurd (by rw [he]; simp) hno, ?_⟩
    obtain ⟨l, hl, hkeys⟩ := howned
    refine ⟨_, destroyQ_seg hl, List.eq_nil_iff_forall_not_mem.2 fun b hb => ?_⟩
    obtain ⟨hlive, hnot⟩ := mem_freed.1 (AList.mem_keys.2 hb)
    exact hnot (hkeys.subset (AList.mem_keys.1 hlive))

theorem tidy_iff_three : ∃ s : State 64 Nat, (machine 64 Nat).Run start [.enQ 0 5, .enQ 1 6, .enQ 2 7] s ∧
    s.waiting = [5, 6, 7] ∧ Tidy [.enQ 0 5, .enQ 1 6, .enQ 2 7] s := by
  obtain ⟨s, -, r, -, hwaiting, -⟩ := three_run
  exact ⟨s, r, hwaiting, (tidy_iff r).2 (by simp)⟩

/-- The one value is enqueued and dequeued: its node stays, and `destroyQ` does not find it. -/
theorem node_after_deQ :
    ¬ ∀ (ops : List (Op Nat)) (s : State 64 Nat), (machine 64 Nat).Run start ops s → Tidy ops s := by
  intro h
  obtain ⟨q', hq', hnone⟩ := (h _ _ enQ_deQ_run).swept
  have hleft : ((∅ : Heap Nat).insert 0 ⟨5, none⟩).keys = [] := by
    simp only [destroyQ, AList.keys_insert, AList.keys_empty, List.erase_nil, List.length_singleton, sweep,
      Option.bind_eq_bind, Option.bind_some, Option.some.injEq] at hq'
    rw [← hq'] at hnone
    exact hnone
  rw [AList.keys_insert] at hleft
  cases hleft

/-! ## What a call changes -/

/-- What `enQ` does to the nodes: it makes the node `a` and sets the link of `tail`,
or `head` where there is no node. -/
structure Links (q q' : queue w V) (a : Addr) (member : V) (tail : Option Addr) : Prop where
  made : q'.heap.lookup a = some ⟨member, none⟩
  linked : ∀ z, tail = some z → ∃ n, q.heap.lookup z = some n ∧ n.next = none ∧
    q'.heap.lookup z = some { n with next := some a }
  head : q'.head = if tail = none then some a else q.head
  frame : ∀ b, b ≠ a → tail ≠ some b → q'.heap.lookup b = q.heap.lookup b

theorem links_enQ {q q' : queue w V} {l : List (Addr × V)} (h : Seg (cell q.heap) q.head l none) {a : Addr}
    (ha : a ∉ q.heap) {member : V} (he : enQ q a member = some q') :
    Links q q' a member (l.getLast?.map Prod.fst) := by
  rcases List.eq_nil_or_concat l with rfl | ⟨l, z, rfl⟩
  · rw [enQ_nil h, Option.some.injEq] at he
    subst he
    exact ⟨AList.lookup_insert _, by simp, by simp, fun b hb _ => AList.lookup_insert_ne hb⟩
  · rw [List.concat_eq_append] at h ⊢
    have hza : z.1 ≠ a := ne_of_fresh h ha z (by simp)
    obtain ⟨n, hn, hnz⟩ := Option.map_eq_some_iff.1 h.last_cell
    simp only [Prod.mk.injEq] at hnz
    rw [enQ_chain h ha, Option.some.injEq] at he
    subst he
    have htail : (l ++ [z]).getLast?.map Prod.fst = some z.1 := by simp
    rw [htail]
    refine ⟨?_, ?_, by simp, fun b hb hbz => ?_⟩
    · rw [AList.lookup_insert_ne (Ne.symm hza), AList.lookup_insert]
    · rintro _ ⟨⟩
      exact ⟨n, hn, hnz.2, by rw [AList.lookup_insert, ← hnz.1]⟩
    · rw [AList.lookup_insert_ne (fun he => hbz (by rw [he])), AList.lookup_insert_ne hb]

/-- No call changes the value of a node. -/
theorem current_step (h : Accounted s) (hs : Step s op t) {b : Addr} {n : Node V} (hn : s.q.heap.lookup b = some n) :
    ∃ n', t.q.heap.lookup b = some n' ∧ n'.current = n.current := by
  obtain ⟨l, -, hl, -⟩ := h
  cases hs with
  | @enQ a member q' ha he =>
    have hlinks := links_enQ hl ha he
    have hba : b ≠ a := fun hb => by
      rw [hb, AList.lookup_eq_none.2 ha] at hn
      cases hn
    by_cases hz : l.getLast?.map Prod.fst = some b
    · obtain ⟨n', hn', -, hlink⟩ := hlinks.linked b hz
      obtain rfl := Option.some.inj (hn.symm.trans hn')
      exact ⟨_, hlink, rfl⟩
    · exact ⟨n, (hlinks.frame b hba hz).trans hn, rfl⟩
  | @deQ ret q' hb hd =>
    obtain ⟨x, l', next, -, -, rfl, -⟩ := seg_of_deQ hl hd
    exact ⟨n, hn, rfl⟩

theorem current_run (hs : (machine w V).Reachable s) (h : (machine w V).Run s ops t) {b : Addr} {n : Node V}
    (hn : s.q.heap.lookup b = some n) : ∃ n', t.q.heap.lookup b = some n' ∧ n'.current = n.current := by
  induction h with
  | nil => exact ⟨n, hn, rfl⟩
  | snoc hr ht ih =>
    obtain ⟨n', hn', hcur⟩ := ih
    obtain ⟨n'', hn'', hcur'⟩ := current_step (accounted (hr.reachable hs)) ht hn'
    exact ⟨n'', hn'', hcur'.trans hcur⟩

/-- `find_tail` walks a chain to its last node and, with enough fuel, comes to an end. -/
theorem find_tail_getLast {heap : Heap V} {l : List (Addr × V)} {head : Addr} (h : Seg (cell heap) (some head) l none) :
    ∃ z, l.getLast? = some z ∧ ∀ fuel, l.length ≤ fuel → find_tail heap fuel head = some z.1 := by
  rcases List.eq_nil_or_concat l with rfl | ⟨l, z, rfl⟩
  · cases h
  · rw [List.concat_eq_append] at h ⊢
    refine ⟨z, by simp, fun fuel hf => find_tail_spec h ?_⟩
    rw [List.length_append, List.length_singleton] at hf
    omega

/-- The nodes linked from `head` are a null-terminated chain without repetition, and
its values are the list of what has come and not gone. On it the walk of `enQ` ends
at the last node; `enQ` then appends to the list, and of the nodes that were there
changes the last one's link only; `deQ` returns the first value, which leaves the
list, and changes no node. No call, however long the run, changes a node's value. -/
theorem heap_refines_list (h : (machine w V).Reachable s) :
    ∃ l, Seg (cell s.q.heap) s.q.head l none ∧ (l.map Prod.fst).Nodup ∧ l.map Prod.snd = s.waiting ∧
      (∀ head, s.q.head = some head →
        ∃ z, l.getLast? = some z ∧ ∀ fuel, l.length ≤ fuel → find_tail s.q.heap fuel head = some z.1) ∧
      (∀ a member, a ∉ s.q.heap → ∃ t, Step s (.enQ a member) t) ∧
      (∀ a member t, Step s (.enQ a member) t →
        Seg (cell t.q.heap) t.q.head (l ++ [(a, member)]) none ∧ t.waiting = s.waiting ++ [member] ∧
        Links s.q t.q a member (l.getLast?.map Prod.fst)) ∧
      (∀ x l', l = x :: l' → ∃ next, private_deQ s.q = some (x.2, { s.q with head := next }) ∧
        Seg (cell s.q.heap) next l' none) ∧
      (∀ t, Step s .deQ t → ∃ x l', l = x :: l' ∧ Seg (cell t.q.heap) t.q.head l' none ∧
        s.waiting = x.2 :: t.waiting ∧ t.dequeued = s.dequeued ++ [x.2] ∧ t.q.heap = s.q.heap) ∧
      ∀ ops t, (machine w V).Run s ops t → ∀ b n, s.q.heap.lookup b = some n →
        ∃ n', t.q.heap.lookup b = some n' ∧ n'.current = n.current := by
  have hwaiting := (reachable_inv h).holds_waiting
  obtain ⟨l, hl, hvals⟩ := hwaiting
  refine ⟨l, hl, hl.nodup, hvals, fun head hh => find_tail_getLast (hh ▸ hl), fun a member ha => ?_,
    fun a member t ht => ?_, fun x l' he => private_deQ_seg (he ▸ hl), fun t ht => ?_,
    fun ops t hr b n hn => current_run h hr hn⟩
  · obtain ⟨q', he, -⟩ := enQ_seg hl ha member
    exact ⟨_, .enQ ha he⟩
  · have hwait' := (reachable_inv (h.step ht)).holds_waiting
    cases ht with
    | @enQ _ _ q' ha he =>
      have hl' := (seg_of_enQ hl ha he).1
      refine ⟨hl', ?_, links_enQ hl ha he⟩
      rw [hwait'.unique ⟨_, hl', rfl⟩, List.map_append, hvals]
      rfl
  · have hwait' := (reachable_inv (h.step ht)).holds_waiting
    cases ht with
    | @deQ ret q' hb hd =>
      obtain ⟨x, l', next, rfl, rfl, rfl, hl'⟩ := seg_of_deQ hl hd
      refine ⟨x, l', rfl, hl', ?_, rfl, rfl⟩
      rw [hwait'.unique ⟨_, hl', rfl⟩, ← hvals]
      rfl

/-- Of three values: the walk ends at the third node, which a fourth value's node is
linked to, and `deQ` takes the first value. -/
theorem heap_refines_list_three : ∃ s t : State 64 Nat,
    (machine 64 Nat).Run start [.enQ 0 5, .enQ 1 6, .enQ 2 7] s ∧ find_tail s.q.heap 3 0 = some 2 ∧
    (∀ u, Step s (.enQ 3 8) u → u.waiting = [5, 6, 7, 8] ∧ Links s.q u.q 3 8 (some 2)) ∧
    Step s .deQ t ∧ t.waiting = [6, 7] ∧ t.q.heap = s.q.heap := by
  obtain ⟨s, t, r, hde, hwaiting, -, -, hseg⟩ := three_run
  obtain ⟨l, hl, -, hvals, hwalk, -, henQ, -, hdeQ, -⟩ := heap_refines_list (r.reachable (.init rfl))
  obtain rfl := hl.unique hseg
  obtain ⟨x, l', -, -, htaken, -, hheap⟩ := hdeQ t hde
  rw [hwaiting, List.cons.injEq] at htaken
  obtain ⟨z, hz, hfind⟩ := hwalk 0 hseg.1
  cases hz
  refine ⟨s, t, r, hfind 3 (Nat.le_refl 3), fun u hu => ?_, hde, htaken.2.symm, hheap⟩
  obtain ⟨-, happended, hlinks⟩ := henQ 3 8 u hu
  exact ⟨by rw [happended, hwaiting]; rfl, hlinks⟩

end Ex6.QueueHistory
