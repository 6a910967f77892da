import Ex6.Lib.Machine
import Ex6.Pipeline
import Ex6.QueueNodes
/-!
# Creating and destroying active objects

`new_AO` and `new_listenAO` return the two records `destroy_AO` later frees.
`new` gives a record whose fields hold what the memory held before; a `Field`
keeps apart whether it has been set since. Neither constructor sets `a_o->q`,
which `destroy_AO` destroys. `undone_iff` says when it is the right queue
nevertheless.

`pthread_create` is taken to succeed, with an id no thread has had.
-/
open Lib Ex6.Queue

namespace Ex6.Lifetime

/-- A field of a new record: the word the memory held, or the value set since. -/
inductive Field (α : Type)
  | junk (word : Nat)
  | set (a : α)

/-- What is read, where a word of memory stands for `bits word`. -/
def Field.read {α : Type} (bits : Nat → α) : Field α → α
  | .junk word => bits word
  | .set a => a

def Field.isSet {α : Type} : Field α → Prop
  | .junk _ => False
  | .set _ => True

/-- A word as a pointer. -/
def pointer : Nat → Option Addr
  | 0 => none
  | a => some a

structure active_obj where
  thread : Field Nat
  q : Field (Option Addr)

/-- `F` are the functions an active object can be given. -/
structure arg_functions_queue (F : Type) where
  q : Field (Option Addr)
  before_func : Field F
  after_func : Field F

structure args where
  a_o : Addr
  a_f_q : Option Addr
deriving DecidableEq

inductive Routine
  | ao_func
  | listenAO

/-- A thread that was started: its routine, the argument, and whether `pthread_cancel`
has been called on it. -/
structure Thread where
  start_routine : Routine
  arg : Addr
  cancelled : Bool

/-- What `new` returns: an address, and the words of memory there. -/
structure Alloc where
  addr : Addr
  word : Nat → Nat

structure State (w : Nat) (V F : Type) where
  active_objs : Addr → Option active_obj
  funqs : Addr → Option (arg_functions_queue F)
  capsulas : Addr → Option Pipeline.capsula
  threads : Nat → Option Thread
  queues : Addr → Option (queue w V)
  /-- The queues whose destructor has run. -/
  destroyed : List Addr

variable {w : Nat} {V F : Type}

/-- `new active_obj`. -/
def new_active_obj (m : Alloc) : active_obj := ⟨.junk (m.word 0), .junk (m.word 1)⟩

/-- `new arg_functions_queue`. -/
def new_arg_functions_queue (m : Alloc) : arg_functions_queue F :=
  ⟨.junk (m.word 0), .junk (m.word 1), .junk (m.word 2)⟩

/-- `AO::new_AO`, with the two records `new` returns and the id of the thread. -/
def new_AO (s : State w V F) (obj funq : Alloc) (thread : Nat) (q : Addr) (before_func after_func : F) :
    args × State w V F :=
  let funq' := { (new_arg_functions_queue funq : arg_functions_queue F) with after_func := .set after_func }
  let funq' := { funq' with before_func := .set before_func }
  let funq' := { funq' with q := .set (some q) }
  let obj' := { new_active_obj obj with thread := .set thread }
  (⟨obj.addr, some funq.addr⟩, {
    s with
    active_objs := Function.update s.active_objs obj.addr (some obj')
    funqs := Function.update s.funqs funq.addr (some funq')
    threads := Function.update s.threads thread (some ⟨.ao_func, funq.addr, false⟩) })

/-- `AO::new_listenAO` of an `AO` with queue `this_q`. -/
def new_listenAO (s : State w V F) (caps a_o : Alloc) (thread : Nat) (this_q : Option Addr) (sockfd : Nat) (q : Addr) :
    args × State w V F :=
  let a_o' := { new_active_obj a_o with thread := .set thread }
  (⟨a_o.addr, none⟩, {
    s with
    capsulas := Function.update s.capsulas caps.addr (some ⟨q, none, sockfd, this_q⟩)
    active_objs := Function.update s.active_objs a_o.addr (some a_o')
    threads := Function.update s.threads thread (some ⟨.listenAO, caps.addr, false⟩) })

/-- `pthread_cancel`, undefined for what is no thread. -/
def pthread_cancel (s : State w V F) (thread : Nat) : Option (State w V F) := do
  let th ← s.threads thread
  some { s with threads := Function.update s.threads thread (some { th with cancelled := true }) }

/-- `q->destroyQ()`, undefined for what is no queue. -/
def destroyQ (s : State w V F) (q : Option Addr) : Option (State w V F) := do
  let a ← q
  let queue ← s.queues a
  let queue' ← Queue.destroyQ queue
  some { s with queues := Function.update s.queues a (some queue'), destroyed := s.destroyed ++ [a] }

/-- `delete(arg.a_f_q)`: of a null pointer it does nothing. -/
def delete_a_f_q (s : State w V F) : Option Addr → Option (State w V F)
  | none => some s
  | some a => do
    let _ ← s.funqs a
    some { s with funqs := Function.update s.funqs a none }

/-- `delete(arg.a_o)`. -/
def delete_a_o (s : State w V F) (a : Addr) : Option (State w V F) := do
  let _ ← s.active_objs a
  some { s with active_objs := Function.update s.active_objs a none }

/-- `AO::destroy_AO`. -/
def destroy_AO (s : State w V F) (arg : args) : Option (State w V F) := do
  let a_o ← s.active_objs arg.a_o
  let s ← pthread_cancel s (a_o.thread.read id)
  let s ← destroyQ s (a_o.q.read pointer)
  let s ← delete_a_f_q s arg.a_f_q
  delete_a_o s arg.a_o

/-! ## Sequences of calls -/

/-- A call of one of the constructors: what it returned, the thread it started, the
queue it was given, and the word its `a_o->q` has. -/
structure Created where
  arg : args
  thread : Nat
  q : Addr
  word : Nat

/-- The process, and by `a_o` the active objects that have not been destroyed. -/
structure Process (w : Nat) (V F : Type) where
  s : State w V F
  created : Addr → Option Created

inductive Call (F : Type)
  | new_AO (q : Addr) (before_func after_func : F)
  | new_listenAO (sockfd : Nat) (q : Addr)
  | destroy_AO (arg : args)

inductive Step (x : Process w V F) : Call F → Process w V F → Prop
  | new_AO {obj funq thread q before_func after_func} : x.s.active_objs obj.addr = none → x.s.funqs funq.addr = none →
      x.s.threads thread = none → (x.s.queues q).isSome →
      Step x (.new_AO q before_func after_func) {
        s := (new_AO x.s obj funq thread q before_func after_func).2
        created := Function.update x.created obj.addr
          (some ⟨(new_AO x.s obj funq thread q before_func after_func).1, thread, q, obj.word 1⟩) }
  | new_listenAO {caps a_o thread this_q sockfd q} : x.s.active_objs a_o.addr = none → x.s.capsulas caps.addr = none →
      x.s.threads thread = none → (x.s.queues q).isSome →
      Step x (.new_listenAO sockfd q) {
        s := (new_listenAO x.s caps a_o thread this_q sockfd q).2
        created := Function.update x.created a_o.addr
          (some ⟨(new_listenAO x.s caps a_o thread this_q sockfd q).1, thread, q, a_o.word 1⟩) }
  | destroy_AO {c s'} : x.created c.arg.a_o = some c → destroy_AO x.s c.arg = some s' →
      Step x (.destroy_AO c.arg) ⟨s', Function.update x.created c.arg.a_o none⟩

/-- No active object yet, and any queues. -/
def machine (w : Nat) (V F : Type) : Machine (Process w V F) (Call F) where
  init x := (∀ a, x.created a = none) ∧ ∀ a q, x.s.queues a = some q → ∃ xs, Holds q xs
  step := Step

/-! ## What destroying is to do -/

/-- Every field `destroy_AO` reads has been set. -/
def Initialised (s : State w V F) (arg : args) : Prop :=
  ∃ a_o, s.active_objs arg.a_o = some a_o ∧ a_o.thread.isSet ∧ a_o.q.isSet

/-- The records but the one deleted, if any. -/
def deleted {α : Type} (records : Addr → Option α) : Option Addr → Addr → Option α
  | none => records
  | some a => Function.update records a none

/-- `destroy_AO(c.arg)` leads to `s'`, where what the constructor has made is undone. -/
structure Undone (x : Process w V F) (c : Created) (s' : State w V F) : Prop where
  cancelled : ∃ th, x.s.threads c.thread = some th ∧
    s'.threads = Function.update x.s.threads c.thread (some { th with cancelled := true })
  destroyed : s'.destroyed = x.s.destroyed ++ [c.q] ∧ ∃ q q', x.s.queues c.q = some q ∧ Queue.destroyQ q = some q' ∧
    s'.queues = Function.update x.s.queues c.q (some q')
  records : s'.active_objs = Function.update x.s.active_objs c.arg.a_o none ∧
    s'.funqs = deleted x.s.funqs c.arg.a_f_q ∧ s'.capsulas = x.s.capsulas
  others : ∀ d, x.created d.arg.a_o = some d → d.arg.a_o ≠ c.arg.a_o →
    s'.threads d.thread = x.s.threads d.thread ∧ s'.active_objs d.arg.a_o = x.s.active_objs d.arg.a_o ∧
    (∀ f, d.arg.a_f_q = some f → s'.funqs f = x.s.funqs f) ∧ (d.q ≠ c.q → s'.queues d.q = x.s.queues d.q)

/-! ## The invariant -/

/-- What is left of the constructor's call `c` at `a`. -/
structure Entry (s : State w V F) (a : Addr) (c : Created) : Prop where
  key : c.arg.a_o = a
  obj : s.active_objs a = some ⟨.set c.thread, .junk c.word⟩
  thread : (s.threads c.thread).isSome
  funq : ∀ f, c.arg.a_f_q = some f → (s.funqs f).isSome

structure Inv (x : Process w V F) : Prop where
  entries : ∀ a c, x.created a = some c → Entry x.s a c
  apart : ∀ a b c d, x.created a = some c → x.created b = some d → a ≠ b →
    c.thread ≠ d.thread ∧ ∀ f, c.arg.a_f_q = some f → d.arg.a_f_q ≠ some f
  -- the destructor leaves a dangling `head`
  queues : ∀ a q, x.s.queues a = some q → (∃ xs, Holds q xs) ∨ Queue.destroyQ q = none

variable {x y : Process w V F} {s s' : State w V F} {c d : Created} {call : Call F} {a b : Addr} {arg : args}

theorem pthread_cancel_spec {t : Nat} : pthread_cancel s t = some s' ↔
    ∃ th, s.threads t = some th ∧
      s' = { s with threads := Function.update s.threads t (some { th with cancelled := true }) } := by
  unfold pthread_cancel
  simp [Option.bind_eq_some_iff, @eq_comm _ _ s']

theorem destroyQ_spec {p : Option Addr} : destroyQ s p = some s' ↔
    ∃ a q q', p = some a ∧ s.queues a = some q ∧ Queue.destroyQ q = some q' ∧
      s' = { s with queues := Function.update s.queues a (some q'), destroyed := s.destroyed ++ [a] } := by
  unfold destroyQ
  simp [Option.bind_eq_some_iff, @eq_comm _ _ s']

theorem delete_a_f_q_spec {p : Option Addr} : delete_a_f_q s p = some s' ↔
    (∀ f, p = some f → (s.funqs f).isSome) ∧ s' = { s with funqs := deleted s.funqs p } := by
  unfold delete_a_f_q deleted
  cases p with
  | none => simp [@eq_comm _ _ s']
  | some f => simp [Option.bind_eq_some_iff, Option.isSome_iff_exists, @eq_comm _ _ s']

theorem delete_a_o_spec : delete_a_o s a = some s' ↔
    (s.active_objs a).isSome ∧ s' = { s with active_objs := Function.update s.active_objs a none } := by
  unfold delete_a_o
  simp [Option.bind_eq_some_iff, Option.isSome_iff_exists, @eq_comm _ _ s']

theorem destroy_AO_spec : destroy_AO s arg = some s' ↔
    ∃ a_o th a q q', s.active_objs arg.a_o = some a_o ∧ s.threads (a_o.thread.read id) = some th ∧
      a_o.q.read pointer = some a ∧ s.queues a = some q ∧ Queue.destroyQ q = some q' ∧
      (∀ f, arg.a_f_q = some f → (s.funqs f).isSome) ∧
      s' = {
        active_objs := Function.update s.active_objs arg.a_o none
        funqs := deleted s.funqs arg.a_f_q
        capsulas := s.capsulas
        threads := Function.update s.threads (a_o.thread.read id) (some { th with cancelled := true })
        queues := Function.update s.queues a (some q')
        destroyed := s.destroyed ++ [a] } := by
  unfold destroy_AO
  simp only [Option.bind_eq_bind, Option.bind_eq_some_iff, pthread_cancel_spec, destroyQ_spec, delete_a_f_q_spec,
    delete_a_o_spec]
  constructor
  · rintro ⟨a_o, ho, -, ⟨th, hth, rfl⟩, -, ⟨a, q, q', ha, hq, hq', rfl⟩, -, ⟨hf, rfl⟩, -, rfl⟩
    exact ⟨a_o, th, a, q, q', ho, hth, ha, hq, hq', hf, rfl⟩
  · rintro ⟨a_o, th, a, q, q', ho, hth, ha, hq, hq', hf, rfl⟩
    exact ⟨a_o, ho, _, ⟨th, hth, rfl⟩, _, ⟨a, q, q', ha, hq, hq', rfl⟩, _, ⟨hf, rfl⟩, by simp [ho], rfl⟩

theorem deleted_ne {α : Type} {records : Addr → Option α} {p : Option Addr} (h : p ≠ some a) :
    deleted records p a = records a := by
  cases p with
  | none => rfl
  | some b =>
    have hab : a ≠ b := fun he => h (congrArg some he.symm)
    exact Function.update_of_ne hab _ _

/-! ### Its steps -/

/-- A constructor's call `c`, at new addresses. -/
theorem Inv.create (hi : Inv x) (hthread : x.s.threads c.thread = none)
    (hfunq : ∀ f, c.arg.a_f_q = some f → x.s.funqs f = none ∧ (s'.funqs f).isSome)
    (hfunqs : ∀ f, (x.s.funqs f).isSome → (s'.funqs f).isSome)
    (hobjs : s'.active_objs = Function.update x.s.active_objs c.arg.a_o (some ⟨.set c.thread, .junk c.word⟩))
    {th : Thread} (hthreads : s'.threads = Function.update x.s.threads c.thread (some th))
    (hqueues : s'.queues = x.s.queues) : Inv ⟨s', Function.update x.created c.arg.a_o (some c)⟩ where
  entries b d hd := by
    rcases update_cases hd with ⟨hb, hd⟩ | ⟨hb, hd⟩
    · obtain ⟨hkey, ho, ht, hf⟩ := hi.entries b d hd
      refine ⟨hkey, ?_, ?_, fun f hdf => hfunqs f (hf f hdf)⟩
      · rw [hobjs, Function.update_of_ne hb, ho]
      · rw [hthreads]
        by_cases he : d.thread = c.thread
        · rw [he, hthread] at ht; cases ht
        · rwa [Function.update_of_ne he]
    · cases hd
      subst hb
      exact ⟨rfl, by rw [hobjs, Function.update_self], by simp [hthreads], fun f hf => (hfunq f hf).2⟩
  apart := by
    -- an older object has its thread and its record already
    have hold : ∀ b d, x.created b = some d →
        d.thread ≠ c.thread ∧ ∀ f, d.arg.a_f_q = some f → c.arg.a_f_q ≠ some f := by
      intro b d hd
      obtain ⟨-, -, ht, hf⟩ := hi.entries b d hd
      refine ⟨fun he => ?_, fun f hdf hcf => ?_⟩
      · rw [he, hthread] at ht; cases ht
      · have := hf f hdf
        rw [(hfunq f hcf).1] at this
        cases this
    intro a b d e hd he hab
    rcases update_cases hd with ⟨-, hd⟩ | ⟨ha, hd⟩
    · rcases update_cases he with ⟨-, he⟩ | ⟨-, he⟩
      · exact hi.apart a b d e hd he hab
      · cases he
        exact hold a d hd
    · cases hd
      rcases update_cases he with ⟨-, he⟩ | ⟨hb, -⟩
      · obtain ⟨hne, hf⟩ := hold b e he
        exact ⟨Ne.symm hne, fun f hcf hef => hf f hef hcf⟩
      · exact absurd (ha.trans hb.symm) hab
  queues a q hq := hi.queues a q (hqueues ▸ hq)

theorem Inv.destroy (hi : Inv x) (hc : x.created c.arg.a_o = some c) (h : destroy_AO x.s c.arg = some s') :
    Inv ⟨s', Function.update x.created c.arg.a_o none⟩ := by
  obtain ⟨a_o, th, p, q, q', ho, hth, -, hq, hq', -, rfl⟩ := destroy_AO_spec.1 h
  have hold : ∀ {b d}, Function.update x.created c.arg.a_o none b = some d → b ≠ c.arg.a_o ∧ x.created b = some d := by
    intro b d hd
    rcases update_cases hd with hd | ⟨-, hd⟩
    · exact hd
    · cases hd
  refine ⟨fun b d hd => ?_, fun a b d e hd he => hi.apart a b d e (hold hd).2 (hold he).2, fun r q'' hr => ?_⟩
  · obtain ⟨hb, hd⟩ := hold hd
    obtain ⟨hkey, hobj, ht, hf⟩ := hi.entries b d hd
    refine ⟨hkey, ?_, ?_, fun f hdf => ?_⟩
    · show Function.update x.s.active_objs c.arg.a_o none b = _
      rw [Function.update_of_ne hb, hobj]
    · show (Function.update x.s.threads (a_o.thread.read id) _ d.thread).isSome
      by_cases he : d.thread = a_o.thread.read id
      · rw [he, Function.update_self]; rfl
      · rwa [Function.update_of_ne he]
    · show (deleted x.s.funqs c.arg.a_f_q f).isSome
      rw [deleted_ne ((hi.apart b c.arg.a_o d c hd hc hb).2 f hdf)]
      exact hf f hdf
  · rcases update_cases hr with ⟨-, hr⟩ | ⟨-, hr⟩
    · exact hi.queues r q'' hr
    · cases hr
      rcases hi.queues p q hq with ⟨xs, hx⟩ | hnone
      · exact destroyQ_again hx hq'
      · rw [hnone] at hq'; cases hq'

theorem inv_step (hi : Inv x) (h : Step x call y) : Inv y := by
  cases h with
  | @new_AO obj funq thread q before_func after_func _ hfunq hthread _ =>
    refine Inv.create (c := ⟨⟨obj.addr, some funq.addr⟩, thread, q, obj.word 1⟩) hi hthread (fun f hf => ?_)
      (fun f hf => ?_) rfl rfl rfl
    · cases hf
      exact ⟨hfunq, by simp [new_AO]⟩
    · show (Function.update x.s.funqs funq.addr _ f).isSome
      by_cases he : f = funq.addr
      · rw [he, Function.update_self]; rfl
      · rwa [Function.update_of_ne he]
  | @new_listenAO caps a_o thread _ _ q _ _ hthread _ =>
    exact Inv.create (c := ⟨⟨a_o.addr, none⟩, thread, q, a_o.word 1⟩) hi hthread (fun f hf => by cases hf)
      (fun f hf => hf) rfl rfl rfl
  | destroy_AO hc hd => exact hi.destroy hc hd

theorem inv_init (hnone : ∀ a, x.created a = none) (hq : ∀ a q, x.s.queues a = some q → ∃ xs, Holds q xs) : Inv x where
  entries a c hc := by rw [hnone a] at hc; cases hc
  apart a _ c _ hc := by rw [hnone a] at hc; cases hc
  queues a q h := .inl (hq a q h)

theorem reachable_inv (h : (machine w V F).Reachable x) : Inv x :=
  h.inv (M := machine w V F) (fun _ h0 => inv_init h0.1 h0.2) fun _ _ _ => inv_step

/-! ## Whether it is undone -/

/-- No constructor sets `a_o->q`. -/
theorem not_initialised (hi : Inv x) (hc : x.created c.arg.a_o = some c) : ¬ Initialised x.s c.arg := by
  rintro ⟨a_o, ho, -, hset⟩
  obtain rfl := Option.some.inj ((hi.entries _ c hc).obj.symm.trans ho)
  exact hset

theorem q_of_undone (hi : Inv x) (hc : x.created c.arg.a_o = some c) (hd : destroy_AO x.s c.arg = some s')
    (hu : Undone x c s') : pointer c.word = some c.q ∧ ∃ q xs, x.s.queues c.q = some q ∧ Holds q xs := by
  obtain ⟨a_o, th, p, q, q', ho, -, hp, hq, hq', -, rfl⟩ := destroy_AO_spec.1 hd
  obtain rfl := Option.some.inj ((hi.entries _ c hc).obj.symm.trans ho)
  obtain rfl : p = c.q := by simpa using hu.destroyed.1
  refine ⟨hp, q, ?_⟩
  rcases hi.queues c.q q hq with ⟨xs, hx⟩ | hnone
  · exact ⟨xs, hq, hx⟩
  · rw [hnone] at hq'; cases hq'

theorem undone_of_q (hi : Inv x) (hc : x.created c.arg.a_o = some c) (hp : pointer c.word = some c.q)
    {q : queue w V} {xs : List V} (hq : x.s.queues c.q = some q) (hx : Holds q xs) :
    ∃ s', destroy_AO x.s c.arg = some s' ∧ Undone x c s' := by
  obtain ⟨-, hobj, hthread, hfunq⟩ := hi.entries _ c hc
  obtain ⟨l, hseg, -⟩ := hx
  obtain ⟨th, hth⟩ := Option.isSome_iff_exists.1 hthread
  refine ⟨_, destroy_AO_spec.2 ⟨_, th, c.q, q, _, hobj, hth, hp, hq, destroyQ_seg hseg, hfunq, rfl⟩, ⟨th, hth, rfl⟩,
    ⟨rfl, q, _, hq, destroyQ_seg hseg, rfl⟩, ⟨rfl, rfl, rfl⟩, fun d hd hne => ?_⟩
  obtain ⟨hthreads, hfunqs⟩ := hi.apart _ _ d c hd hc hne
  exact ⟨Function.update_of_ne hthreads _ _, Function.update_of_ne hne _ _, fun f hf => deleted_ne (hfunqs f hf),
    fun hq => Function.update_of_ne hq _ _⟩

/-- `destroy_AO` undoes what the constructor did exactly if the memory of the record
happened to hold the address of its queue, and the nodes of that have not been
deleted. In any case it goes by a field that was never set. -/
theorem undone_iff (h : (machine w V F).Reachable x) (hc : x.created c.arg.a_o = some c) :
    ¬ (Initialised x.s c.arg ∧ ∃ s', destroy_AO x.s c.arg = some s' ∧ Undone x c s') ∧
    ((∃ s', destroy_AO x.s c.arg = some s' ∧ Undone x c s') ↔
      pointer c.word = some c.q ∧ ∃ q xs, x.s.queues c.q = some q ∧ Holds q xs) := by
  have hi := reachable_inv h
  refine ⟨fun hboth => not_initialised hi hc hboth.1, ?_, ?_⟩
  · rintro ⟨s', hd, hu⟩
    exact q_of_undone hi hc hd hu
  · rintro ⟨hp, q, xs, hq, hx⟩
    exact undone_of_q hi hc hp hq hx

/-- Queues at 1 and 2. -/
def two_queues : Process 64 Nat Unit where
  s := {
    active_objs _ := none, funqs _ := none, capsulas _ := none, threads _ := none
    queues a := if a = 1 ∨ a = 2 then some (createQ 64 Nat) else none
    destroyed := [] }
  created _ := none

theorem two_queues_reachable : (machine 64 Nat Unit).Reachable two_queues := by
  refine .init ⟨fun _ => rfl, fun a q hq => ⟨[], ?_⟩⟩
  obtain ⟨-, hq⟩ := Option.ite_none_right_eq_some.1 hq
  obtain rfl := Option.some.inj hq
  exact holds_createQ

/-- The record of an active object of queue 1, in memory that holds 1. -/
theorem undone_iff_lucky : ∃ (x : Process 64 Nat Unit) (c : Created), x.created c.arg.a_o = some c ∧
    ¬ Initialised x.s c.arg ∧ ∃ s', destroy_AO x.s c.arg = some s' ∧ Undone x c s' := by
  have r := two_queues_reachable.step
    (@Step.new_AO 64 Nat Unit _ ⟨10, fun _ => 1⟩ ⟨11, fun _ => 0⟩ 0 1 () () rfl rfl rfl rfl)
  obtain ⟨hnot, hiff⟩ := undone_iff (c := ⟨⟨10, some 11⟩, 0, 1, 1⟩) r rfl
  have hdone := hiff.2 ⟨rfl, _, [], rfl, holds_createQ⟩
  exact ⟨_, _, rfl, fun hset => hnot ⟨hset, hdone⟩, hdone⟩

/-- In memory that holds 2: it is the other active object's queue that is destroyed. -/
theorem other_queue : ∃ (x : Process 64 Nat Unit) (c d : Created), (machine 64 Nat Unit).Reachable x ∧
    x.created c.arg.a_o = some c ∧ x.created d.arg.a_o = some d ∧ c.q ≠ d.q ∧
    (destroy_AO x.s c.arg).map State.destroyed = some [d.q] ∧
    ¬ ∃ s', destroy_AO x.s c.arg = some s' ∧ Undone x c s' := by
  have r := two_queues_reachable.step
    (@Step.new_AO 64 Nat Unit _ ⟨10, fun _ => 2⟩ ⟨11, fun _ => 0⟩ 0 1 () () rfl rfl rfl rfl)
  have r := r.step
    (@Step.new_AO 64 Nat Unit _ ⟨20, fun _ => 0⟩ ⟨21, fun _ => 0⟩ 1 2 () () rfl rfl rfl rfl)
  refine ⟨_, ⟨⟨10, some 11⟩, 0, 1, 2⟩, ⟨⟨20, some 21⟩, 1, 2, 0⟩, r, rfl, rfl, by decide, rfl, ?_⟩
  rintro ⟨s', hd, hu⟩
  have hdestroyed : s'.destroyed = [2] := by cases hd; rfl
  have := hdestroyed.symm.trans hu.destroyed.1
  cases this

end Ex6.Lifetime
