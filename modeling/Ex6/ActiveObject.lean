import Ex6.Monitor
/-!
# An active object and its tasks

`ao_func` takes elements from its queue, one after the other, and runs
`before_func` and `after_func` on each. The two functions are arbitrary: their
bodies go on as they like and may call `enQ` on any queue, the one they are
served from included. Other threads call `enQ` and `deQ` on all queues, in any
interleaving, but do not dequeue from this one.

Every queue is a monitor of its own (`monitors`); `serial` says what the worker
has done with the elements it has taken.
-/
open Lib

namespace Ex6.ActiveObject

/-- A function given to an active object, by its body: where it can be, and what it
may do there next. What it reads of the process may decide between several ways
to go on, so they are relations. -/
structure Func (K V : Type) where
  Loc : Type
  enter : V → Loc
  works : Loc → Loc → Prop
  enQs : Loc → K → V → Loc → Prop
  returns : Loc → V → Prop

structure arg_functions_queue (K V : Type) where
  q : K
  before_func : Func K V
  after_func : Func K V

inductive Phase
  | before
  | after
deriving DecidableEq

variable {K V T : Type} {w : Nat}

/-- The function that runs. -/
def arg_functions_queue.func (funq : arg_functions_queue K V) : Phase → Func K V
  | .before => funq.before_func
  | .after => funq.after_func

/-- Where the worker is: before its loop, in `deQ`, in the body of a function, or in a
call of `enQ` that the function makes. -/
inductive Pc (funq : arg_functions_queue K V)
  | ready
  | deQ
  | body (p : Phase) (l : (funq.func p).Loc)
  | enQ (p : Phase) (k : K) (l : (funq.func p).Loc)

/-- What the worker has called: `before_func(x)`, `after_func(y)` on its result, which
has returned. -/
inductive Call (V : Type)
  | before (x : V)
  | after (y : V)
  | done (r : V)
deriving DecidableEq

structure State (w : Nat) (T : Type) (funq : arg_functions_queue K V) where
  queues : K → Monitor.State w V T
  pc : Pc funq
  calls : List (Call V)

variable {funq : arg_functions_queue K V}

def start : State w T funq := ⟨fun _ => Monitor.start, .ready, []⟩

/-- Queue `k` becomes `m`. -/
def State.setQ [DecidableEq K] (s : State w T funq) (k : K) (m : Monitor.State w V T) : State w T funq :=
  { s with queues := Function.update s.queues k m }

/-- A step of a thread in one of the queues, or of the worker's own code. -/
inductive Event (K V T : Type)
  | thread (t : T) (k : K) (a : Monitor.Act V)
  | own

/-- The call of a function of the queue. -/
def Calls : Monitor.Act V → Prop
  | .enQ _ | .deQ => True
  | _ => False

variable [DecidableEq K] [DecidableEq T]

/-- A step of `ao`, the worker. -/
inductive Work (ao : T) (s : State w T funq) : Event K V T → State w T funq → Prop
  | ready : s.pc = .ready → Work ao s .own { s with pc := .deQ }
  | deQ {a m} : s.pc = .deQ → Monitor.Step (s.queues funq.q) (ao, a) m → (∀ member, a ≠ .enQ member) → a ≠ .unlock →
      Work ao s (.thread ao funq.q a) (s.setQ funq.q m)
  | deQ_returns {ret m} : s.pc = .deQ → (s.queues funq.q).pc ao = .deqUnlock ret →
      Monitor.Step (s.queues funq.q) (ao, .unlock) m → Work ao s (.thread ao funq.q .unlock) {
        s.setQ funq.q m with
        pc := .body .before (funq.before_func.enter ret)
        calls := s.calls ++ [.before ret] }
  | works {p l l'} : s.pc = .body p l → (funq.func p).works l l' → Work ao s .own { s with pc := .body p l' }
  | enQ {p l k member l' m} : s.pc = .body p l → (funq.func p).enQs l k member l' →
      Monitor.Step (s.queues k) (ao, .enQ member) m →
      Work ao s (.thread ao k (.enQ member)) { s.setQ k m with pc := .enQ p k l' }
  | enQ_goes {p k l a m} : s.pc = .enQ p k l → Monitor.Step (s.queues k) (ao, a) m → a ≠ .unlock →
      Work ao s (.thread ao k a) (s.setQ k m)
  | enQ_returns {p k l m} : s.pc = .enQ p k l → Monitor.Step (s.queues k) (ao, .unlock) m →
      Work ao s (.thread ao k .unlock) { s.setQ k m with pc := .body p l }
  | before_returns {l y} : s.pc = .body .before l → funq.before_func.returns l y →
      Work ao s .own { s with pc := .body .after (funq.after_func.enter y), calls := s.calls ++ [.after y] }
  | after_returns {l r} : s.pc = .body .after l → funq.after_func.returns l r →
      Work ao s .own { s with pc := .deQ, calls := s.calls ++ [.done r] }

inductive Step (ao : T) (s : State w T funq) : Event K V T → State w T funq → Prop
  -- a thread is in one call at a time
  | other {t k a m} : t ≠ ao → Monitor.Step (s.queues k) (t, a) m → (Calls a → ∀ k', (s.queues k').pc t = .idle) →
      (k = funq.q → a ≠ .deQ) → Step ao s (.thread t k a) (s.setQ k m)
  | work {e s'} : Work ao s e s' → Step ao s e s'

/-- The queues, the worker and all other threads. -/
def machine (w : Nat) (ao : T) (funq : arg_functions_queue K V) : Machine (State w T funq) (Event K V T) where
  init s := s = start
  step := Step ao

/-! ## What is done with an element -/

/-- A body that has been entered with `x` can be at `l`. -/
inductive Func.Reaches (f : Func K V) (x : V) : f.Loc → Prop
  | enter : f.Reaches x (f.enter x)
  | works {l l'} : f.Reaches x l → f.works l l' → f.Reaches x l'
  | enQs {l k member l'} : f.Reaches x l → f.enQs l k member l' → f.Reaches x l'

/-- `f(x)` can return `y`. -/
def Func.Result (f : Func K V) (x y : V) : Prop := ∃ l, f.Reaches x l ∧ f.returns l y

/-- Both functions have been run once on each of the elements, in order. -/
inductive Done (funq : arg_functions_queue K V) : List V → List (Call V) → Prop
  | nil : Done funq [] []
  | snoc {xs x y r calls} : Done funq xs calls → funq.before_func.Result x y → funq.after_func.Result y r →
      Done funq (xs ++ [x]) (calls ++ [.before x, .after y, .done r])

/-- On the element `x` each function has been run at most once. -/
inductive AtMostOnce (funq : arg_functions_queue K V) (x : V) : List (Call V) → Prop
  | taken : AtMostOnce funq x []
  | before : AtMostOnce funq x [.before x]
  | after {y} : funq.before_func.Result x y → AtMostOnce funq x [.before x, .after y]
  | done {y r} : funq.before_func.Result x y → funq.after_func.Result y r →
      AtMostOnce funq x [.before x, .after y, .done r]

/-- Once on each element but the last, and at most once on that. -/
def Served (funq : arg_functions_queue K V) (xs : List V) (calls : List (Call V)) : Prop :=
  (xs = [] ∧ calls = []) ∨ ∃ init x c c', xs = init ++ [x] ∧ calls = c ++ c' ∧ Done funq init c ∧ AtMostOnce funq x c'

/-- What has been called, by where the worker is, when `deQ` has returned `returned`. -/
def Progress : Pc funq → List V → List (Call V) → Prop
  | .ready, returned, calls | .deQ, returned, calls => Done funq returned calls
  | .body .before l, returned, calls | .enQ .before _ l, returned, calls =>
    ∃ xs x c, returned = xs ++ [x] ∧ calls = c ++ [.before x] ∧ Done funq xs c ∧ funq.before_func.Reaches x l
  | .body .after l, returned, calls | .enQ .after _ l, returned, calls =>
    ∃ xs x y c, returned = xs ++ [x] ∧ calls = c ++ [.before x, .after y] ∧ Done funq xs c ∧
      funq.before_func.Result x y ∧ funq.after_func.Reaches y l

/-- The call the worker is in at queue `k`. -/
def Allows : Pc funq → K → Monitor.Kind → Prop
  | .deQ, k, kind => kind = .idle ∨ (k = funq.q ∧ kind = .deQ)
  | .enQ _ k' _, k, kind => kind = if k = k' then .enQ else .idle
  | _, _, kind => kind = .idle

/-- The worker is in no call but the one its code is at. -/
structure InCall (ao : T) (s : State w T funq) : Prop where
  monitors : ∀ k, (Monitor.machine w V T).Reachable (s.queues k)
  allows : ∀ k, Allows s.pc k ((s.queues k).pc ao).kind

structure Inv (ao : T) (s : State w T funq) : Prop extends InCall ao s where
  others : ∀ t, t ≠ ao → ((s.queues funq.q).pc t).kind ≠ .deQ
  progress : Progress s.pc (s.queues funq.q).returned s.calls

/-! ## The invariant is kept -/

variable {ao t : T} {s s' : State w T funq} {e : Event K V T} {k : K} {a : Monitor.Act V} {m : Monitor.State w V T}

omit [DecidableEq T] in
@[simp] theorem setQ_queues_self (s : State w T funq) (k : K) (m : Monitor.State w V T) : (s.setQ k m).queues k = m :=
  Function.update_self ..

omit [DecidableEq T] in
theorem setQ_queues_ne (s : State w T funq) {k k' : K} (h : k' ≠ k) (m : Monitor.State w V T) :
    (s.setQ k m).queues k' = s.queues k' :=
  Function.update_of_ne h ..

omit [DecidableEq T] in
theorem setQ_self (s : State w T funq) (k : K) : s.setQ k (s.queues k) = s := by
  unfold State.setQ
  rw [Function.update_eq_self]

omit [DecidableEq T] in
theorem setQ_setQ (s : State w T funq) (k : K) (m m' : Monitor.State w V T) : (s.setQ k m).setQ k m' = s.setQ k m' := by
  unfold State.setQ
  rw [Function.update_idem]

theorem start_inv (ao : T) : Inv ao (start : State w T funq) where
  monitors _ := .init rfl
  allows _ := rfl
  others _ _ h := by cases h
  progress := .nil

/-- A step in one queue leaves the others as they are. -/
theorem monitors_step (h : ∀ k, (Monitor.machine w V T).Reachable (s.queues k))
    (hm : Monitor.Step (s.queues k) (t, a) m) :
    ∀ k', (Monitor.machine w V T).Reachable ((s.setQ k m).queues k') := by
  intro k'
  by_cases hk : k' = k
  · subst hk
    rw [setQ_queues_self]
    exact (h k').step hm
  · rw [setQ_queues_ne s hk]
    exact h k'

/-- What a step of one thread says of the calls another is in. -/
theorem kind_other (hm : Monitor.Step (s.queues k) (t, a) m) {u : T} (hu : u ≠ t) (k' : K) :
    (((s.setQ k m).queues k').pc u).kind = ((s.queues k').pc u).kind := by
  by_cases hk : k' = k
  · subst hk
    rw [setQ_queues_self]
    exact Monitor.step_kind_other hm hu
  · rw [setQ_queues_ne s hk]

omit [DecidableEq T] in
/-- What a step of the worker in one queue says of its calls, from what it says there. -/
theorem allows_setQ {pc : Pc funq} (hk : Allows pc k (m.pc ao).kind)
    (hother : ∀ k', k' ≠ k → Allows pc k' ((s.queues k').pc ao).kind) :
    ∀ k', Allows pc k' (((s.setQ k m).queues k').pc ao).kind := by
  intro k'
  by_cases he : k' = k
  · subst he
    rw [setQ_queues_self]
    exact hk
  · rw [setQ_queues_ne s he]
    exact hother k' he

theorem InCall.other (hi : InCall ao s) (hne : t ≠ ao) (hm : Monitor.Step (s.queues k) (t, a) m) :
    InCall ao (s.setQ k m) where
  monitors := monitors_step hi.monitors hm
  allows k' := by
    rw [kind_other hm (Ne.symm hne)]
    exact hi.allows k'

theorem allows_work (hi : InCall ao s) (h : Work ao s e s') : ∀ k, Allows s'.pc k ((s'.queues k).pc ao).kind := by
  have hall := hi.allows
  cases h with
  | ready hpc =>
    rw [hpc] at hall
    exact fun k' => .inl (hall k')
  | @deQ a m hpc hm hnot hret =>
    rw [hpc] at hall
    have hkind : (m.pc ao).kind = .deQ :=
      Monitor.stays_deQ (Monitor.step_moves hm) ((hall funq.q).imp id And.right) hnot hret
    have hpc' : (s.setQ funq.q m).pc = .deQ := hpc
    rw [hpc']
    exact allows_setQ (.inr ⟨rfl, hkind⟩) fun k' _ => hall k'
  | @deQ_returns ret m hpc hret hm =>
    rw [hpc] at hall
    have hmoves := Monitor.step_moves hm
    exact allows_setQ hmoves.2 fun k' hk' => (hall k').resolve_right fun h => hk' h.1
  | works hpc | before_returns hpc | after_returns hpc =>
    rw [hpc] at hall
    first
    | exact hall
    | exact fun k' => .inl (hall k')
  | @enQ p l k member l' m hpc _ hm =>
    rw [hpc] at hall
    have hmoves := Monitor.step_moves hm
    refine allows_setQ ?_ fun k' hk' => ?_
    · rw [hmoves.2]
      exact (if_pos rfl).symm
    · rw [show ((s.queues k').pc ao).kind = .idle from hall k']
      exact (if_neg hk').symm
  | @enQ_goes p k l a m hpc hm hret =>
    have hpc' : (s.setQ k m).pc = .enQ p k l := hpc
    rw [hpc] at hall
    rw [hpc']
    have hmoves := Monitor.step_moves hm
    rw [show ((s.queues k).pc ao).kind = .enQ from (hall k).trans (if_pos rfl)] at hmoves
    exact allows_setQ ((Monitor.stays_enQ hmoves hret).trans (if_pos rfl).symm) fun k' _ => hall k'
  | @enQ_returns p k l m hpc hm =>
    rw [hpc] at hall
    have hmoves := Monitor.step_moves hm
    exact allows_setQ hmoves.2 fun k' hk' => (hall k').trans (if_neg hk')

theorem InCall.work (hi : InCall ao s) (h : Work ao s e s') : InCall ao s' where
  monitors := by
    cases h with
    | deQ _ hm | deQ_returns _ _ hm | enQ _ _ hm | enQ_goes _ hm | enQ_returns _ hm =>
      exact monitors_step hi.monitors hm
    | ready | works | before_returns | after_returns => exact hi.monitors
  allows := allows_work hi h

theorem InCall.step (hi : InCall ao s) (h : Step ao s e s') : InCall ao s' := by
  cases h with
  | other hne hm => exact hi.other hne hm
  | work hw => exact hi.work hw

theorem others_step (hi : Inv ao s) (h : Step ao s e s') : ∀ t, t ≠ ao → ((s'.queues funq.q).pc t).kind ≠ .deQ := by
  intro u hu
  have hother := hi.others u hu
  cases h with
  | @other t k a m hne hm hidle hnot =>
    by_cases hut : u = t
    · subst hut
      by_cases hk : funq.q = k
      · subst hk
        rw [setQ_queues_self]
        have hmoves := Monitor.step_moves hm
        cases a with
        | deQ => exact absurd rfl (hnot rfl)
        | enQ | unlock => rw [hmoves.2]; simp
        | _ => rw [hmoves.2]; exact hother
      · rw [setQ_queues_ne s hk]
        exact hother
    · rw [kind_other hm hut]
      exact hother
  | work hw =>
    cases hw with
    | deQ _ hm | deQ_returns _ _ hm | enQ _ _ hm | enQ_goes _ hm | enQ_returns _ hm =>
      have hkind := kind_other hm hu funq.q
      exact fun h => hother (hkind.symm.trans h)
    | ready | works | before_returns | after_returns => exact hother

/-- Only where a `deQ` unlocks has the queue returned something. -/
theorem returned_setQ (hm : Monitor.Step (s.queues k) (t, a) m)
    (h : k = funq.q → a ≠ .unlock ∨ ((s.queues k).pc t).kind ≠ .deQ) :
    ((s.setQ k m).queues funq.q).returned = (s.queues funq.q).returned := by
  by_cases hk : funq.q = k
  · subst hk
    rw [setQ_queues_self]
    rcases Monitor.step_returned hm with hsame | ⟨ret, ha, hpc, -⟩
    · exact hsame
    · rcases h rfl with hne | hne
      · exact absurd ha hne
      · rw [hpc] at hne
        exact absurd rfl hne
  · rw [setQ_queues_ne s hk]

omit [DecidableEq K] [DecidableEq T] in
/-- A call of `enQ` is part of the function's body. -/
theorem progress_enQ {p : Phase} {l : (funq.func p).Loc} {returned : List V} {calls : List (Call V)} :
    Progress (.enQ p k l) returned calls ↔ Progress (.body p l) returned calls := by
  cases p <;> rfl

omit [DecidableEq K] [DecidableEq T] in
theorem Progress.goes {p : Phase} {l l' : (funq.func p).Loc} {returned : List V} {calls : List (Call V)}
    (h : Progress (.body p l) returned calls) (hl : ∀ x, (funq.func p).Reaches x l → (funq.func p).Reaches x l') :
    Progress (.body p l') returned calls := by
  cases p with
  | before =>
    obtain ⟨xs, x, c, hx, hc, hdone, hreach⟩ := h
    exact ⟨xs, x, c, hx, hc, hdone, hl x hreach⟩
  | after =>
    obtain ⟨xs, x, y, c, hx, hc, hdone, hy, hreach⟩ := h
    exact ⟨xs, x, y, c, hx, hc, hdone, hy, hl y hreach⟩

theorem progress_work (hi : Inv ao s) (h : Work ao s e s') :
    Progress s'.pc (s'.queues funq.q).returned s'.calls := by
  have hprog := hi.progress
  cases h with
  | ready hpc =>
    rw [hpc] at hprog
    exact hprog
  | deQ hpc hm _ hret =>
    rw [returned_setQ hm fun _ => .inl hret]
    exact hprog
  | @deQ_returns ret m hpc hunlock hm =>
    rw [hpc] at hprog
    have hret : m.returned = (s.queues funq.q).returned ++ [ret] := by
      cases hm with
      | unlockEnQ ht => rw [ht] at hunlock; cases hunlock
      | unlockDeQ ht => rw [ht] at hunlock; cases hunlock; rfl
    show Progress _ ((s.setQ funq.q m).queues funq.q).returned _
    rw [setQ_queues_self, hret]
    exact ⟨_, ret, _, rfl, rfl, hprog, .enter⟩
  | works hpc hworks =>
    rw [hpc] at hprog
    exact hprog.goes fun _ hreach => hreach.works hworks
  | @enQ p l k member l' m hpc henq hm =>
    rw [hpc] at hprog
    show Progress (.enQ p k l') ((s.setQ k m).queues funq.q).returned s.calls
    rw [returned_setQ hm fun _ => .inl (by simp), progress_enQ]
    exact hprog.goes fun _ hreach => hreach.enQs henq
  | enQ_goes hpc hm hret =>
    rw [returned_setQ hm fun _ => .inl hret]
    exact hprog
  | @enQ_returns p k l m hpc hm =>
    -- what unlocks here is an `enQ`, even in the worker's own queue
    have hkind : ((s.queues k).pc ao).kind = .enQ := by
      have := hi.allows k
      rw [hpc] at this
      exact this.trans (if_pos rfl)
    rw [hpc, progress_enQ] at hprog
    show Progress (.body p l) ((s.setQ k m).queues funq.q).returned s.calls
    rw [returned_setQ hm fun _ => .inr (by simp [hkind])]
    exact hprog
  | @before_returns l y hpc hret =>
    rw [hpc] at hprog
    obtain ⟨xs, x, c, hx, hc, hdone, hreach⟩ := hprog
    exact ⟨xs, x, y, c, hx, by simp [hc], hdone, ⟨l, hreach, hret⟩, .enter⟩
  | @after_returns l r hpc hret =>
    rw [hpc] at hprog
    obtain ⟨xs, x, y, c, hx, hc, hdone, hy, hreach⟩ := hprog
    have hcalls : s.calls ++ [.done r] = c ++ [.before x, .after y, .done r] := by simp [hc]
    show Done funq (s.queues funq.q).returned (s.calls ++ [.done r])
    rw [hx, hcalls]
    exact hdone.snoc hy ⟨l, hreach, hret⟩

theorem progress_step (hi : Inv ao s) (h : Step ao s e s') :
    Progress s'.pc (s'.queues funq.q).returned s'.calls := by
  cases h with
  | @other t k a m hne hm =>
    rw [returned_setQ hm fun hk => .inr (hk ▸ hi.others t hne)]
    exact hi.progress
  | work hw => exact progress_work hi hw

theorem inv_step (hi : Inv ao s) (h : Step ao s e s') : Inv ao s' :=
  ⟨hi.toInCall.step h, others_step hi h, progress_step hi h⟩

theorem reachable_inv (h : (machine w ao funq).Reachable s) : Inv ao s :=
  h.inv (M := machine w ao funq) (fun _ h0 => h0 ▸ start_inv ao) fun _ _ _ => inv_step

/-! ## One element at a time -/

omit [DecidableEq K] [DecidableEq T] in
theorem Done.served {xs : List V} {calls : List (Call V)} (h : Done funq xs calls) : Served funq xs calls := by
  cases h with
  | nil => exact .inl ⟨rfl, rfl⟩
  | snoc hdone hy hr => exact .inr ⟨_, _, _, _, rfl, rfl, hdone, .done hy hr⟩

omit [DecidableEq K] [DecidableEq T] in
theorem Progress.served {pc : Pc funq} {returned : List V} {calls : List (Call V)} (h : Progress pc returned calls) :
    Served funq returned calls := by
  match pc with
  | .ready | .deQ => exact Done.served h
  | .body .before _ | .enQ .before _ _ =>
    obtain ⟨xs, x, c, hx, hc, hdone, -⟩ := h
    exact .inr ⟨xs, x, c, _, hx, hc, hdone, .before⟩
  | .body .after _ | .enQ .after _ _ =>
    obtain ⟨xs, x, y, c, hx, hc, hdone, hy, -⟩ := h
    exact .inr ⟨xs, x, c, _, hx, hc, hdone, .after hy⟩

/-- A value that has been unlinked and not returned is in the worker's hand. -/
theorem Inv.served (hi : Inv ao s) : Served funq (s.queues funq.q).dequeued s.calls := by
  have hm := Monitor.reachable_inv (hi.monitors funq.q)
  rw [hm.returned]
  unfold Monitor.Pc.inHand Monitor.State.current
  split
  · next ret hcur =>
    obtain ⟨t, -, ht⟩ := Option.map_eq_some_iff.1 hcur
    have hao : t = ao := by
      by_contra hne
      have := hi.others t hne
      rw [ht] at this
      exact this rfl
    have hall := hi.allows funq.q
    rw [← hao, ht] at hall
    have hprog := hi.progress
    cases hpc : s.pc with
    | deQ =>
      rw [hpc] at hprog
      exact .inr ⟨_, ret, s.calls, [], rfl, (List.append_nil _).symm, hprog, .taken⟩
    | ready | body => rw [hpc] at hall; cases hall
    | enQ =>
      rw [hpc] at hall
      simp only [Allows, Monitor.Pc.kind] at hall
      split at hall <;> cases hall
  · rw [List.append_nil]
    exact hi.progress.served

def Call.isDone : Call V → Bool
  | .done _ => true
  | _ => false

omit [DecidableEq K] [DecidableEq T] in
theorem Done.countP {xs : List V} {calls : List (Call V)} (h : Done funq xs calls) :
    calls.countP Call.isDone = xs.length := by
  induction h with
  | nil => rfl
  | snoc _ _ _ ih => simp [ih, List.countP_cons, Call.isDone]

omit [DecidableEq K] [DecidableEq T] in
/-- No more than one element has been taken and not been finished. -/
theorem Served.length_le {xs : List V} {calls : List (Call V)} (h : Served funq xs calls) :
    xs.length ≤ calls.countP Call.isDone + 1 := by
  rcases h with ⟨rfl, rfl⟩ | ⟨init, x, c, c', rfl, rfl, hdone, -⟩
  · simp
  · rw [List.countP_append, hdone.countP]
    simp

/-! ## The mutexes -/

/-- Outside its calls the worker owns nothing. -/
theorem InCall.owner_ne (hi : InCall ao s) (h : ((s.queues k).pc ao).kind = .idle) : (s.queues k).owner ≠ some ao := by
  intro ho
  have hin := ((Monitor.reachable_inv (hi.monitors k)).owner ao).2 ho
  exact Monitor.kind_ne_idle hin h

/-- The owner of a mutex can go on, and is not a thread that waits for it. -/
theorem Inv.owner_goes (hi : Inv ao s) (ho : (s.queues k).owner = some t) (hne : t ≠ ao) :
    ∃ a s', Step ao s (.thread t k a) s' ∧ a.external = false := by
  obtain ⟨a, m, hm, ha⟩ := Monitor.owner_moves (Monitor.reachable_inv (hi.monitors k)) ho
  refine ⟨a, _, .other hne hm (fun hc => ?_) (fun _ he => ?_), ha⟩
  · cases a with
    | enQ | deQ => cases ha
    | _ => exact hc.elim
  · rw [he] at ha
    cases ha

/-- While the worker is about to enter `enQ`, the mutex is free or another thread's. -/
theorem Inv.lock (hi : Inv ao s) {member : V} (h : (s.queues k).pc ao = .enqLock member) :
    ((s.queues k).owner = none → ∃ s', Step ao s (.thread ao k .lock) s') ∧
      ∀ t, (s.queues k).owner = some t → t ≠ ao ∧ ∃ a s', Step ao s (.thread t k a) s' ∧ a.external = false := by
  have hall := hi.allows k
  rw [h] at hall
  refine ⟨fun hfree => ?_, fun t ho => ?_⟩
  · cases hpc : s.pc with
    | enQ p k' l =>
      rw [hpc] at hall
      obtain rfl : k = k' := by
        by_contra hne
        rw [Allows, if_neg hne] at hall
        cases hall
      exact ⟨_, .work (.enQ_goes hpc (.lockEnQ h hfree) (by simp))⟩
    | deQ => rw [hpc] at hall; rcases hall with hall | ⟨-, hall⟩ <;> cases hall
    | ready | body => rw [hpc] at hall; cases hall
  · have hne : t ≠ ao := by
      rintro rfl
      have hin := ((Monitor.reachable_inv (hi.monitors k)).owner t).2 ho
      rw [h] at hin
      cases hin
    exact ⟨hne, hi.owner_goes ho hne⟩

/-- The worker has taken the first so many elements enqueued, has run both functions
on each of them but the last, in order and once, and on the last at most once.
While a function runs it owns no mutex but the one of an `enQ` the function is
in; when that `enQ` is about to lock, it owns none, so that it waits for no one
but threads that can go on. -/
theorem serial (h : (machine w ao funq).Reachable s) :
    (∃ k, (s.queues funq.q).dequeued = (s.queues funq.q).enqueued.take k ∧ k ≤ (s.queues funq.q).enqueued.length) ∧
    Served funq (s.queues funq.q).dequeued s.calls ∧
    (s.queues funq.q).dequeued.length ≤ s.calls.countP Call.isDone + 1 ∧
    (∀ p l, s.pc = .body p l → ∀ k, (s.queues k).owner ≠ some ao) ∧
    (∀ p k l, s.pc = .enQ p k l → ∀ k', k' ≠ k → (s.queues k').owner ≠ some ao) ∧
    ∀ k member, (s.queues k).pc ao = .enqLock member →
      ((s.queues k).owner = none → ∃ s', Step ao s (.thread ao k .lock) s') ∧
      ∀ t, (s.queues k).owner = some t → t ≠ ao ∧ ∃ a s', Step ao s (.thread t k a) s' ∧ a.external = false := by
  have hi := reachable_inv h
  refine ⟨?_, hi.served, hi.served.length_le, fun p l hpc k => hi.toInCall.owner_ne ?_,
    fun p k l hpc k' hk => hi.toInCall.owner_ne ?_,
    fun k member hlock => hi.lock hlock⟩
  · obtain ⟨xs, -, he⟩ := (Monitor.reachable_inv (hi.monitors funq.q)).holds
    exact ⟨(s.queues funq.q).dequeued.length, by rw [he, List.take_left], by rw [he, List.length_append]; omega⟩
  · have hall := hi.allows k
    rw [hpc] at hall
    exact hall
  · have hall := hi.allows k'
    rw [hpc] at hall
    exact hall.trans (if_neg hk)

/-- A function that puts its argument back into the queue and returns it. -/
def again : Func Unit Nat where
  Loc := Nat
  enter x := x
  works _ _ := False
  enQs l _ member l' := member = l ∧ l' = l
  returns l r := r = l

/-- The worker is about to put its first element back. -/
theorem serial_again : ∃ s : State 64 Bool (K := Unit) ⟨(), again, again⟩,
    (s.queues ()).pc true = .enqLock 7 ∧ (s.queues ()).dequeued = [7] ∧ (s.queues ()).owner ≠ some true := by
  have r : (machine 64 true (K := Unit) ⟨(), again, again⟩).Reachable start := .init rfl
  have r := r.step (Step.other (k := ()) (by simp) (@Monitor.Step.enQ 64 Nat Bool _ _ false 7 rfl) (fun _ _ => rfl)
    (by simp))
  have r := r.step (Step.other (t := false) (k := ()) (by simp) (.lockEnQ rfl rfl) (by simp [Calls]) (by simp))
  have r := r.step (Step.other (t := false) (k := ()) (by simp) (.insert (a := 0) rfl (by decide) rfl) (by simp [Calls])
    (by simp))
  have r := r.step (Step.other (t := false) (k := ()) (by simp) (.broadcast rfl) (by simp [Calls]) (by simp))
  have r := r.step (Step.other (t := false) (k := ()) (by simp) (.unlockEnQ rfl) (by simp [Calls]) (by simp))
  have r := r.step (.work (.ready rfl))
  have r := r.step (.work (.deQ rfl (.deQ rfl) (by simp) (by simp)))
  have r := r.step (.work (.deQ rfl (.lockDeQ (.inl rfl) rfl) (by simp) (by simp)))
  have r := r.step (.work (.deQ rfl (.testReady rfl (by decide)) (by simp) (by simp)))
  have r := r.step (.work (.deQ rfl (.remove rfl rfl) (by simp) (by simp)))
  have r := r.step (.work (.deQ_returns rfl rfl (.unlockDeQ rfl)))
  have r := r.step (.work (.enQ (p := .before) (k := ()) rfl ⟨rfl, rfl⟩ (.enQ (by rfl))))
  obtain ⟨-, -, -, -, -, hlock⟩ := serial r
  exact ⟨_, rfl, rfl, fun ho => ((hlock () 7 rfl).2 true ho).1 rfl⟩

end Ex6.ActiveObject
