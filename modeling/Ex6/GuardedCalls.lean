import Ex6.Guards
import Ex6.Lib.Simulation
import Ex6.Lib.Linearizable
/-!
# Functions under a guard

A function that declares a `Guard` first, as `Guard.hpp` proposes for `strtok`:
the mutex is held until the scope is left, and that is after the `return`
statement. Any number of threads call such functions on the same data, and
their statements are interleaved; still each call takes effect as if nobody
else were there (`guarded_linearizable`).

`myfunc` of `testGuard.cpp` is such a function.
-/
open Lib Ex6.Guards

namespace Ex6.GuardedCalls

/-- Where a thread is in the function. -/
inductive Place (Op Res L : Type)
  | idle
  /-- In the scope, at the declaration of the guard. -/
  | entered (op : Op)
  | inside (op : Op) (l : L)
  /-- The `return` statement is done, and the guard is destroyed next. -/
  | leaving (res : Res)
  | destroyed (res : Res)

structure State (T Op Res L σ : Type) where
  guards : Guards.State T
  data : σ
  place : T → Place Op Res L
  /-- The data as the last to leave has left it. -/
  left : σ

inductive Event (T Op Res : Type)
  | call (t : T) (op : Op)
  | construct (t : T)
  | work (t : T)
  | leave (t : T) (res : Res)
  | destroy (t : T)
  | exit (t : T) (res : Res)

variable {T Op Res L σ : Type}

def State.goto [DecidableEq T] (s : State T Op Res L σ) (t : T) (p : Place Op Res L) (g : Guards.State T) :
    State T Op Res L σ :=
  { s with guards := g, place := Function.update s.place t p }

inductive Step [DecidableEq T] (C : Code Op Res L σ) (s : State T Op Res L σ) :
    Event T Op Res → State T Op Res L σ → Prop
  | call {t op g} : s.place t = .idle → Guards.Step s.guards (.enter t) g →
      Step C s (.call t op) (s.goto t (.entered op) g)
  | construct {t op g} : s.place t = .entered op → Guards.Step s.guards (.construct t) g →
      Step C s (.construct t) (s.goto t (.inside op (C.enter op)) g)
  | work {t op l l' data} : s.place t = .inside op l → C.step (l, s.data) (l', data) →
      Step C s (.work t) { s.goto t (.inside op l') s.guards with data }
  | leave {t op l res g} : s.place t = .inside op l → C.ret l s.data res → Guards.Step s.guards (.leave t) g →
      Step C s (.leave t res) { s.goto t (.leaving res) g with left := s.data }
  | destroy {t res rest g} : s.place t = .leaving res → Guards.Step s.guards (.destroy t rest) g →
      Step C s (.destroy t) (s.goto t (.destroyed res) g)
  | exit {t res g} : s.place t = .destroyed res → Guards.Step s.guards (.exited t) g →
      Step C s (.exit t res) (s.goto t .idle g)

def start (data : σ) : State T Op Res L σ := ⟨Guards.start, data, fun _ => .idle, data⟩

def machine (T : Type) [DecidableEq T] (C : Code Op Res L σ) (data : σ) :
    Machine (State T Op Res L σ) (Event T Op Res) where
  init s := s = start data
  step := Step C

/-- The calls and the returns to the caller. -/
def history (_ : State T Op Res L σ) : Event T Op Res → Option (Action T Op Res)
  | .call t op => some (.call t op)
  | .exit t res => some (.ret t res)
  | _ => none

/-- The branch taken, and whether the branch's `CHECK` has passed. -/
structure Checked where
  first : Bool
  passed : Bool
deriving Repr, DecidableEq

inductive Local
  | test (thread_num : Int)
  | waiting (passed : Bool)
  | done (res : Checked)

/-- A statement of `myfunc` on `glob_var`. -/
inductive MyfuncStep : Local × Int → Local × Int → Prop
  | unset {thread_num} : MyfuncStep (.test thread_num, 0) (.waiting (thread_num == 1), 0)
  -- `gettimeofday`, until 5 seconds are over
  | wait {passed glob_var} : MyfuncStep (.waiting passed, glob_var) (.waiting passed, glob_var)
  | assign {passed glob_var} : MyfuncStep (.waiting passed, glob_var) (.done ⟨true, passed⟩, 1)
  | set {thread_num glob_var} : glob_var ≠ 0 →
      MyfuncStep (.test thread_num, glob_var) (.done ⟨false, thread_num == 2⟩, glob_var)

/-- `myfunc` after the declaration of its guard. -/
def myfunc : Code Int Checked Local Int := ⟨.test, MyfuncStep, fun l _ res => l = .done res⟩

/-- The scopes of a thread, which has declared one guard in the one it is in. -/
def Place.thread : Place Op Res L → Thread
  | .idle => ⟨[], false⟩
  | .entered _ => ⟨[[]], false⟩
  | .inside _ _ => ⟨[[.constructed]], false⟩
  | .leaving _ => ⟨[[.constructed]], true⟩
  | .destroyed _ => ⟨[[]], true⟩

def status : Place Op Res L → Status Op Res
  | .idle => .idle
  | .entered op | .inside op _ => .called op
  | .leaving res | .destroyed res => .done res

def effect (_ : State T Op Res L σ) : Event T Op Res → Option (AtomicEvent T Op Res)
  | .call t op => some (.act (.call t op))
  | .leave t _ => some (.commit t)
  | .exit t res => some (.act (.ret t res))
  | _ => none

def abs (s : State T Op Res L σ) : Shared T Op Res σ := ⟨s.left, fun t => status (s.place t)⟩

structure Inv (C : Code Op Res L σ) (s : State T Op Res L σ) : Prop where
  owned : Owned Thread.holds s.guards.threads s.guards.lock
  threads : ∀ t, s.guards.threads t = (s.place t).thread
  free : (∀ t op l, s.place t ≠ .inside op l) → s.data = s.left
  -- who is inside has come there alone
  inside : ∀ t op l, s.place t = .inside op l → Relation.ReflTransGen C.step (C.enter op, s.left) (l, s.data)

theorem history_eq (s : State T Op Res L σ) (e : Event T Op Res) :
    history s e = (effect s e).bind AtomicEvent.action := by
  cases e <;> rfl

variable {C : Code Op Res L σ} {s s' : State T Op Res L σ} {e : Event T Op Res} {data : σ}

theorem inv_start : Inv C (start data : State T Op Res L σ) where
  owned t := by simp [start, Guards.start, Thread.holds, Thread.live]
  threads _ := rfl
  free _ := rfl
  inside t op l h := by cases h

/-- While one thread is between the construction of its guard and the destruction, no
other is inside. -/
theorem alone (hi : Inv C s) {t u : T} {op : Op} {l : L} (ht : (s.place t).thread.holds = true)
    (hu : s.place u = .inside op l) : u = t := by
  apply hi.owned.unique
  · rw [hi.threads t, ht]
  · rw [hi.threads u, hu]
    rfl

/-! ## The guard -/

section
variable [DecidableEq T]

/-- What a thread's own scopes are decides what it does to the guards. -/
theorem threads_goto {t : T} {p : Place Op Res L} {g : Guards.State T}
    (h : ∀ u, s.guards.threads u = (s.place u).thread) (hg : g.threads = Function.update s.guards.threads t p.thread)
    (u : T) : g.threads u = (Function.update s.place t p u).thread := by
  rw [hg]
  by_cases hu : u = t
  · subst hu
    simp only [Function.update_self]
  · simp only [Function.update_of_ne hu]
    exact h u

theorem guards_step (hi : Inv C s) (h : Step C s e s') :
    Owned Thread.holds s'.guards.threads s'.guards.lock ∧ ∀ t, s'.guards.threads t = (s'.place t).thread := by
  have hthread : ∀ {t p}, s.place t = p → s.guards.threads t = p.thread := fun {t p} hp => by
    rw [hi.threads t, hp]
  cases h with
  | call hp hg =>
    refine ⟨step_owned hi.owned hg trivial, threads_goto hi.threads ?_⟩
    cases hg with
    | enter ht =>
      rw [hthread hp] at ht
      cases ht
      rfl
  | construct hp hg =>
    refine ⟨step_owned hi.owned hg trivial, threads_goto hi.threads ?_⟩
    cases hg with
    | construct ht =>
      rw [hthread hp] at ht
      cases ht
      rfl
  | @work t op l l' data hp =>
    refine ⟨hi.owned, fun u => ?_⟩
    by_cases hu : u = t
    · subst hu
      simp only [State.goto, Function.update_self]
      exact (hthread hp).trans rfl
    · simp only [State.goto, Function.update_of_ne hu]
      exact hi.threads u
  | leave hp _ hg =>
    refine ⟨step_owned hi.owned hg trivial, threads_goto hi.threads ?_⟩
    cases hg with
    | leave ht =>
      rw [hthread hp] at ht
      cases ht
      rfl
  | destroy hp hg =>
    cases hg with
    | destroy ht =>
      have hscopes := (hthread hp).symm.trans ht
      cases hscopes
      -- the guard is the thread's only one
      exact ⟨step_owned hi.owned (.destroy ht) rfl, threads_goto hi.threads rfl⟩
  | exit hp hg =>
    refine ⟨step_owned hi.owned hg trivial, threads_goto hi.threads ?_⟩
    cases hg with
    | exited ht =>
      rw [hthread hp] at ht
      cases ht
      rfl

/-- A step of a thread outside leaves the others and the data as they are. -/
theorem data_goto (hi : Inv C s) {t : T} {p : Place Op Res L} {g : Guards.State T}
    (ht : ∀ op l, s.place t ≠ .inside op l) (hp : ∀ op l, p ≠ .inside op l) :
    ((∀ u op l, (s.goto t p g).place u ≠ .inside op l) → s.data = s.left) ∧
    ∀ u op l, (s.goto t p g).place u = .inside op l →
      Relation.ReflTransGen C.step (C.enter op, s.left) (l, s.data) := by
  refine ⟨fun hnone => hi.free fun u op l hu => ?_, fun u op l hu => ?_⟩
  · have hne : u ≠ t := fun he => ht op l (he ▸ hu)
    exact hnone u op l ((Function.update_of_ne hne _ _).trans hu)
  · rcases update_cases hu with ⟨-, hu⟩ | ⟨-, hu⟩
    · exact hi.inside u op l hu
    · exact absurd hu (hp op l)

theorem data_step (hi : Inv C s) (h : Step C s e s') :
    ((∀ t op l, s'.place t ≠ .inside op l) → s'.data = s'.left) ∧
    ∀ t op l, s'.place t = .inside op l → Relation.ReflTransGen C.step (C.enter op, s'.left) (l, s'.data) := by
  cases h with
  | call hp hg => exact data_goto hi (by simp [hp]) (by simp)
  | @construct t op g hp hg =>
    -- the mutex was free, so that nobody has touched the data since the last left it
    have hfree : s.guards.lock = none := by
      cases hg with
      | construct _ hl => exact hl
    have hnone : ∀ u op l, s.place u ≠ .inside op l := fun u op l hu => by
      have hlock := (hi.owned u).1 (by rw [hi.threads u, hu]; rfl)
      rw [hfree] at hlock
      cases hlock
    refine ⟨fun _ => hi.free hnone, fun u op' l hu => ?_⟩
    rcases update_cases hu with ⟨-, hu⟩ | ⟨-, hu⟩
    · exact absurd hu (hnone u op' l)
    · cases hu
      simp only [State.goto, hi.free hnone]
      exact .refl
  | @work t op l l' data hp hstep =>
    refine ⟨fun hnone => absurd (Function.update_self t _ s.place) (hnone t op l'), fun u op' k hu => ?_⟩
    rcases update_cases hu with ⟨hne, hu⟩ | ⟨-, hu⟩
    · exact absurd (alone hi (by rw [hp]; rfl) hu) hne
    · cases hu
      exact (hi.inside t op l hp).tail hstep
  | @leave t op l res g hp hret hg =>
    refine ⟨fun _ => rfl, fun u op' k hu => ?_⟩
    rcases update_cases hu with ⟨hne, hu⟩ | ⟨-, hu⟩
    · exact absurd (alone hi (by rw [hp]; rfl) hu) hne
    · cases hu
  | destroy hp hg => exact data_goto hi (by simp [hp]) (by simp)
  | exit hp hg => exact data_goto hi (by simp [hp]) (by simp)

theorem inv_step (hi : Inv C s) (h : Step C s e s') : Inv C s' :=
  ⟨(guards_step hi h).1, (guards_step hi h).2, (data_step hi h).1, (data_step hi h).2⟩

/-! ## The calls one after the other -/

theorem silent (h : Step C s e s') (he : effect s e = none) : abs s' = abs s := by
  unfold abs
  cases h with
  | construct hp | work hp | destroy hp =>
    simp only [State.goto]
    rw [apply_update_eq (by rw [hp]; rfl)]
  | call | leave | exit => cases he

theorem seen (hi : Inv C s) (h : Step C s e s') {d : AtomicEvent T Op Res} (he : effect s e = some d) :
    (atomic (C.alone data) T).step (abs s) d (abs s') := by
  unfold abs
  cases h with
  | call hp =>
    cases he
    simp only [State.goto, apply_update]
    exact AtomicStep.call (s := abs s) (congrArg status hp)
  | @leave t op l res g hp hret =>
    cases he
    simp only [State.goto, apply_update]
    exact AtomicStep.commit (s := abs s) (congrArg status hp) ⟨l, hi.inside t op l hp, hret⟩
  | exit hp =>
    cases he
    simp only [State.goto, apply_update]
    exact AtomicStep.ret (s := abs s) (congrArg status hp)
  | construct | work | destroy => cases he

theorem simulation (C : Code Op Res L σ) (data : σ) :
    Simulation (machine T C data) (atomic (C.alone data) T) effect abs (Inv C) where
  init s hs := by
    cases hs
    exact ⟨inv_start, rfl⟩
  inv _ _ _ hi ht := inv_step hi ht
  silent _ _ _ _ ht he := silent ht he
  seen _ _ _ _ hi ht he := seen hi ht he

theorem atomic_calls {H : List (Action T Op Res)} (h : (machine T C data).Observed history (start data) H s) :
    Linearizable (C.alone data) H := by
  obtain ⟨evs, hr, rfl⟩ := h.part history_eq
  exact atomic_linearizable ((simulation C data).observed hr inv_start).2

/-- Functions that declare a guard first, called by any number of threads, with their
statements interleaved in any way: there is an order of the calls that agrees with the
order in which calls returned before others were made, and in which each call does to
the data, and returns, what it does with nobody else there. -/
theorem guarded_linearizable {H : List (Action T Op Res)}
    (h : (machine T C data).Observed history (start data) H s) : Linearizable (C.alone data) H :=
  atomic_calls h

/-- Two calls of `myfunc`, the second made while the first is in the function. -/
theorem guarded_linearizable_myfunc : Linearizable (myfunc.alone 0)
    [.call false 1, .call true 2, .ret false ⟨true, true⟩] := by
  have r : (machine Bool myfunc 0).Observed history (start 0) [] (start 0) := .nil _
  have r := r.snoc (@Step.call _ _ _ _ _ _ _ _ false 1 _ rfl (.enter rfl))
  have r := r.snoc (Step.construct (t := false) rfl (.construct rfl rfl))
  have r := r.snoc (Step.work (t := false) rfl .unset)
  have r := r.snoc (@Step.call _ _ _ _ _ _ _ _ true 2 _ rfl (.enter rfl))
  have r := r.snoc (Step.work (t := false) rfl .assign)
  have r := r.snoc (Step.leave (t := false) rfl rfl (.leave rfl))
  have r := r.snoc (Step.destroy (t := false) rfl (.destroy rfl))
  have r := r.snoc (Step.construct (t := true) rfl (.construct rfl rfl))
  have r := r.snoc (Step.exit (t := false) rfl (.exited rfl))
  exact guarded_linearizable r

end

/-! ## `myfunc` -/

/-- What a call with `glob_var` at first comes by. -/
def Passes (thread_num glob_var : Int) : Local × Int → Prop
  | (.test n, g) => n = thread_num ∧ g = glob_var
  | (.waiting passed, _) => glob_var = 0 ∧ passed = (thread_num == 1)
  | (.done res, g) => (glob_var = 0 ∧ res = ⟨true, thread_num == 1⟩ ∧ g = 1) ∨
      (glob_var ≠ 0 ∧ res = ⟨false, thread_num == 2⟩ ∧ g = glob_var)

theorem passes_step {thread_num glob_var : Int} {x y : Local × Int} (h : Passes thread_num glob_var x)
    (hs : MyfuncStep x y) : Passes thread_num glob_var y := by
  cases hs with
  | unset =>
    obtain ⟨rfl, rfl⟩ := h
    exact ⟨rfl, rfl⟩
  | wait => exact h
  | assign =>
    obtain ⟨h0, rfl⟩ := h
    exact .inl ⟨h0, rfl, rfl⟩
  | set hne =>
    obtain ⟨rfl, rfl⟩ := h
    exact .inr ⟨hne, rfl, rfl⟩

theorem passes_run {thread_num glob_var : Int} {y : Local × Int}
    (h : Relation.ReflTransGen MyfuncStep (.test thread_num, glob_var) y) : Passes thread_num glob_var y := by
  induction h with
  | refl => exact ⟨rfl, rfl⟩
  | tail _ hs ih => exact passes_step ih hs

theorem myfunc_alone {thread_num glob_var glob_var' : Int} {res : Checked}
    (h : (myfunc.alone 0).step glob_var thread_num res glob_var') :
    (glob_var = 0 ∧ res = ⟨true, thread_num == 1⟩ ∧ glob_var' = 1) ∨
      (glob_var ≠ 0 ∧ res = ⟨false, thread_num == 2⟩ ∧ glob_var' = glob_var) := by
  obtain ⟨l, hsteps, rfl⟩ := h
  exact passes_run hsteps

/-- Of calls one after the other, the first finds `glob_var` unset and the rest do not. -/
theorem myfunc_legal {l : List (Int × Checked)} {glob_var : Int} (h : (myfunc.alone 0).Legal l glob_var) :
    (l = [] ∧ glob_var = 0) ∨ ∃ n rest, l = (n, ⟨true, n == 1⟩) :: rest ∧ glob_var = 1 ∧
      ∀ x ∈ rest, x.2 = ⟨false, x.1 == 2⟩ := by
  induction h with
  | nil => exact .inl ⟨rfl, rfl⟩
  | @snoc l g g' n res hl hs ih =>
    rcases ih with ⟨rfl, rfl⟩ | ⟨m, rest, rfl, rfl, hrest⟩
    · rcases myfunc_alone hs with ⟨-, rfl, rfl⟩ | ⟨hne, -⟩
      · exact .inr ⟨n, [], rfl, rfl, by simp⟩
      · exact absurd rfl hne
    · rcases myfunc_alone hs with ⟨h0, -⟩ | ⟨-, rfl, rfl⟩
      · cases h0
      · refine .inr ⟨m, rest ++ [(n, ⟨false, n == 2⟩)], rfl, rfl, fun x hx => ?_⟩
        rcases List.mem_append.1 hx with hx | hx
        · exact hrest x hx
        · rw [List.mem_singleton.1 hx]

/-- A call has returned `res`. -/
def Answered (H : List (Action T Int Checked)) (i : Nat) (thread_num : Int) (res : Checked) : Prop :=
  ∃ t k, Called H i t thread_num ∧ Returns H i t res k

variable {H : List (Action T Int Checked)} {lin : List (Nat × Int × Checked)} {i j : Nat} {thread_num : Int}
  {res : Checked}

/-- The call that finds `glob_var` unset is the first of the order. -/
theorem answered_cases (h : Linearization (myfunc.alone 0) H lin) (ha : Answered H i thread_num res) :
    (lin.head? = some (i, thread_num, res) ∧ res = ⟨true, thread_num == 1⟩) ∨ res = ⟨false, thread_num == 2⟩ := by
  obtain ⟨t, k, hc, hr⟩ := ha
  have hmem := h.returned i t thread_num res k hc hr
  obtain ⟨glob_var, hlegal⟩ := h.legal
  cases lin with
  | nil => cases hmem
  | cons x rest =>
    rcases myfunc_legal hlegal with ⟨hnil, -⟩ | ⟨n, rest', hl, -, hrest⟩
    · cases hnil
    · rw [List.map_cons, List.cons.injEq] at hl
      rcases List.mem_cons.1 hmem with rfl | hmem
      · cases hl.1
        exact .inl ⟨rfl, rfl⟩
      · refine .inr (hrest (thread_num, res) ?_)
        rw [← hl.2]
        exact List.mem_map.2 ⟨_, hmem, rfl⟩

theorem not_first_of_precedes (h : Linearization (myfunc.alone 0) H lin) (hp : Precedes H i j) :
    lin.head? ≠ some (j, thread_num, res) := by
  intro hhead
  obtain ⟨rest, rfl⟩ := List.head?_eq_some_iff.1 hhead
  have hsub := h.order i j hp (by simp)
  have hnodup := h.nodup
  rw [List.map_cons] at hsub hnodup
  have hrest : j ∈ rest.map Prod.fst := by
    rcases List.sublist_cons_iff.1 hsub with hsub | ⟨l, hl, hsub⟩
    · exact hsub.subset (by simp)
    · rw [List.cons.injEq] at hl
      exact hsub.subset (by rw [← hl.2]; simp)
  exact (List.nodup_cons.1 hnodup).1 hrest

/-- However the calls of `myfunc` overlap, at most one finds `glob_var` unset, a call made
when another has returned does not, and the check of a call passes if and only if the
thread number is that of its branch. -/
theorem myfunc_once [DecidableEq T] {s : State T Int Checked Local Int}
    (h : (machine T myfunc 0).Observed history (start 0) H s) :
    (∀ i j n m r r', Answered H i n r → Answered H j m r' → r.first = true → r'.first = true → i = j) ∧
    (∀ i j m r', Precedes H i j → Answered H j m r' → r'.first = false) ∧
    ∀ i n r, Answered H i n r → (r.passed = true ↔ n = if r.first then 1 else 2) := by
  obtain ⟨lin, hl⟩ := atomic_calls h
  refine ⟨fun i j n m r r' hi hj hr hr' => ?_, fun i j m r' hp hj => ?_, fun i n r hi => ?_⟩
  · rcases answered_cases hl hi with ⟨hhead, -⟩ | rfl
    · rcases answered_cases hl hj with ⟨hhead', -⟩ | rfl
      · have he := hhead.symm.trans hhead'
        simp only [Option.some.injEq, Prod.mk.injEq] at he
        exact he.1
      · cases hr'
    · cases hr
  · rcases answered_cases hl hj with ⟨hhead, -⟩ | rfl
    · exact absurd hhead (not_first_of_precedes hl hp)
    · rfl
  · rcases answered_cases hl hi with ⟨-, rfl⟩ | rfl
    · simp
    · simp

/-- The second call is made while the first is in the function. -/
theorem myfunc_once_overlapping : ∃ H : List (Action Bool Int Checked),
    H = [.call false 1, .call true 2, .ret false ⟨true, true⟩, .ret true ⟨false, true⟩] ∧
      ∀ i n r, Answered H i n r → (r.passed = true ↔ n = if r.first then 1 else 2) := by
  have r : (machine Bool myfunc 0).Observed history (start 0) [] (start 0) := .nil _
  have r := r.snoc (@Step.call _ _ _ _ _ _ _ _ false 1 _ rfl (.enter rfl))
  have r := r.snoc (Step.construct (t := false) rfl (.construct rfl rfl))
  have r := r.snoc (@Step.call _ _ _ _ _ _ _ _ true 2 _ rfl (.enter rfl))
  have r := r.snoc (Step.work (t := false) rfl .unset)
  have r := r.snoc (Step.work (t := false) rfl .wait)
  have r := r.snoc (Step.work (t := false) rfl .assign)
  have r := r.snoc (Step.leave (t := false) rfl rfl (.leave rfl))
  have r := r.snoc (Step.destroy (t := false) rfl (.destroy rfl))
  have r := r.snoc (Step.construct (t := true) rfl (.construct rfl rfl))
  have r := r.snoc (Step.work (t := true) rfl (.set (by decide)))
  have r := r.snoc (Step.leave (t := true) rfl rfl (.leave rfl))
  have r := r.snoc (Step.destroy (t := true) rfl (.destroy rfl))
  have r := r.snoc (Step.exit (t := false) rfl (.exited rfl))
  have r := r.snoc (Step.exit (t := true) rfl (.exited rfl))
  exact ⟨_, rfl, (myfunc_once r).2.2⟩

end Ex6.GuardedCalls
