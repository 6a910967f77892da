import Mathlib.Algebra.BigOperators.Ring.Finset
import Ex6.QueueCalls
import Ex6.Lib.Shares
/-!
# Threads that have so many calls to make

`Multi_Threading` of `testQueue.cpp` starts a thread that makes four calls of
`enQ` and one that makes four of `deQ`. Here any number of threads have any
calls to make, one after the other, and what each `deQ` returns is kept in order
(the local variables of `threadfunc2`).
-/
open Lib Ex6.Queue Ex6.Monitor Ex6.QueueCalls

namespace Ex6.QueueScripts

variable {w : Nat} {V T : Type}

def Op.act : Op V → Act V
  | .enQ member => .enQ member
  | .deQ => .deQ

/-- The values a thread passes to `enQ`. -/
def members : List (Op V) → List V
  | [] => []
  | .enQ member :: ops => member :: members ops
  | .deQ :: ops => members ops

/-- The calls of `deQ`. -/
def requests : List (Op V) → Nat
  | [] => 0
  | .enQ _ :: ops => requests ops
  | .deQ :: ops => requests ops + 1

/-- A thread that has called `deQ` calls `enQ` no more. -/
def Phased : List (Op V) → Prop
  | [] => True
  | .enQ _ :: ops => Phased ops
  | .deQ :: ops => members ops = [] ∧ Phased ops

structure State (w : Nat) (V T : Type) where
  base : Monitor.State w V T
  todo : T → List (Op V)
  got : T → List V

/-- A call, and not a statement inside of one. -/
def begins : Act V → Bool
  | .enQ _ | .deQ => true
  | _ => false

/-- What a statement at `pc` returns. -/
def gives (pc : Pc V) : Act V → List V
  | .unlock => (result pc).toList
  | _ => []

inductive Step [DecidableEq T] (s : State w V T) : T × Act V → State w V T → Prop
  | call {t op ops b} : s.todo t = op :: ops → Monitor.Step s.base (t, Op.act op) b →
      Step s (t, Op.act op) { s with base := b, todo := Function.update s.todo t ops }
  | own {t a b} : begins a = false → Monitor.Step s.base (t, a) b →
      Step s (t, a) { s with base := b, got := Function.update s.got t (s.got t ++ gives (s.base.pc t) a) }

def begin (script : T → List (Op V)) : State w V T := ⟨start, script, fun _ => []⟩

def machine [DecidableEq T] (w : Nat) (script : T → List (Op V)) : Machine (State w V T) (T × Act V) where
  init s := s = begin script
  step := Step

/-- A thread that has returned from all its calls. -/
def Finished (s : State w V T) (t : T) : Prop := s.base.pc t = .idle ∧ s.todo t = []

/-- Nothing goes on but for a spurious wakeup. -/
def Resting [DecidableEq T] (s : State w V T) : Prop := ∀ t a s', Step s (t, a) s' → a = .wake

/-! ## What a thread owes -/

/-- The value a thread waits to pass on. -/
def owed : Pc V → List V
  | .enqLock member => [member]
  | _ => []

/-- A call of `deQ` that has not returned. -/
def asked (pc : Pc V) : Nat := if pc.kind = .deQ then 1 else 0

/-- What a thread has not passed on yet. -/
def State.unpassed (s : State w V T) (t : T) : Multiset V := ↑(owed (s.base.pc t) ++ members (s.todo t))

structure Inv [Fintype T] (script : T → List (Op V)) (s : State w V T) : Prop where
  base : Monitor.Inv s.base
  calls : s.base.calls + ∑ t, (members (s.todo t)).length = ∑ t, (members (script t)).length
  passed : (s.base.passed : Multiset V) + ∑ t, s.unpassed t = ∑ t, (members (script t) : Multiset V)
  got : ∑ t, (s.got t : Multiset V) = s.base.returned
  count : ∀ t, (s.got t).length + asked (s.base.pc t) + requests (s.todo t) = requests (script t)
  phased : (∀ t, Phased (script t)) → ∀ t, Phased (s.todo t) ∧ (asked (s.base.pc t) = 1 → members (s.todo t) = [])

/-- What has been returned was passed before all that has not. -/
theorem returned_starts {b : Monitor.State w V T} (hi : Monitor.Inv b) : b.returned <+: b.passed := by
  obtain ⟨xs, -, he⟩ := hi.holds
  refine ⟨Pc.inHand b.current ++ xs ++ Pc.arriving b.current, ?_⟩
  rw [hi.passed, he, hi.returned]
  simp only [List.append_assoc]

section
variable [Fintype T] {script : T → List (Op V)} {s : State w V T} {t : T}

theorem inv_begin (script : T → List (Op V)) : Inv script (begin script : State w V T) where
  base := inv_start
  calls := Nat.zero_add _
  passed := by simp [begin, start, State.unpassed, owed]
  got := by simp [begin, start]
  count t := by simp [begin, start, asked, Pc.kind]
  phased hp t := ⟨hp t, by simp [begin, start, asked, Pc.kind]⟩

theorem Inv.length_passed (hi : Inv script s) :
    s.base.passed.length + ∑ t, (s.unpassed t).card = ∑ t, (members (script t)).length := by
  have h := congrArg Multiset.card hi.passed
  simpa only [Multiset.card_add, Multiset.card_sum, Multiset.coe_card] using h

theorem Inv.length_returned (hi : Inv script s) : ∑ t, (s.got t).length = s.base.returned.length := by
  have h := congrArg Multiset.card hi.got
  simpa only [Multiset.card_sum, Multiset.coe_card] using h

/-- Who is at rest has passed on all there was to pass on. -/
theorem Inv.unpassed (hi : Inv script s) (hp : ∀ t, Phased (script t))
    (ht : Finished s t ∨ s.base.pc t = .deqAsleep) : s.unpassed t = 0 := by
  unfold State.unpassed
  rcases ht with ⟨hpc, htodo⟩ | hpc
  · rw [hpc, htodo]
    rfl
  · rw [hpc, (hi.phased hp t).2 (by rw [hpc]; rfl)]
    rfl

end

/-! ## What a statement does -/

/-- The value a call passes. -/
def passes : Act V → List V
  | .enQ member => [member]
  | _ => []

def asks : Act V → Nat
  | .deQ => 1
  | _ => 0

variable [DecidableEq T] {b b' : Monitor.State w V T} {s s' : State w V T} {t u : T} {a : Act V}

theorem passes_of_not_begins (ha : begins a = false) : passes a = [] ∧ asks a = 0 := by
  cases a <;> first | exact ⟨rfl, rfl⟩ | cases ha

/-- A value is owed from the call until the mutex is taken. -/
theorem step_owed (h : Monitor.Step b (t, a) b') :
    (b'.passed = b.passed ∧ owed (b'.pc t) = owed (b.pc t) ++ passes a) ∨
      b'.passed = b.passed ++ owed (b.pc t) ∧ owed (b'.pc t) = [] ∧ passes a = [] := by
  cases h with
  | lockEnQ ht => exact .inr (by simp [ht, owed, passes])
  | lockDeQ ht => rcases ht with ht | ht <;> exact .inl (by simp [ht, owed, passes])
  | enQ ht | deQ ht | insert ht | broadcast ht | testBlocked ht | testReady ht | wait ht | wake ht | remove ht
  | unlockEnQ ht | unlockDeQ ht => exact .inl (by simp [ht, owed, passes])

theorem step_calls (h : Monitor.Step b (t, a) b') : b'.calls = b.calls + (passes a).length := by
  cases h <;> rfl

theorem step_gives (h : Monitor.Step b (t, a) b') : b'.returned = b.returned ++ gives (b.pc t) a := by
  cases h with
  | unlockEnQ ht | unlockDeQ ht => simp [ht, gives, result]
  | _ => exact (List.append_nil _).symm

theorem step_asked (h : Monitor.Step b (t, a) b') :
    asked (b'.pc t) + (gives (b.pc t) a).length = asked (b.pc t) + asks a := by
  cases h with
  | lockDeQ ht => rcases ht with ht | ht <;> simp [ht, asked, asks, gives, Pc.kind]
  | enQ ht | deQ ht | lockEnQ ht | insert ht | broadcast ht | testBlocked ht | testReady ht | wait ht | wake ht
  | remove ht | unlockEnQ ht | unlockDeQ ht => simp [ht, asked, asks, gives, result, Pc.kind]

theorem owed_other (h : Monitor.Step b (t, a) b') (hu : u ≠ t) : owed (b'.pc u) = owed (b.pc u) := by
  rcases step_others h hu with he | ⟨-, he⟩
  · rw [he]
  · rw [he]
    cases b.pc u <;> rfl

theorem asked_other (h : Monitor.Step b (t, a) b') (hu : u ≠ t) : asked (b'.pc u) = asked (b.pc u) := by
  unfold asked
  rw [step_kind_other h hu]

/-- A step of `t`: a statement in the queue, and what it takes from the calls to make and
adds to the values returned. -/
structure Does (s : State w V T) (t : T) (a : Act V) (s' : State w V T) : Prop where
  base : Monitor.Step s.base (t, a) s'.base
  members : members (s.todo t) = passes a ++ members (s'.todo t)
  requests : requests (s.todo t) = asks a + requests (s'.todo t)
  phased : Phased (s.todo t) → Phased (s'.todo t) ∧ (asks a = 1 → QueueScripts.members (s'.todo t) = [])
  got : s'.got t = s.got t ++ gives (s.base.pc t) a
  others : ∀ u, u ≠ t → s'.todo u = s.todo u ∧ s'.got u = s.got u

theorem step_does (h : Step s (t, a) s') : Does s t a s' := by
  generalize he : (t, a) = e at h
  cases h with
  | @call t' op ops b htodo hb =>
    cases he
    refine ⟨hb, ?_, ?_, ?_, ?_, fun u hu => ⟨Function.update_of_ne hu _ _, rfl⟩⟩
    all_goals simp only [Function.update_self, htodo]
    · cases op <;> rfl
    · cases op <;> simp [QueueScripts.requests, Op.act, asks, Nat.add_comm]
    · cases op with
      | enQ member => exact fun hp => ⟨hp, fun ha => by cases ha⟩
      | deQ => exact fun hp => ⟨hp.2, fun _ => hp.1⟩
    · cases op <;> exact (List.append_nil _).symm
  | own ha hb =>
    cases he
    obtain ⟨hpass, hask⟩ := passes_of_not_begins ha
    refine ⟨hb, by rw [hpass]; rfl, by rw [hask, Nat.zero_add], fun hp => ⟨hp, fun h1 => ?_⟩, ?_, fun u hu => ?_⟩
    · rw [hask] at h1
      cases h1
    · exact Function.update_self _ _ _
    · exact ⟨rfl, Function.update_of_ne hu _ _⟩

theorem count_step (hd : Does s t a s') (u : T) : (s'.got u).length + asked (s'.base.pc u) + requests (s'.todo u) =
    (s.got u).length + asked (s.base.pc u) + requests (s.todo u) := by
  by_cases hu : u = t
  · subst hu
    have hasked := step_asked hd.base
    rw [hd.got, hd.requests, List.length_append]
    omega
  · rw [(hd.others u hu).1, (hd.others u hu).2, asked_other hd.base hu]

theorem phased_step (hd : Does s t a s')
    (h : ∀ u, Phased (s.todo u) ∧ (asked (s.base.pc u) = 1 → members (s.todo u) = [])) :
    ∀ u, Phased (s'.todo u) ∧ (asked (s'.base.pc u) = 1 → members (s'.todo u) = []) := by
  intro u
  by_cases hu : u = t
  · subst hu
    obtain ⟨hp, hask⟩ := hd.phased (h u).1
    refine ⟨hp, fun h1 => ?_⟩
    have hasked := step_asked hd.base
    rcases Nat.eq_zero_or_pos (asks a) with h0 | hpos
    · -- it was in the call already
      have hin : asked (s.base.pc u) = 1 := by
        have hle : asked (s.base.pc u) ≤ 1 := by unfold asked; split <;> omega
        omega
      have hnil := (h u).2 hin
      rw [hd.members, List.append_eq_nil_iff] at hnil
      exact hnil.2
    · exact hask (by have hle : asks a ≤ 1 := by cases a <;> simp [asks]
                     omega)
  · rw [(hd.others u hu).1, asked_other hd.base hu]
    exact h u

/-! ## What a statement costs -/

/-- The statements a call takes; a broadcast pays for all whom it wakes. -/
def rank (n : Nat) : Pc V → Nat
  | .idle => 0
  | .enqLock _ => 4 + 3 * n
  | .enqInsert _ => 3 + 3 * n
  | .enqBroadcast => 2 + 3 * n
  | .deqLock | .deqWoken => 4
  | .deqTest => 3
  | .deqWait | .deqRemove => 2
  | .enqUnlock | .deqUnlock _ | .deqAsleep => 1

def spread : Act V → Nat
  | .broadcast => 3
  | _ => 0

/-- The spurious wakeups. -/
def wakeups : T × Act V → Nat
  | (_, .wake) => 1
  | _ => 0

/-- All else. -/
def statements (e : T × Act V) : Nat := 1 - wakeups e

theorem rank_call {n : Nat} {op : Op V} (h : Monitor.Step b (t, Op.act op) b') :
    rank n (b.pc t) = 0 ∧ rank n (b'.pc t) ≤ 4 + 3 * n := by
  cases op with
  | enQ member =>
    cases h with
    | enQ ht => simp [ht, rank]
  | deQ =>
    cases h with
    | deQ ht => simp [ht, rank]

theorem rank_own {n : Nat} (h : Monitor.Step b (t, a) b') (ha : begins a = false) :
    rank n (b'.pc t) + statements (t, a) + n * spread a ≤ rank n (b.pc t) + 3 * wakeups (t, a) := by
  cases h with
  | enQ | deQ => cases ha
  | lockDeQ ht => rcases ht with ht | ht <;> simp [ht, rank, statements, wakeups, spread]
  | lockEnQ ht | insert ht | broadcast ht | testBlocked ht | testReady ht | wait ht | wake ht | remove ht
  | unlockEnQ ht | unlockDeQ ht =>
    simp [ht, rank, statements, wakeups, spread]
    try omega

theorem rank_other {n : Nat} (h : Monitor.Step b (t, a) b') (hu : u ≠ t) :
    rank n (b'.pc u) ≤ rank n (b.pc u) + spread a := by
  rcases step_others h hu with he | ⟨rfl, he⟩
  · rw [he]
    exact Nat.le_add_right _ _
  · rw [he]
    cases b.pc u <;> simp [Pc.wakeup, rank, spread]

/-! ## Coming to rest -/

theorem Resting.quiet (h : Resting s) : Quiet s.base := by
  intro t a b hb
  by_contra hext
  have hbegins : begins a = false := by cases a <;> first | rfl | exact absurd rfl hext
  rw [h t a _ (.own hbegins hb)] at hext
  exact hext rfl

theorem Resting.free (h : Resting s) (hi : Monitor.Inv s.base) : s.base.owner = none := by
  cases ho : s.base.owner with
  | none => rfl
  | some t =>
    obtain ⟨a, b, hb, ha⟩ := owner_moves hi ho
    rw [h.quiet t a b hb] at ha
    cases ha

/-- Whoever is not asleep has returned from all calls. -/
theorem Resting.finished (h : Resting s) (hi : Monitor.Inv s.base) (t : T) :
    Finished s t ∨ s.base.pc t = .deqAsleep := by
  have hfree := h.free hi
  have hlock : ∀ b, ¬ Monitor.Step s.base (t, .lock) b := fun b hb => by
    cases h.quiet t _ b hb
  cases hpc : s.base.pc t with
  | idle =>
    cases htodo : s.todo t with
    | nil => exact .inl ⟨hpc, htodo⟩
    | cons op ops =>
      cases op with
      | enQ member => cases h t _ _ (.call htodo (@Monitor.Step.enQ _ _ _ _ _ t member hpc))
      | deQ => cases h t _ _ (.call htodo (Monitor.Step.deQ hpc))
  | deqAsleep => exact .inr rfl
  | enqLock member => exact absurd (.lockEnQ hpc hfree) (hlock _)
  | deqLock => exact absurd (.lockDeQ (.inl hpc) hfree) (hlock _)
  | deqWoken => exact absurd (.lockDeQ (.inr hpc) hfree) (hlock _)
  | _ =>
    have hin := (hi.owner t).1 (by rw [hpc]; rfl)
    rw [hfree] at hin
    cases hin

theorem resting_of_finished_or_asleep (h : ∀ t, Finished s t ∨ s.base.pc t = .deqAsleep) : Resting s := by
  intro t a s' hst
  generalize he : (t, a) = e at hst
  cases hst with
  | @call _ op _ _ hop hb =>
    cases he
    rcases h t with ⟨-, htodo⟩ | hasleep
    · rw [htodo] at hop
      cases hop
    · have hidle : s.base.pc t = .idle := by cases op <;> cases hb <;> assumption
      cases hasleep.symm.trans hidle
  | own ha hb =>
    cases he
    have hpc : s.base.pc t = .idle ∨ s.base.pc t = .deqAsleep := (h t).imp_left And.left
    cases hb with
    | enQ | deQ => cases ha
    | wake => rfl
    | lockDeQ ht => rcases ht with ht | ht <;> rw [ht] at hpc <;> simp at hpc
    | lockEnQ ht | insert ht | broadcast ht | testBlocked ht | testReady ht | wait ht | remove ht | unlockEnQ ht
    | unlockDeQ ht =>
      rw [ht] at hpc
      simp at hpc

/-- What has been passed has been returned or is in the list. -/
theorem Resting.holds (h : Resting s) (hi : Monitor.Inv s.base) :
    ∃ xs, Holds s.base.q xs ∧ s.base.passed = s.base.returned ++ xs := by
  have hcurrent : s.base.current = none := by rw [State.current, h.free hi, Option.map_none]
  obtain ⟨xs, hx, he⟩ := hi.holds
  refine ⟨xs, hx, ?_⟩
  have hpassed := hi.passed
  have hreturned := hi.returned
  rw [hcurrent] at hpassed hreturned
  simp only [Pc.arriving, Pc.inHand, List.append_nil] at hpassed hreturned
  rw [hpassed, he, hreturned]

/-! ## The producers' order -/

/-- Each producer's values have been passed on in the order of its calls, and each
consumer's are in the order of the list. -/
structure Ordered (source : V → T) (script : T → List (Op V)) (s : State w V T) : Prop where
  passed : ∀ t, s.base.passed.filter (source · = t) ++ (owed (s.base.pc t) ++ members (s.todo t)) = members (script t)
  got : ∀ t, (s.got t).Sublist s.base.returned

variable {source : V → T} {script : T → List (Op V)}

theorem ordered_begin (script : T → List (Op V)) : Ordered source script (begin script : State w V T) :=
  ⟨fun _ => rfl, fun _ => List.nil_sublist _⟩

theorem ordered_step (hsource : ∀ t, ∀ v ∈ members (script t), source v = t) (ho : Ordered source script s)
    (h : Step s (t, a) s') : Ordered source script s' := by
  have hd := step_does h
  have hown : ∀ v ∈ owed (s.base.pc t), source v = t := fun v hv => by
    refine hsource t v ?_
    rw [← ho.passed t]
    exact List.mem_append_right _ (List.mem_append_left _ hv)
  refine ⟨fun u => ?_, fun u => ?_⟩
  · rw [← ho.passed u]
    by_cases hu : u = t
    · subst hu
      rw [hd.members]
      rcases step_owed hd.base with ⟨hpassed, howed⟩ | ⟨hpassed, howed, hpass⟩
      · rw [hpassed, howed, List.append_assoc]
      · have hfilter : (owed (s.base.pc u)).filter (source · = u) = owed (s.base.pc u) :=
          List.filter_eq_self.2 fun v hv => decide_eq_true (hown v hv)
        rw [hpassed, howed, hpass, List.filter_append, hfilter, List.append_assoc, List.nil_append]
    · rw [owed_other hd.base hu, (hd.others u hu).1]
      rcases step_owed hd.base with ⟨hpassed, -⟩ | ⟨hpassed, -⟩
      · rw [hpassed]
      · -- what `t` passes on is none of `u`'s
        have hfilter : (owed (s.base.pc t)).filter (source · = u) = [] :=
          List.filter_eq_nil_iff.2 fun v hv => by rw [hown v hv, decide_eq_true_eq]; exact Ne.symm hu
        rw [hpassed, List.filter_append, hfilter, List.append_nil]
  · rw [step_gives hd.base]
    by_cases hu : u = t
    · rw [hu, hd.got]
      exact (ho.got t).append (List.Sublist.refl _)
    · rw [(hd.others u hu).2]
      exact (ho.got u).trans (List.sublist_append_left _ _)

theorem run_ordered (hsource : ∀ t, ∀ v ∈ members (script t), source v = t) {evs : List (T × Act V)}
    (h : (machine w script).Run (begin script) evs s) : Ordered source script s :=
  h.keeps (fun _ ⟨_, _⟩ _ ho ht => ordered_step hsource ho ht) (ordered_begin script)

theorem Ordered.starts (ho : Ordered source script s) (hi : Monitor.Inv s.base) (p : T) :
    s.base.returned.filter (source · = p) <+: members (script p) := by
  refine (List.IsPrefix.filter _ (returned_starts hi)).trans ⟨_, ho.passed p⟩

/-! ## Nothing lost, nothing twice -/

variable [Fintype T]

theorem passed_step (hd : Does s t a s') : (s'.base.passed : Multiset V) + ∑ u, s'.unpassed u =
    s.base.passed + ∑ u, s.unpassed u := by
  refine sum_step (t := t) (fun u hu => ?_) ?_
  · rw [State.unpassed, State.unpassed, owed_other hd.base hu, (hd.others u hu).1]
  · rw [State.unpassed, State.unpassed, Multiset.coe_add, Multiset.coe_add, hd.members]
    rcases step_owed hd.base with ⟨hpassed, howed⟩ | ⟨hpassed, howed, hpass⟩
    · rw [hpassed, howed, List.append_assoc]
    · rw [hpassed, howed, hpass, List.append_assoc, List.nil_append]

theorem got_step (hd : Does s t a s') (h : ∑ u, (s.got u : Multiset V) = s.base.returned) :
    ∑ u, (s'.got u : Multiset V) = s'.base.returned := by
  have hsum := sum_step (f := fun u => (s.got u : Multiset V)) (g := fun u => (s'.got u : Multiset V)) (t := t)
    (a := 0) (b := (gives (s.base.pc t) a : Multiset V)) (fun u hu => by rw [(hd.others u hu).2])
    (by rw [hd.got, zero_add, Multiset.coe_add, Multiset.coe_eq_coe]; exact List.perm_append_comm)
  rw [zero_add, h] at hsum
  rw [hsum, step_gives hd.base, Multiset.coe_add, Multiset.coe_eq_coe]
  exact List.perm_append_comm

theorem calls_step (hd : Does s t a s') : s'.base.calls + ∑ u, (members (s'.todo u)).length =
    s.base.calls + ∑ u, (members (s.todo u)).length := by
  refine sum_step (t := t) (fun u hu => by rw [(hd.others u hu).1]) ?_
  rw [step_calls hd.base, hd.members, List.length_append, Nat.add_assoc]

theorem inv_step (hi : Inv script s) (h : Step s (t, a) s') : Inv script s' := by
  have hd := step_does h
  exact ⟨Monitor.inv_step hi.base hd.base, (calls_step hd).trans hi.calls, (passed_step hd).trans hi.passed,
    got_step hd hi.got, fun u => (count_step hd u).trans (hi.count u), fun hp => phased_step hd (hi.phased hp)⟩

theorem run_inv {evs : List (T × Act V)} (h : (machine w script).Run (begin script) evs s) : Inv script s :=
  h.keeps (fun _ ⟨_, _⟩ _ hi ht => inv_step hi ht) (inv_begin script)

/-! ## What there is to do -/

def State.left (s : State w V T) (t : T) : Nat :=
  rank (Fintype.card T) (s.base.pc t) + (5 + 3 * Fintype.card T) * (s.todo t).length

theorem left_step {e : T × Act V} (h : Step s e s') :
    ∑ u, s'.left u + statements e ≤ ∑ u, s.left u + 3 * wakeups e := by
  obtain ⟨t, a⟩ := e
  have hd := step_does h
  refine sum_spread (t := t) (d := spread a) (fun u hu => ?_) ?_
  · have := rank_other (n := Fintype.card T) hd.base hu
    rw [State.left, State.left, (hd.others u hu).1]
    omega
  · generalize he : (t, a) = e at h
    cases h with
    | @call t' op ops b htodo hb =>
      cases he
      obtain ⟨h0, hle⟩ := rank_call (n := Fintype.card T) hb
      have hspread : spread (Op.act op) = 0 := by cases op <;> rfl
      have hwake : wakeups (t, Op.act op) = 0 := by cases op <;> rfl
      simp only [State.left, Function.update_self, htodo, List.length_cons, h0, hspread, hwake, statements,
        Nat.mul_add]
      omega
    | own ha hb =>
      cases he
      have := rank_own (n := Fintype.card T) hb ha
      simp only [State.left]
      omega

theorem left_run {evs : List (T × Act V)} (h : (machine w script).Run (begin script) evs s) :
    Machine.total statements evs ≤
      (5 + 3 * Fintype.card T) * ∑ t, (script t).length + 3 * Machine.total wakeups evs := by
  obtain ⟨-, hle⟩ : True ∧ ∑ u, s.left u + Machine.total statements evs ≤
      ∑ u, (begin script : State w V T).left u + Machine.total (fun e => 3 * wakeups e) evs :=
    h.account (fun _ _ _ _ ht => ⟨trivial, left_step ht⟩) trivial
  have h0 : ∑ u, (begin script : State w V T).left u = (5 + 3 * Fintype.card T) * ∑ t, (script t).length := by
    simp only [State.left, begin, start, rank, Nat.zero_add, Finset.mul_sum]
  rw [h0, Machine.total_mul] at hle
  omega

/-! ## Every schedule -/

/-- Where some thread waits for ever, more was asked for than there is. -/
theorem Inv.starved (hi : Inv script s) (hw : ∑ t, (members (script t)).length < 2 ^ w) (hrest : Resting s)
    (hp : ∀ t, Phased (script t)) (ht : s.base.pc t = .deqAsleep) :
    ∑ t, (members (script t)).length < ∑ t, requests (script t) := by
  have hcalls : s.base.calls < 2 ^ w := by
    have := hi.calls
    omega
  have hempty : s.base.q.head = none := by
    rcases hi.base.asleep t ht with hb | ⟨u, hu⟩
    · exact head_of_blocked hi.base hcalls hb
    · have hfree := hrest.free hi.base
      rw [owner_of hi.base hu rfl] at hfree
      cases hfree
  obtain ⟨xs, hx, hpassed⟩ := hrest.holds hi.base
  rw [hx.head_eq_none.1 hempty, List.append_nil] at hpassed
  have hall : ∑ u, (s.unpassed u).card = 0 :=
    Finset.sum_eq_zero fun u _ => by rw [hi.unpassed hp (hrest.finished hi.base u), Multiset.card_zero]
  have hlen := hi.length_passed
  rw [hall, Nat.add_zero, hpassed, ← hi.length_returned] at hlen
  rw [← hlen]
  refine Finset.sum_lt_sum (fun u _ => ?_) ⟨t, Finset.mem_univ t, ?_⟩
  · have := hi.count u
    omega
  · have hcount := hi.count t
    have hasked : asked (s.base.pc t) = 1 := by rw [ht]; rfl
    omega

theorem Inv.satisfied (hi : Inv script s) (hrest : Resting s) (hall : ∀ t, Finished s t) :
    ∑ t, requests (script t) ≤ ∑ t, (members (script t)).length := by
  have hcount : ∀ t, requests (script t) = (s.got t).length := fun t => by
    have h := hi.count t
    rw [(hall t).1, (hall t).2] at h
    exact h.symm
  obtain ⟨xs, -, hpassed⟩ := hrest.holds hi.base
  have hlen := hi.length_passed
  rw [hpassed, List.length_append] at hlen
  rw [Finset.sum_congr rfl fun t _ => hcount t, hi.length_returned]
  omega

/-- Threads that make their calls of `enQ` before those of `deQ`, however they are
scheduled, make so many statements and no more. Once they are at rest, each has
returned or waits in `deQ`, and what they got and what is left in the list is what was
passed. Where the counter has not come round, all have returned just where no more
values were asked for than passed. -/
theorem every_script {evs : List (T × Act V)} (hp : ∀ t, Phased (script t))
    (h : (machine w script).Run (begin script) evs s) :
    Machine.total statements evs ≤
      (5 + 3 * Fintype.card T) * ∑ t, (script t).length + 3 * Machine.total wakeups evs ∧
    (Resting s → (∀ t, Finished s t ∨ s.base.pc t = .deqAsleep) ∧
      (∑ t, (members (script t)).length < 2 ^ w →
        ((∀ t, Finished s t) ↔ ∑ t, requests (script t) ≤ ∑ t, (members (script t)).length)) ∧
      ∃ xs, Holds s.base.q xs ∧
        ∑ t, (s.got t : Multiset V) + (xs : Multiset V) = ∑ t, (members (script t) : Multiset V)) := by
  have hi := run_inv h
  refine ⟨left_run h, fun hrest => ⟨hrest.finished hi.base, fun hw => ⟨hi.satisfied hrest, fun hle t => ?_⟩, ?_⟩⟩
  · refine (hrest.finished hi.base t).resolve_right fun ht => ?_
    exact absurd (hi.starved hw hrest hp ht) (Nat.not_lt.2 hle)
  · obtain ⟨xs, hx, hpassed⟩ := hrest.holds hi.base
    refine ⟨xs, hx, ?_⟩
    have hnone : ∑ u, s.unpassed u = 0 :=
      Finset.sum_eq_zero fun u _ => hi.unpassed hp (hrest.finished hi.base u)
    rw [hi.got, Multiset.coe_add, ← hpassed, ← hi.passed, hnone, add_zero]

/-- One thread passes two values, the other asks for three. -/
def short : Bool → List (Op Nat)
  | true => [.enQ 7, .enQ 8]
  | false => [.deQ, .deQ, .deQ]

/-- The consumer sleeps before there is a value, gets both, and sleeps for ever. -/
theorem every_script_short : ∃ (s : State 64 Nat Bool) (evs : List (Bool × Act Nat)),
    (machine 64 short).Run (begin short) evs s ∧ s.got false = [7, 8] ∧ s.base.pc false = .deqAsleep ∧
    Machine.total statements evs ≤ 11 * 5 + 3 * Machine.total wakeups evs ∧ ¬ ∀ t, Finished s t := by
  have r := Machine.Run.nil (M := machine 64 short) (begin short)
  have r := r.snoc (@Step.call _ _ _ _ _ false .deQ _ _ rfl (.deQ rfl))
  have r := r.snoc (Step.own rfl (Monitor.Step.lockDeQ (t := false) (.inl rfl) rfl))
  have r := r.snoc (Step.own rfl (Monitor.Step.testBlocked (t := false) rfl rfl))
  have r := r.snoc (Step.own rfl (Monitor.Step.wait (t := false) rfl))
  have r := r.snoc (@Step.call _ _ _ _ _ true (.enQ 7) _ _ rfl (.enQ rfl))
  have r := r.snoc (Step.own rfl (Monitor.Step.lockEnQ (t := true) rfl rfl))
  have r := r.snoc (Step.own rfl (Monitor.Step.insert (t := true) (a := 0) rfl (by decide) rfl))
  have r := r.snoc (Step.own rfl (Monitor.Step.broadcast (t := true) rfl))
  have r := r.snoc (Step.own rfl (Monitor.Step.unlockEnQ (t := true) rfl))
  have r := r.snoc (@Step.call _ _ _ _ _ true (.enQ 8) _ _ rfl (.enQ rfl))
  have r := r.snoc (Step.own rfl (Monitor.Step.lockEnQ (t := true) rfl rfl))
  have r := r.snoc (Step.own rfl (Monitor.Step.insert (t := true) (a := 1) rfl (by decide) rfl))
  have r := r.snoc (Step.own rfl (Monitor.Step.broadcast (t := true) rfl))
  have r := r.snoc (Step.own rfl (Monitor.Step.unlockEnQ (t := true) rfl))
  have r := r.snoc (Step.own rfl (Monitor.Step.lockDeQ (t := false) (.inr rfl) rfl))
  have r := r.snoc (Step.own rfl (Monitor.Step.testReady (t := false) rfl rfl))
  have r := r.snoc (Step.own rfl (Monitor.Step.remove (t := false) rfl rfl))
  have r := r.snoc (Step.own rfl (Monitor.Step.unlockDeQ (t := false) rfl))
  have r := r.snoc (@Step.call _ _ _ _ _ false .deQ _ _ rfl (.deQ rfl))
  have r := r.snoc (Step.own rfl (Monitor.Step.lockDeQ (t := false) (.inl rfl) rfl))
  have r := r.snoc (Step.own rfl (Monitor.Step.testReady (t := false) rfl rfl))
  have r := r.snoc (Step.own rfl (Monitor.Step.remove (t := false) rfl rfl))
  have r := r.snoc (Step.own rfl (Monitor.Step.unlockDeQ (t := false) rfl))
  have r := r.snoc (@Step.call _ _ _ _ _ false .deQ _ _ rfl (.deQ rfl))
  have r := r.snoc (Step.own rfl (Monitor.Step.lockDeQ (t := false) (.inl rfl) rfl))
  have r := r.snoc (Step.own rfl (Monitor.Step.testBlocked (t := false) rfl rfl))
  have r := r.snoc (Step.own rfl (Monitor.Step.wait (t := false) rfl))
  have hp : ∀ t, Phased (short t) := by
    intro t
    cases t
    · exact ⟨rfl, rfl, rfl, trivial⟩
    · trivial
  obtain ⟨hcost, hall⟩ := every_script hp r
  -- the producer has returned, and the consumer sleeps
  obtain ⟨-, hiff, -⟩ := hall (resting_of_finished_or_asleep fun t => by
    cases t
    · exact .inr rfl
    · exact .inl ⟨rfl, rfl⟩)
  exact ⟨_, _, r, rfl, rfl, hcost, fun hfinished => absurd ((hiff (by decide)).1 hfinished) (by decide)⟩

/-! ## The order of what is got -/

/-- Who alone calls `deQ` gets all that is returned. -/
theorem Inv.alone (hi : Inv script s) (ho : Ordered source script s) {c : T}
    (hc : ∀ t, t ≠ c → requests (script t) = 0) : s.got c = s.base.returned := by
  refine (ho.got c).eq_of_length ?_
  rw [← hi.length_returned, Finset.sum_eq_single c]
  · intro t _ ht
    have := hi.count t
    have := hc t ht
    omega
  · exact fun hmem => absurd (Finset.mem_univ c) hmem

/-- What a consumer has from one producer is in the order in which that one passed it,
without repetition; who consumes alone has no gaps there. -/
theorem in_order (hsource : ∀ t, ∀ v ∈ members (script t), source v = t) {evs : List (T × Act V)}
    (h : (machine w script).Run (begin script) evs s) (c p : T) :
    ((s.got c).filter (source · = p)).Sublist (members (script p)) ∧
    ((∀ t, t ≠ c → requests (script t) = 0) → (s.got c).filter (source · = p) <+: members (script p)) := by
  have hi := run_inv h
  have ho := run_ordered hsource h
  have hprefix := ho.starts hi.base p
  refine ⟨((ho.got c).filter _).trans hprefix.sublist, fun hc => ?_⟩
  rw [hi.alone ho hc]
  exact hprefix

/-! ## `Multi_Threading` -/

def threadfunc1 : List (Op Nat) := [.enQ 10, .enQ 11, .enQ 12, .enQ 13]

def threadfunc2 : List (Op Nat) := [.deQ, .deQ, .deQ, .deQ]

def Multi_Threading : Bool → List (Op Nat)
  | true => threadfunc1
  | false => threadfunc2

/-- The first value handed over. -/
theorem in_order_handed : ∃ (evs : List (Bool × Act Nat)) (s : State 64 Nat Bool),
    (machine 64 Multi_Threading).Run (begin Multi_Threading) evs s ∧ s.got false = [10] ∧
    (s.got false).filter (fun _ => true = true) <+: members threadfunc1 := by
  have r := Machine.Run.nil (M := machine 64 Multi_Threading) (begin Multi_Threading)
  have r := r.snoc (@Step.call _ _ _ _ _ true (.enQ 10) _ _ rfl (.enQ rfl))
  have r := r.snoc (Step.own rfl (Monitor.Step.lockEnQ (t := true) rfl rfl))
  have r := r.snoc (Step.own rfl (Monitor.Step.insert (t := true) (a := 0) rfl (by decide) rfl))
  have r := r.snoc (Step.own rfl (Monitor.Step.broadcast (t := true) rfl))
  have r := r.snoc (Step.own rfl (Monitor.Step.unlockEnQ (t := true) rfl))
  have r := r.snoc (@Step.call _ _ _ _ _ false .deQ _ _ rfl (.deQ rfl))
  have r := r.snoc (Step.own rfl (Monitor.Step.lockDeQ (t := false) (.inl rfl) rfl))
  have r := r.snoc (Step.own rfl (Monitor.Step.testReady (t := false) rfl rfl))
  have r := r.snoc (Step.own rfl (Monitor.Step.remove (t := false) rfl rfl))
  have r := r.snoc (Step.own rfl (Monitor.Step.unlockDeQ (t := false) rfl))
  have hsource : ∀ t, ∀ v ∈ members (Multi_Threading t), (fun _ => true) v = t := by decide
  exact ⟨_, _, r, rfl, (in_order hsource r false true).2 (by decide)⟩

/-- Whatever the schedule, both threads of the test return, and its checks hold. -/
theorem multi_threading {evs : List (Bool × Act Nat)} {s : State 64 Nat Bool}
    (h : (machine 64 Multi_Threading).Run (begin Multi_Threading) evs s) (hrest : Resting s) :
    (∀ t, Finished s t) ∧ s.got false = [10, 11, 12, 13] := by
  have hi := run_inv h
  have hp : ∀ t, Phased (Multi_Threading t) := fun t => by
    cases t with
    | true => exact trivial
    | false => exact ⟨rfl, rfl, rfl, rfl, trivial⟩
  have hfinished : ∀ t, Finished s t := fun t =>
    (hrest.finished hi.base t).resolve_right fun ht => absurd (hi.starved (by decide) hrest hp ht) (by decide)
  have ho : Ordered (fun _ => true) Multi_Threading s := run_ordered (by decide) h
  have hprefix : s.base.returned.filter (fun _ => true) <+: members threadfunc1 := ho.starts hi.base true
  have halone : s.got false = s.base.returned := hi.alone ho (by decide)
  rw [List.filter_true, ← halone] at hprefix
  have hcount := hi.count false
  rw [(hfinished false).1, (hfinished false).2] at hcount
  exact ⟨hfinished, hprefix.eq_of_length hcount⟩

end Ex6.QueueScripts
