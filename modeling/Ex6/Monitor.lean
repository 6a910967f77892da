import Mathlib.Algebra.Group.Nat.Defs
import Ex6.Lib.Machine
import Ex6.Lib.Mutex
import Ex6.Queue
/-!
# Threads calling `enQ` and `deQ`

Any number of threads call the two functions on one queue, in any interleaving
of their statements: acquiring the mutex, the list work under it, the guard
test, the wait (which releases the mutex and sleeps in one step), the wakeups,
the broadcast and the unlock. `blocked` is the guard `deQ` waits on.

The lists in the state are records for the theorems: `passed` and `returned`
follow the calls, `enqueued` and `dequeued` the changes of the list, all in
the order the mutex was held.
-/
open Lib Ex6.Queue

namespace Ex6.Monitor

/-- Where a thread is in `enQ` or `deQ`. -/
inductive Pc (V : Type)
  | idle
  | enqLock (member : V)
  | enqInsert (member : V)
  | enqBroadcast
  | enqUnlock
  | deqLock
  | deqTest
  | deqWait
  | deqAsleep
  | deqWoken
  | deqRemove
  | deqUnlock (ret : V)
deriving DecidableEq

/-- The statements at which a thread owns the mutex. -/
def Pc.inside {V : Type} : Pc V → Bool
  | .enqInsert _ | .enqBroadcast | .enqUnlock | .deqTest | .deqWait | .deqRemove | .deqUnlock _ => true
  | _ => false

/-- `pthread_cond_broadcast`, as one thread sees it: asleep, it has a wakeup pending. -/
def Pc.wakeup {V : Type} : Pc V → Pc V
  | .deqAsleep => .deqWoken
  | pc => pc

def wakeAll {T V : Type} (pc : T → Pc V) : T → Pc V := fun t => (pc t).wakeup

inductive Act (V : Type)
  | enQ (member : V) | deQ | lock | insert (a : Addr) | broadcast | test | wait | wake | remove | unlock

/-- A new call, or a spurious wakeup: what a step of the running threads is not. -/
def Act.external {V : Type} : Act V → Bool
  | .enQ _ | .deQ | .wake => true
  | _ => false

structure State (w : Nat) (V T : Type) where
  q : queue w V
  owner : Option T
  pc : T → Pc V
  /-- `enQ` calls so far. -/
  calls : Nat
  passed : List V
  enqueued : List V
  dequeued : List V
  returned : List V

variable {w : Nat} {V T : Type}

def start : State w V T := ⟨createQ w V, none, fun _ => .idle, 0, [], [], [], []⟩

/-- One statement of one thread. -/
inductive Step [DecidableEq T] (s : State w V T) : T × Act V → State w V T → Prop
  | enQ {t member} : s.pc t = .idle →
      Step s (t, .enQ member) { s with pc := Function.update s.pc t (.enqLock member), calls := s.calls + 1 }
  | deQ {t} : s.pc t = .idle → Step s (t, .deQ) { s with pc := Function.update s.pc t .deqLock }
  | lockEnQ {t member} : s.pc t = .enqLock member → s.owner = none →
      Step s (t, .lock) { s with
        owner := some t, pc := Function.update s.pc t (.enqInsert member), passed := s.passed ++ [member] }
  -- a woken consumer, too, comes out of `pthread_cond_wait` owning the mutex
  | lockDeQ {t} : s.pc t = .deqLock ∨ s.pc t = .deqWoken → s.owner = none →
      Step s (t, .lock) { s with owner := some t, pc := Function.update s.pc t .deqTest }
  | insert {t member a q'} : s.pc t = .enqInsert member → a ∉ s.q.heap → enQ s.q a member = some q' →
      Step s (t, .insert a) { s with
        q := q', pc := Function.update s.pc t .enqBroadcast, enqueued := s.enqueued ++ [member] }
  | broadcast {t} : s.pc t = .enqBroadcast →
      Step s (t, .broadcast) { s with pc := Function.update (wakeAll s.pc) t .enqUnlock }
  | testBlocked {t} : s.pc t = .deqTest → blocked s.q = true →
      Step s (t, .test) { s with pc := Function.update s.pc t .deqWait }
  | testReady {t} : s.pc t = .deqTest → blocked s.q = false →
      Step s (t, .test) { s with pc := Function.update s.pc t .deqRemove }
  | wait {t} : s.pc t = .deqWait →
      Step s (t, .wait) { s with owner := none, pc := Function.update s.pc t .deqAsleep }
  | wake {t} : s.pc t = .deqAsleep → Step s (t, .wake) { s with pc := Function.update s.pc t .deqWoken }
  | remove {t ret q'} : s.pc t = .deqRemove → private_deQ s.q = some (ret, q') →
      Step s (t, .remove) { s with
        q := q', pc := Function.update s.pc t (.deqUnlock ret), dequeued := s.dequeued ++ [ret] }
  | unlockEnQ {t} : s.pc t = .enqUnlock →
      Step s (t, .unlock) { s with owner := none, pc := Function.update s.pc t .idle }
  | unlockDeQ {t ret} : s.pc t = .deqUnlock ret →
      Step s (t, .unlock) { s with
        owner := none, pc := Function.update s.pc t .idle, returned := s.returned ++ [ret] }

/-- One queue and its threads, from `createQ` on. -/
def machine (w : Nat) (V T : Type) [DecidableEq T] : Machine (State w V T) (T × Act V) where
  init s := s = start
  step := Step

/-- No thread can go on without a new call. -/
def Quiet [DecidableEq T] (s : State w V T) : Prop := ∀ t a s', Step s (t, a) s' → a.external = true

/-- A value unlinked and not yet returned. -/
def Pc.inHand {V : Type} : Option (Pc V) → List V
  | some (.deqUnlock ret) => [ret]
  | _ => []

/-- A value passed to `enQ` and not yet linked. -/
def Pc.arriving {V : Type} : Option (Pc V) → List V
  | some (.enqInsert member) => [member]
  | _ => []

/-- What the owner of the mutex, if any, is at. -/
def State.current (s : State w V T) : Option (Pc V) := s.owner.map s.pc

theorem wakeup_inside (pc : Pc V) : pc.wakeup.inside = pc.inside := by cases pc <;> rfl

theorem wakeup_ne_asleep (pc : Pc V) : pc.wakeup ≠ .deqAsleep := by cases pc <;> simp [Pc.wakeup]

/-- A wakeup moves a thread nowhere but out of its sleep. -/
theorem wakeup_eq {pc pc' : Pc V} (h : pc.wakeup = pc') (hne : pc' ≠ .deqWoken) : pc = pc' := by
  cases pc <;> simp_all [Pc.wakeup]

theorem wakeup_eq_enqLock {pc : Pc V} {member : V} : pc.wakeup = .enqLock member ↔ pc = .enqLock member := by
  cases pc <;> simp [Pc.wakeup]

/-! ## Calls -/

/-- The call a thread is in. -/
inductive Kind
  | idle | enQ | deQ
deriving DecidableEq

def Pc.kind {V : Type} : Pc V → Kind
  | .idle => .idle
  | .enqLock _ | .enqInsert _ | .enqBroadcast | .enqUnlock => .enQ
  | .deqLock | .deqTest | .deqWait | .deqAsleep | .deqWoken | .deqRemove | .deqUnlock _ => .deQ

theorem wakeup_kind (pc : Pc V) : pc.wakeup.kind = pc.kind := by cases pc <;> rfl

theorem kind_ne_idle {pc : Pc V} (h : pc.inside = true) : pc.kind ≠ .idle := by
  cases pc <;> simp_all [Pc.inside, Pc.kind]

/-- How a thread's own step moves it between calls. -/
def Moves {V : Type} : Act V → Kind → Kind → Prop
  | .enQ _, k, k' => k = .idle ∧ k' = .enQ
  | .deQ, k, k' => k = .idle ∧ k' = .deQ
  | .unlock, k, k' => k ≠ .idle ∧ k' = .idle
  | _, k, k' => k ≠ .idle ∧ k' = k

theorem step_moves [DecidableEq T] {s s' : State w V T} {t : T} {a : Act V} (h : Step s (t, a) s') :
    Moves a (s.pc t).kind (s'.pc t).kind := by
  cases h with
  | lockDeQ ht => rcases ht with ht | ht <;> simp [ht, Moves, Pc.kind]
  | enQ ht | deQ ht | lockEnQ ht | insert ht | broadcast ht | testBlocked ht | testReady ht | wait ht | wake ht
  | remove ht | unlockEnQ ht | unlockDeQ ht => simp [ht, Moves, Pc.kind]

/-- A thread that is in a `deQ` or enters one stays there until it unlocks. -/
theorem stays_deQ {a : Act V} {k k' : Kind} (h : Moves a k k') (hk : k = .idle ∨ k = .deQ)
    (hnot : ∀ member, a ≠ .enQ member) (hret : a ≠ .unlock) : k' = .deQ := by
  cases a with
  | enQ member => exact absurd rfl (hnot member)
  | unlock => exact absurd rfl hret
  | deQ => exact h.2
  | _ => exact h.2.trans (hk.resolve_left h.1)

theorem stays_enQ {a : Act V} {k : Kind} (h : Moves a .enQ k) (hret : a ≠ .unlock) : k = .enQ := by
  cases a with
  | enQ | deQ => cases h.1
  | unlock => exact absurd rfl hret
  | _ => exact h.2

/-- No other thread changes its call. -/
theorem step_kind_other [DecidableEq T] {s s' : State w V T} {t u : T} {a : Act V} (h : Step s (t, a) s')
    (hu : u ≠ t) : (s'.pc u).kind = (s.pc u).kind := by
  cases h with
  | broadcast => simp only [Function.update_of_ne hu, wakeAll, wakeup_kind]
  | _ => simp only [Function.update_of_ne hu]

/-- A value is returned where a `deQ` unlocks. -/
theorem step_returned [DecidableEq T] {s s' : State w V T} {t : T} {a : Act V} (h : Step s (t, a) s') :
    s'.returned = s.returned ∨
      ∃ ret, a = .unlock ∧ s.pc t = .deqUnlock ret ∧ s'.returned = s.returned ++ [ret] := by
  cases h with
  | unlockDeQ ht => exact .inr ⟨_, rfl, ht, rfl⟩
  | _ => exact .inl rfl

/-! ## The invariant -/

structure Inv (s : State w V T) : Prop where
  owner : Owned Pc.inside s.pc s.owner
  holds : ∃ xs, Holds s.q xs ∧ s.enqueued = s.dequeued ++ xs
  size : s.q.size = BitVec.ofNat w s.enqueued.length
  wait : ∀ t, s.pc t = .deqWait → blocked s.q = true
  remove : ∀ t, s.pc t = .deqRemove → blocked s.q = false
  -- a sleeper has nothing to wait for, or the broadcast that wakes it is next
  asleep : ∀ t, s.pc t = .deqAsleep → blocked s.q = true ∨ ∃ u, s.pc u = .enqBroadcast
  passed : s.passed = s.enqueued ++ Pc.arriving s.current
  returned : s.dequeued = s.returned ++ Pc.inHand s.current
  calls : ∃ F : Finset T, (∀ t, t ∈ F ↔ ∃ member, s.pc t = .enqLock member) ∧ s.calls = s.passed.length + F.card

theorem inv_start : Inv (start : State w V T) where
  owner t := by simp [start, Pc.inside]
  holds := ⟨[], holds_createQ, rfl⟩
  size := by simp [start, createQ]
  wait t h := by cases h
  remove t h := by cases h
  asleep t h := by cases h
  passed := rfl
  returned := rfl
  calls := ⟨∅, by simp [start], rfl⟩

variable {s s' : State w V T} {e : T × Act V}

/-- While `t` is inside, another thread is not. -/
theorem absurd_inside (hi : Inv s) {t u : T} {p p' : Pc V} (ht : s.pc t = p) (hu : u ≠ t ∧ s.pc u = p')
    (hp : p.inside = true) (hp' : p'.inside = true) : False :=
  hu.1 (hi.owner.unique (by rw [ht, hp]) (by rw [hu.2, hp']))

theorem owner_of (hi : Inv s) {t : T} {p : Pc V} (ht : s.pc t = p) (hp : p.inside = true) : s.owner = some t :=
  hi.owner.owner_eq (by rw [ht, hp])

theorem enqueued_le_calls (hi : Inv s) : s.enqueued.length ≤ s.calls := by
  obtain ⟨F, -, hc⟩ := hi.calls
  have := congrArg List.length hi.passed
  simp only [List.length_append] at this
  omega

/-- Below `2^w` calls the counter has not wrapped round, and the guard is about
the list. -/
theorem head_of_blocked (hi : Inv s) (hw : s.calls < 2 ^ w) (hb : blocked s.q = true) : s.q.head = none := by
  obtain ⟨xs, hx, he⟩ := hi.holds
  rw [blocked, Bool.or_eq_true, decide_eq_true_eq, Option.isNone_iff_eq_none] at hb
  rcases hb with h0 | hn
  · rw [hi.size] at h0
    have hlt : s.enqueued.length < 2 ^ w := Nat.lt_of_le_of_lt (enqueued_le_calls hi) hw
    have hz : s.enqueued.length = 0 := by
      have := congrArg BitVec.toNat h0
      simpa [Nat.mod_eq_of_lt hlt] using this
    rw [List.length_eq_zero_iff] at hz
    rw [hx.head_eq_none]
    exact (List.append_eq_nil_iff.1 (he.symm.trans hz)).2
  · exact hn

variable [DecidableEq T]

theorem owner_step (hi : Inv s) (h : Step s e s') : Owned Pc.inside s'.pc s'.owner := by
  cases h with
  | lockEnQ _ ho | lockDeQ _ ho => exact Owned.acquire (ho ▸ hi.owner) rfl
  | wait ht | unlockEnQ ht | unlockDeQ ht => exact hi.owner.release (by rw [ht]; rfl) rfl
  | broadcast ht => exact (hi.owner.map wakeup_inside).keep (by rw [ht]; rfl)
  | enQ ht | deQ ht | insert ht | testBlocked ht | testReady ht | wake ht | remove ht =>
    exact hi.owner.keep (by rw [ht]; rfl)

theorem wait_step (hi : Inv s) (h : Step s e s') : ∀ t, s'.pc t = .deqWait → blocked s'.q = true := by
  intro u hu
  cases h with
  | testBlocked ht hb => exact hb
  | insert ht | remove ht =>
    -- the list changes under the mutex, so nobody else is between its test and its wait
    rcases update_cases hu with hu | ⟨-, hu⟩
    · exact (absurd_inside hi ht hu rfl rfl).elim
    · cases hu
  | broadcast ht =>
    rcases update_cases hu with ⟨-, hu⟩ | ⟨-, hu⟩
    · exact hi.wait u (wakeup_eq hu (by simp))
    · cases hu
  | _ =>
    rcases update_cases hu with ⟨-, hu⟩ | ⟨-, hu⟩
    · exact hi.wait u hu
    · cases hu

theorem remove_step (hi : Inv s) (h : Step s e s') : ∀ t, s'.pc t = .deqRemove → blocked s'.q = false := by
  intro u hu
  cases h with
  | testReady ht hb => exact hb
  | insert ht | remove ht =>
    rcases update_cases hu with hu | ⟨-, hu⟩
    · exact (absurd_inside hi ht hu rfl rfl).elim
    · cases hu
  | broadcast ht =>
    rcases update_cases hu with ⟨-, hu⟩ | ⟨-, hu⟩
    · exact hi.remove u (wakeup_eq hu (by simp))
    · cases hu
  | _ =>
    rcases update_cases hu with ⟨-, hu⟩ | ⟨-, hu⟩
    · exact hi.remove u hu
    · cases hu

/-- A step that neither changes the list nor makes the broadcast. -/
theorem asleep_keep (hi : Inv s) {t : T} {p : Pc V} (ht : s.pc t ≠ .enqBroadcast) (hp : p ≠ .deqAsleep) :
    ∀ u, Function.update s.pc t p u = .deqAsleep →
      blocked s.q = true ∨ ∃ v, Function.update s.pc t p v = .enqBroadcast := by
  intro u hu
  rcases update_cases hu with ⟨-, hu⟩ | ⟨-, hu⟩
  · rcases hi.asleep u hu with hb | ⟨v, hv⟩
    · exact .inl hb
    · have hvt : v ≠ t := fun he => ht (by rw [← he, hv])
      exact .inr ⟨v, by rw [Function.update_of_ne hvt, hv]⟩
  · exact absurd hu hp

theorem asleep_step (hi : Inv s) (h : Step s e s') :
    ∀ t, s'.pc t = .deqAsleep → blocked s'.q = true ∨ ∃ u, s'.pc u = .enqBroadcast := by
  cases h with
  | wait ht => exact fun _ _ => .inl (hi.wait _ ht)
  | insert => exact fun _ _ => .inr ⟨_, Function.update_self _ _ _⟩
  | broadcast ht =>
    intro u hu
    rcases update_cases hu with ⟨-, hu⟩ | ⟨-, hu⟩
    · exact absurd hu (wakeup_ne_asleep _)
    · cases hu
  | @remove t ret q' ht hq =>
    -- whoever removes has found the guard false, so all sleepers have been woken
    intro u hu
    rcases update_cases hu with ⟨-, hu⟩ | ⟨-, hu⟩
    · rcases hi.asleep u hu with hb | ⟨v, hv⟩
      · rw [hi.remove t ht] at hb; cases hb
      · have hvt : v ≠ t := fun he => by rw [he, ht] at hv; cases hv
        exact (absurd_inside hi ht ⟨hvt, hv⟩ rfl rfl).elim
    · cases hu
  | lockDeQ ht =>
    exact asleep_keep hi (by rcases ht with ht | ht <;> simp [ht]) (by simp)
  | enQ ht | deQ ht | lockEnQ ht | testBlocked ht | testReady ht | wake ht | unlockEnQ ht | unlockDeQ ht =>
    exact asleep_keep hi (by simp [ht]) (by simp)

theorem holds_step (hi : Inv s) (h : Step s e s') : ∃ xs, Holds s'.q xs ∧ s'.enqueued = s'.dequeued ++ xs := by
  obtain ⟨xs, hx, he⟩ := hi.holds
  cases h with
  | @insert t member a q' ht ha hq =>
    exact ⟨xs ++ [member], (hx.of_enQ ha hq).1, by simp [he]⟩
  | @remove t ret q' ht hq =>
    obtain ⟨ys, rfl, hy, -⟩ := hx.of_deQ hq
    exact ⟨ys, hy, by simp [he]⟩
  | _ => exact ⟨xs, hx, he⟩

theorem size_step (hi : Inv s) (h : Step s e s') : s'.q.size = BitVec.ofNat w s'.enqueued.length := by
  obtain ⟨xs, hx, he⟩ := hi.holds
  cases h with
  | @insert t member a q' ht ha hq =>
    obtain ⟨-, hsize⟩ := hx.of_enQ ha hq
    rw [hsize, hi.size, List.length_append, List.length_singleton, BitVec.ofNat_add]
    rfl
  | @remove t ret q' ht hq =>
    obtain ⟨ys, -, -, hsize⟩ := hx.of_deQ hq
    exact hsize.trans hi.size
  | _ => exact hi.size

theorem passed_step (hi : Inv s) (h : Step s e s') : s'.passed = s'.enqueued ++ Pc.arriving s'.current := by
  have hp := hi.passed
  cases h with
  | enQ ht | deQ ht | wake ht =>
    simpa only [State.current, hi.owner.map_update (by rw [ht]; rfl)] using hp
  | lockEnQ _ ho | lockDeQ _ ho => simpa [State.current, ho, Pc.arriving] using hp
  | insert ht | broadcast ht | testBlocked ht | testReady ht | wait ht | remove ht | unlockEnQ ht | unlockDeQ ht =>
    simp only [State.current, owner_of hi ht rfl, Option.map_some, ht] at hp
    simpa [State.current, owner_of hi ht rfl, Pc.arriving] using hp

theorem returned_step (hi : Inv s) (h : Step s e s') : s'.dequeued = s'.returned ++ Pc.inHand s'.current := by
  have hr := hi.returned
  cases h with
  | enQ ht | deQ ht | wake ht =>
    simpa only [State.current, hi.owner.map_update (by rw [ht]; rfl)] using hr
  | lockEnQ _ ho | lockDeQ _ ho => simpa [State.current, ho, Pc.inHand] using hr
  | insert ht | broadcast ht | testBlocked ht | testReady ht | wait ht | remove ht | unlockEnQ ht | unlockDeQ ht =>
    simp only [State.current, owner_of hi ht rfl, Option.map_some, ht] at hr
    simpa [State.current, owner_of hi ht rfl, Pc.inHand] using hr

/-- A step that neither makes nor starts to serve an `enQ` call. -/
theorem calls_keep {pc : T → Pc V} {F : Finset T} (hF : ∀ t, t ∈ F ↔ ∃ member, pc t = .enqLock member) {t : T}
    {p : Pc V} (ht : ∀ member, pc t ≠ .enqLock member) (hp : ∀ member, p ≠ .enqLock member) :
    ∀ u, u ∈ F ↔ ∃ member, Function.update pc t p u = .enqLock member := by
  intro u
  rw [hF u]
  by_cases hu : u = t
  · subst hu; simp [ht, hp]
  · simp [Function.update_of_ne hu]

theorem calls_step (hi : Inv s) (h : Step s e s') :
    ∃ F : Finset T, (∀ t, t ∈ F ↔ ∃ member, s'.pc t = .enqLock member) ∧ s'.calls = s'.passed.length + F.card := by
  obtain ⟨F, hF, hc⟩ := hi.calls
  cases h with
  | @enQ t member ht =>
    have htF : t ∉ F := by simp [hF, ht]
    refine ⟨insert t F, fun u => ?_, by simp [hc, Finset.card_insert_of_notMem htF]; omega⟩
    by_cases hu : u = t
    · subst hu; simp
    · simp [hu, hF]
  | @lockEnQ t member ht ho =>
    have htF : t ∈ F := (hF t).2 ⟨member, ht⟩
    refine ⟨F.erase t, fun u => ?_, ?_⟩
    · by_cases hu : u = t
      · subst hu; simp
      · simp [hu, hF]
    · have := Finset.card_erase_add_one htF
      simp [hc]; omega
  | broadcast ht =>
    have hF' : ∀ u, u ∈ F ↔ ∃ member, wakeAll s.pc u = .enqLock member := fun u => by
      simp only [hF u, wakeAll, wakeup_eq_enqLock]
    exact ⟨F, calls_keep hF' (by simp [wakeAll, ht, Pc.wakeup]) (by simp), hc⟩
  | lockDeQ ht => exact ⟨F, calls_keep hF (by rcases ht with ht | ht <;> simp [ht]) (by simp), hc⟩
  | deQ ht | insert ht | testBlocked ht | testReady ht | wait ht | wake ht | remove ht | unlockEnQ ht | unlockDeQ ht =>
    exact ⟨F, calls_keep hF (by simp [ht]) (by simp), hc⟩

theorem inv_step (hi : Inv s) (h : Step s e s') : Inv s' :=
  ⟨owner_step hi h, holds_step hi h, size_step hi h, wait_step hi h, remove_step hi h, asleep_step hi h,
    passed_step hi h, returned_step hi h, calls_step hi h⟩

theorem reachable_inv (h : (machine w V T).Reachable s) : Inv s :=
  h.inv (P := Inv) (by rintro s rfl; exact inv_start) (fun _ _ _ hi ht => inv_step hi ht)

/-! ## First in, first out -/

/-- In every reachable state, what has been dequeued followed by what is linked
from `head` is what has been enqueued, in the order the mutex was held. The
calls follow the list: all that was dequeued has been returned, except a value
the owner of the mutex is about to return, and all that was passed to `enQ` has
been enqueued, except a value the owner is about to link. `private_deQ` is never
entered with a null `head`. -/
theorem fifo (h : (machine w V T).Reachable s) :
    (∃ xs, Holds s.q xs ∧ s.dequeued ++ xs = s.enqueued) ∧
    s.returned ++ Pc.inHand s.current = s.dequeued ∧
    s.enqueued ++ Pc.arriving s.current = s.passed ∧
    ∀ t, s.pc t = .deqRemove → s.q.head ≠ none := by
  have hi := reachable_inv h
  obtain ⟨xs, hx, he⟩ := hi.holds
  refine ⟨⟨xs, hx, he.symm⟩, hi.returned.symm, hi.passed.symm, fun t ht hn => ?_⟩
  have hb := hi.remove t ht
  simp [blocked, hn] at hb

/-- One thread sleeps in `deQ`, the other enqueues two values, and the first has
taken the older one and still owns the mutex. -/
theorem fifo_handover : ∃ s : State 64 Nat Bool, (machine 64 Nat Bool).Reachable s ∧ s.owner = some false ∧
    (∃ xs, Holds s.q xs ∧ [7] ++ xs = [7, 8]) ∧ s.returned ++ Pc.inHand s.current = [7] := by
  have r : (machine 64 Nat Bool).Reachable start := .init rfl
  have r := r.step (@Step.deQ 64 Nat Bool _ start false rfl)
  have r := r.step (Step.lockDeQ (t := false) (.inl rfl) rfl)
  have r := r.step (Step.testBlocked (t := false) rfl rfl)
  have r := r.step (Step.wait (t := false) rfl)
  have r := r.step (@Step.enQ _ _ _ _ _ true 7 rfl)
  have r := r.step (Step.lockEnQ (t := true) rfl rfl)
  have r := r.step (Step.insert (t := true) (a := 0) rfl (by decide) rfl)
  have r := r.step (Step.broadcast (t := true) rfl)
  have r := r.step (Step.unlockEnQ (t := true) rfl)
  have r := r.step (@Step.enQ _ _ _ _ _ true 8 rfl)
  have r := r.step (Step.lockEnQ (t := true) rfl rfl)
  have r := r.step (Step.insert (t := true) (a := 1) rfl (by decide) rfl)
  have r := r.step (Step.broadcast (t := true) rfl)
  have r := r.step (Step.unlockEnQ (t := true) rfl)
  have r := r.step (Step.lockDeQ (t := false) (.inr rfl) rfl)
  have r := r.step (Step.testReady (t := false) rfl rfl)
  have r := r.step (Step.remove (t := false) rfl rfl)
  obtain ⟨hlist, hreturned, -⟩ := fifo r
  exact ⟨_, r, rfl, hlist, hreturned⟩

/-! ## No lost wakeup -/

/-- The owner of the mutex can always go on. -/
theorem owner_moves (hi : Inv s) {t : T} (ho : s.owner = some t) : ∃ a s', Step s (t, a) s' ∧ a.external = false := by
  have hin : (s.pc t).inside = true := (hi.owner t).2 ho
  cases ht : s.pc t with
  | enqInsert member =>
    obtain ⟨xs, hx, -⟩ := hi.holds
    obtain ⟨a, q', ha, hq⟩ := hx.exists_enQ member
    exact ⟨_, _, .insert ht ha hq, rfl⟩
  | enqBroadcast => exact ⟨_, _, .broadcast ht, rfl⟩
  | enqUnlock => exact ⟨_, _, .unlockEnQ ht, rfl⟩
  | deqTest =>
    cases hb : blocked s.q with
    | true => exact ⟨_, _, .testBlocked ht hb, rfl⟩
    | false => exact ⟨_, _, .testReady ht hb, rfl⟩
  | deqWait => exact ⟨_, _, .wait ht, rfl⟩
  | deqRemove =>
    obtain ⟨xs, hx, -⟩ := hi.holds
    cases xs with
    | nil =>
      have hb := hi.remove t ht
      simp [blocked, hx.head_eq_none.2 rfl] at hb
    | cons x xs =>
      obtain ⟨q', hq, -⟩ := private_deQ_spec hx
      exact ⟨_, _, .remove ht hq, rfl⟩
  | deqUnlock ret => exact ⟨_, _, .unlockDeQ ht, rfl⟩
  | _ => rw [ht] at hin; cases hin

/-- While the mutex is free, a consumer asleep with no wakeup pending has
nothing to consume. So once the threads have come to rest, either the list is
empty or no consumer is waiting. -/
theorem no_lost_wakeup (h : (machine w V T).Reachable s) (hw : s.calls < 2 ^ w) :
    (s.owner = none → ∀ t, s.pc t = .deqAsleep → s.q.head = none) ∧
    (Quiet s → s.q.head = none ∨ ∀ t, s.pc t ≠ .deqAsleep ∧ s.pc t ≠ .deqWoken) := by
  have hi := reachable_inv h
  have hsleep : s.owner = none → ∀ t, s.pc t = .deqAsleep → s.q.head = none := by
    intro ho t ht
    rcases hi.asleep t ht with hb | ⟨u, hu⟩
    · exact head_of_blocked hi hw hb
    · rw [owner_of hi hu rfl] at ho; cases ho
  refine ⟨hsleep, fun hq => ?_⟩
  have hfree : s.owner = none := by
    cases ho : s.owner with
    | none => rfl
    | some t =>
      obtain ⟨a, s', hst, ha⟩ := owner_moves hi ho
      rw [hq t a s' hst] at ha; cases ha
  by_cases hs : ∃ t, s.pc t = .deqAsleep
  · obtain ⟨t, ht⟩ := hs
    exact .inl (hsleep hfree t ht)
  · refine .inr fun t => ⟨fun ht => hs ⟨t, ht⟩, fun ht => ?_⟩
    -- the mutex is free, so a woken consumer can take it
    have := hq t _ _ (.lockDeQ (.inr ht) hfree)
    cases this

/-- A consumer has slept, taken a value and gone to sleep again, and the other thread
is between its calls: nothing can go on, and the list is empty. -/
theorem no_lost_wakeup_again : ∃ s : State 64 Nat Bool, (machine 64 Nat Bool).Reachable s ∧ s.returned = [7] ∧
    s.pc false = .deqAsleep ∧ Quiet s ∧ s.q.head = none := by
  have r : (machine 64 Nat Bool).Reachable start := .init rfl
  have r := r.step (@Step.deQ 64 Nat Bool _ start false rfl)
  have r := r.step (Step.lockDeQ (t := false) (.inl rfl) rfl)
  have r := r.step (Step.testBlocked (t := false) rfl rfl)
  have r := r.step (Step.wait (t := false) rfl)
  have r := r.step (@Step.enQ _ _ _ _ _ true 7 rfl)
  have r := r.step (Step.lockEnQ (t := true) rfl rfl)
  have r := r.step (Step.insert (t := true) (a := 0) rfl (by decide) rfl)
  have r := r.step (Step.broadcast (t := true) rfl)
  have r := r.step (Step.unlockEnQ (t := true) rfl)
  have r := r.step (Step.lockDeQ (t := false) (.inr rfl) rfl)
  have r := r.step (Step.testReady (t := false) rfl rfl)
  have r := r.step (Step.remove (t := false) rfl rfl)
  have r := r.step (Step.unlockDeQ (t := false) rfl)
  have r := r.step (Step.deQ (t := false) rfl)
  have r := r.step (Step.lockDeQ (t := false) (.inl rfl) rfl)
  have r := r.step (Step.testBlocked (t := false) rfl rfl)
  have r := r.step (Step.wait (t := false) rfl)
  refine ⟨_, r, rfl, rfl, ?_, (no_lost_wakeup r (by decide)).1 rfl false rfl⟩
  intro t a s' h
  cases t with
  | false => cases h <;> first | rfl | contradiction
  | true => cases h <;> first | rfl | contradiction

/-! ## Passing the mutex on -/

/-- The owner's statements up to its unlock or its wait. -/
def Pc.toRelease {V : Type} : Pc V → Nat
  | .enqInsert _ | .deqTest => 3
  | .enqBroadcast | .deqRemove => 2
  | .enqUnlock | .deqWait | .deqUnlock _ => 1
  | _ => 0

/-- A thread about to take the mutex. -/
def Pc.locking {V : Type} : Pc V → Bool
  | .enqLock _ | .deqLock | .deqWoken => true
  | _ => false

theorem locking_outside {pc : Pc V} (h : pc.locking = true) : pc.inside ≠ true := by
  cases pc <;> simp_all [Pc.locking, Pc.inside]

theorem wakeup_locking {pc : Pc V} (h : pc.locking = true) : pc.wakeup = pc := by
  cases pc <;> simp_all [Pc.locking, Pc.wakeup]

/-- A thread inside keeps the mutex or releases it, and comes closer to that. -/
theorem step_owner {t : T} {a : Act V} (h : Step s (t, a) s') (hin : (s.pc t).inside = true) :
    (s'.owner = none ∨ s'.owner = s.owner) ∧ (s'.pc t).toRelease < (s.pc t).toRelease := by
  cases h with
  | wait ht | unlockEnQ ht | unlockDeQ ht => exact ⟨.inl rfl, by simp [ht, Pc.toRelease]⟩
  | insert ht | broadcast ht | testBlocked ht | testReady ht | remove ht => exact ⟨.inr rfl, by simp [ht, Pc.toRelease]⟩
  | lockDeQ ht => rcases ht with ht | ht <;> rw [ht] at hin <;> cases hin
  | enQ ht | deQ ht | lockEnQ ht | wake ht => rw [ht] at hin; cases hin

/-- No other thread's step takes the mutex from its owner. -/
theorem step_owner_other (hi : Inv s) {t u : T} {a : Act V} (h : Step s (t, a) s') (ho : s.owner = some u)
    (hu : u ≠ t) : s'.owner = some u := by
  have hout : (s.pc t).inside ≠ true := fun hin => hu (Option.some.inj (ho.symm.trans ((hi.owner t).1 hin)))
  cases h with
  | lockEnQ _ hfree | lockDeQ _ hfree => rw [hfree] at ho; cases ho
  | wait ht | unlockEnQ ht | unlockDeQ ht => rw [ht] at hout; exact absurd rfl hout
  | _ => exact ho

/-- No other thread's step moves a thread that is about to take the mutex. -/
theorem step_locking_other {t u : T} {a : Act V} (h : Step s (t, a) s') (hu : (s.pc u).locking = true) (hne : u ≠ t) :
    s'.pc u = s.pc u := by
  cases h with
  | broadcast => simp only [Function.update_of_ne hne, wakeAll, wakeup_locking hu]
  | _ => simp only [Function.update_of_ne hne]

/-- The owner can go on until the mutex is free. -/
theorem released (hi : Inv s) {u : T} (hu : (s.pc u).locking = true) :
    ∃ evs s', (machine w V T).Run s evs s' ∧ (∀ e ∈ evs, s.owner = some e.1 ∧ e.2.external = false) ∧
      s'.pc u = s.pc u ∧ s'.owner = none := by
  cases ho : s.owner with
  | none => exact ⟨[], s, .nil s, by simp, rfl, ho⟩
  | some v =>
    have hs : ∀ x : State w V T, (Inv x ∧ x.pc u = s.pc u ∧ (x.owner = none ∨ x.owner = some v)) → ¬ x.owner = none →
        ∃ e y, (machine w V T).step x e y ∧ (some v = some e.1 ∧ e.2.external = false) ∧
          (Inv y ∧ y.pc u = s.pc u ∧ (y.owner = none ∨ y.owner = some v)) ∧
          (y.pc v).toRelease < (x.pc v).toRelease := by
      rintro x ⟨hx, hpc, hox⟩ hd
      have hox := hox.resolve_left hd
      have hin := (hx.owner v).2 hox
      obtain ⟨a, y, hst, ha⟩ := owner_moves hx hox
      have hlocking : (x.pc u).locking = true := by rw [hpc]; exact hu
      have hne : u ≠ v := fun he => locking_outside hlocking (he ▸ hin)
      obtain ⟨hoy, hlt⟩ := step_owner hst hin
      refine ⟨(v, a), y, hst, ⟨rfl, ha⟩, ⟨inv_step hx hst, ?_, ?_⟩, hlt⟩
      · rw [step_locking_other hst hlocking hne, hpc]
      · rw [← hox]; exact hoy
    obtain ⟨evs, s', hr, hevs, ⟨-, hpc, -⟩, hd⟩ := Machine.exists_run _ hs ⟨hi, rfl, .inr ho⟩
    exact ⟨evs, s', hr, hevs, hpc, hd⟩

/-- Whoever is about to take the mutex can get it, with steps of the owner alone. -/
theorem acquired (hi : Inv s) {u : T} (hu : (s.pc u).locking = true) :
    ∃ evs s', (machine w V T).Run s evs s' ∧ (∀ e ∈ evs, (s.owner = some e.1 ∨ e.1 = u) ∧ e.2.external = false) ∧
      s'.owner = some u := by
  obtain ⟨evs, s', hr, hevs, hpc, hfree⟩ := released hi hu
  have hlast : ∃ s'', (machine w V T).step s' (u, .lock) s'' ∧ s''.owner = some u := by
    cases hp : s.pc u with
    | enqLock member => exact ⟨_, Step.lockEnQ (hpc.trans hp) hfree, rfl⟩
    | deqLock => exact ⟨_, Step.lockDeQ (.inl (hpc.trans hp)) hfree, rfl⟩
    | deqWoken => exact ⟨_, Step.lockDeQ (.inr (hpc.trans hp)) hfree, rfl⟩
    | _ => rw [hp] at hu; cases hu
  obtain ⟨s'', hst, ho⟩ := hlast
  refine ⟨evs ++ [(u, .lock)], s'', .snoc hr hst, fun e he => ?_, ho⟩
  rcases List.mem_append.1 he with he | he
  · exact ⟨.inl (hevs e he).1, (hevs e he).2⟩
  · rw [List.mem_singleton.1 he]
    exact ⟨.inr rfl, rfl⟩

end Ex6.Monitor
