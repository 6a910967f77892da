import Ex6.PipelineThreads
import Ex6.PipelineProgress
/-!
# However the threads are scheduled

Every step of a connection's threads brings what was received on it closer to
its end: `work` falls with each step of the server of `Pipeline`, and `measure`
with each statement of the queues, wakeups that nobody asked for apart.
-/
open Lib Lib.CString Ex6.Queue Ex6.Text Ex6.Pipeline Ex6.QueueCalls

namespace Ex6.Pipeline
variable {w : Nat} {p p' : State w} {e : Event} {c : Nat}

/-! ## Calls in one step -/

/-- A stage that goes on with its capsula, or is done with it. -/
theorem work_goto {t : Nat} {funq : arg_functions_queue} {pc pc' : AoPc} {buffers : Nat → List Byte}
    {sent : Nat → List (List Byte)} (ht : p.threads t = some (.ao_func funq pc))
    (hw : Wired p.conns t (.ao_func funq pc)) (hc : t / 3 = c) (hlt : pc'.work < pc.work)
    (hl : (load (some (.ao_func funq pc'))).length ≤ (load (some (.ao_func funq pc))).length) :
    State.work { p.goto t (.ao_func funq pc') with buffers, sent } c < p.work c := by
  cases hw with
  | @convert c' fd =>
    obtain rfl : c' = c := by omega
    simp [State.work, State.goto, ht, stageWork]
    omega
  | @caesar c' fd =>
    obtain rfl : c' = c := by omega
    simp [State.work, State.goto, ht, stageWork]
    omega

theorem work_create {th : Thread} {main : MainPc} (hunborn : p.threads p.nthreads = none)
    (hth : stageWork (some th) = 0) (hl : load (some th) = []) (hlt : mainWork main < mainWork p.main) :
    (p.create th main).work c < p.work c := by
  -- the new thread has nothing to do yet
  have hold : ∀ {α : Type} (f : Option Thread → α), f (some th) = f none →
      ∀ t, f ((p.create th main).threads t) = f (p.threads t) := by
    intro α f hf t
    by_cases ht : t = p.nthreads
    · subst ht
      rw [hunborn, ← hf]
      exact congrArg f (Function.update_self _ _ _)
    · exact congrArg f (Function.update_of_ne ht _ _)
  have hstage := hold stageWork hth
  have hload := hold load hl
  unfold State.work
  rw [hstage, hstage, hload, hload]
  simp only [State.create]
  omega

/-- Whichever step the threads of a connection take, less is left of its work. -/
theorem work_step (h : Flowing p) (hs : Step p e p') (he : e.Of c) : p'.work c < p.work c := by
  have hunborn : p.threads p.nthreads = none := h.inv.unborn _ (Nat.le_refl _)
  cases hs with
  | accept_fails | accept | recv | recv_fails => exact absurd he id
  | new_listenAO hm | new_AO_convert hm | new_AO_caesar hm =>
    exact work_create hunborn rfl rfl (by rw [hm]; simp [mainWork])
  | @listen_enQ t caps capsul q a q' ht hq ha hen =>
    obtain ⟨hlinked, -⟩ := counter_enQ (h.inv.holds q) ha hen
    have hc : t / 3 = c := he
    cases h.inv.wired t _ ht with
    | @listenAO c' fd pc =>
      obtain rfl : c' = c := by omega
      obtain rfl : 2 * c' = q := Option.some.inj hq
      simp [State.work, State.goto, State.setQ, ht, hlinked, load]
      omega
  | @deQ t funq capsul q' ht hb hd =>
    obtain ⟨hlinked, -⟩ := counter_deQ (h.inv.holds funq.q) hd
    have hc : t / 3 = c := he
    cases h.inv.wired t _ ht with
    | @convert c' fd pc =>
      obtain rfl : c' = c := by omega
      simp only at hlinked
      simp [State.work, State.goto, State.setQ, ht, hlinked, stageWork, AoPc.work, load]
      omega
    | @caesar c' fd pc =>
      obtain rfl : c' = c := by omega
      simp only at hlinked
      simp [State.work, State.goto, State.setQ, ht, hlinked, stageWork, AoPc.work]
      omega
  | @insert_to_queue t funq capsul a q' ht hf ha hen =>
    obtain ⟨hlinked, -⟩ := counter_enQ (h.inv.holds capsul.q) ha hen
    have hc : t / 3 = c := he
    cases h.inv.wired t _ ht with
    | @convert c' fd pc =>
      obtain rfl : c' = c := by omega
      have hq : capsul.q = 2 * c' + 1 := (h.inv.belongs c' (capsul, fromCaesar) (by
        simp [contents, ht, load, AfterFunc.rest])).1
      rw [hq] at hlinked ⊢
      simp [State.work, State.goto, State.setQ, ht, hlinked, stageWork, AoPc.work, load]
      omega
    | caesar => cases hf
  | before ht hbuf hn =>
    obtain ⟨b, hb, hbuf'⟩ := load_buffer h.inv ht _ (List.mem_singleton.2 rfl)
    obtain ⟨n, hle, hn'⟩ := h.ended _ hb
    cases hbuf.symm.trans hbuf'
    cases hn.symm.trans hn'
    exact work_goto ht (h.inv.wired _ _ ht) he (by simp only [AoPc.work]; omega) (Nat.le_refl _)
  | before_undefined ht hbuf hn =>
    obtain ⟨b, hb, hbuf'⟩ := load_buffer h.inv ht _ (List.mem_singleton.2 rfl)
    cases hbuf.symm.trans hbuf'
    exact absurd hn (h.nul _ hb)
  | loop ht hi => exact work_goto ht (h.inv.wired _ _ ht) he (by simp only [AoPc.work]; omega) (Nat.le_refl _)
  | leave ht hi => exact work_goto ht (h.inv.wired _ _ ht) he (by simp only [AoPc.work]; omega) (Nat.le_refl _)
  | send_message ht => exact work_goto ht (h.inv.wired _ _ ht) he (by simp only [AoPc.work]; omega) (Nat.zero_le _)
  | send_undefined ht _ hbuf hn =>
    obtain ⟨b, hb, hbuf'⟩ := load_buffer h.inv ht _ (List.mem_singleton.2 rfl)
    cases hbuf.symm.trans hbuf'
    obtain ⟨n, -, hn'⟩ := h.ended _ hb
    rw [Text.send_message, hn'] at hn
    cases hn

instance (c : Nat) (e : Event) : Decidable (e.Of c) := by
  unfold Event.Of
  split <;> infer_instance

/-- Work done, and work that comes in. -/
def spent (c : Nat) (e : Event) : Nat := if e.Of c then 1 else 0

def gained (c : Nat) : Event → Nat
  | .accept (some _) => 3
  | .recv t _ (some _) => if t / 3 = c then 2057 else 0
  | _ => 0

/-- The work of a connection depends on its own threads and queues, and on `main`. -/
theorem work_congr (hm : p'.main = p.main) (ht : ∀ r < 3, p'.threads (3 * c + r) = p.threads (3 * c + r))
    (hq : ∀ r < 2, p'.queues (2 * c + r) = p.queues (2 * c + r)) : p'.work c = p.work c := by
  have h0 := ht 0 (by omega)
  have h0' := hq 0 (by omega)
  simp only [Nat.add_zero] at h0 h0'
  unfold State.work
  rw [hm, h0, ht 1 (by omega), ht 2 (by omega), h0', hq 1 (by omega)]

theorem work_goto_other {t : Nat} {th : Thread} (hc : t / 3 ≠ c) : (p.goto t th).work c = p.work c :=
  work_congr rfl (fun r hr => Function.update_of_ne (by omega) _ _) fun _ _ => rfl

theorem work_setQ_other {t k : Nat} {th : Thread} {q : queue w capsula} (hc : t / 3 ≠ c) (hk : k / 2 = t / 3) :
    ((p.goto t th).setQ k q).work c = p.work c :=
  work_congr rfl (fun r hr => Function.update_of_ne (by omega) _ _) fun r hr => Function.update_of_ne (by omega) _ _

theorem work_account (h : Flowing p) (hs : Step p e p') (c : Nat) :
    p'.work c + spent c e ≤ p.work c + gained c e := by
  unfold spent
  split
  case isTrue he =>
    have := work_step h hs he
    omega
  case isFalse he =>
    cases hs with
    | accept_fails => exact Nat.le_refl _
    | @accept new_fd hm =>
      have hlinked : ∀ k, (linked (Function.update (Function.update p.queues p.nqueues (createQ w capsula))
          (p.nqueues + 1) (createQ w capsula) k)).length ≤ (linked (p.queues k)).length := by
        intro k
        by_cases h1 : k = p.nqueues + 1
        · subst h1; simp [linked_createQ]
        · rw [Function.update_of_ne h1]
          by_cases h0 : k = p.nqueues
          · subst h0; simp [linked_createQ]
          · rw [Function.update_of_ne h0]
      have h2 := hlinked (2 * c)
      have h3 := hlinked (2 * c + 1)
      simp only [State.work, gained, hm, mainWork]
      omega
    | new_listenAO | new_AO_convert | new_AO_caesar => exact absurd trivial he
    | @recv t caps junk data ht hj hd =>
      by_cases hc : t / 3 = c
      · cases h.inv.wired t _ ht with
        | @listenAO c' fd =>
          obtain rfl : c' = c := by omega
          simp [State.work, State.goto, gained, ht, load]
      · simp only [gained, hc, if_false]
        exact Nat.le_of_eq (work_congr rfl (fun r hr => Function.update_of_ne (by omega) _ _) fun _ _ => rfl)
    | @recv_fails t caps junk ht =>
      by_cases hc : t / 3 = c
      · cases h.inv.wired t _ ht with
        | @listenAO c' fd =>
          obtain rfl : c' = c := by omega
          simp [State.work, State.goto, ht, load]
      · exact Nat.add_le_add (Nat.le_of_eq (work_goto_other hc)) (Nat.zero_le _)
    | @listen_enQ t caps capsul q a q' ht hq =>
      have hcall : PipelineThreads.call (p.threads t) = some (q, .enQ capsul) := by
        rw [ht]; simp only [PipelineThreads.call, hq, Option.map_some]
      exact Nat.add_le_add (Nat.le_of_eq (work_setQ_other he (PipelineThreads.call_lt h.inv hcall).2)) (Nat.zero_le _)
    | @deQ t funq capsul q' ht =>
      have hcall : PipelineThreads.call (p.threads t) = some (funq.q, .deQ) := by
        rw [ht]; rfl
      exact Nat.add_le_add (Nat.le_of_eq (work_setQ_other he (PipelineThreads.call_lt h.inv hcall).2)) (Nat.zero_le _)
    | @insert_to_queue t funq capsul a q' ht hf =>
      have hcall : PipelineThreads.call (p.threads t) = some (capsul.q, .enQ capsul) := by
        rw [ht]; simp only [PipelineThreads.call, hf]
      exact Nat.add_le_add (Nat.le_of_eq (work_setQ_other he (PipelineThreads.call_lt h.inv hcall).2)) (Nat.zero_le _)
    | @before t | @before_undefined t | @leave t | @send_undefined t =>
      have hc : t / 3 ≠ c := he
      exact Nat.add_le_add (Nat.le_of_eq (work_goto_other hc)) (Nat.zero_le _)
    | @loop t | @send_message t =>
      have hc : t / 3 ≠ c := he
      refine Nat.add_le_add (Nat.le_of_eq (work_congr rfl (fun r hr => ?_) fun _ _ => rfl)) (Nat.zero_le _)
      exact Function.update_of_ne (by omega) _ _

end Ex6.Pipeline

namespace Ex6.PipelineThreads
variable {w : Nat} {s s' : State w} {c k t u : Nat} {q q' : Monitor.State w capsula Nat} {a : Monitor.Act capsula}

/-! ## Calls statement by statement -/

/-- Statements a thread at `pc` has before it until its call has returned or it
sleeps. A broadcast has those ahead, too, that it makes two others do again. -/
def pcRank : Monitor.Pc capsula → Nat
  | .enqBroadcast => 18
  | .enqUnlock | .deqUnlock _ => 11
  | .idle => 10
  | .enqLock _ | .deqLock => 9
  | .enqInsert _ | .deqWoken => 8
  | .deqTest => 7
  | .deqWait | .deqRemove => 6
  | .deqAsleep => 5

/-- A thread that is at no call has none. -/
def rank (s : State w) (t : Nat) : Nat :=
  match call (s.base.threads t) with
  | some (k, _) => pcRank ((s.queues k).pc t)
  | none => 0

def ranks (s : State w) (c : Nat) : Nat := rank s (3 * c) + rank s (3 * c + 1) + rank s (3 * c + 2)

/-- A step of the work is worth more than all statements of three calls. -/
def measure (s : State w) (c : Nat) : Nat := 100 * s.abs.work c + ranks s c

/-- Not because of a broadcast. -/
def spurious : Monitor.Act capsula → Bool
  | .wake => true
  | _ => false

/-- A step for connection `c`: of `main` for a new connection, or of the connection's
threads with what they have. -/
def Event.Of (c : Nat) : Event → Prop
  | .own e => e.Of c
  | .queue _ t a => t / 3 = c ∧ spurious a = false

instance (c : Nat) (ev : Event) : Decidable (ev.Of c) := by
  unfold Event.Of
  split <;> infer_instance

def spent (c : Nat) (ev : Event) : Nat := if ev.Of c then 1 else 0

/-- What a connection has more to do: 3 statements after a spurious wakeup of one of
its threads, and what comes in. -/
def gained (c : Nat) : Event → Nat
  | .own e => 101 * Pipeline.gained c e
  | .queue _ t a => if t / 3 = c ∧ spurious a = true then 3 else 0

def spread : Monitor.Act capsula → Nat
  | .broadcast => 3
  | _ => 0

theorem pcRank_le (pc : Monitor.Pc capsula) : pcRank pc ≤ 18 := by cases pc <;> simp [pcRank]

theorem rank_le (s : State w) (t : Nat) : rank s t ≤ 18 := by
  unfold rank
  split
  · exact pcRank_le _
  · exact Nat.zero_le _

theorem rank_of_call {op : Op capsula} (h : call (s.base.threads t) = some (k, op)) :
    rank s t = pcRank ((s.queues k).pc t) := by
  unfold rank
  rw [h]

/-- What is one thread's and what the others have. -/
theorem ranks_account {x y d : Nat} (ht : t / 3 = c) (hself : rank s' t + x ≤ rank s t + y)
    (hother : ∀ u, u ≠ t → rank s' u ≤ rank s u + d) : ranks s' c + x ≤ ranks s c + y + 2 * d := by
  have h0 := hother (3 * c)
  have h1 := hother (3 * c + 1)
  have h2 := hother (3 * c + 2)
  have hcases : t = 3 * c ∨ t = 3 * c + 1 ∨ t = 3 * c + 2 := by omega
  unfold ranks
  rcases hcases with rfl | rfl | rfl <;> omega

theorem ranks_congr (h : ∀ u, u / 3 = c → rank s' u = rank s u) : ranks s' c = ranks s c := by
  unfold ranks
  rw [h _ (by omega), h _ (by omega), h _ (by omega)]

/-! ## What a statement costs -/

theorem others_rank (hs : Monitor.Step q (t, a) q') (hu : u ≠ t) : pcRank (q'.pc u) ≤ pcRank (q.pc u) + spread a := by
  rcases step_others hs hu with he | ⟨rfl, he⟩
  · rw [he]
    exact Nat.le_add_right _ _
  · rw [he]
    cases q.pc u <;> simp [Monitor.Pc.wakeup, pcRank, spread]

theorem self_rank (hs : Monitor.Step q (t, a) q') (ha : spurious a = false) (hu : a ≠ .unlock)
    (he : ∀ x, a ≠ .insert x) (hr : a ≠ .remove) : pcRank (q'.pc t) + 1 + 2 * spread a ≤ pcRank (q.pc t) := by
  cases hs with
  | wake => cases ha
  | insert => exact absurd rfl (he _)
  | remove => exact absurd rfl hr
  | unlockEnQ | unlockDeQ => exact absurd rfl hu
  | lockDeQ ht => rcases ht with ht | ht <;> simp [ht, pcRank, spread]
  | enQ ht | deQ ht | lockEnQ ht | broadcast ht | testBlocked ht | testReady ht | wait ht =>
    simp [ht, pcRank, spread]

/-- Nobody from another connection is in the queue. -/
theorem step_strangers (h : Inv s) (hs : Monitor.Step (s.queues k) (t, a) q) (hu : u / 3 ≠ t / 3) :
    q.pc u = (s.queues k).pc u := by
  have hne : u ≠ t := fun he => hu (by rw [he])
  rcases step_others hs hne with he | ⟨rfl, he⟩
  · exact he
  · rw [he]
    have hidle : (s.queues k).pc u = .idle := by
      by_contra hne
      have hk := (h.calls k u fun hi => hne (status_eq_idle hi)).2.1
      have ht : status ((s.queues k).pc t) ≠ .idle := by
        cases hs with
        | broadcast ht => rw [ht]; simp [status]
      have hk' := (h.calls k t ht).2.1
      omega
    rw [hidle]
    rfl

theorem rank_setQ {d : Nat} (hpc : pcRank (q.pc u) ≤ pcRank ((s.queues k).pc u) + d) :
    rank (s.setQ k q) u ≤ rank s u + d := by
  unfold rank
  show (match call (s.base.threads u) with
    | some (j, _) => pcRank ((Function.update s.queues k q j).pc u)
    | none => 0) ≤ _
  cases call (s.base.threads u) with
  | none => exact Nat.zero_le _
  | some x =>
    obtain ⟨j, op⟩ := x
    by_cases hj : j = k
    · subst hj
      simpa using hpc
    · simp [Function.update_of_ne hj]

theorem rank_eq_of_pc (h : q.pc u = (s.queues k).pc u) : rank (s.setQ k q) u = rank s u := by
  unfold rank
  show (match call (s.base.threads u) with
    | some (j, _) => pcRank ((Function.update s.queues k q j).pc u)
    | none => 0) = _
  cases call (s.base.threads u) with
  | none => rfl
  | some x =>
    obtain ⟨j, op⟩ := x
    by_cases hj : j = k
    · subst hj
      simp [h]
    · simp [Function.update_of_ne hj]

theorem rank_own (h : Inv s) {e : Pipeline.Event} {p : Pipeline.State w} (ho : outside e = true)
    (hs : Pipeline.Step s.view e p) (hu : actor s.view e ≠ some u) :
    rank ⟨p, renew s.base.nqueues p.nqueues s.queues⟩ u = rank s u := by
  have hthread : p.threads u = s.base.threads u := by
    cases ha : actor s.view e with
    | some t =>
      obtain ⟨-, -, ⟨th, hth⟩, -⟩ := step_local hs ha ho
      rw [hth]
      exact Function.update_of_ne (fun he => hu (by rw [ha, he])) _ _
    | none =>
      cases hs with
      | accept_fails | accept => rfl
      | _ => cases ha
  unfold rank
  simp only [hthread, pc_renew h]

theorem ranks_le (s : State w) (c : Nat) : ranks s c ≤ 54 := by
  have h0 := rank_le s (3 * c)
  have h1 := rank_le s (3 * c + 1)
  have h2 := rank_le s (3 * c + 2)
  unfold ranks
  omega

/-- What a step outside the queues does to the sum of the statements: nothing, unless
it does work, brings some, or ends the thread that receives. -/
theorem ranks_own (h : Inv s) {e : Pipeline.Event} {p : Pipeline.State w} (ho : outside e = true)
    (hs : Pipeline.Step s.view e p) (c : Nat) :
    ranks ⟨p, renew s.base.nqueues p.nqueues s.queues⟩ c ≤ ranks s c ∨ e.Of c ∨ 54 ≤ Pipeline.gained c e := by
  by_cases hact : ∀ t, actor s.view e = some t → t / 3 ≠ c
  · refine .inl (Nat.le_of_eq (ranks_congr fun u hu => rank_own h ho hs fun ha => hact u ha hu))
  simp only [not_forall, not_not] at hact
  obtain ⟨t, ha, ht⟩ := hact
  cases e with
  | accept fd => cases ha
  | enQ t a => cases ho
  | deQ t => cases ho
  | create => exact .inr (.inl trivial)
  | stage u | send u =>
    cases ha
    exact .inr (.inl ht)
  | recv u junk data =>
    cases ha
    cases data with
    | some data => exact .inr (.inr (by simp [Pipeline.gained, ht]))
    | none =>
      have hret : rank ⟨p, renew s.base.nqueues p.nqueues s.queues⟩ t = 0 := by
        cases hs with
        | recv_fails hth =>
          unfold rank
          simp [State.goto, call]
      refine .inl (ranks_account (x := 0) (y := 0) (d := 0) ht (by omega) fun v hv => ?_)
      refine Nat.le_of_eq (rank_own h ho hs fun hav => hv ?_)
      exact (Option.some.inj hav).symm

theorem account_own (h : Inv s) (hf : Flowing s.abs) {e : Pipeline.Event} {p : Pipeline.State w}
    (ho : outside e = true) (hs : Pipeline.Step s.view e p) (c : Nat) :
    measure ⟨p, renew s.base.nqueues p.nqueues s.queues⟩ c + spent c (.own e) ≤
      measure s c + gained c (.own e) := by
  have hwork := work_account hf (abs_own h ho hs) c
  have hspent : spent c (.own e) = Pipeline.spent c e := rfl
  have hgained : gained c (.own e) = 101 * Pipeline.gained c e := rfl
  have hle := ranks_le ⟨p, renew s.base.nqueues p.nqueues s.queues⟩ c
  unfold measure
  rcases ranks_own h ho hs c with hranks | hof | hcome
  · omega
  · have h1 : Pipeline.spent c e = 1 := if_pos hof
    omega
  · have h1 : Pipeline.spent c e ≤ 1 := by unfold Pipeline.spent; split <;> omega
    omega

/-- A statement of one of the connection's threads that is neither a spurious wakeup
nor the last of its call. -/
theorem ranks_of (hs : Monitor.Step (s.queues k) (t, a) q) (ht : t / 3 = c) (ha : spurious a = false)
    (hu : a ≠ .unlock) (hi : ∀ x, a ≠ .insert x) (hr : a ≠ .remove) {op : Op capsula}
    (hcall : call (s.base.threads t) = some (k, op)) : ranks (s.setQ k q) c + 1 ≤ ranks s c := by
  have hself : rank (s.setQ k q) t + (1 + 2 * spread a) ≤ rank s t + 0 := by
    have hq : (s.setQ k q).queues k = q := Function.update_self _ _ _
    rw [rank_of_call (s := s.setQ k q) hcall, rank_of_call hcall, hq]
    have := self_rank hs ha hu hi hr
    omega
  have := ranks_account ht hself fun u hu => rank_setQ (others_rank hs hu)
  omega

theorem ranks_strangers (h : Inv s) (hs : Monitor.Step (s.queues k) (t, a) q) (ht : t / 3 ≠ c) :
    ranks (s.setQ k q) c = ranks s c :=
  ranks_congr fun _ hu => rank_eq_of_pc (step_strangers h hs fun he => ht (he.symm.trans hu))

/-- Whether a statement in a queue is one for connection `c`. -/
theorem spent_queue (hs : spurious a = false) : spent c (.queue k t a) = if t / 3 = c then 1 else 0 := by
  unfold spent
  by_cases ht : t / 3 = c
  · rw [if_pos ht]
    exact if_pos ⟨ht, hs⟩
  · rw [if_neg ht]
    exact if_neg fun h => ht h.1

theorem account_silent {op : Op capsula} (h : Inv s) (hs : Monitor.Step (s.queues k) (t, a) q)
    (habs : (s.setQ k q).abs = s.abs) (hu : a ≠ .unlock) (hi : ∀ x, a ≠ .insert x) (hr : a ≠ .remove)
    (hcall : call (s.base.threads t) = some (k, op)) (c : Nat) :
    measure (s.setQ k q) c + spent c (.queue k t a) ≤ measure s c + gained c (.queue k t a) := by
  unfold measure
  rw [habs]
  by_cases ht : t / 3 = c
  · cases ha : spurious a with
    | false =>
      rw [spent_queue ha, if_pos ht]
      have := ranks_of hs ht ha hu hi hr hcall
      omega
    | true =>
      have hspent : spent c (.queue k t a) = 0 := if_neg fun h => by
        have := h.2
        rw [ha] at this
        cases this
      have hgained : gained c (.queue k t a) = 3 := if_pos ⟨ht, ha⟩
      rw [hspent, hgained]
      have hwake : pcRank (q.pc t) ≤ pcRank ((s.queues k).pc t) + 3 ∧ ∀ u, u ≠ t → q.pc u = (s.queues k).pc u := by
        cases hs with
        | wake hpc => exact ⟨by simp [hpc, pcRank], fun u hu => Function.update_of_ne hu _ _⟩
        | _ => cases ha
      have hself : rank (s.setQ k q) t + 0 ≤ rank s t + 3 := rank_setQ hwake.1
      have := ranks_account (d := 0) ht hself fun u hu => Nat.le_of_eq (rank_eq_of_pc (hwake.2 u hu))
      omega
  · rw [ranks_strangers h hs ht]
    have hspent : spent c (.queue k t a) = 0 := if_neg fun h => ht h.1
    omega

/-- A call that takes effect does work. -/
theorem account_commit (h : Inv s) (hf : Flowing s.abs) (hs : Monitor.Step (s.queues k) (t, a) q)
    {e : Pipeline.Event} (habs : Pipeline.Step s.abs e (s.setQ k q).abs) (he : e.Of c ↔ t / 3 = c)
    (hg : Pipeline.gained c e = 0) (ha : spurious a = false) :
    measure (s.setQ k q) c + spent c (.queue k t a) ≤ measure s c + gained c (.queue k t a) := by
  have hwork := work_account hf habs c
  have hle := ranks_le (s.setQ k q) c
  rw [spent_queue ha]
  unfold measure
  by_cases ht : t / 3 = c
  · have h1 : Pipeline.spent c e = 1 := if_pos (he.2 ht)
    rw [if_pos ht]
    omega
  · rw [ranks_strangers h hs ht, if_neg ht]
    omega

theorem account_ret (h : Inv s) {th : Thread} (hth : s.base.threads t = some th)
    (hs : Monitor.Step (s.queues k) (t, .unlock) q) (c : Nat) :
    measure { s.setQ k q with base := s.base.goto t (after (result ((s.queues k).pc t)) th) } c +
      spent c (.queue k t .unlock) ≤ measure s c + gained c (.queue k t .unlock) := by
  obtain ⟨hdone, -, hturns⟩ := step_unlock hs
  obtain ⟨-, -, op, hop, -⟩ := h.calls k t (by rw [hdone]; simp)
  have hother : ∀ u, u ≠ t →
      rank { s.setQ k q with base := s.base.goto t (after (result ((s.queues k).pc t)) th) } u = rank s u := by
    intro u hu
    have hpc : q.pc u = (s.queues k).pc u := by
      rcases step_others hs hu with he | ⟨he, -⟩
      · exact he
      · cases he
    rw [← rank_eq_of_pc hpc]
    unfold rank
    simp only [State.goto, Function.update_of_ne hu]
    rfl
  rw [spent_queue rfl]
  unfold measure
  rw [abs_ret h hth hs]
  by_cases ht : t / 3 = c
  · have hidle : ∀ j, status (((s.setQ k q).queues j).pc t) = .idle := fun j => by
      by_cases hj : j = k
      · rw [hj]
        exact hturns.self
      · rw [hturns.others fun he => absurd he hj]
        exact h.idle_other hop hj
    have hself : rank { s.setQ k q with base := s.base.goto t (after (result ((s.queues k).pc t)) th) } t + 1 ≤
        rank s t + 0 := by
      have h11 : rank s t = 11 := by
        rw [rank_of_call hop]
        cases hs with
        | unlockEnQ hpc | unlockDeQ hpc =>
          rw [hpc]
          rfl
      rw [h11]
      unfold rank
      split
      · rw [status_eq_idle (hidle _)]
        exact Nat.le_refl _
      · exact Nat.le_add_left _ _
    rw [if_pos ht]
    have := ranks_account (d := 0) ht hself fun u hu => Nat.le_of_eq (hother u hu)
    omega
  · rw [if_neg ht]
    have := ranks_congr (c := c) fun u hu => hother u fun he => ht (he ▸ hu)
    omega

/-- The account of one step. -/
theorem step_account (h : Inv s) (hf : Flowing s.abs) {ev : Event} (hs : Step s ev s') (c : Nat) :
    measure s' c + spent c ev ≤ measure s c + gained c ev := by
  cases hs with
  | own ho hs => exact account_own h hf ho hs c
  | @call k t op q ht hs =>
    refine account_silent h hs (abs_call h ht hs) ?_ ?_ ?_ ht c <;> cases op <;> simp [entry]
  | ret hth hs => exact account_ret h hth hs c
  | @inside k t a q hi hs =>
    have habs := step_abs h (Step.inside hi hs)
    rcases inside_cases (w := w) hi with ⟨x, rfl⟩ | rfl | ⟨he, -⟩
    · exact account_commit h hf hs (habs.2 _ rfl) Iff.rfl rfl rfl
    · exact account_commit h hf hs (habs.2 _ rfl) Iff.rfl rfl rfl
    · have hne : status ((s.queues k).pc t) ≠ .idle := by
        cases hs with
        | enQ | deQ | unlockEnQ | unlockDeQ => cases hi
        | lockDeQ hpc => rcases hpc with hpc | hpc <;> rw [hpc] <;> simp [status]
        | lockEnQ hpc | insert hpc | broadcast hpc | testBlocked hpc | testReady hpc | wait hpc | wake hpc
        | remove hpc => rw [hpc]; simp [status]
      obtain ⟨-, -, op, hop, -⟩ := h.calls k t hne
      refine account_silent h hs (habs.1 (he k t)) ?_ ?_ ?_ hop c
      · rintro rfl
        cases hi
      · rintro x rfl
        cases he k t
      · rintro rfl
        cases he k t

/-! ## There is always a next statement -/

/-- Whoever holds a mutex can go on. -/
theorem owner_moves (h : Inv s) (ho : (s.queues k).owner = some u) : ∃ ev s', Step s ev s' ∧ ev.Of (k / 2) := by
  obtain ⟨a, q, hs, ha⟩ := Monitor.owner_moves (h.queues k) ho
  have hin : ((s.queues k).pc u).inside = true := ((h.queues k).owner u).2 ho
  have hne : status ((s.queues k).pc u) ≠ .idle := fun hi => by
    rw [status_eq_idle hi] at hin
    cases hin
  obtain ⟨-, hku, op, hop, -⟩ := h.calls k u hne
  have hspurious : spurious a = false := by
    cases a with
    | wake => cases ha
    | _ => rfl
  by_cases hunlock : a = .unlock
  · subst hunlock
    cases hth : s.base.threads u with
    | none =>
      rw [hth] at hop
      cases hop
    | some th => exact ⟨_, _, .ret hth hs, hku.symm, rfl⟩
  · refine ⟨_, _, .inside ?_ hs, hku.symm, hspurious⟩
    cases a with
    | unlock => exact absurd rfl hunlock
    | enQ | deQ => cases ha
    | _ => rfl

/-- A thread in a call goes on, or another of its connection does, unless it sleeps. -/
theorem call_moves (h : Inv s) (hne : (s.queues k).pc t ≠ .idle) (hsleep : (s.queues k).pc t ≠ .deqAsleep) :
    ∃ ev s', Step s ev s' ∧ ev.Of (t / 3) := by
  obtain ⟨-, hkt, -⟩ := h.calls k t fun hi => hne (status_eq_idle hi)
  rw [← hkt]
  cases ho : (s.queues k).owner with
  | some u => exact owner_moves h ho
  | none =>
    have hout : ((s.queues k).pc t).inside ≠ true := fun hin => by
      have := ((h.queues k).owner t).1 hin
      rw [ho] at this
      cases this
    cases hpc : (s.queues k).pc t with
    | idle => exact absurd hpc hne
    | deqAsleep => exact absurd hpc hsleep
    | enqLock member => exact ⟨_, _, .inside rfl (.lockEnQ hpc ho), hkt.symm, rfl⟩
    | deqLock => exact ⟨_, _, .inside rfl (.lockDeQ (.inl hpc) ho), hkt.symm, rfl⟩
    | deqWoken => exact ⟨_, _, .inside rfl (.lockDeQ (.inr hpc) ho), hkt.symm, rfl⟩
    | _ =>
      rw [hpc] at hout
      exact absurd rfl hout

/-- When nobody of the connection is in a call but those that sleep, their places are
those that count. -/
theorem ahead_resting (hrest : ∀ k, (s.queues k).pc t = .idle ∨ (s.queues k).pc t = .deqAsleep) :
    s.abs.threads t = s.base.threads t := by
  show ahead s.queues t (s.base.threads t) = s.base.threads t
  unfold ahead
  split
  case h_1 k op hcall =>
    rcases hrest k with hpc | hpc <;> rw [hpc] <;> rfl
  case h_2 => rfl

/-- A call that could be made in one step is entered. -/
theorem entry_moves {op : Op capsula} (hcall : call (s.base.threads t) = some (k, op))
    (hidle : (s.queues k).pc t = .idle) : ∃ ev s', Step s ev s' ∧ ev.Of (t / 3) := by
  cases op with
  | enQ member => exact ⟨_, _, .call hcall (.enQ hidle), rfl, rfl⟩
  | deQ => exact ⟨_, _, .call hcall (.deQ hidle), rfl, rfl⟩

/-- Who sleeps waits for a value. -/
theorem asleep_call (h : Inv s) {op : Op capsula} (hcall : call (s.base.threads t) = some (k, op))
    (hsleep : (s.queues k).pc t = .deqAsleep) : op = .deQ := by
  obtain ⟨-, -, op', hop, hfits⟩ := h.calls k t (by rw [hsleep]; simp [status])
  rw [hsleep] at hfits
  rw [hcall] at hop
  cases hop
  cases hfits
  rfl

/-- As long as a connection has something on its way, there is a statement for it. -/
theorem moves (h : Inv s) (hf : Flowing s.abs) {fd : Nat} (hc : s.base.conns[c]? = some fd)
    (hlt : (s.base.received fd).length < 2 ^ w) (hd : ¬ (s.base.main = .accept ∧ s.abs.contents c = [])) :
    ∃ ev s', Step s ev s' ∧ ev.Of c := by
  by_cases hbusy : ∃ t k, t / 3 = c ∧ (s.queues k).pc t ≠ .idle ∧ (s.queues k).pc t ≠ .deqAsleep
  · obtain ⟨t, k, rfl, hne, hsleep⟩ := hbusy
    exact call_moves h hne hsleep
  have hrest : ∀ t, t / 3 = c → ∀ k, (s.queues k).pc t = .idle ∨ (s.queues k).pc t = .deqAsleep := by
    intro t ht k
    by_contra hno
    exact hbusy ⟨t, k, ht, fun hi => hno (.inl hi), fun hs => hno (.inr hs)⟩
  obtain ⟨e, p, hs, he, -⟩ := Pipeline.moves (s := s.abs) hf hc hlt hd
  cases ho : outside e with
  | true =>
    have hsame : ∀ t, actor s.abs e = some t → s.base.threads t = s.abs.threads t := by
      intro t ha
      cases e with
      | create =>
        cases ha
        exact (base_unborn h).trans (h.abs.unborn _ (Nat.le_refl _)).symm
      | stage u | send u =>
        cases ha
        exact (ahead_resting (hrest t he)).symm
      | accept | recv => exact absurd he id
      | enQ | deQ => cases ho
    cases ha : actor s.abs e with
    | none =>
      cases e with
      | accept => exact absurd he id
      | _ => cases ha
    | some t =>
      obtain ⟨-, -, -, hlocal⟩ := step_local hs ha ho
      exact ⟨.own e, _, .own ho (hlocal s.base.threads (hsame t ha)), he⟩
  | false =>
    cases hs with
    | @listen_enQ t caps capsul q a q' ht hq =>
      have hcall : call (s.base.threads t) = some (q, .enQ capsul) := by
        rw [← ahead_resting (hrest t he), ht]
        simp only [call, hq, Option.map_some]
      rcases hrest t he q with hidle | hsleep
      · exact he ▸ entry_moves hcall hidle
      · cases asleep_call h hcall hsleep
    | @insert_to_queue t funq capsul a q' ht hfun =>
      have hcall : call (s.base.threads t) = some (capsul.q, .enQ capsul) := by
        rw [← ahead_resting (hrest t he), ht]
        simp only [call, hfun]
      rcases hrest t he capsul.q with hidle | hsleep
      · exact he ▸ entry_moves hcall hidle
      · cases asleep_call h hcall hsleep
    | @deQ t funq capsul q' ht hb =>
      have hcall : call (s.base.threads t) = some (funq.q, .deQ) := by
        rw [← ahead_resting (hrest t he), ht]
        rfl
      rcases hrest t he funq.q with hidle | hsleep
      · exact he ▸ entry_moves hcall hidle
      · -- it sleeps at a queue that has something, so somebody is about to wake it
        rcases (h.queues funq.q).asleep t hsleep with hblocked | ⟨u, hu⟩
        · exact absurd hblocked (by rw [show blocked (s.queues funq.q).q = false from hb]; simp)
        · have hk := (h.calls funq.q t (by rw [hsleep]; simp [status])).2.1
          have hk' := (h.calls funq.q u (by rw [hu]; simp [status])).2.1
          have ht' : t / 3 = c := he
          rcases hrest u (by omega) funq.q with hpc | hpc <;> rw [hu] at hpc <;> cases hpc
    | _ => cases ho

/-! ## Every run -/

/-- `recv` leaves a NUL somewhere in its buffer. -/
def Event.Ended : Event → Prop
  | .own e => e.Ended
  | .queue _ _ _ => True

theorem simulation_ended : Simulation ((machine w).under Event.Ended) ((Pipeline.server w).under Pipeline.Event.Ended)
    (fun _ => effect) State.abs Inv := by
  refine simulation.under fun s ev e he hp => ?_
  cases ev with
  | own e' =>
    cases he
    exact hp
  | queue k t a =>
    cases a with
    | insert | remove =>
      cases he
      trivial
    | _ => cases he

theorem flowing_of_reachable (h : ((machine w).under Event.Ended).Reachable s) : Inv s ∧ Flowing s.abs ∧
    ∀ fd, ∀ r ∈ s.base.received fd, NUL ∈ overwrite r.1 r.2 := by
  obtain ⟨hi, hr⟩ := simulation_ended.reachable h
  exact ⟨hi, reachable_flowing hr,
    received_all (s := s.abs) (P := fun junk data => NUL ∈ overwrite junk data) (fun _ _ _ he => he) hr⟩

/-- With no statement left for a connection, what was received on it is answered. -/
theorem sent_of_resting (h : ((machine w).under Event.Ended).Reachable s) {fd : Nat} (hc : s.base.conns[c]? = some fd)
    (hlt : (s.base.received fd).length < 2 ^ w) (hno : ∀ ev t, Step s ev t → ¬ ev.Of c) :
    s.base.sent fd = (s.base.received fd).map answer := by
  obtain ⟨hi, hf, hnul⟩ := flowing_of_reachable h
  by_cases hd : s.base.main = .accept ∧ s.abs.contents c = []
  · exact sent_of_done (s := s.abs) hf hc hd.2 (hnul fd)
  · obtain ⟨ev, t, hs, he⟩ := moves hi hf hc hlt hd
    exact absurd he (hno ev t hs)

/-- Up to any point of any run the threads of a connection have made no more
statements than what came in for them accounts for, and what has been sent is
answers, in the order of the messages. Where the counter of a queue has not come
round, one of them has a statement to make until all that was received is answered,
or `main` has that is setting up a connection. -/
theorem every_schedule (h : ((machine w).under Event.Ended).Reachable s) {evs : List Event}
    (hrun : ((machine w).under Event.Ended).Run s evs s') {fd : Nat} (hc : s'.base.conns[c]? = some fd) :
    measure s' c + Machine.total (spent c) evs ≤ measure s c + Machine.total (gained c) evs ∧
    s'.base.sent fd <+: (s'.base.received fd).map answer ∧
    ((s'.base.received fd).length < 2 ^ w → (∀ ev t, Step s' ev t → ¬ ev.Of c) →
      s'.base.sent fd = (s'.base.received fd).map answer) := by
  obtain ⟨hi, hf, -⟩ := flowing_of_reachable h
  obtain ⟨hi', hf', hnul⟩ := flowing_of_reachable (hrun.reachable h)
  refine ⟨?_, hf'.inv.sent_starts fun r hr => respond_spec (hnul fd r hr), ?_⟩
  · have hstep : ∀ x ev y, (Inv x ∧ Flowing x.abs) → ((machine w).under Event.Ended).step x ev y →
        (Inv y ∧ Flowing y.abs) ∧ measure y c + spent c ev ≤ measure x c + gained c ev := by
      rintro x ev y ⟨hx, hxf⟩ hs
      refine ⟨⟨step_inv hx hs.1, ?_⟩, step_account hx hxf hs.1 c⟩
      cases he : effect ev with
      | none =>
        rw [simulation_ended.silent x ev y hx hs he]
        exact hxf
      | some e =>
        obtain ⟨hpstep, hended⟩ := simulation_ended.seen x ev y e hx hs he
        exact flowing_step hxf hpstep hended
    exact (hrun.account hstep ⟨hi, hf⟩).2
  · exact fun hlt => sent_of_resting (hrun.reachable h) hc hlt

/-- A message has come in, and none of the statements it costs has been made. -/
theorem every_schedule_received : ∃ s : State 64, (machine 64).Reachable s ∧
    s.base.received 4 = [(List.replicate 1024 NUL, [97#8, NUL])] ∧ measure s 0 + 1 ≤ 208060 := by
  have r := Machine.Run.nil (M := (machine 64).under Event.Ended)
    ⟨Pipeline.start fun _ => [], fun _ => Monitor.start⟩
  have r := r.snoc ⟨.own rfl (@Pipeline.Step.accept _ _ 4 rfl (by decide)), trivial⟩
  have r := r.snoc ⟨.own rfl (.new_listenAO rfl), trivial⟩
  have r := r.snoc ⟨.own rfl (@Pipeline.Step.recv _ _ 0 _ (List.replicate 1024 NUL) [97#8, NUL] rfl
    List.length_replicate (by decide)), List.mem_append_left _ (by decide)⟩
  exact ⟨_, r.of_under.1.reachable (.init ⟨_, rfl⟩), rfl, (@every_schedule _ _ _ 0 (.init ⟨_, rfl⟩) _ r 4 rfl).1⟩

end Ex6.PipelineThreads
