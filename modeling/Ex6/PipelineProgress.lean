import Mathlib.Algebra.Group.Nat.Defs
import Ex6.PipelineBuffers
/-!
# The threads of a connection deliver

As long as there is a NUL in every buffer, a connection's three threads can
bring what was received on it to its end by themselves. `work` bounds the steps
that takes; a stage is never blocked on a queue that holds something, because
the counter of a queue has counted all that went through it.
-/
open Lib Lib.CString Ex6.Queue Ex6.Text

namespace Ex6.Pipeline
variable {w : Nat} {s s' : State w} {e : Event}

/-- `recv` leaves a NUL somewhere in its buffer. -/
def Event.Ended : Event → Prop
  | .recv _ junk (some data) => NUL ∈ overwrite junk data
  | _ => True

/-- What is sent back for what a buffer held and what `recv` wrote over it. -/
def answer (r : List Byte × List Byte) : List Byte := reply (cstr NUL (overwrite r.1 r.2))

/-- The capsulas that have been put into the third queue of a connection. -/
def State.enqueued_q3 (s : State w) (c fd : Nat) : Nat :=
  (s.sent fd).length + (load (s.threads (3 * c + 2))).length + (linked (s.queues (2 * c + 1))).length

/-- And those put into its second. -/
def State.enqueued_q2 (s : State w) (c fd : Nat) : Nat :=
  s.enqueued_q3 c fd + (load (s.threads (3 * c + 1))).length + (linked (s.queues (2 * c))).length

/-- The counters of the queues count them. -/
def Counted (s : State w) (c fd : Nat) : Prop :=
  Size (s.queues (2 * c + 1)) = BitVec.ofNat w (s.enqueued_q3 c fd) ∧
  Size (s.queues (2 * c)) = BitVec.ofNat w (s.enqueued_q2 c fd)

structure Flowing (s : State w) : Prop where
  inv : Inv s
  ended : ∀ b < s.nbuffers, ∃ n ≤ 1024, strlen NUL (s.buffers b) = some n
  loops : Loops s
  defined : Defined s
  born : ∀ t < s.nthreads, s.threads t ≠ none
  counted : ∀ c fd, s.conns[c]? = some fd → Counted s c fd

/-! ## What every step keeps -/

theorem ended_step (h : Flowing s) (hs : Step s e s') (he : e.Ended) :
    ∀ b < s'.nbuffers, ∃ n ≤ 1024, strlen NUL (s'.buffers b) = some n := by
  intro b hb
  by_cases hlt : b < s.nbuffers
  · rw [strlen_step hs hlt]
    exact h.ended b hlt
  · rcases alloc_step hs with ⟨t, junk, data, rfl, hf, hn⟩ | ⟨-, hn⟩
    · obtain rfl : b = s.nbuffers := by omega
      have hnul : NUL ∈ overwrite junk data := he
      have hlen : (overwrite junk data).length = 1024 := by
        have h1 := hf.junk_length
        have h2 := hf.data_length
        simp only [overwrite, List.length_append, List.length_drop]
        omega
      refine ⟨_, ?_, (strlen_congr NUL hf.marks).trans (strlen_eq_some NUL hnul)⟩
      have := cstr_length_lt NUL hnul
      omega
    · omega

theorem Flowing.nul (h : Flowing s) : ∀ b < s.nbuffers, strlen NUL (s.buffers b) ≠ none := by
  intro b hb hn
  obtain ⟨n, -, hn'⟩ := h.ended b hb
  rw [hn] at hn'
  cases hn'

theorem born_goto {threads : Nat → Option Thread} {n t : Nat} (h : ∀ u < n, threads u ≠ none) (th : Thread) :
    ∀ u < n, Function.update threads t (some th) u ≠ none := by
  intro u hu
  by_cases hut : u = t
  · subst hut; simp
  · rw [Function.update_of_ne hut]; exact h u hu

theorem born_step (h : Flowing s) (hs : Step s e s') : ∀ t < s'.nthreads, s'.threads t ≠ none := by
  cases hs with
  | accept_fails | accept => exact h.born
  | new_listenAO | new_AO_convert | new_AO_caesar =>
    intro t ht
    by_cases htn : t = s.nthreads
    · subst htn; simp [State.create]
    · have hlt : t < s.nthreads := Nat.lt_of_le_of_ne (Nat.le_of_lt_succ ht) htn
      exact born_goto h.born _ t hlt
  | _ => exact born_goto h.born _

/-! ## The counters -/

/-- Steps for connection `c` send on no other. -/
theorem sends_of (h : Inv s) {c t : Nat} (ht : t / 3 = c) {funq : arg_functions_queue} {capsul : capsula}
    (hth : s.threads t = some (.ao_func funq (.after capsul))) (hf : funq.after_func = .send_message) :
    s.conns[c]? = some capsul.socket := by
  cases h.wired t _ hth with
  | convert => cases hf
  | @caesar c' fd pc hc =>
    obtain rfl : c' = c := by omega
    exact (h.belongs c' (capsul, Text.send_message) (by simp [contents, hth, load, AfterFunc.rest])).2.1

/-- A connection's counts depend on its stages, queues and output only. -/
theorem Counted.congr {c fd : Nat} (h : Counted s c fd)
    (h1 : (load (s'.threads (3 * c + 1))).length = (load (s.threads (3 * c + 1))).length)
    (h2 : (load (s'.threads (3 * c + 2))).length = (load (s.threads (3 * c + 2))).length)
    (hq : ∀ r < 2, s'.queues (2 * c + r) = s.queues (2 * c + r)) (hs : s'.sent fd = s.sent fd) : Counted s' c fd := by
  have h0 := hq 0 (by omega)
  simp only [Nat.add_zero] at h0
  unfold Counted State.enqueued_q2 State.enqueued_q3 at h ⊢
  rw [h1, h2, h0, hq 1 (by omega), hs]
  exact h

theorem counted_goto (h : ∀ c fd, s.conns[c]? = some fd → Counted s c fd) {t : Nat} {th : Thread}
    (hthreads : s'.threads = Function.update s.threads t (some th))
    (hl : (load (some th)).length = (load (s.threads t)).length) (hconns : s'.conns = s.conns)
    (hqueues : s'.queues = s.queues) (hsent : s'.sent = s.sent) :
    ∀ c fd, s'.conns[c]? = some fd → Counted s' c fd := by
  intro c fd hc
  have hload : ∀ u, (load (s'.threads u)).length = (load (s.threads u)).length := fun u => by
    rw [hthreads]
    by_cases hu : u = t
    · subst hu; rw [Function.update_self, hl]
    · rw [Function.update_of_ne hu]
  exact (h c fd (hconns ▸ hc)).congr (hload _) (hload _) (fun _ _ => by rw [hqueues]) (by rw [hsent])

/-- What `enQ` and `deQ` do to the list of a queue and to its counter. -/
theorem counter_enQ {q q' : queue w capsula} (h : ∃ xs, Holds q xs) {a : Addr} (ha : a ∉ q.heap) {capsul : capsula}
    (he : enQ q a capsul = some q') : linked q' = linked q ++ [capsul] ∧ Size q' = Size q + 1 := by
  obtain ⟨xs, hx⟩ := h
  obtain ⟨hx', hsize⟩ := hx.of_enQ ha he
  exact ⟨by rw [hx'.linked_eq, hx.linked_eq], hsize⟩

theorem counter_deQ {q q' : queue w capsula} (h : ∃ xs, Holds q xs) {capsul : capsula}
    (hd : private_deQ q = some (capsul, q')) : linked q = capsul :: linked q' ∧ Size q' = Size q := by
  obtain ⟨xs, hx⟩ := h
  obtain ⟨ys, rfl, hy, hsize⟩ := hx.of_deQ hd
  exact ⟨by rw [hy.linked_eq, hx.linked_eq], hsize⟩

/-- What goes into a queue is counted by its counter. -/
theorem Counted.add {c fd : Nat} (h : Counted s c fd) (k3 k2 : Nat)
    (h3 : Size (s'.queues (2 * c + 1)) = Size (s.queues (2 * c + 1)) + BitVec.ofNat w k3)
    (n3 : s'.enqueued_q3 c fd = s.enqueued_q3 c fd + k3)
    (h2 : Size (s'.queues (2 * c)) = Size (s.queues (2 * c)) + BitVec.ofNat w k2)
    (n2 : s'.enqueued_q2 c fd = s.enqueued_q2 c fd + k2) : Counted s' c fd := by
  obtain ⟨h3', h2'⟩ := h
  exact ⟨by rw [h3, h3', n3, BitVec.ofNat_add], by rw [h2, h2', n2, BitVec.ofNat_add]⟩

/-- A step of one of a connection's threads at one of its queues leaves the other
connections as they are. -/
theorem counted_other {c t k c' fd : Nat} {th : Thread} {q : queue w capsula} (h : Counted s c' fd) (hc : c' ≠ c)
    (ht : t / 3 = c) (hk : k / 2 = c) : Counted ((s.goto t th).setQ k q) c' fd := by
  refine h.congr ?_ ?_ (fun r hr => Function.update_of_ne (by omega) _ _) rfl
  · simp only [State.goto, State.setQ, Function.update_of_ne (show 3 * c' + 1 ≠ t by omega)]
  · simp only [State.goto, State.setQ, Function.update_of_ne (show 3 * c' + 2 ≠ t by omega)]

theorem counted_listen_enQ (h : Flowing s) {t a q : Nat} {caps capsul : capsula} {q' : queue w capsula}
    (ht : s.threads t = some (.listenAO caps (.enQ capsul))) (hq : caps.q_send = some q)
    (ha : a ∉ (s.queues q).heap) (he : enQ (s.queues q) a capsul = some q') :
    ∀ c fd, s.conns[c]? = some fd → Counted ((s.goto t (.listenAO caps .recv)).setQ q q') c fd := by
  obtain ⟨hlinked, hsize⟩ := counter_enQ (h.inv.holds q) ha he
  intro c' fd' hc'
  cases h.inv.wired t _ ht with
  | @listenAO c fd pc hc =>
    obtain rfl : 2 * c = q := Option.some.inj hq
    by_cases hcc : c' = c
    · subst hcc
      apply (h.counted c' fd' hc').add 0 1
      · simp [State.goto, State.setQ]
      · simp [State.enqueued_q3, State.goto, State.setQ]
      · simp [State.goto, State.setQ, hsize]
      · simp [State.enqueued_q2, State.enqueued_q3, State.goto, State.setQ, hlinked, ← Nat.add_assoc]
    · exact counted_other (h.counted c' fd' hc') hcc (by omega) (by omega)

theorem counted_deQ (h : Flowing s) {t : Nat} {funq : arg_functions_queue} {capsul : capsula} {q' : queue w capsula}
    (ht : s.threads t = some (.ao_func funq .deQ)) (hd : private_deQ (s.queues funq.q) = some (capsul, q')) :
    ∀ c fd, s.conns[c]? = some fd → Counted ((s.goto t (.ao_func funq (.before capsul))).setQ funq.q q') c fd := by
  obtain ⟨hlinked, hsize⟩ := counter_deQ (h.inv.holds funq.q) hd
  intro c' fd' hc'
  cases h.inv.wired t _ ht with
  | @convert c fd pc hc =>
    by_cases hcc : c' = c
    · subst hcc
      simp only at hlinked hsize
      apply (h.counted c' fd' hc').add 0 0
      · simp [State.goto, State.setQ]
      · simp [State.enqueued_q3, State.goto, State.setQ]
      · simp [State.goto, State.setQ, hsize]
      · simp [State.enqueued_q2, State.enqueued_q3, State.goto, State.setQ, ht, hlinked, load]; omega
    · exact counted_other (h.counted c' fd' hc') hcc (by omega) (by simp only; omega)
  | @caesar c fd pc hc =>
    by_cases hcc : c' = c
    · subst hcc
      simp only at hlinked hsize
      have n3 : ((s.goto (3 * c' + 2) (.ao_func ⟨2 * c' + 1, .caesar_cipher_1, .send_message⟩ (.before capsul))).setQ
          (2 * c' + 1) q').enqueued_q3 c' fd' = s.enqueued_q3 c' fd' := by
        simp [State.enqueued_q3, State.goto, State.setQ, ht, hlinked, load]; omega
      refine (h.counted c' fd' hc').add 0 0 ?_ n3 ?_ ?_
      · simp [State.goto, State.setQ, hsize]
      · simp [State.goto, State.setQ]
      · unfold State.enqueued_q2
        rw [n3]
        simp [State.goto, State.setQ]
    · exact counted_other (h.counted c' fd' hc') hcc (by omega) (by simp only; omega)

theorem counted_insert (h : Flowing s) {t a : Nat} {funq : arg_functions_queue} {capsul : capsula}
    {q' : queue w capsula} (ht : s.threads t = some (.ao_func funq (.after capsul)))
    (hf : funq.after_func = .insert_to_queue) (ha : a ∉ (s.queues capsul.q).heap)
    (he : enQ (s.queues capsul.q) a capsul = some q') :
    ∀ c fd, s.conns[c]? = some fd → Counted ((s.goto t (.ao_func funq .deQ)).setQ capsul.q q') c fd := by
  obtain ⟨hlinked, hsize⟩ := counter_enQ (h.inv.holds capsul.q) ha he
  intro c' fd' hc'
  cases h.inv.wired t _ ht with
  | @convert c fd pc hc =>
    have hq : capsul.q = 2 * c + 1 := (h.inv.belongs c (capsul, fromCaesar) (by
      simp [contents, ht, load, AfterFunc.rest])).1
    rw [hq] at hlinked hsize ⊢
    by_cases hcc : c' = c
    · subst hcc
      have n3 : ((s.goto (3 * c' + 1) (.ao_func ⟨2 * c', .convert_opposite_case_letters, .insert_to_queue⟩ .deQ)).setQ
          (2 * c' + 1) q').enqueued_q3 c' fd' = s.enqueued_q3 c' fd' + 1 := by
        simp [State.enqueued_q3, State.goto, State.setQ, hlinked]; omega
      refine (h.counted c' fd' hc').add 1 0 ?_ n3 ?_ ?_
      · simp [State.goto, State.setQ, hsize]
      · simp [State.goto, State.setQ]
      · unfold State.enqueued_q2
        rw [n3]
        simp [State.goto, State.setQ, ht, load]
    · exact counted_other (h.counted c' fd' hc') hcc (by omega) (by omega)
  | caesar => cases hf

theorem counted_send (h : Flowing s) {t : Nat} {funq : arg_functions_queue} {capsul : capsula} {bytes : List Byte}
    (ht : s.threads t = some (.ao_func funq (.after capsul))) (hf : funq.after_func = .send_message) :
    ∀ c fd, s.conns[c]? = some fd → Counted { s.goto t (.ao_func funq .deQ) with
      sent := Function.update s.sent capsul.socket (s.sent capsul.socket ++ [bytes]) } c fd := by
  intro c' fd' hc'
  cases h.inv.wired t _ ht with
  | convert => cases hf
  | @caesar c fd pc hc =>
    have hfd : s.conns[c]? = some capsul.socket := sends_of h.inv (by omega) ht hf
    by_cases hcc : c' = c
    · subst hcc
      obtain rfl : capsul.socket = fd' := Option.some.inj (hfd.symm.trans hc')
      apply (h.counted c' _ hc').add 0 0
      · simp [State.goto]
      · simp [State.enqueued_q3, State.goto, ht, load]
      · simp [State.goto]
      · simp [State.enqueued_q2, State.enqueued_q3, State.goto, ht, load]
    · have hne : fd' ≠ capsul.socket := by
        rintro rfl
        exact hcc ((List.getElem?_inj (List.getElem?_eq_some_iff.1 hc').1 h.inv.nodup).1 (hc'.trans hfd.symm))
      refine (h.counted c' fd' hc').congr ?_ ?_ (fun _ _ => rfl) (Function.update_of_ne hne _ _)
      · simp only [State.goto, Function.update_of_ne (show 3 * c' + 1 ≠ 3 * c + 2 by omega)]
      · simp only [State.goto, Function.update_of_ne (show 3 * c' + 2 ≠ 3 * c + 2 by omega)]

/-- A new connection has new queues, and nothing has gone through them. -/
theorem counted_accept (h : Flowing s) (ha : s.main = .accept) {new_fd : Nat} (hfd : new_fd ∉ s.conns) :
    ∀ c fd, (s.conns ++ [new_fd])[c]? = some fd → Counted { s with
      main := .new_listenAO new_fd s.nqueues (s.nqueues + 1)
      conns := s.conns ++ [new_fd]
      queues := Function.update (Function.update s.queues s.nqueues (createQ w capsula)) (s.nqueues + 1)
        (createQ w capsula)
      nqueues := s.nqueues + 2 } c fd := by
  obtain ⟨hq, hm⟩ := h.inv.main
  rw [ha] at hm
  intro c fd hc
  have hlt := (List.getElem?_eq_some_iff.1 hc).1
  rw [List.length_append, List.length_singleton] at hlt
  by_cases hcl : c < s.conns.length
  · rw [List.getElem?_append_left hcl] at hc
    exact (h.counted c fd hc).congr rfl rfl
      (fun r hr => (Function.update_of_ne (by omega) _ _).trans (Function.update_of_ne (by omega) _ _)) rfl
  · obtain rfl : c = s.conns.length := by omega
    obtain rfl : new_fd = fd := by simpa using hc
    have hnone : ∀ r, s.threads (3 * s.conns.length + r) = none := fun r => h.inv.unborn _ (by simp only at hm; omega)
    unfold Counted State.enqueued_q2 State.enqueued_q3
    have hsize : Size (createQ w capsula) = 0#w := rfl
    simp [hq, hnone, load, linked_createQ, (h.inv.silent new_fd hfd).1, hsize]

theorem counted_step (h : Flowing s) (hs : Step s e s') : ∀ c fd, s'.conns[c]? = some fd → Counted s' c fd := by
  have hunborn : load (s.threads s.nthreads) = [] := by rw [h.inv.unborn _ (Nat.le_refl _)]; rfl
  cases hs with
  | accept_fails => exact h.counted
  | accept ha hfd => exact counted_accept h ha hfd
  | new_listenAO | new_AO_convert | new_AO_caesar => exact counted_goto h.counted rfl (by rw [hunborn]; rfl) rfl rfl rfl
  | @recv t caps junk data ht =>
    -- the first thread's load is not in the queues yet
    intro c' fd' hc'
    cases h.inv.wired t _ ht with
    | @listenAO c fd pc hc =>
      refine (h.counted c' fd' hc').congr ?_ ?_ (fun _ _ => rfl) rfl
      · simp only [State.goto, Function.update_of_ne (show 3 * c' + 1 ≠ 3 * c by omega)]
      · simp only [State.goto, Function.update_of_ne (show 3 * c' + 2 ≠ 3 * c by omega)]
  | listen_enQ ht hq ha he => exact counted_listen_enQ h ht hq ha he
  | deQ ht _ hd => exact counted_deQ h ht hd
  | recv_fails ht | before ht | before_undefined ht | loop ht | leave ht | send_undefined ht =>
    exact counted_goto h.counted rfl (by rw [ht]; rfl) rfl rfl rfl
  | insert_to_queue ht hf ha he => exact counted_insert h ht hf ha he
  | send_message ht hf => exact counted_send h ht hf

theorem flowing_step (h : Flowing s) (hs : Step s e s') (he : e.Ended) : Flowing s' :=
  ⟨inv_step h.inv hs, ended_step h hs he, loops_step h.inv h.loops hs, defined_step h.inv h.nul h.defined hs,
    born_step h hs, counted_step h hs⟩

theorem reachable_flowing (h : ((server w).under Event.Ended).Reachable s) : Flowing s := by
  refine h.under_inv (P := Flowing) ?_ fun s e s' => flowing_step
  rintro s ⟨buffers, rfl⟩
  exact ⟨inv_start buffers, fun b hb => (by cases hb), fun t funq capsul i n ht => (by cases ht),
    fun t funq capsul ht => (by cases ht), fun t ht => (by cases ht), fun c fd hc => (by simp [start] at hc)⟩

/-! ## Moving on -/

/-- Steps a stage has before it until it is done with its capsula. A string is
no longer than its buffer, which bounds the loop. -/
def AoPc.work : AoPc → Nat
  | .deQ | .undefined _ => 0
  | .before _ => 1027
  | .loop _ i n => 2 + (n - i)
  | .after _ => 1

def stageWork : Option Thread → Nat
  | some (.ao_func _ pc) => pc.work
  | _ => 0

def mainWork : MainPc → Nat
  | .accept => 0
  | .new_AO_caesar _ => 1
  | .new_AO_convert _ _ => 2
  | .new_listenAO _ _ _ => 3

/-- Steps until connection `c` has nothing on its way: a capsula in the third
queue is one step further away than one before the third thread's loop, and so
on back to the first thread. -/
def State.work (s : State w) (c : Nat) : Nat :=
  mainWork s.main + stageWork (s.threads (3 * c + 2)) + 1028 * (linked (s.queues (2 * c + 1))).length +
    (stageWork (s.threads (3 * c + 1)) + 1028 * (load (s.threads (3 * c + 1))).length) +
    2056 * (linked (s.queues (2 * c))).length + 2057 * (load (s.threads (3 * c))).length

/-- A step of `main` for a new connection, or of the threads of connection `c`
with what they have. -/
def Event.Of (c : Nat) : Event → Prop
  | .create => True
  | .enQ t _ | .deQ t | .stage t | .send t => t / 3 = c
  | _ => False

/-- Such a step receives nothing and accepts nobody. -/
theorem of_frame (hs : Step s e s') {c : Nat} (he : e.Of c) :
    e.Ended ∧ s'.conns = s.conns ∧ s'.received = s.received := by
  cases hs with
  | accept_fails | accept | recv | recv_fails => exact absurd he id
  | _ => exact ⟨trivial, rfl, rfl⟩

/-- Inside a stage there is a step to take. -/
theorem stage_moves (h : Flowing s) {t : Nat} {funq : arg_functions_queue} {pc : AoPc}
    (ht : s.threads t = some (.ao_func funq pc)) (hdeQ : pc ≠ .deQ) (hafter : ∀ capsul, pc ≠ .after capsul) :
    ∃ pc' buffers, Step s (.stage t) { s.goto t (.ao_func funq pc') with buffers } ∧ pc'.work < pc.work ∧
      (load (some (.ao_func funq pc'))).length = 1 ∧ (load (some (.ao_func funq pc))).length = 1 := by
  cases pc with
  | deQ => exact absurd rfl hdeQ
  | after capsul => exact absurd rfl (hafter capsul)
  | undefined capsul => exact absurd ht (h.defined t funq capsul)
  | before capsul =>
    obtain ⟨b, hb, hbuf⟩ := load_buffer h.inv ht _ (List.mem_singleton.2 rfl)
    obtain ⟨n, hle, hn⟩ := h.ended b hb
    refine ⟨.loop capsul 0 n, s.buffers, .before ht hbuf hn, ?_, rfl, rfl⟩
    simp only [AoPc.work]
    omega
  | loop capsul i n =>
    obtain ⟨b, hb, hbuf⟩ := load_buffer h.inv ht _ (List.mem_singleton.2 rfl)
    by_cases hi : i < n
    · refine ⟨.loop capsul (i + 1) n, _, .loop ht hi hbuf, ?_, rfl, rfl⟩
      simp only [AoPc.work]
      omega
    · refine ⟨.after capsul, s.buffers, .leave ht hi, ?_, rfl, rfl⟩
      simp only [AoPc.work]
      omega

/-- A queue whose counter has not wrapped gives out what it holds. -/
theorem deQ_moves (h : Flowing s) {t m : Nat} {funq : arg_functions_queue}
    (ht : s.threads t = some (.ao_func funq .deQ)) (hne : linked (s.queues funq.q) ≠ [])
    (hsize : Size (s.queues funq.q) = BitVec.ofNat w m) (hle : (linked (s.queues funq.q)).length ≤ m) (hm : m < 2 ^ w) :
    ∃ capsul q', Step s (.deQ t) ((s.goto t (.ao_func funq (.before capsul))).setQ funq.q q') ∧
      (linked (s.queues funq.q)).length = (linked q').length + 1 := by
  obtain ⟨xs, hx⟩ := h.inv.holds funq.q
  rw [hx.linked_eq] at hne hle
  cases xs with
  | nil => exact absurd rfl hne
  | cons capsul xs =>
    obtain ⟨q', hd, hx', -⟩ := private_deQ_spec hx
    refine ⟨capsul, q', .deQ ht (not_blocked hx fun h0 => ?_) hd, by rw [hx.linked_eq, hx'.linked_eq]; rfl⟩
    have hz := congrArg BitVec.toNat (hsize.symm.trans h0)
    rw [BitVec.toNat_ofNat, Nat.mod_eq_of_lt hm, BitVec.toNat_zero] at hz
    simp only [List.length_cons] at hle
    omega

theorem Wired.cases {conns : List Nat} {t : Nat} {th : Thread} (h : Wired conns t th) : ∃ c fd, conns[c]? = some fd ∧
    ((t = 3 * c ∧ ∃ pc, th = .listenAO ⟨2 * c + 1, none, fd, some (2 * c)⟩ pc) ∨
     (t = 3 * c + 1 ∧ ∃ pc, th = .ao_func ⟨2 * c, .convert_opposite_case_letters, .insert_to_queue⟩ pc) ∨
     (t = 3 * c + 2 ∧ ∃ pc, th = .ao_func ⟨2 * c + 1, .caesar_cipher_1, .send_message⟩ pc)) := by
  cases h with
  | @listenAO c fd pc hc => exact ⟨c, fd, hc, .inl ⟨rfl, pc, rfl⟩⟩
  | @convert c fd pc hc => exact ⟨c, fd, hc, .inr (.inl ⟨rfl, pc, rfl⟩)⟩
  | @caesar c fd pc hc => exact ⟨c, fd, hc, .inr (.inr ⟨rfl, pc, rfl⟩)⟩

/-- When `main` is done with it, a connection has its three threads. -/
theorem threads_of (h : Flowing s) (ha : s.main = .accept) {c fd : Nat} (hc : s.conns[c]? = some fd) :
    (∃ pc, s.threads (3 * c) = some (.listenAO ⟨2 * c + 1, none, fd, some (2 * c)⟩ pc)) ∧
    (∃ pc, s.threads (3 * c + 1) = some (.ao_func ⟨2 * c, .convert_opposite_case_letters, .insert_to_queue⟩ pc)) ∧
    ∃ pc, s.threads (3 * c + 2) = some (.ao_func ⟨2 * c + 1, .caesar_cipher_1, .send_message⟩ pc) := by
  obtain ⟨-, hm⟩ := h.inv.main
  rw [ha] at hm
  have hlt := (List.getElem?_eq_some_iff.1 hc).1
  have hthread : ∀ r < 3, ∃ th, s.threads (3 * c + r) = some th := fun r hr =>
    Option.ne_none_iff_exists'.1 (h.born _ (by simp only at hm; omega))
  refine ⟨?_, ?_, ?_⟩
  · obtain ⟨th, hth⟩ := hthread 0 (by omega)
    obtain ⟨c', fd', hc', ⟨he, pc, rfl⟩ | ⟨he, -⟩ | ⟨he, -⟩⟩ := (h.inv.wired _ th hth).cases
    · obtain rfl : c' = c := by omega
      obtain rfl := Option.some.inj (hc.symm.trans hc')
      exact ⟨pc, hth⟩
    · omega
    · omega
  · obtain ⟨th, hth⟩ := hthread 1 (by omega)
    obtain ⟨c', fd', hc', ⟨he, -⟩ | ⟨he, pc, rfl⟩ | ⟨he, -⟩⟩ := (h.inv.wired _ th hth).cases
    · omega
    · obtain rfl : c' = c := by omega
      exact ⟨pc, hth⟩
    · omega
  · obtain ⟨th, hth⟩ := hthread 2 (by omega)
    obtain ⟨c', fd', hc', ⟨he, -⟩ | ⟨he, -⟩ | ⟨he, pc, rfl⟩⟩ := (h.inv.wired _ th hth).cases
    · omega
    · omega
    · obtain rfl : c' = c := by omega
      exact ⟨pc, hth⟩

/-- What has gone through the queues has been received. -/
theorem enqueued_le (h : Inv s) {c fd : Nat} (hc : s.conns[c]? = some fd) :
    s.enqueued_q2 c fd ≤ (s.received fd).length := by
  have hlen := congrArg List.length (h.balanced_at hc)
  simp only [List.length_append, List.length_map, State.contents, contents, queued] at hlen
  unfold State.enqueued_q2 State.enqueued_q3
  omega

/-- `main` can start the next thread. -/
theorem create_moves (h : Flowing s) (ha : s.main ≠ .accept) (c : Nat) :
    ∃ s', Step s .create s' ∧ s'.work c < s.work c := by
  have hunborn : s.threads s.nthreads = none := h.inv.unborn _ (Nat.le_refl _)
  -- the new thread has nothing to do yet
  have hwork : ∀ {th main}, stageWork (some th) = 0 → load (some th) = [] → mainWork main < mainWork s.main →
      (s.create th main).work c < s.work c := by
    intro th main hth hl hlt
    have hstage : ∀ t, stageWork (Function.update s.threads s.nthreads (some th) t) = stageWork (s.threads t) := by
      intro t
      by_cases ht : t = s.nthreads
      · subst ht; rw [Function.update_self, hth, hunborn]; rfl
      · rw [Function.update_of_ne ht]
    have hload : ∀ t, load (Function.update s.threads s.nthreads (some th) t) = load (s.threads t) := by
      intro t
      by_cases ht : t = s.nthreads
      · subst ht; rw [Function.update_self, hl, hunborn]; rfl
      · rw [Function.update_of_ne ht]
    simp only [State.work, State.create, hstage, hload]
    omega
  cases hm : s.main with
  | accept => exact absurd hm ha
  | new_listenAO new_fd q2 q3 => exact ⟨_, .new_listenAO hm, hwork rfl rfl (by rw [hm]; simp [mainWork])⟩
  | new_AO_convert q2 q3 => exact ⟨_, .new_AO_convert hm, hwork rfl rfl (by rw [hm]; simp [mainWork])⟩
  | new_AO_caesar q3 => exact ⟨_, .new_AO_caesar hm, hwork rfl rfl (by rw [hm]; simp [mainWork])⟩

/-- The third thread can go on with what it has in hand or its queue holds. -/
theorem caesar_moves (h : Flowing s) {c fd : Nat} (hc : s.conns[c]? = some fd) (hlt : (s.received fd).length < 2 ^ w)
    {pc : AoPc} (ht : s.threads (3 * c + 2) = some (.ao_func ⟨2 * c + 1, .caesar_cipher_1, .send_message⟩ pc))
    (hd : pc = .deQ → linked (s.queues (2 * c + 1)) ≠ []) : ∃ e s', Step s e s' ∧ e.Of c ∧ s'.work c < s.work c := by
  by_cases hdeQ : pc = .deQ
  · subst hdeQ
    have hle := enqueued_le h.inv hc
    obtain ⟨capsul, q', hs, hlen⟩ := deQ_moves h ht (hd rfl) (h.counted c fd hc).1
      (Nat.le_add_left _ _) (by unfold State.enqueued_q2 at hle; omega)
    refine ⟨_, _, hs, show (3 * c + 2) / 3 = c by omega, ?_⟩
    simp only at hlen
    simp [State.work, State.goto, State.setQ, ht, hlen, stageWork, AoPc.work]
    omega
  by_cases hafter : ∃ capsul, pc = .after capsul
  · obtain ⟨capsul, rfl⟩ := hafter
    obtain ⟨b, hb, hbuf⟩ := load_buffer h.inv ht _ (List.mem_singleton.2 rfl)
    obtain ⟨n, -, hn⟩ := h.ended b hb
    refine ⟨_, _, .send_message ht rfl hbuf (by rw [Text.send_message, hn]; rfl), show (3 * c + 2) / 3 = c by omega, ?_⟩
    simp [State.work, State.goto, ht, stageWork, AoPc.work]
  · obtain ⟨pc', buffers, hs, hwork, -, -⟩ := stage_moves h ht hdeQ fun capsul he => hafter ⟨capsul, he⟩
    refine ⟨_, _, hs, show (3 * c + 2) / 3 = c by omega, ?_⟩
    simp [State.work, State.goto, ht, stageWork]
    omega

/-- The second thread can go on with what it has in hand or its queue holds. -/
theorem convert_moves (h : Flowing s) {c fd : Nat} (hc : s.conns[c]? = some fd)
    (hlt : (s.received fd).length < 2 ^ w) {pc : AoPc}
    (ht : s.threads (3 * c + 1) = some (.ao_func ⟨2 * c, .convert_opposite_case_letters, .insert_to_queue⟩ pc))
    (hd : pc = .deQ → linked (s.queues (2 * c)) ≠ []) : ∃ e s', Step s e s' ∧ e.Of c ∧ s'.work c < s.work c := by
  by_cases hdeQ : pc = .deQ
  · subst hdeQ
    have hle := enqueued_le h.inv hc
    obtain ⟨capsul, q', hs, hlen⟩ := deQ_moves h ht (hd rfl) (h.counted c fd hc).2
      (Nat.le_add_left _ _) (by omega)
    refine ⟨_, _, hs, show (3 * c + 1) / 3 = c by omega, ?_⟩
    simp only at hlen
    simp [State.work, State.goto, State.setQ, ht, hlen, stageWork, AoPc.work, load]
    omega
  by_cases hafter : ∃ capsul, pc = .after capsul
  · obtain ⟨capsul, rfl⟩ := hafter
    have hq : capsul.q = 2 * c + 1 := (h.inv.belongs c (capsul, fromCaesar) (by
      simp [contents, ht, load, AfterFunc.rest])).1
    obtain ⟨xs, hx⟩ := h.inv.holds capsul.q
    obtain ⟨a, q', ha, he⟩ := hx.exists_enQ capsul
    obtain ⟨hlinked, -⟩ := counter_enQ ⟨xs, hx⟩ ha he
    refine ⟨_, _, .insert_to_queue ht rfl ha he, show (3 * c + 1) / 3 = c by omega, ?_⟩
    rw [hq] at hlinked ⊢
    simp [State.work, State.goto, State.setQ, ht, hlinked, stageWork, AoPc.work, load]
    omega
  · obtain ⟨pc', buffers, hs, hwork, hl', hl⟩ := stage_moves h ht hdeQ fun capsul he => hafter ⟨capsul, he⟩
    refine ⟨_, _, hs, show (3 * c + 1) / 3 = c by omega, ?_⟩
    simp [State.work, State.goto, ht, stageWork, hl, hl']
    omega

/-- The first thread can put what it has received into its queue. -/
theorem listen_moves (h : Flowing s) {c fd : Nat} {capsul : capsula}
    (ht : s.threads (3 * c) = some (.listenAO ⟨2 * c + 1, none, fd, some (2 * c)⟩ (.enQ capsul))) :
    ∃ e s', Step s e s' ∧ e.Of c ∧ s'.work c < s.work c := by
  obtain ⟨xs, hx⟩ := h.inv.holds (2 * c)
  obtain ⟨a, q', ha, he⟩ := hx.exists_enQ capsul
  obtain ⟨hlinked, -⟩ := counter_enQ ⟨xs, hx⟩ ha he
  refine ⟨_, _, .listen_enQ ht rfl ha he, show (3 * c) / 3 = c by omega, ?_⟩
  simp [State.work, State.goto, State.setQ, ht, hlinked, load]
  omega

/-- As long as a connection has something on its way, there is a step to take with it. -/
theorem moves (h : Flowing s) {c fd : Nat} (hc : s.conns[c]? = some fd) (hlt : (s.received fd).length < 2 ^ w)
    (hd : ¬ (s.main = .accept ∧ s.contents c = [])) : ∃ e s', Step s e s' ∧ e.Of c ∧ s'.work c < s.work c := by
  by_cases ha : s.main = .accept
  case neg =>
    obtain ⟨s', hs, hwork⟩ := create_moves h ha c
    exact ⟨_, s', hs, trivial, hwork⟩
  obtain ⟨⟨pc1, ht1⟩, ⟨pc2, ht2⟩, ⟨pc3, ht3⟩⟩ := threads_of h ha hc
  by_cases h3 : pc3 = .deQ → linked (s.queues (2 * c + 1)) ≠ []
  · exact caesar_moves h hc hlt ht3 h3
  by_cases h2 : pc2 = .deQ → linked (s.queues (2 * c)) ≠ []
  · exact convert_moves h hc hlt ht2 h2
  -- the last two threads wait at an empty queue
  simp only [ne_eq, Classical.not_imp, not_not] at h3 h2
  obtain ⟨rfl, hq3⟩ := h3
  obtain ⟨rfl, hq2⟩ := h2
  cases pc1 with
  | enQ capsul => exact listen_moves h ht1
  | recv => exact absurd ⟨ha, by simp [State.contents, contents, queued, ht1, ht2, ht3, hq2, hq3, load]⟩ hd
  | returned => exact absurd ⟨ha, by simp [State.contents, contents, queued, ht1, ht2, ht3, hq2, hq3, load]⟩ hd

/-- Once nothing is on its way, what was received is answered. -/
theorem sent_of_done (h : Flowing s) {c fd : Nat} (hc : s.conns[c]? = some fd) (hd : s.contents c = [])
    (hnul : ∀ r ∈ s.received fd, NUL ∈ overwrite r.1 r.2) : s.sent fd = (s.received fd).map answer := by
  have hb := h.inv.balanced_as hc fun r hr => respond_spec (hnul r hr)
  rw [hd, List.map_nil, List.append_nil] at hb
  exact (Option.some_injective _).list_map hb

end Ex6.Pipeline
