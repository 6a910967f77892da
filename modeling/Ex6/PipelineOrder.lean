import Ex6.Lib.Line
import Ex6.Pipeline
/-!
# The pipeline loses, repeats and reorders nothing

Connection number `c` has queues `2 * c` and `2 * c + 1` and threads `3 * c` to
`3 * c + 2`, wired by `main`. Its threads and queues are a line of workers over
the buffers, and the invariant says that the lines are balanced: what was sent
on a connection, followed by what will be made of what is on its way, is what
the stages make of each buffer received on it, in order.
-/
open Lib Lib.CString Ex6.Queue Ex6.Text

namespace Ex6.Pipeline
variable {w : Nat} {s s' : State w} {e : Event}

/-- A thread is one of its connection's three, with the queues of that connection. -/
inductive Wired (conns : List Nat) : Nat → Thread → Prop
  | listenAO {c fd pc} : conns[c]? = some fd →
      Wired conns (3 * c) (.listenAO ⟨2 * c + 1, none, fd, some (2 * c)⟩ pc)
  | convert {c fd pc} : conns[c]? = some fd →
      Wired conns (3 * c + 1) (.ao_func ⟨2 * c, .convert_opposite_case_letters, .insert_to_queue⟩ pc)
  | caesar {c fd pc} : conns[c]? = some fd →
      Wired conns (3 * c + 2) (.ao_func ⟨2 * c + 1, .caesar_cipher_1, .send_message⟩ pc)

/-- How far `main` has come with the last connection. -/
def MainInv (s : State w) : Prop :=
  s.nqueues = 2 * s.conns.length ∧
  match s.main with
  | .accept => s.nthreads = 3 * s.conns.length
  | .new_listenAO fd q2 q3 =>
    ∃ n, s.conns.length = n + 1 ∧ s.conns[n]? = some fd ∧ q2 = 2 * n ∧ q3 = 2 * n + 1 ∧ s.nthreads = 3 * n
  | .new_AO_convert q2 q3 => ∃ n, s.conns.length = n + 1 ∧ q2 = 2 * n ∧ q3 = 2 * n + 1 ∧ s.nthreads = 3 * n + 1
  | .new_AO_caesar q3 => ∃ n, s.conns.length = n + 1 ∧ q3 = 2 * n + 1 ∧ s.nthreads = 3 * n + 2

/-- A capsula on its way along connection `c`. -/
def Belongs (s : State w) (c : Nat) (capsul : capsula) : Prop :=
  capsul.q = 2 * c + 1 ∧ s.conns[c]? = some capsul.socket ∧ ∃ b < s.nbuffers, capsul.buffer = some b

def State.items (s : State w) (c : Nat) : List (Item (Option Nat) (List Byte) (Option (List Byte))) :=
  (contents s.threads s.queues c).map fun x => ⟨x.1.buffer, x.2⟩

def State.out (s : State w) (c : Nat) : List (Option (List Byte)) :=
  match s.conns[c]? with
  | some fd => (s.sent fd).map some
  | none => []

def State.due (s : State w) (c : Nat) : List (Option (List Byte)) :=
  match s.conns[c]? with
  | some fd => (s.received fd).map fun r => respond (overwrite r.1 r.2)
  | none => []

structure Inv (s : State w) : Prop where
  main : MainInv s
  wired : ∀ t th, s.threads t = some th → Wired s.conns t th
  unborn : ∀ t, s.nthreads ≤ t → s.threads t = none
  nodup : s.conns.Nodup
  holds : ∀ k, ∃ xs, Holds (s.queues k) xs
  belongs : ∀ c, ∀ x ∈ contents s.threads s.queues c, Belongs s c x.1
  silent : ∀ fd, fd ∉ s.conns → s.sent fd = [] ∧ s.received fd = []
  balanced : Balanced (deref s.buffers) s.items s.out s.due

theorem linked_createQ : linked (createQ w capsula) = [] := holds_createQ.linked_eq

theorem inv_start (buffers : Nat → List Byte) : Inv (start buffers : State w) where
  main := ⟨rfl, rfl⟩
  wired t th h := by cases h
  unborn _ _ := rfl
  nodup := List.nodup_nil
  holds _ := ⟨[], holds_createQ⟩
  belongs c x hx := by simp [contents, start, load, queued, linked_createQ] at hx
  silent _ _ := ⟨rfl, rfl⟩
  balanced := by
    have hi : (start buffers : State w).items = fun _ => [] := by
      funext c
      simp [State.items, contents, start, load, queued, linked_createQ]
    rw [hi]
    exact Balanced.empty _

/-! ## Where a step shows on the lines -/

/-- The line of a connection depends on its own threads and queues. -/
theorem contents_congr {threads threads' : Nat → Option Thread} {queues queues' : Nat → queue w capsula} {c : Nat}
    (ht : ∀ r < 3, threads' (3 * c + r) = threads (3 * c + r))
    (hq : ∀ r < 2, queues' (2 * c + r) = queues (2 * c + r)) :
    contents threads' queues' c = contents threads queues c := by
  unfold contents
  rw [ht 2 (by omega), ht 1 (by omega), hq 1 (by omega)]
  have h0 := ht 0 (by omega)
  have h0' := hq 0 (by omega)
  simp only [Nat.add_zero] at h0 h0'
  rw [h0, h0']

/-- Where a thread's load is on its connection's line. -/
theorem contents_at {t : Nat} {th : Thread} (hw : Wired s.conns t th) : ∃ c, (∃ fd, s.conns[c]? = some fd) ∧
    (∃ front back, ∀ th', contents (Function.update s.threads t th') s.queues c = front ++ load th' ++ back) ∧
    ∀ th' c', c' ≠ c → contents (Function.update s.threads t th') s.queues c' = contents s.threads s.queues c' := by
  have hother : ∀ c r, r < 3 → ∀ th' c', c' ≠ c →
      contents (Function.update s.threads (3 * c + r) th') s.queues c' = contents s.threads s.queues c' := by
    intro c r hr th' c' hc
    exact contents_congr (fun k hk => Function.update_of_ne (by omega) _ _) (fun _ _ => rfl)
  cases hw with
  | @listenAO c fd pc hc =>
    refine ⟨c, ⟨fd, hc⟩, ⟨load (s.threads (3 * c + 2)) ++ queued fromCaesar (s.queues (2 * c + 1)) ++
      load (s.threads (3 * c + 1)) ++ queued respond (s.queues (2 * c)), [], fun th' => ?_⟩, hother c 0 (by omega)⟩
    simp [contents]
  | @convert c fd pc hc =>
    refine ⟨c, ⟨fd, hc⟩, ⟨load (s.threads (3 * c + 2)) ++ queued fromCaesar (s.queues (2 * c + 1)),
      queued respond (s.queues (2 * c)) ++ load (s.threads (3 * c)), fun th' => ?_⟩, hother c 1 (by omega)⟩
    simp [contents]
  | @caesar c fd pc hc =>
    refine ⟨c, ⟨fd, hc⟩, ⟨[], queued fromCaesar (s.queues (2 * c + 1)) ++ load (s.threads (3 * c + 1)) ++
      queued respond (s.queues (2 * c)) ++ load (s.threads (3 * c)), fun th' => ?_⟩, hother c 2 (by omega)⟩
    simp [contents]

/-- `enQ` puts a capsula at the back of its queue, whose first value `deQ` takes. -/
theorem queued_enQ {q q' : queue w capsula} {xs : List capsula} (h : Holds q xs) {a : Addr} (ha : a ∉ q.heap)
    {capsul : capsula} (he : enQ q a capsul = some q') (f : Rest) :
    queued f q' = queued f q ++ [(capsul, f)] ∧ ∃ ys, Holds q' ys := by
  obtain ⟨hx, -⟩ := h.of_enQ ha he
  exact ⟨by simp [queued, hx.linked_eq, h.linked_eq], _, hx⟩

theorem queued_deQ {q q' : queue w capsula} {xs : List capsula} (h : Holds q xs) {capsul : capsula}
    (hd : private_deQ q = some (capsul, q')) (f : Rest) :
    queued f q = (capsul, f) :: queued f q' ∧ ∃ ys, Holds q' ys := by
  obtain ⟨ys, rfl, hy, -⟩ := h.of_deQ hd
  exact ⟨by simp [queued, hy.linked_eq, h.linked_eq], ys, hy⟩

/-! ## The wiring -/

theorem Wired.mono {conns conns' : List Nat} (hc : ∀ c fd : Nat, conns[c]? = some fd → conns'[c]? = some fd)
    {t : Nat} {th : Thread} (h : Wired conns t th) : Wired conns' t th := by
  cases h with
  | listenAO h => exact .listenAO (hc _ _ h)
  | convert h => exact .convert (hc _ _ h)
  | caesar h => exact .caesar (hc _ _ h)

/-- A thread that goes on is wired as before. -/
theorem Wired.goto_listenAO {conns : List Nat} {t : Nat} {caps : capsula} {pc : ListenPc}
    (h : Wired conns t (.listenAO caps pc)) (pc' : ListenPc) : Wired conns t (.listenAO caps pc') := by
  cases h with
  | listenAO h => exact .listenAO h

theorem Wired.goto_ao_func {conns : List Nat} {t : Nat} {funq : arg_functions_queue} {pc : AoPc}
    (h : Wired conns t (.ao_func funq pc)) (pc' : AoPc) : Wired conns t (.ao_func funq pc') := by
  cases h with
  | convert h => exact .convert h
  | caesar h => exact .caesar h

theorem getElem?_of_append {α : Type} {l : List α} {x : α} (c : Nat) (y : α) (h : l[c]? = some y) :
    (l ++ [x])[c]? = some y := by
  rw [List.getElem?_append_left (List.getElem?_eq_some_iff.1 h).1, h]

theorem main_step (h : Inv s) (hs : Step s e s') : MainInv s' := by
  obtain ⟨hq, hm⟩ := h.main
  cases hs with
  | accept ha =>
    rw [ha] at hm
    exact ⟨by simp [hq]; omega, s.conns.length, by simp, by simp, hq, by rw [hq], hm⟩
  | new_listenAO ha =>
    rw [ha] at hm
    obtain ⟨n, hn, -, h2, h3, ht⟩ := hm
    exact ⟨hq, n, hn, h2, h3, by simp [State.create, ht]⟩
  | new_AO_convert ha =>
    rw [ha] at hm
    obtain ⟨n, hn, h2, h3, ht⟩ := hm
    exact ⟨hq, n, hn, h3, by simp [State.create, ht]⟩
  | new_AO_caesar ha =>
    rw [ha] at hm
    obtain ⟨n, hn, h3, ht⟩ := hm
    exact ⟨hq, by simp only [State.create]; omega⟩
  | _ => exact h.main

theorem wired_goto {conns : List Nat} {threads : Nat → Option Thread}
    (h : ∀ t th, threads t = some th → Wired conns t th) {t : Nat} {th : Thread} (hw : Wired conns t th) :
    ∀ u th', Function.update threads t (some th) u = some th' → Wired conns u th' := by
  intro u th' hu
  rcases update_cases hu with ⟨-, hu⟩ | ⟨rfl, hth⟩
  · exact h u th' hu
  · cases hth
    exact hw

theorem wired_step (h : Inv s) (hs : Step s e s') : ∀ t th, s'.threads t = some th → Wired s'.conns t th := by
  cases hs with
  | accept_fails => exact h.wired
  | accept => exact fun t th ht => (h.wired t th ht).mono fun c fd hc => getElem?_of_append c fd hc
  | new_listenAO ha =>
    obtain ⟨-, hm⟩ := h.main
    rw [ha] at hm
    obtain ⟨n, hn, hc, rfl, rfl, ht⟩ := hm
    exact wired_goto h.wired (ht ▸ .listenAO hc)
  | new_AO_convert ha =>
    obtain ⟨-, hm⟩ := h.main
    rw [ha] at hm
    obtain ⟨n, hn, rfl, rfl, ht⟩ := hm
    exact wired_goto h.wired (ht ▸ .convert (List.getElem?_eq_getElem (show n < s.conns.length by omega)))
  | new_AO_caesar ha =>
    obtain ⟨-, hm⟩ := h.main
    rw [ha] at hm
    obtain ⟨n, hn, rfl, ht⟩ := hm
    exact wired_goto h.wired (ht ▸ .caesar (List.getElem?_eq_getElem (show n < s.conns.length by omega)))
  | recv ht | recv_fails ht | listen_enQ ht => exact wired_goto h.wired ((h.wired _ _ ht).goto_listenAO _)
  | deQ ht | before ht | before_undefined ht | loop ht | leave ht | insert_to_queue ht | send_message ht
  | send_undefined ht => exact wired_goto h.wired ((h.wired _ _ ht).goto_ao_func _)

theorem unborn_goto {threads : Nat → Option Thread} {n t : Nat} (h : ∀ u, n ≤ u → threads u = none) {th : Thread}
    (ht : threads t = some th) (th' : Thread) : ∀ u, n ≤ u → Function.update threads t (some th') u = none := by
  intro u hu
  have hut : u ≠ t := by rintro rfl; rw [h u hu] at ht; cases ht
  rw [Function.update_of_ne hut, h u hu]

theorem unborn_step (h : Inv s) (hs : Step s e s') : ∀ t, s'.nthreads ≤ t → s'.threads t = none := by
  cases hs with
  | accept_fails | accept => exact h.unborn
  | new_listenAO | new_AO_convert | new_AO_caesar =>
    intro t ht
    simp only [State.create] at ht ⊢
    rw [Function.update_of_ne (by omega), h.unborn t (by omega)]
  | recv ht | recv_fails ht | listen_enQ ht | deQ ht | before ht | before_undefined ht | loop ht | leave ht
  | insert_to_queue ht | send_message ht | send_undefined ht => exact unborn_goto h.unborn ht _

theorem nodup_step (h : Inv s) (hs : Step s e s') : s'.conns.Nodup := by
  cases hs with
  | accept _ hf => exact List.nodup_append.2 ⟨h.nodup, by simp, by simpa using fun a ha => ne_of_mem_of_not_mem ha hf⟩
  | _ => exact h.nodup

theorem holds_update {queues : Nat → queue w capsula} (h : ∀ k, ∃ xs, Holds (queues k) xs) {k : Nat}
    {q : queue w capsula} (hq : ∃ xs, Holds q xs) : ∀ j, ∃ xs, Holds (Function.update queues k q j) xs :=
  (Function.forall_update_iff queues fun _ q => ∃ xs, Holds q xs).2 ⟨hq, fun j _ => h j⟩

theorem holds_step (h : Inv s) (hs : Step s e s') : ∀ k, ∃ xs, Holds (s'.queues k) xs := by
  cases hs with
  | accept => exact holds_update (holds_update h.holds ⟨[], holds_createQ⟩) ⟨[], holds_createQ⟩
  | listen_enQ _ _ ha hq | insert_to_queue _ _ ha hq =>
    obtain ⟨xs, hx⟩ := h.holds _
    exact holds_update h.holds (queued_enQ hx ha hq respond).2
  | deQ _ _ hq =>
    obtain ⟨xs, hx⟩ := h.holds _
    exact holds_update h.holds (queued_deQ hx hq respond).2
  | _ => exact h.holds

/-! ## What a step does to the lines -/

def State.contents (s : State w) (c : Nat) : List (capsula × Rest) := Pipeline.contents s.threads s.queues c

/-- Nothing changes but threads and queues. -/
def SameData (s s' : State w) : Prop :=
  s'.buffers = s.buffers ∧ s'.nbuffers = s.nbuffers ∧ s'.received = s.received ∧ s'.sent = s.sent

inductive Effect (s s' : State w) : Prop
  /-- A new connection, with nothing on its line. -/
  | accept (fd : Nat) (hfd : fd ∉ s.conns) (hconns : s'.conns = s.conns ++ [fd])
      (hc : ∀ c, s'.contents c = s.contents c) (hd : SameData s s')
  /-- A thread or a capsula goes on. -/
  | pass (hconns : s'.conns = s.conns) (hc : ∀ c, s'.contents c = s.contents c) (hd : SameData s s')
  | enter (c fd : Nat) (junk data : List Byte) (hfd : s.conns[c]? = some fd) (hconns : s'.conns = s.conns)
      (hc : s'.contents c = s.contents c ++ [(⟨2 * c + 1, some s.nbuffers, fd, none⟩, respond)])
      (ho : ∀ c', c' ≠ c → s'.contents c' = s.contents c')
      (hb : s'.buffers = Function.update s.buffers s.nbuffers (overwrite junk data)) (hn : s'.nbuffers = s.nbuffers + 1)
      (hr : s'.received = Function.update s.received fd (s.received fd ++ [(junk, data)])) (hs : s'.sent = s.sent)
  | work (c : Nat) (front back : List (capsula × Rest)) (capsul : capsula) (f f' : Rest) (b : Nat)
      (hconns : s'.conns = s.conns) (hc : s.contents c = front ++ (capsul, f) :: back)
      (hc' : s'.contents c = front ++ (capsul, f') :: back) (ho : ∀ c', c' ≠ c → s'.contents c' = s.contents c')
      (hbuf : capsul.buffer = some b) (hf : f' (s'.buffers b) = f (s.buffers b))
      (hb : ∀ k, k ≠ b → s'.buffers k = s.buffers k) (hn : s'.nbuffers = s.nbuffers)
      (hr : s'.received = s.received) (hs : s'.sent = s.sent)
  | deliver (c : Nat) (capsul : capsula) (f : Rest) (b : Nat) (bytes : List Byte) (hconns : s'.conns = s.conns)
      (hc : s.contents c = (capsul, f) :: s'.contents c) (ho : ∀ c', c' ≠ c → s'.contents c' = s.contents c')
      (hbuf : capsul.buffer = some b) (hf : f (s.buffers b) = some bytes) (hb : s'.buffers = s.buffers)
      (hn : s'.nbuffers = s.nbuffers) (hr : s'.received = s.received)
      (hs : s'.sent = Function.update s.sent capsul.socket (s.sent capsul.socket ++ [bytes]))

theorem contents_load_congr {threads threads' : Nat → Option Thread} (queues : Nat → queue w capsula)
    (h : ∀ t, load (threads' t) = load (threads t)) (c : Nat) :
    contents threads' queues c = contents threads queues c := by
  simp only [contents, h]

/-- A thread comes or goes on with the same load. -/
theorem effect_goto {t : Nat} {th : Thread} {s' : State w}
    (hthreads : s'.threads = Function.update s.threads t (some th))
    (hl : load (some th) = load (s.threads t)) (hqueues : s'.queues = s.queues) (hconns : s'.conns = s.conns)
    (hd : SameData s s') : Effect s s' := by
  refine .pass hconns (fun c => ?_) hd
  unfold State.contents
  rw [hthreads, hqueues]
  refine contents_load_congr s.queues (fun u => ?_) c
  by_cases hu : u = t
  · subst hu; rw [Function.update_self, hl]
  · rw [Function.update_of_ne hu]

/-- A thread works on the capsula it has in hand. -/
theorem effect_work (h : Inv s) {t b : Nat} {th th' : Thread} {capsul : capsula} {f f' : Rest} {v : List Byte}
    (ht : s.threads t = some th) (hl : load (some th) = [(capsul, f)]) (hl' : load (some th') = [(capsul, f')])
    (hbuf : capsul.buffer = some b) (hf : f' v = f (s.buffers b)) :
    Effect s { s.goto t th' with buffers := Function.update s.buffers b v } := by
  obtain ⟨c, -, ⟨front, back, hat⟩, ho⟩ := contents_at (h.wired t th ht)
  have hc : s.contents c = front ++ (capsul, f) :: back := by
    have hsame := hat (s.threads t)
    rw [Function.update_eq_self, ht, hl, List.append_assoc] at hsame
    exact hsame
  have hc' : contents (Function.update s.threads t (some th')) s.queues c = front ++ (capsul, f') :: back := by
    rw [hat, hl', List.append_assoc]
    rfl
  refine .work c front back capsul f f' b rfl hc hc' (ho _) hbuf ?_ (fun k hk => Function.update_of_ne hk _ _)
    rfl rfl rfl
  simpa using hf

theorem effect_goto_work (h : Inv s) {t b : Nat} {th th' : Thread} {capsul : capsula} {f f' : Rest}
    (ht : s.threads t = some th) (hl : load (some th) = [(capsul, f)]) (hl' : load (some th') = [(capsul, f')])
    (hbuf : capsul.buffer = some b) (hf : f' (s.buffers b) = f (s.buffers b)) : Effect s (s.goto t th') := by
  have he := effect_work h ht hl hl' hbuf hf
  rwa [Function.update_eq_self] at he

/-- A connection that is not there has nothing on its line. -/
theorem contents_eq_nil (h : Inv s) {c : Nat} (hc : s.conns[c]? = none) : s.contents c = [] := by
  rw [List.eq_nil_iff_forall_not_mem]
  intro x hx
  have hfd := (h.belongs c x hx).2.1
  rw [hc] at hfd
  cases hfd

theorem effect_accept (h : Inv s) (ha : s.main = .accept) {fd : Nat} (hfd : fd ∉ s.conns) :
    Effect s { s with
      main := .new_listenAO fd s.nqueues (s.nqueues + 1)
      conns := s.conns ++ [fd]
      queues := Function.update (Function.update s.queues s.nqueues (createQ w capsula)) (s.nqueues + 1)
        (createQ w capsula)
      nqueues := s.nqueues + 2 } := by
  obtain ⟨hq, hm⟩ := h.main
  rw [ha] at hm
  refine .accept fd hfd rfl (fun c => ?_) ⟨rfl, rfl, rfl, rfl⟩
  by_cases hc : c = s.conns.length
  · -- the new connection's threads are not there and its queues are empty
    subst hc
    have hnone : ∀ r, s.threads (3 * s.conns.length + r) = none := fun r => h.unborn _ (by simp only at hm; omega)
    have h0 := hnone 0
    simp only [Nat.add_zero] at h0
    rw [contents_eq_nil h (by simp)]
    simp [State.contents, contents, hq, hnone, h0, load, queued, linked_createQ]
  · exact contents_congr (fun _ _ => rfl)
      (fun r hr => (Function.update_of_ne (by omega) _ _).trans (Function.update_of_ne (by omega) _ _))

theorem effect_listen_enQ (h : Inv s) {t : Nat} {caps capsul : capsula} {q a : Nat} {q' : queue w capsula}
    (ht : s.threads t = some (.listenAO caps (.enQ capsul))) (hq : caps.q_send = some q)
    (ha : a ∉ (s.queues q).heap) (he : enQ (s.queues q) a capsul = some q') :
    Effect s ((s.goto t (.listenAO caps .recv)).setQ q q') := by
  obtain ⟨xs, hx⟩ := h.holds q
  obtain ⟨hqueued, -⟩ := queued_enQ hx ha he respond
  cases h.wired t _ ht with
  | @listenAO c fd pc hfd =>
    obtain rfl : 2 * c = q := Option.some.inj hq
    refine .pass rfl (fun c' => ?_) ⟨rfl, rfl, rfl, rfl⟩
    by_cases hc : c' = c
    · subst hc
      simp [State.contents, contents, State.goto, State.setQ, ht, load, hqueued]
    · exact contents_congr (fun r hr => Function.update_of_ne (by omega) _ _)
        (fun r hr => Function.update_of_ne (by omega) _ _)

theorem load_deQ (funq : arg_functions_queue) : load (some (.ao_func funq .deQ)) = [] := rfl

/-- The second thread, before it starts, is to do all that is to be done. -/
theorem load_convert (q : Nat) (capsul : capsula) :
    load (some (.ao_func ⟨q, .convert_opposite_case_letters, .insert_to_queue⟩ (.before capsul))) =
      [(capsul, respond)] := rfl

theorem load_caesar (q : Nat) (capsul : capsula) :
    load (some (.ao_func ⟨q, .caesar_cipher_1, .send_message⟩ (.before capsul))) = [(capsul, fromCaesar)] := rfl

theorem effect_deQ (h : Inv s) {t : Nat} {funq : arg_functions_queue} {capsul : capsula} {q' : queue w capsula}
    (ht : s.threads t = some (.ao_func funq .deQ)) (hd : private_deQ (s.queues funq.q) = some (capsul, q')) :
    Effect s ((s.goto t (.ao_func funq (.before capsul))).setQ funq.q q') := by
  obtain ⟨xs, hx⟩ := h.holds funq.q
  have hqueued := fun f => (queued_deQ hx hd f).1
  refine .pass rfl (fun c' => ?_) ⟨rfl, rfl, rfl, rfl⟩
  cases h.wired t _ ht with
  | @convert c fd pc hfd =>
    by_cases hc : c' = c
    · subst hc
      simp [State.contents, contents, State.goto, State.setQ, ht, load_deQ, load_convert, hqueued]
    · exact contents_congr (fun r hr => Function.update_of_ne (by omega) _ _)
        (fun r hr => Function.update_of_ne (by simp only; omega) _ _)
  | @caesar c fd pc hfd =>
    by_cases hc : c' = c
    · subst hc
      simp [State.contents, contents, State.goto, State.setQ, ht, load_deQ, load_caesar, hqueued]
    · exact contents_congr (fun r hr => Function.update_of_ne (by omega) _ _)
        (fun r hr => Function.update_of_ne (by simp only; omega) _ _)

theorem effect_recv (h : Inv s) {t : Nat} {caps : capsula} (junk data : List Byte)
    (ht : s.threads t = some (.listenAO caps .recv)) :
    Effect s { s.goto t (.listenAO caps (.enQ ⟨caps.q, some s.nbuffers, caps.socket, none⟩)) with
      buffers := Function.update s.buffers s.nbuffers (overwrite junk data)
      nbuffers := s.nbuffers + 1
      written := Function.update s.written s.nbuffers data.length
      received := Function.update s.received caps.socket (s.received caps.socket ++ [(junk, data)]) } := by
  cases h.wired t _ ht with
  | @listenAO c fd pc hfd =>
    refine .enter c fd junk data hfd rfl ?_ (fun c' hc => ?_) rfl rfl rfl rfl
    · simp [State.contents, contents, State.goto, ht, load]
    · exact contents_congr (fun r hr => Function.update_of_ne (by omega) _ _) (fun _ _ => rfl)

theorem effect_insert (h : Inv s) {t a : Nat} {funq : arg_functions_queue} {capsul : capsula} {q' : queue w capsula}
    (ht : s.threads t = some (.ao_func funq (.after capsul))) (hf : funq.after_func = .insert_to_queue)
    (ha : a ∉ (s.queues capsul.q).heap) (he : enQ (s.queues capsul.q) a capsul = some q') :
    Effect s ((s.goto t (.ao_func funq .deQ)).setQ capsul.q q') := by
  obtain ⟨xs, hx⟩ := h.holds capsul.q
  obtain ⟨hqueued, -⟩ := queued_enQ hx ha he fromCaesar
  cases h.wired t _ ht with
  | @convert c fd pc hfd =>
    have hq : capsul.q = 2 * c + 1 := (h.belongs c (capsul, fromCaesar) (by
      simp [contents, ht, load, AfterFunc.rest])).1
    rw [hq] at hqueued
    refine .pass rfl (fun c' => ?_) ⟨rfl, rfl, rfl, rfl⟩
    by_cases hc : c' = c
    · subst hc
      simp [State.contents, contents, State.goto, State.setQ, ht, load, AfterFunc.rest, hq, hqueued]
    · exact contents_congr (fun r hr => Function.update_of_ne (by omega) _ _)
        (fun r hr => Function.update_of_ne (by omega) _ _)
  | caesar => cases hf

theorem effect_send (h : Inv s) {t b : Nat} {funq : arg_functions_queue} {capsul : capsula} {bytes : List Byte}
    (ht : s.threads t = some (.ao_func funq (.after capsul))) (hf : funq.after_func = .send_message)
    (hbuf : capsul.buffer = some b) (hs : Text.send_message (s.buffers b) = some bytes) :
    Effect s { s.goto t (.ao_func funq .deQ) with
      sent := Function.update s.sent capsul.socket (s.sent capsul.socket ++ [bytes]) } := by
  cases h.wired t _ ht with
  | convert => cases hf
  | @caesar c fd pc hfd =>
    refine .deliver c capsul Text.send_message b bytes rfl ?_ (fun c' hc => ?_) hbuf hs rfl rfl rfl rfl
    · simp [State.contents, contents, State.goto, ht, load, AfterFunc.rest]
    · exact contents_congr (fun r hr => Function.update_of_ne (by omega) _ _) (fun _ _ => rfl)

theorem effect_step (h : Inv s) (hs : Step s e s') : Effect s s' := by
  have hunborn : load (s.threads s.nthreads) = [] := by rw [h.unborn _ (Nat.le_refl _)]; rfl
  cases hs with
  | accept_fails => exact .pass rfl (fun _ => rfl) ⟨rfl, rfl, rfl, rfl⟩
  | accept ha hfd => exact effect_accept h ha hfd
  | new_listenAO | new_AO_convert | new_AO_caesar => exact effect_goto rfl hunborn.symm rfl rfl ⟨rfl, rfl, rfl, rfl⟩
  | recv ht => exact effect_recv h _ _ ht
  | recv_fails ht => exact effect_goto rfl (by rw [ht]; rfl) rfl rfl ⟨rfl, rfl, rfl, rfl⟩
  | listen_enQ ht hq ha he => exact effect_listen_enQ h ht hq ha he
  | deQ ht _ hd => exact effect_deQ h ht hd
  | @before t funq capsul b n ht hbuf hn =>
    apply effect_goto_work h ht rfl rfl hbuf
    simp [rewrite_string, hn]
  | @before_undefined t funq capsul b ht hbuf hn =>
    apply effect_goto_work h ht rfl rfl hbuf
    simp [rewrite_string, hn]
  | @loop t funq capsul i n b ht hi hbuf =>
    apply effect_work h ht rfl rfl hbuf
    rw [forLoop_step _ _ hi]
  | leave ht hi =>
    refine effect_goto rfl ?_ rfl rfl ⟨rfl, rfl, rfl, rfl⟩
    rw [ht]
    simp only [load, forLoop_done _ _ (Nat.le_of_not_lt hi)]
  | insert_to_queue ht hf ha he => exact effect_insert h ht hf ha he
  | send_message ht hf hbuf hb => exact effect_send h ht hf hbuf hb
  | @send_undefined t funq capsul b ht hf hbuf hb =>
    apply effect_goto_work h ht rfl rfl hbuf
    simp [AfterFunc.rest, hf, hb]

/-! ## The lines stay balanced -/

theorem Belongs.mono {c : Nat} {capsul : capsula} (h : Belongs s c capsul)
    (hc : ∀ fd, s.conns[c]? = some fd → s'.conns[c]? = some fd) (hn : s.nbuffers ≤ s'.nbuffers) :
    Belongs s' c capsul := by
  obtain ⟨hq, hfd, b, hb, hbuf⟩ := h
  exact ⟨hq, hc _ hfd, b, by omega, hbuf⟩

/-- Connections and buffers stay. -/
theorem effect_grows (he : Effect s s') :
    (∀ c fd : Nat, s.conns[c]? = some fd → s'.conns[c]? = some fd) ∧ s.nbuffers ≤ s'.nbuffers := by
  cases he with
  | accept fd _ hconns _ hd =>
    exact ⟨fun c k hk => hconns ▸ getElem?_of_append c k hk, Nat.le_of_eq hd.2.1.symm⟩
  | pass hconns _ hd => exact ⟨fun _ _ hk => hconns ▸ hk, Nat.le_of_eq hd.2.1.symm⟩
  | enter _ _ _ _ _ hconns _ _ _ hn => exact ⟨fun _ _ hk => hconns ▸ hk, by omega⟩
  | work _ _ _ _ _ _ _ hconns _ _ _ _ _ _ hn => exact ⟨fun _ _ hk => hconns ▸ hk, Nat.le_of_eq hn.symm⟩
  | deliver _ _ _ _ _ hconns _ _ _ _ _ hn => exact ⟨fun _ _ hk => hconns ▸ hk, Nat.le_of_eq hn.symm⟩

theorem belongs_effect (h : Inv s) (he : Effect s s') : ∀ c, ∀ x ∈ s'.contents c, Belongs s' c x.1 := by
  intro c x hx
  obtain ⟨hgrow, hle⟩ := effect_grows he
  have hold : ∀ x ∈ s.contents c, Belongs s' c x.1 := fun x hx => (h.belongs c x hx).mono (hgrow c) hle
  cases he with
  | accept _ _ _ hc | pass _ hc =>
    rw [hc] at hx
    exact hold x hx
  | enter c0 fd junk data hfd hconns hc ho hb hn =>
    by_cases hcc : c = c0
    · subst hcc
      rw [hc, List.mem_append, List.mem_singleton] at hx
      rcases hx with hx | rfl
      · exact hold x hx
      · exact ⟨rfl, by rw [hconns]; exact hfd, s.nbuffers, by omega, rfl⟩
    · rw [ho c hcc] at hx
      exact hold x hx
  | work c0 front back capsul f f' b hconns hc hc' ho =>
    by_cases hcc : c = c0
    · subst hcc
      rw [hc', List.mem_append, List.mem_cons] at hx
      rcases hx with hx | rfl | hx
      · exact hold x (by rw [hc]; simp [hx])
      · exact hold (capsul, f) (by rw [hc]; simp)
      · exact hold x (by rw [hc]; simp [hx])
    · rw [ho c hcc] at hx
      exact hold x hx
  | deliver c0 capsul f b bytes hconns hc ho =>
    by_cases hcc : c = c0
    · subst hcc
      exact hold x (by rw [hc]; exact List.mem_cons_of_mem _ hx)
    · rw [ho c hcc] at hx
      exact hold x hx

/-- Logs of other descriptors stay as they are. -/
theorem silent_update {α : Type} {conns : List Nat} {log : Nat → List α} (h : ∀ fd, fd ∉ conns → log fd = []) {fd : Nat}
    (hfd : fd ∈ conns) (l : List α) : ∀ k, k ∉ conns → Function.update log fd l k = [] := by
  intro k hk
  rw [Function.update_of_ne (by rintro rfl; exact hk hfd), h k hk]

theorem silent_effect (h : Inv s) (he : Effect s s') : ∀ fd, fd ∉ s'.conns → s'.sent fd = [] ∧ s'.received fd = [] := by
  have hsent : ∀ fd, fd ∉ s.conns → s.sent fd = [] := fun fd hfd => (h.silent fd hfd).1
  have hreceived : ∀ fd, fd ∉ s.conns → s.received fd = [] := fun fd hfd => (h.silent fd hfd).2
  cases he with
  | accept fd hfd hconns hc hd =>
    obtain ⟨-, -, hr, hs⟩ := hd
    rw [hconns, hr, hs]
    exact fun k hk => h.silent k fun hm => hk (List.mem_append_left _ hm)
  | pass hconns hc hd =>
    obtain ⟨-, -, hr, hs⟩ := hd
    rw [hconns, hr, hs]
    exact h.silent
  | enter c0 fd junk data hfd hconns hc ho hb hn hr hs =>
    rw [hconns, hr, hs]
    exact fun k hk => ⟨hsent k hk, silent_update hreceived (List.mem_of_getElem? hfd) _ k hk⟩
  | work c0 front back capsul f f' b hconns hc hc' ho hbuf hf hb hn hr hs =>
    rw [hconns, hr, hs]
    exact h.silent
  | deliver c0 capsul f b bytes hconns hc ho hbuf hf hb hn hr hs =>
    have hfd := (h.belongs c0 (capsul, f) (by rw [← State.contents, hc]; simp)).2.1
    rw [hconns, hr, hs]
    exact fun k hk => ⟨silent_update hsent (List.mem_of_getElem? hfd) _ k hk, hreceived k hk⟩

theorem deref_of_ne {buffers buffers' : Nat → List Byte} {b : Nat} (h : ∀ k, k ≠ b → buffers' k = buffers k) :
    ∀ p, p ≠ some b → deref buffers' p = deref buffers p := by
  intro p hp
  cases p with
  | none => rfl
  | some k => exact h k fun hk => hp (by rw [hk])

theorem items_of {c : Nat} {l : List (capsula × Rest)} (h : s.contents c = l) :
    s.items c = l.map fun x => ⟨x.1.buffer, x.2⟩ := by
  rw [← h]
  rfl

theorem items_congr {c : Nat} (h : s'.contents c = s.contents c) : s'.items c = s.items c := items_of h

theorem out_congr (hconns : s'.conns = s.conns) (hs : s'.sent = s.sent) : s'.out = s.out := by
  unfold State.out
  rw [hconns, hs]

theorem due_congr (hconns : s'.conns = s.conns) (hr : s'.received = s.received) : s'.due = s.due := by
  unfold State.due
  rw [hconns, hr]

/-- A log that grows at one connection's descriptor grows for that connection only. -/
theorem log_update {α β : Type} {conns : List Nat} (hn : conns.Nodup) {c fd : Nat} (hc : conns[c]? = some fd)
    (log : Nat → List α) (l : List α) (f : α → β) :
    (∀ c', c' ≠ c → (match conns[c']? with | some fd' => (Function.update log fd l fd').map f | none => []) =
      match conns[c']? with | some fd' => (log fd').map f | none => []) := by
  intro c' hcc
  cases hc' : conns[c']? with
  | none => rfl
  | some fd' =>
    obtain ⟨h1, h1'⟩ := List.getElem?_eq_some_iff.1 hc
    obtain ⟨h2, h2'⟩ := List.getElem?_eq_some_iff.1 hc'
    have hne : fd' ≠ fd := by
      rintro rfl
      exact hcc ((hn.getElem_inj_iff).1 (h2'.trans h1'.symm))
    simp only [Function.update_of_ne hne]

/-- A new connection has an empty log. -/
theorem log_accept {α β : Type} {conns : List Nat} {fd : Nat} {log : Nat → List α} (h : log fd = []) (f : α → β)
    (c : Nat) :
    (match (conns ++ [fd])[c]? with | some fd' => (log fd').map f | none => []) =
      match conns[c]? with | some fd' => (log fd').map f | none => [] := by
  rcases Nat.lt_trichotomy c conns.length with hc | rfl | hc
  · rw [List.getElem?_append_left hc]
  · simp [h]
  · rw [List.getElem?_eq_none (by simp; omega), List.getElem?_eq_none (by omega)]

theorem out_accept {fd : Nat} (hconns : s'.conns = s.conns ++ [fd]) (hs : s'.sent = s.sent) (h : s.sent fd = []) :
    s'.out = s.out := by
  funext c
  unfold State.out
  rw [hconns, hs]
  exact log_accept h _ c

theorem due_accept {fd : Nat} (hconns : s'.conns = s.conns ++ [fd]) (hr : s'.received = s.received)
    (h : s.received fd = []) : s'.due = s.due := by
  funext c
  unfold State.due
  rw [hconns, hr]
  exact log_accept h _ c

theorem out_update {c fd : Nat} (hn : s.conns.Nodup) (hfd : s.conns[c]? = some fd) (hconns : s'.conns = s.conns)
    {l : List (List Byte)} (hs : s'.sent = Function.update s.sent fd l) : ∀ c', c' ≠ c → s'.out c' = s.out c' := by
  intro c' hcc
  unfold State.out
  rw [hconns, hs]
  exact log_update hn hfd _ _ _ c' hcc

theorem due_update {c fd : Nat} (hn : s.conns.Nodup) (hfd : s.conns[c]? = some fd) (hconns : s'.conns = s.conns)
    {l : List (List Byte × List Byte)} (hr : s'.received = Function.update s.received fd l) :
    ∀ c', c' ≠ c → s'.due c' = s.due c' := by
  intro c' hcc
  unfold State.due
  rw [hconns, hr]
  exact log_update hn hfd _ _ _ c' hcc

theorem balanced_effect (h : Inv s) (he : Effect s s') : Balanced (deref s'.buffers) s'.items s'.out s'.due := by
  have hb := h.balanced
  cases he with
  | accept fd hfd hconns hc hd =>
    obtain ⟨hbufs, -, hr, hs⟩ := hd
    obtain ⟨hsent, hreceived⟩ := h.silent fd hfd
    have hi : s'.items = s.items := funext fun c => items_congr (hc c)
    rw [hbufs, hi, out_accept hconns hs hsent, due_accept hconns hr hreceived]
    exact hb
  | pass hconns hc hd =>
    obtain ⟨hbufs, -, hr, hs⟩ := hd
    have hi : s'.items = s.items := funext fun c => items_congr (hc c)
    rw [hbufs, hi, out_congr hconns hs, due_congr hconns hr]
    exact hb
  | enter c fd junk data hfd hconns hc ho hbuf hn hr hs =>
    rw [out_congr hconns hs]
    apply hb.enter (c := c) (x := ⟨some s.nbuffers, respond⟩)
    · -- everything on a line is in a buffer that was there before
      intro c' y hy
      obtain ⟨x, hx, rfl⟩ := List.mem_map.1 hy
      obtain ⟨-, -, b, hlt, hb'⟩ := h.belongs c' x hx
      simp only [hb', ne_eq, Option.some.injEq]
      omega
    · exact deref_of_ne fun k hk => by rw [hbuf, Function.update_of_ne hk]
    · rw [items_of hc, List.map_append]
      rfl
    · exact fun c' hcc => items_congr (ho c' hcc)
    · simp [State.due, hconns, hr, hfd, hbuf, Item.image, deref]
    · exact due_update h.nodup hfd hconns hr
  | work c front back capsul f f' b hconns hc hc' ho hbuf hf hbs hn hr hs =>
    rw [out_congr hconns hs, due_congr hconns hr]
    apply hb.work (c := c) (x := ⟨some b, f⟩) (a := ⟨some b, f'⟩)
    · rw [items_of hc, List.map_append, List.map_cons, hbuf]
    · rfl
    · exact hf
    · exact deref_of_ne hbs
    · rw [items_of hc', List.map_append, List.map_cons, hbuf]
    · exact fun c' hcc => items_congr (ho c' hcc)
  | deliver c capsul f b bytes hconns hc ho hbuf hf hbs hn hr hs =>
    have hfd : s.conns[c]? = some capsul.socket := (h.belongs c (capsul, f) (by rw [← State.contents, hc]; simp)).2.1
    rw [due_congr hconns hr, hbs]
    apply hb.deliver (c := c) (x := ⟨some b, f⟩)
    · rw [items_of hc, List.map_cons, hbuf, ← items_of rfl]
    · rfl
    · exact fun c' hcc => items_congr (ho c' hcc)
    · simp [State.out, hconns, hs, hfd, Item.image, deref, hf]
    · exact out_update h.nodup hfd hconns hs

theorem inv_step (h : Inv s) (hs : Step s e s') : Inv s' := by
  have he := effect_step h hs
  exact ⟨main_step h hs, wired_step h hs, unborn_step h hs, nodup_step h hs, holds_step h hs, belongs_effect h he,
    silent_effect h he, balanced_effect h he⟩

theorem reachable_inv (h : (server w).Reachable s) : Inv s :=
  h.inv (P := Inv) (by rintro s ⟨buffers, rfl⟩; exact inv_start buffers) (fun _ _ _ hi ht => inv_step hi ht)

end Ex6.Pipeline
