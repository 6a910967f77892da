import Mathlib.Data.List.Flatten
import Ex6.Sessions
/-!
# Where a client's message is

A client that waits for its reply has one message about, and a client that does not
wait has none. `in_one_place` follows it through the server's threads and queues, and
says what is left to be made of it there. No connection has two capsulas, so that a
call of `enQ` finds its list empty.
-/
open Lib Lib.CString Ex6.Queue Ex6.Text Ex6.Client

namespace Ex6.Sessions

open Pipeline (answer)

variable {w : Nat} {s : State w} {c fd : Nat} {l : List Byte} {typed : Nat → List (List Byte)}

/-- What connection number `c` has with its threads and in its queues. -/
def State.contents (s : State w) (c : Nat) : List (Pipeline.capsula × Pipeline.Rest) := s.server.abs.contents c

/-- Nothing is on its way for the client on `fd`. -/
structure Nowhere (s : State w) (c fd : Nat) : Prop where
  outgoing : s.outgoing fd = []
  contents : s.contents c = []
  pending : (s.sessions fd).pending = []

/-- Where line `l` of the client on `fd` is, and nothing else of that client's. -/
inductive Whereabouts (s : State w) (c fd : Nat) (l : List Byte) : Prop
  | outgoing : s.outgoing fd = [l ++ [NUL]] → s.contents c = [] → (s.sessions fd).pending = [] → Whereabouts s c fd l
  -- the rest of the work turns what is in the buffer into the reply
  | server (x : Pipeline.capsula × Pipeline.Rest) : s.outgoing fd = [] → s.contents c = [x] →
      Pipeline.image s.server.base.buffers x = some (reply l) → (s.sessions fd).pending = [] → Whereabouts s c fd l
  | pending : s.outgoing fd = [] → s.contents c = [] → (s.sessions fd).pending = reply l → Whereabouts s c fd l

/-- What has been sent, and what will be for what the server has, is the replies to what
it has received. -/
theorem sent_images (h : Inv typed s) (hl : ∀ l ∈ typed fd, Short l) (hc : s.server.base.conns[c]? = some fd) :
    (s.server.base.sent fd).map some ++ (s.contents c).map (Pipeline.image s.server.base.buffers) =
      (((typed fd).take (s.server.base.received fd).length).map reply).map some := by
  obtain ⟨hp, -, hnul⟩ := PipelineThreads.flowing_of_reachable h.server
  have hout : s.server.abs.out c = (s.server.base.sent fd).map some := by
    unfold Pipeline.State.out
    rw [show s.server.abs.conns[c]? = some fd from hc]
    rfl
  have hdue : s.server.abs.due c = ((s.server.base.received fd).map answer).map some := by
    unfold Pipeline.State.due
    rw [show s.server.abs.conns[c]? = some fd from hc, List.map_map]
    exact List.map_congr_left fun r hr => respond_spec (hnul fd r hr)
  have hitems : (s.server.abs.items c).map (Item.image (Pipeline.deref s.server.abs.buffers)) =
      (s.contents c).map (Pipeline.image s.server.base.buffers) := by
    unfold Pipeline.State.items
    rw [List.map_map]
    rfl
  have htotal := hp.abs.balanced.total c
  rw [hout, hdue, hitems, answers_eq (h.clients fd) hl] at htotal
  exact htotal

/-- A message is on its way in, in the server, or on its way back. -/
theorem conserved (h : Inv typed s) (hl : ∀ l ∈ typed fd, Short l) (hc : s.server.base.conns[c]? = some fd) :
    (s.outgoing fd).length + (s.contents c).length + (s.server.base.sent fd).length =
      (s.sessions fd).printed.length + (s.waiting fd).toNat := by
  have hlen := congrArg List.length (sent_images h hl hc)
  have hmessages := (h.clients fd).length_messages
  have hasked := (h.clients fd).asked
  simp only [List.length_append, List.length_map, List.length_take] at hlen
  rw [State.asked] at hmessages hasked
  omega

theorem contents_le_one (h : Inv typed s) (hl : ∀ fd, ∀ l ∈ typed fd, Short l) (c : Nat) :
    (s.contents c).length ≤ 1 := by
  cases hc : s.server.base.conns[c]? with
  | none =>
    obtain ⟨hp, -, -⟩ := PipelineThreads.flowing_of_reachable h.server
    rw [State.contents, Pipeline.contents_eq_nil hp.abs hc]
    exact Nat.zero_le 1
  | some fd =>
    have hlen := conserved h (hl fd) hc
    have hanswered := (h.clients fd).answered
    have hwaiting := Bool.toNat_le (s.waiting fd)
    omega

theorem pending_nil (h : InStep (typed fd) s fd)
    (he : (s.server.base.sent fd).length ≤ (s.sessions fd).printed.length) : (s.sessions fd).pending = [] := by
  rw [h.pending, List.drop_of_length_le he]
  rfl

theorem outgoing_eq (h : InStep (typed fd) s fd) :
    s.outgoing fd = (((typed fd).take (s.asked fd)).drop (s.server.base.received fd).length).map (· ++ [NUL]) := by
  rw [List.map_drop, ← h.messages, ← List.length_map (f := Prod.snd), List.drop_left]

/-- A client that waits has its message in one place. -/
theorem whereabouts (h : Inv typed s) (hl : ∀ l ∈ typed fd, Short l) (hc : s.server.base.conns[c]? = some fd)
    (hw : s.waiting fd = true) : ∃ l, (typed fd)[(s.sessions fd).printed.length]? = some l ∧ Whereabouts s c fd l := by
  have hi := h.clients fd
  have hlen := conserved h hl hc
  have hmessages := hi.length_messages
  have hanswered := hi.answered
  have hasked : s.asked fd = (s.sessions fd).printed.length + 1 := by rw [State.asked, hw, Bool.toNat_true]
  have hlt : (s.sessions fd).printed.length < (typed fd).length := by
    have := hi.asked
    omega
  rw [hw, Bool.toNat_true] at hlen
  refine ⟨_, List.getElem?_eq_getElem hlt, ?_⟩
  cases hout : s.outgoing fd with
  | cons data rest =>
    rw [hout, List.length_cons] at hlen hmessages
    refine .outgoing ?_ (List.length_eq_zero_iff.1 (by omega)) (pending_nil hi (by omega))
    have hreceived : (s.server.base.received fd).length = (s.sessions fd).printed.length := by omega
    rw [outgoing_eq hi, hasked, hreceived, List.drop_take_succ_eq_cons_getElem]
    rfl
  | nil =>
    rw [hout, List.length_nil] at hlen hmessages
    cases hin : s.contents c with
    | nil =>
      rw [hin, List.length_nil] at hlen
      refine .pending hout hin ?_
      rcases pending_of_waiting h hl hw with ⟨he, -⟩ | ⟨l, hline, hpending, -⟩
      · omega
      · rw [List.getElem?_eq_getElem hlt] at hline
        rw [hpending, ← Option.some.inj hline]
    | cons x rest =>
      rw [hin, List.length_cons] at hlen
      obtain rfl : rest = [] := List.length_eq_zero_iff.1 (by omega)
      have hsent : (s.server.base.sent fd).length = (s.sessions fd).printed.length := by omega
      refine .server x hout hin ?_ (pending_nil hi (by omega))
      have hreceived : (s.server.base.received fd).length = (s.sessions fd).printed.length + 1 := by omega
      have himages := sent_images h hl hc
      rw [hin, (sent_eq h hl).2, hsent, hreceived,
        List.take_succ_eq_append_getElem hlt, List.map_append, List.map_append] at himages
      exact List.singleton_injective (List.append_cancel_left himages)

/-- A client that does not wait has nothing on its way. -/
theorem nowhere (h : Inv typed s) (hl : ∀ l ∈ typed fd, Short l) (hc : s.server.base.conns[c]? = some fd)
    (hw : s.waiting fd = false) : Nowhere s c fd := by
  have hi := h.clients fd
  have hlen := conserved h hl hc
  have hanswered := hi.answered
  rw [hw, Bool.toNat_false] at hlen
  exact ⟨List.length_eq_zero_iff.1 (by omega), List.length_eq_zero_iff.1 (by omega), pending_nil hi (by omega)⟩

/-! ## The list `enQ` finds -/

/-- A thread has in hand what it is about to pass to `enQ`. -/
theorem load_of_call {th : Option Pipeline.Thread} {k : Nat} {member : Pipeline.capsula}
    (h : PipelineThreads.call th = some (k, .enQ member)) : ∃ f, Pipeline.load th = [(member, f)] := by
  unfold PipelineThreads.call at h
  split at h
  case h_1 caps capsul =>
    cases hq : caps.q_send with
    | none => rw [hq] at h; cases h
    | some q =>
      rw [hq] at h
      cases h
      exact ⟨_, rfl⟩
  case h_2 => cases h
  case h_3 funq capsul =>
    cases hf : funq.after_func with
    | insert_to_queue =>
      rw [hf] at h
      cases h
      exact ⟨_, rfl⟩
    | send_message => rw [hf] at h; cases h
  case h_4 => cases h

/-- With nothing else about on its connection, a thread in `enQ` has the list to itself. -/
theorem head_of_insert {x : PipelineThreads.State w} (h : PipelineThreads.Inv x)
    (hone : ∀ c, (x.abs.contents c).length ≤ 1) {k t : Nat} {member : Pipeline.capsula}
    (ht : (x.queues k).pc t = .enqInsert member) : (x.queues k).q.head = none := by
  have hstatus : QueueCalls.status ((x.queues k).pc t) = .called (.enQ member) := by rw [ht]; rfl
  obtain ⟨-, hkt, op, hop, hfits⟩ := h.calls k t (by rw [hstatus]; simp)
  rw [hstatus] at hfits
  cases hfits
  -- the call has not changed the list, so that the thread still has the capsula
  have habs : x.abs.threads t = x.base.threads t := PipelineThreads.ahead_called hop hstatus
  obtain ⟨f, hload⟩ := load_of_call hop
  rw [← habs] at hload
  have hload := congrArg List.length hload
  have hqueue : (linked (x.abs.queues k)).length = 0 := by
    obtain ⟨c, hc⟩ : ∃ c, c = k / 2 := ⟨_, rfl⟩
    have hlen := hone c
    simp only [Pipeline.State.contents, Pipeline.contents, Pipeline.queued, List.length_append, List.length_map] at hlen
    have hthread : t = 3 * c ∨ t = 3 * c + 1 ∨ t = 3 * c + 2 := by omega
    have hk : k = 2 * c ∨ k = 2 * c + 1 := by omega
    rcases hthread with rfl | rfl | rfl <;> rcases hk with rfl | rfl <;> simp only [List.length_singleton] at hload <;>
      omega
  obtain ⟨xs, hx⟩ := h.abs.holds k
  rw [hx.linked_eq] at hqueue
  exact hx.head_eq_none.2 (List.length_eq_zero_iff.1 hqueue)

/-- However the sessions go, what a connected client waits for is in one place: on its
way to the server, with one thread or in one queue there, or on its way back; and each
call of `enQ` finds the list empty. -/
theorem in_one_place (hl : ∀ fd, ∀ l ∈ typed fd, Short l) (h : (system w typed).Reachable s) :
    (∀ c fd, s.server.base.conns[c]? = some fd →
      (s.waiting fd = false ∧ Nowhere s c fd) ∨
      (s.waiting fd = true ∧ ∃ l, (typed fd)[(s.sessions fd).printed.length]? = some l ∧ Whereabouts s c fd l)) ∧
    ∀ k t member, (s.server.queues k).pc t = .enqInsert member → (s.server.queues k).q.head = none := by
  have hi := reachable_inv hl h
  constructor
  · intro c fd hc
    cases hw : s.waiting fd with
    | false => exact .inl ⟨rfl, nowhere hi (hl fd) hc hw⟩
    | true => exact .inr ⟨rfl, whereabouts hi (hl fd) hc hw⟩
  · intro k t member ht
    obtain ⟨hp, -, -⟩ := PipelineThreads.flowing_of_reachable hi.server
    exact head_of_insert hp (contents_le_one hi hl) ht

/-- A client that has typed "hi" and is then accepted on descriptor 4. -/
theorem in_one_place_hi : ∃ s : State 64, (system 64 greetings).Reachable s ∧
    s.server.base.conns[0]? = some 4 ∧ Whereabouts s 0 4 [104#8, 105#8] := by
  obtain ⟨s1, htype, hserver1, hwaiting1, hprinted1⟩ : ∃ s1 : State 64, Step (start (fun _ => [])
      (fun _ => List.replicate BUFFERSIZE NUL) greetings) (.type 4) s1 ∧
      s1.server = ⟨Pipeline.start fun _ => [], fun _ => Monitor.start⟩ ∧ s1.waiting 4 = true ∧
      (s1.sessions 4).printed = [] :=
    ⟨_, .type rfl (by decide) (get_input_spec short_hi.1 [])
      (send_message_spec (List.mem_append_right _ List.mem_cons_self)), rfl, rfl, rfl⟩
  obtain ⟨srv, haccept, hconns⟩ : ∃ srv, PipelineThreads.Step s1.server (.own (.accept (some 4))) srv ∧
      srv.base.conns = [4] := by
    rw [hserver1]
    exact ⟨_, .own rfl (.accept rfl List.not_mem_nil), rfl⟩
  obtain ⟨s, hs, hserver, -, hwaiting, hprinted⟩ := quiet_step haccept (by rintro t junk data ⟨⟩)
  have hc : s.server.base.conns[0]? = some 4 := by
    rw [hserver, hconns]
    rfl
  have h := ((Machine.Reachable.init init_greetings).step htype).step hs
  refine ⟨s, h, hc, ?_⟩
  rcases (in_one_place greetings_short h).1 0 4 hc with ⟨hno, -⟩ | ⟨-, l, hl, hwhere⟩
  · rw [hwaiting, hwaiting1] at hno
    cases hno
  · rw [hprinted, hprinted1] at hl
    cases hl
    exact hwhere

end Ex6.Sessions
