import Ex6.PipelineOrder
/-!
# Messages through the active-object server

The invariant at the level of messages: what the server has sent on a
connection and what is still on its way are the answers to what it has
received there. With one message per `recv` these are the messages' own
answers.
-/
open Lib Lib.CString Ex6.Queue Ex6.Text

namespace Ex6.Pipeline
variable {w : Nat} {s s' : State w} {e : Event}

theorem Inv.balanced_at (h : Inv s) {c fd : Nat} (hc : s.conns[c]? = some fd) :
    (s.sent fd).map some ++ (s.contents c).map (image s.buffers) =
      (s.received fd).map fun r => respond (overwrite r.1 r.2) := by
  have hb := h.balanced.total c
  simp only [State.out, State.due, State.items, hc, List.map_map] at hb
  exact hb

/-- Where what is made of the buffers received is known to be `g` of them. -/
theorem Inv.balanced_as (h : Inv s) {c fd : Nat} (hc : s.conns[c]? = some fd) {g : List Byte × List Byte → List Byte}
    (hg : ∀ r ∈ s.received fd, respond (overwrite r.1 r.2) = some (g r)) :
    (s.sent fd).map some ++ (s.contents c).map (image s.buffers) = ((s.received fd).map g).map some := by
  rw [h.balanced_at hc, List.map_map]
  exact List.map_congr_left hg

/-- What has been sent on a connection, followed by what will be made of the
capsulas on its way, is what the stages make of each buffer received there. -/
theorem sent_and_on_the_way (h : (server w).Reachable s) {c fd : Nat}
    (hc : s.conns[c]? = some fd) :
    (s.sent fd).map some ++ (s.contents c).map (image s.buffers) =
      (s.received fd).map fun r => respond (overwrite r.1 r.2) :=
  (reachable_inv h).balanced_at hc

/-- Once nothing is on its way, what has been sent answers what has been received. -/
theorem sent_of_drained (h : (server w).Reachable s) {c fd : Nat}
    (hc : s.conns[c]? = some fd) (hd : s.contents c = []) :
    (s.sent fd).map some = (s.received fd).map fun r => respond (overwrite r.1 r.2) := by
  simpa [hd] using sent_and_on_the_way h hc

/-! ## One message per `recv` -/

/-- `recv` returns one message with its terminator. -/
def Event.OneMessage : Event → Prop
  | .recv _ _ (some data) => ∃ m, NUL ∉ m ∧ data = m ++ [NUL]
  | _ => True

/-- What the log of received data grows by. -/
theorem received_step (hs : Step s e s') (fd : Nat) :
    s'.received fd = s.received fd ∨
      ∃ t junk data, e = .recv t junk (some data) ∧ s'.received fd = s.received fd ++ [(junk, data)] := by
  cases hs with
  | @recv t caps junk data =>
    by_cases hfd : fd = caps.socket
    · subst hfd
      exact .inr ⟨t, junk, data, rfl, by simp⟩
    · exact .inl (by simp [Function.update_of_ne hfd])
  | _ => exact .inl rfl

/-- What holds of the data of every `recv` holds of all that is received. -/
theorem received_all {promise : Event → Prop} {P : List Byte → List Byte → Prop}
    (hp : ∀ t junk data, promise (.recv t junk (some data)) → P junk data)
    (h : ((server w).under promise).Reachable s) : ∀ fd, ∀ r ∈ s.received fd, P r.1 r.2 := by
  apply h.under_inv (P := fun s => ∀ fd, ∀ r ∈ s.received fd, P r.1 r.2)
  · rintro s ⟨buffers, rfl⟩ fd r hr
    cases hr
  · intro s e t hi hs he fd r hr
    rcases received_step hs fd with heq | ⟨t, junk, data, rfl, heq⟩
    · exact hi fd r (heq ▸ hr)
    · rw [heq, List.mem_append, List.mem_singleton] at hr
      rcases hr with hr | rfl
      · exact hi fd r hr
      · exact hp t junk data he

/-- With one message per `recv`, what has been sent on a connection, followed by
the images of what its third thread has in hand, its third queue, its second
thread, its second queue and its first thread, is the answers to the messages
received on that connection, in order. Connections have different descriptors,
and nothing is sent on any other. -/
theorem end_to_end (h : ((server w).under Event.OneMessage).Reachable s) :
    s.conns.Nodup ∧ (∀ fd, fd ∉ s.conns → s.sent fd = []) ∧
    ∀ c fd, s.conns[c]? = some fd → ∃ ms : List (List Byte),
      (s.received fd).map Prod.snd = ms.map (· ++ [NUL]) ∧ (∀ m ∈ ms, NUL ∉ m) ∧
      (s.sent fd).map some ++
        (load (s.threads (3 * c + 2)) ++ queued fromCaesar (s.queues (2 * c + 1)) ++ load (s.threads (3 * c + 1)) ++
          queued respond (s.queues (2 * c)) ++ load (s.threads (3 * c))).map (image s.buffers) =
        ms.map fun m => some (caesar (swapcase m) ++ [NUL]) := by
  have hi := reachable_inv h.of_under
  refine ⟨hi.nodup, fun fd hfd => (hi.silent fd hfd).1, fun c fd hc => ?_⟩
  have hone := received_all (P := fun _ data => ∃ m, NUL ∉ m ∧ data = m ++ [NUL]) (fun _ _ _ he => he) h fd
  refine ⟨(s.received fd).map fun r => cstr NUL r.2, ?_, ?_, ?_⟩
  · rw [List.map_map]
    apply List.map_congr_left
    intro r hr
    obtain ⟨m, hm, hd⟩ := hone r hr
    simp only [Function.comp_apply, hd, cstr_append_cons NUL hm []]
  · intro m hm
    obtain ⟨r, -, rfl⟩ := List.mem_map.1 hm
    exact not_mem_cstr NUL r.2
  · have hall := sent_and_on_the_way h.of_under hc
    unfold State.contents contents at hall
    rw [hall, List.map_map]
    apply List.map_congr_left
    intro r hr
    obtain ⟨m, hm, hd⟩ := hone r hr
    rw [Function.comp_apply, respond_overwrite (by rw [hd]; simp)]
    rfl

/-- A client on descriptor 4 whose message "a" has just been received. -/
theorem first_message : ∃ s : State 64, ((server 64).under Event.OneMessage).Reachable s ∧ s.conns = [4] ∧
    s.received 4 = [(List.replicate 1024 NUL, [97#8, NUL])] ∧ s.sent 4 = [] ∧
    load (s.threads 2) = [] ∧ queued fromCaesar (s.queues 1) = [] ∧ load (s.threads 1) = [] ∧
    queued respond (s.queues 0) = [] := by
  have r : ((server 64).under Event.OneMessage).Reachable (start fun _ => []) := .init ⟨_, rfl⟩
  have r := r.under_step (@Step.accept _ _ 4 rfl (by decide)) trivial
  have r := r.under_step (Step.new_listenAO rfl) trivial
  have r := r.under_step (Step.new_AO_convert rfl) trivial
  have r := r.under_step (Step.new_AO_caesar rfl) trivial
  have r := r.under_step
    (@Step.recv _ _ 0 _ (List.replicate 1024 NUL) [97#8, NUL] rfl List.length_replicate (by decide))
    ⟨[97#8], by decide, rfl⟩
  exact ⟨_, r, rfl, rfl, rfl, rfl, rfl, rfl, rfl⟩

/-- Between its `recv` and its `enQ` it is the first thread that has the message. -/
theorem held_by_first_thread : ∃ s : State 64, ((server 64).under Event.OneMessage).Reachable s ∧ s.conns = [4] ∧
    (s.received 4).map Prod.snd = [[97#8] ++ [NUL]] ∧
    (s.sent 4).map some ++
      (load (s.threads 2) ++ queued fromCaesar (s.queues 1) ++ load (s.threads 1) ++ queued respond (s.queues 0)).map
        (image s.buffers) ≠ [some (caesar (swapcase [97#8]) ++ [NUL])] := by
  obtain ⟨s, hs, hc, hr, hsent, h3, hq3, h2, hq2⟩ := first_message
  refine ⟨s, hs, hc, by rw [hr]; rfl, ?_⟩
  rw [hsent, h3, hq3, h2, hq2]
  simp

/-- The client's "a" has been converted and is in the third thread's queue, and its "b"
has just been received. -/
theorem second_message : ∃ (s : State 64) (evs : List Event),
    ((server 64).under Event.OneMessage).Run (start fun _ => []) evs s ∧ s.conns = [4] ∧
    (s.received 4).map Prod.snd = [[97#8, NUL], [98#8, NUL]] ∧ s.nbuffers = 2 ∧ s.sent 4 = [] ∧
    load (s.threads 2) = [] ∧ load (s.threads 1) = [] ∧ queued respond (s.queues 0) = [] ∧
    (linked (s.queues 1)).map capsula.buffer = [some 0] ∧ (s.buffers 0).take 2 = [65#8, NUL] := by
  have r := Machine.Run.nil (M := (server 64).under Event.OneMessage) (start fun _ => [])
  have r := r.snoc ⟨@Step.accept _ _ 4 rfl (by decide), trivial⟩
  have r := r.snoc ⟨Step.new_listenAO rfl, trivial⟩
  have r := r.snoc ⟨Step.new_AO_convert rfl, trivial⟩
  have r := r.snoc ⟨Step.new_AO_caesar rfl, trivial⟩
  have r := r.snoc ⟨@Step.recv _ _ 0 _ (List.replicate 1024 NUL) [97#8, NUL] rfl List.length_replicate (by decide),
    ⟨[97#8], by decide, rfl⟩⟩
  have r := r.snoc ⟨@Step.listen_enQ _ _ 0 _ _ _ 0 _ rfl rfl (by decide) rfl, trivial⟩
  have r := r.snoc ⟨@Step.deQ _ _ 1 _ _ _ rfl rfl rfl, trivial⟩
  have r := r.snoc ⟨@Step.before _ _ 1 _ _ _ 1 rfl rfl rfl, trivial⟩
  have r := r.snoc ⟨@Step.loop _ _ 1 _ _ _ _ _ rfl Nat.one_pos rfl, trivial⟩
  have r := r.snoc ⟨@Step.leave _ _ 1 _ _ _ _ rfl (Nat.lt_irrefl 1), trivial⟩
  have r := r.snoc ⟨@Step.insert_to_queue _ _ 1 _ _ 0 _ rfl rfl (by decide) rfl, trivial⟩
  have r := r.snoc ⟨@Step.recv _ _ 0 _ (List.replicate 1024 NUL) [98#8, NUL] rfl List.length_replicate (by decide),
    ⟨[98#8], by decide, rfl⟩⟩
  exact ⟨_, _, r, rfl, rfl, rfl, rfl, rfl, rfl, rfl, rfl, rfl⟩

/-- The answers to both are on their way, in order. -/
theorem end_to_end_second_message : ∃ s : State 64, ((server 64).under Event.OneMessage).Reachable s ∧ s.conns = [4] ∧
    (s.received 4).map Prod.snd = [[97#8, NUL], [98#8, NUL]] ∧
    (queued fromCaesar (s.queues 1) ++ load (s.threads 0)).map (image s.buffers) =
      [some (caesar (swapcase [97#8]) ++ [NUL]), some (caesar (swapcase [98#8]) ++ [NUL])] := by
  obtain ⟨s, evs, hr, hc, hrec, -, hsent, h3, h2, hq2, -⟩ := second_message
  have hs := hr.reachable (.init ⟨_, rfl⟩)
  obtain ⟨ms, hms, -, ht⟩ := (end_to_end hs).2.2 0 4 (by rw [hc]; rfl)
  have hboth : ms = [[97#8], [98#8]] :=
    List.map_injective_iff.2 (fun _ _ he => List.append_cancel_right he) (hms.symm.trans hrec)
  rw [hboth, hsent, h3, h2, hq2] at ht
  refine ⟨s, hs, hc, hrec, ?_⟩
  simpa using ht

end Ex6.Pipeline
