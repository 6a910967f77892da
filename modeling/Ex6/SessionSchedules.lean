import Ex6.Sessions
/-!
# However the sessions go

Every step for a client, its own and its connection's threads' in the server, brings
it closer to its last reply, wakeups that nobody asked for and new connections apart.
And where no step for it is left it has shown them all.
-/
open Lib Ex6.Text Ex6.Client

namespace Ex6.Sessions

/-- A step for the client on `fd`, whose connection has number `c`. -/
def own (c fd : Nat) : Event → Nat
  | .server (.own (.recv t _ _)) => if t / 3 = c then 1 else 0
  | .server ev => PipelineThreads.spent c ev
  | .type d | .receive d => if d = fd then 1 else 0

/-- What it has more to do after a spurious wakeup or a new connection. -/
def extra (c : Nat) : Event → Nat
  | .server (.own (.recv _ _ _)) => 0
  | .server ev => PipelineThreads.gained c ev
  | _ => 0

variable {w c fd : Nat} {s s' : State w} {e : Event} {typed : Nat → List (List Byte)}

/-! ## One step -/

/-- The listener of connection `c` reads on its descriptor. -/
theorem recv_socket {x : PipelineThreads.State w} (hi : PipelineThreads.Inv x) {t : Nat} {caps : Pipeline.capsula}
    (ht : x.base.threads t = some (.listenAO caps .recv)) : x.base.conns[t / 3]? = some caps.socket := by
  have habs : x.abs.threads t = some (.listenAO caps .recv) := by
    change PipelineThreads.ahead x.queues t (x.base.threads t) = _
    rw [ht]
    rfl
  cases hi.abs.wired t _ habs with
  | @listenAO c' fd' pc hconns =>
    rw [show 3 * c' / 3 = c' by omega]
    exact hconns

/-- A message of its own that is received is one fewer on its way. -/
theorem account_recv (h : Inv typed s) (hc : ∀ fd', s.server.base.conns[c]? = some fd' → fd' = fd) {t : Nat}
    {junk data : List Byte} {srv : PipelineThreads.State w} {outgoing : Nat → List (List Byte)}
    (hs : PipelineThreads.Step s.server (.own (.recv t junk (some data))) srv)
    (hout : s.outgoing fd =
      ((srv.base.received fd).drop (s.server.base.received fd).length).map Prod.snd ++ outgoing fd) :
    207758 * (outgoing fd).length + PipelineThreads.measure srv c + (if t / 3 = c then 1 else 0) ≤
      207758 * (s.outgoing fd).length + PipelineThreads.measure s.server c := by
  obtain ⟨hi, hf, -⟩ := PipelineThreads.flowing_of_reachable h.server
  have haccount := PipelineThreads.step_account hi hf hs c
  have hlen := congrArg List.length hout
  rw [List.length_append] at hlen
  by_cases htc : t / 3 = c
  · have hone : (s.outgoing fd).length = (outgoing fd).length + 1 := by
      cases hs with
      | own _ hs =>
        cases hs with
        | @recv _ caps _ _ ht =>
          obtain rfl : caps.socket = fd := hc _ (htc ▸ recv_socket hi ht)
          simp only [Function.update_self, PipelineThreads.State.view, List.drop_left, List.map_singleton,
            List.length_singleton] at hlen
          omega
    simp only [PipelineThreads.gained, Pipeline.gained, if_pos htc] at haccount
    rw [if_pos htc]
    omega
  · simp only [PipelineThreads.gained, Pipeline.gained, if_neg htc] at haccount
    rw [if_neg htc]
    omega

theorem account_step (h : Inv typed s) (hl : ∀ fd, ∀ l ∈ typed fd, Short l)
    (hc : ∀ fd', s.server.base.conns[c]? = some fd' → fd' = fd) (hs : Step s e s') :
    togo (typed fd) c fd s' + own c fd e ≤ togo (typed fd) c fd s + extra c e := by
  have h' := step_inv h hl hs
  have hasked := (h'.clients fd).asked
  cases hs with
  | @server ev srv outgoing hs hf hout =>
    have hlen := congrArg List.length (hout fd)
    rw [List.length_append] at hlen
    unfold togo State.asked
    by_cases hr : ∃ t junk data, ev = .own (.recv t junk data)
    · obtain ⟨t, junk, data, rfl⟩ := hr
      cases data with
      | none => cases hf
      | some data =>
        have haccount := account_recv h hc hs (hout fd)
        simp only [own, extra]
        omega
    · obtain ⟨hi, hflow, -⟩ := PipelineThreads.flowing_of_reachable h.server
      have haccount := PipelineThreads.step_account hi hflow hs c
      have hown : own c fd (.server ev) = PipelineThreads.spent c ev ∧
          extra c (.server ev) = PipelineThreads.gained c ev := by
        cases ev with
        | own e =>
          cases e with
          | recv t junk data => exact absurd ⟨t, junk, data, rfl⟩ hr
          | _ => exact ⟨rfl, rfl⟩
        | queue => exact ⟨rfl, rfl⟩
      rw [hown.1, hown.2]
      dsimp only
      omega
  | @type d buffer stdin sent hw hne hget hsend =>
    by_cases hd : d = fd
    · subst hd
      unfold State.asked at hasked
      unfold togo State.asked
      simp only [Function.update_self, hw, own, extra, if_true, Bool.toNat_true, Bool.toNat_false, List.length_append,
        List.length_singleton] at hasked ⊢
      omega
    · have hd' : fd ≠ d := Ne.symm hd
      unfold togo State.asked
      simp only [Function.update_of_ne hd', own, extra, if_neg hd]
      omega
  | @receive d hw hp =>
    by_cases hd : d = fd
    · subst hd
      unfold togo State.asked
      simp only [Function.update_self, hw, own, extra, if_true, Bool.toNat_true, Bool.toNat_false, receive,
        List.length_append, List.length_singleton]
      omega
    · have hd' : fd ≠ d := Ne.symm hd
      unfold togo State.asked
      simp only [Function.update_of_ne hd', own, extra, if_neg hd]
      omega

/-! ## Every run -/

/-- Over a run at whose end the connection has its descriptor. -/
theorem account_run (hl : ∀ fd, ∀ l ∈ typed fd, Short l) {evs : List Event} (h : (system w typed).Run s evs s')
    (hi : Inv typed s) (hc : ∀ fd', s'.server.base.conns[c]? = some fd' → fd' = fd) : Inv typed s' ∧
      togo (typed fd) c fd s' + Machine.total (own c fd) evs ≤
        togo (typed fd) c fd s + Machine.total (extra c) evs := by
  induction h with
  | nil => exact ⟨hi, Nat.le_refl _⟩
  | @snoc t u evs e _ hs ih =>
    have hct : ∀ fd', t.server.base.conns[c]? = some fd' → fd' = fd := fun fd' ht => hc fd' (conns_keep hs ht)
    obtain ⟨ht, hle⟩ := ih hct
    have hstep := account_step ht hl hct hs
    refine ⟨step_inv ht hl hs, ?_⟩
    simp only [Machine.total_append, Machine.total]
    omega

theorem togo_start (buffers bufs : Nat → List Byte) (c fd : Nat) :
    togo (typed fd) c fd (start (w := w) buffers bufs typed) = 207760 * (typed fd).length := by
  have hmeasure : PipelineThreads.measure (start (w := w) buffers bufs typed).server c = 0 := rfl
  unfold togo State.asked
  rw [hmeasure]
  rfl

/-- However the sessions go, a client and its threads take no more steps than its lines
account for, new connections and wakeups that nobody asked for. When there is no step
for it any more it has shown the replies to all its lines. -/
theorem every_session (hl : ∀ fd, ∀ l ∈ typed fd, Short l) (hlt : ∀ fd, (typed fd).length < 2 ^ w) {s0 : State w}
    (h0 : (system w typed).init s0) {evs : List Event} (h : (system w typed).Run s0 evs s)
    (hc : s.server.base.conns[c]? = some fd) :
    Machine.total (own c fd) evs ≤ 207760 * (typed fd).length + Machine.total (extra c) evs ∧
    ((∀ e t, Step s e t → ¬ By c fd e) → (s.sessions fd).printed = (typed fd).map text) := by
  have hi0 : Inv typed s0 := reachable_inv hl (.init h0)
  have huniq : ∀ fd', s.server.base.conns[c]? = some fd' → fd' = fd := fun fd' hfd' =>
    Option.some.inj (hfd'.symm.trans hc)
  obtain ⟨hi, hle⟩ := account_run hl h hi0 huniq
  obtain ⟨buffers, bufs, -, rfl⟩ := h0
  rw [togo_start] at hle
  refine ⟨by omega, fun hrest => ?_⟩
  have hall : (typed fd).length ≤ (s.sessions fd).printed.length := by
    by_contra hd
    obtain ⟨e, t, hs, he, -⟩ := moves hi (hl fd) (hlt fd) hc (Nat.lt_of_not_le hd)
    exact hrest e t hs he
  rw [(hi.clients fd).printed, List.take_of_length_le hall]

/-- One client, on descriptor 4, types "hi", is connected and gets its reply. -/
theorem every_session_hi : ∃ (s0 s : State 64) (c : Nat) (evs : List Event),
    (system 64 greetings).init s0 ∧ (system 64 greetings).Run s0 evs s ∧
    (s.sessions 4).printed = [[73#8, 74#8]] ∧
    Machine.total (own c 4) evs ≤ 207760 + Machine.total (extra c) evs := by
  have hnew : 4 ∉ (start (w := 64) (fun _ => []) (fun _ => List.replicate BUFFERSIZE NUL)
      greetings).server.base.conns := by
    simp [start, Pipeline.start]
  have hi := reachable_inv greetings_short (.init init_greetings)
  obtain ⟨c, evs, x, hrun, -, hx, hc⟩ := connects hi greetings_short hnew
  obtain ⟨evs', s, hrun', -, hprinted⟩ := finishes hx greetings_short (greetings_few 4) hc
  have hc' : s.server.base.conns[c]? = some 4 :=
    hrun'.keeps (P := fun s => s.server.base.conns[c]? = some 4) (fun _ _ _ ht hs => conns_keep hs ht) hc
  have h := hrun.append hrun'
  exact ⟨_, s, c, _, init_greetings, h, hprinted,
    (every_session greetings_short greetings_few init_greetings h hc').1⟩

end Ex6.Sessions
