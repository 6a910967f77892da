import Ex6.SelectServer
/-!
# Registration

A reactor keeps a descriptor's handler in its table and its bit in `fds`.
`InstallHandler` changes both, `RemoveHandler` the one and the hang-up path of
`handle_client_data` the other. `registered_iff` says after which histories the
two agree.
-/
open Lib Ex6.SelectServer

namespace Ex6.Registration

inductive Op
  | install (func : Handler) (fd : Nat)
  | remove (fd : Nat)
  /-- `handle_client_data`, where `recv` returns 0 or -1. -/
  | hang_up (fd : Nat)
deriving Repr, DecidableEq

inductive Step (s : State) : Op → State → Prop
  | install {func fd reac} : s.reactor.InstallHandler func fd = some reac →
      Step s (.install func fd) { s with reactor := reac }
  | remove {fd reac} : s.reactor.RemoveHandler fd = some reac → Step s (.remove fd) { s with reactor := reac }
  | hang_up {st data sent} : data = none ∨ data = some [] →
      Step s (.hang_up st.fd) (handle_client_data s st data sent)

/-- A process and what is done to its reactor, from `newReactor` on. -/
def machine : Machine State Op where
  init s := ∃ junk, s.reactor = Reactor.newReactor junk
  step := Step

/-- A descriptor is watched exactly if it has a handler, so that a handler that
is called is never null and none is kept for what is not watched. -/
def Registered (reac : Reactor) : Prop := ∀ fd, fd ∈ reac.fds ↔ (reac.handler fd).isSome

/-! ## What a history leaves -/

def Op.installs (fd : Nat) : Op → Bool
  | .install _ fd' => fd' = fd
  | _ => false

def Installed (fd : Nat) (ops : List Op) : Prop := ∃ op ∈ ops, op.installs fd = true

/-- What was done after `fd` was last installed, the latest first. -/
def sinceInstall (fd : Nat) (ops : List Op) : List Op := ops.reverse.takeWhile (fun op => !op.installs fd)

variable {s t : State} {op : Op} {ops : List Op} {fd : Nat}

theorem sinceInstall_snoc (fd : Nat) (ops : List Op) (op : Op) :
    sinceInstall fd (ops ++ [op]) = if op.installs fd then [] else op :: sinceInstall fd ops := by
  unfold sinceInstall
  rw [List.reverse_append, List.reverse_singleton, List.singleton_append, List.takeWhile_cons]
  cases op.installs fd <;> rfl

theorem installed_snoc : Installed fd (ops ++ [op]) ↔ Installed fd ops ∨ op.installs fd = true := by
  simp [Installed, or_and_right, exists_or]

/-- The hang-up path clears the bit and leaves the entry. -/
theorem hang_up_reactor (s : State) (st : read_struct) (sent : Nat → Nat) {data : Option (List Byte)}
    (hdata : data = none ∨ data = some []) : (handle_client_data s st data sent).reactor = s.reactor.FD_CLR st.fd := by
  rcases hdata with rfl | rfl <;> rfl

/-- One call sets, clears or leaves the bit. -/
theorem mem_fds_step (h : Step s op t) :
    fd ∈ t.reactor.fds ↔ op.installs fd = true ∨ (fd ∈ s.reactor.fds ∧ op ≠ .hang_up fd) := by
  cases h with
  | install hreac => simp [(Reactor.InstallHandler_some hreac).1, Op.installs, eq_comm]
  | remove hreac => simp [(Reactor.RemoveHandler_some hreac).1, Op.installs]
  | hang_up hdata => simp [hang_up_reactor s _ _ hdata, Op.installs, and_comm, eq_comm]

/-- One call sets, clears or leaves the entry. -/
theorem handler_step (h : Step s op t) :
    (t.reactor.handler fd).isSome ↔ op.installs fd = true ∨ ((s.reactor.handler fd).isSome ∧ op ≠ .remove fd) := by
  cases h with
  | @install func fd' reac hreac =>
    rw [(Reactor.InstallHandler_some hreac).2]
    by_cases hfd : fd = fd'
    · subst hfd; simp [Op.installs]
    · simp [Op.installs, Function.update_of_ne hfd, Ne.symm hfd]
  | @remove fd' reac hreac =>
    rw [(Reactor.RemoveHandler_some hreac).2]
    by_cases hfd : fd = fd'
    · subst hfd; simp [Op.installs]
    · simp [Op.installs, Function.update_of_ne hfd, Ne.symm hfd]
  | hang_up hdata => simp [hang_up_reactor s _ _ hdata, Op.installs]

/-- A bit that a call of one kind clears and an installation sets is set exactly
if the descriptor was installed, and no such call came after. -/
theorem kept_iff {B : State → Prop} {clears : Op}
    (hstep : ∀ {s op t}, Step s op t → (B t ↔ op.installs fd = true ∨ (B s ∧ op ≠ clears)))
    (h : machine.Run s ops t) (h0 : ¬ B s) : B t ↔ Installed fd ops ∧ clears ∉ sinceInstall fd ops := by
  induction h with
  | nil => simp [h0, Installed]
  | snoc _ hs ih =>
    rw [hstep hs, ih, installed_snoc, sinceInstall_snoc]
    split
    · next hop => simp [hop]
    · next hop => simp [hop, eq_comm, and_comm, and_left_comm]

/-- The two agree exactly if every descriptor has, since it was last installed,
both been removed and hung up, or neither. -/
theorem registered_iff {junk : Int} (h0 : s.reactor = Reactor.newReactor junk) (h : machine.Run s ops t) :
    Registered t.reactor ↔
      ∀ fd, Installed fd ops → (.remove fd ∈ sinceInstall fd ops ↔ .hang_up fd ∈ sinceInstall fd ops) := by
  have hfds : ∀ fd, fd ∈ t.reactor.fds ↔ Installed fd ops ∧ .hang_up fd ∉ sinceInstall fd ops := fun fd =>
    kept_iff (B := fun s => fd ∈ s.reactor.fds) mem_fds_step h (by simp [h0, Reactor.newReactor])
  have hhandler : ∀ fd, (t.reactor.handler fd).isSome ↔ Installed fd ops ∧ .remove fd ∉ sinceInstall fd ops := fun fd =>
    kept_iff (B := fun s => (s.reactor.handler fd).isSome) handler_step h
      (by simp [h0, Reactor.newReactor, Reactor.handler])
  apply forall_congr'
  intro fd
  rw [hfds, hhandler]
  constructor
  · intro hiff hin
    rw [← not_iff_not]
    exact ⟨fun hr => (hiff.2 ⟨hin, hr⟩).2, fun hu => (hiff.1 ⟨hin, hu⟩).2⟩
  · intro hiff
    exact and_congr_right fun hin => (not_congr (hiff hin)).symm

/-- Descriptor 4 is installed, removed, hung up and installed again. -/
theorem registered_iff_again :
    ∃ t, machine.Run stdio [.install .handle_client_data 4, .remove 4, .hang_up 4, .install .handle_client_data 4] t ∧
      Registered t.reactor := by
  obtain ⟨reac₁, h₁, -⟩ := Reactor.InstallHandler_spec stdio.reactor .handle_client_data (show 4 < MAX_FDS by decide)
  obtain ⟨reac₂, h₂, -⟩ := Reactor.RemoveHandler_spec reac₁ (show 4 < MAX_FDS by decide)
  obtain ⟨reac₃, h₃, -⟩ := Reactor.InstallHandler_spec (reac₂.FD_CLR 4) .handle_client_data (show 4 < MAX_FDS by decide)
  have r := Machine.Run.nil (M := machine) stdio
  have r := r.snoc (Step.install h₁)
  have r := r.snoc (Step.remove h₂)
  have r := r.snoc (@Step.hang_up _ ⟨4, 3, 256⟩ (some []) (fun _ => 0) (.inr rfl))
  have r := r.snoc (Step.install h₃)
  refine ⟨_, r, (registered_iff rfl r).2 fun fd hin => ?_⟩
  obtain ⟨op, hop, hfd⟩ := hin
  have h4 : 4 = fd := by
    simp only [List.nil_append, List.cons_append, List.mem_cons, List.not_mem_nil, or_false] at hop
    rcases hop with rfl | rfl | rfl | rfl <;> simp [Op.installs] at hfd <;> exact hfd
  subst h4
  simp [sinceInstall, Op.installs]

/-- A client connects on descriptor 4 and hangs up: its handler stays. -/
theorem hang_up_keeps_handler :
    ¬ ∀ (s t : State) (ops : List Op) (junk : Int), s.reactor = Reactor.newReactor junk → machine.Run s ops t →
      Registered t.reactor := by
  intro h
  obtain ⟨reac, hreac, hfds, -, hh⟩ :=
    Reactor.InstallHandler_spec stdio.reactor .handle_client_data (show 4 < MAX_FDS by decide)
  have r := Machine.Run.nil (M := machine) stdio
  have r := r.snoc (Step.install hreac)
  have r := r.snoc (@Step.hang_up _ ⟨4, 3, 256⟩ (some []) (fun _ => 0) (.inr rfl))
  have h4 : (4 ∈ reac.fds.erase 4) ↔ (reac.handler 4).isSome := h _ _ _ 0 rfl r 4
  simp [hh] at h4

end Ex6.Registration
