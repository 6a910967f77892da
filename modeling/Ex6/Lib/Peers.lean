import Ex6.Lib.Machine
/-!
# A server and peers that go away

A peer may reset its connection at any time. A server that then sends on it is
killed, as a process is by `SIGPIPE`. `withPeers` puts a machine among such
peers, `Spared` is what its steps have to meet to keep it running, and in
`sparing` they do.
-/

namespace Lib
variable {σ ε C : Type}

structure World (σ C : Type) where
  server : σ
  /-- The peers that have reset their connection. -/
  gone : C → Prop
  running : Prop

inductive WorldEvent (ε C : Type)
  | reset (c : C)
  | server (e : ε)

/-- One step of a world, where `sends s e c` says that the step `e` sends on
connection `c`. -/
inductive World.Step (M : Machine σ ε) (sends : σ → ε → C → Prop) (s : World σ C) :
    WorldEvent ε C → World σ C → Prop
  | reset {c} : s.running → World.Step M sends s (.reset c) { s with gone := fun c' => s.gone c' ∨ c' = c }
  | server {e t} : s.running → M.step s.server e t → (∀ c, sends s.server e c → ¬ s.gone c) →
      World.Step M sends s (.server e) { s with server := t }
  | killed {e t c} : s.running → M.step s.server e t → sends s.server e c → s.gone c →
      World.Step M sends s (.server e) { s with running := False }

/-- The machine among its peers, all of them there at first. -/
def withPeers (M : Machine σ ε) (sends : σ → ε → C → Prop) : Machine (World σ C) (WorldEvent ε C) where
  init s := M.init s.server ∧ (∀ c, ¬ s.gone c) ∧ s.running
  step := World.Step M sends

/-- The step sends on no connection that has been reset. -/
def Spared (sends : σ → ε → C → Prop) (s : World σ C) : WorldEvent ε C → Prop
  | .reset _ => True
  | .server e => ∀ c, sends s.server e c → ¬ s.gone c

variable {M : Machine σ ε} {sends : σ → ε → C → Prop} {s t : World σ C} {e : WorldEvent ε C}

/-- A step leaves the server running if it is spared, and otherwise ends it. -/
theorem World.Step.running_iff (h : World.Step M sends s e t) : t.running ↔ Spared sends s e := by
  cases h with
  | reset hr => exact ⟨fun _ => trivial, fun _ => hr⟩
  | server hr hs hc => exact ⟨fun _ => hc, fun _ => hr⟩
  | killed hr hs hc hg => exact ⟨fun h => absurd h id, fun hspared => absurd hg (hspared _ hc)⟩

/-- What the server's own steps meet besides. -/
def Keeps (promise : σ → ε → Prop) (s : World σ C) : WorldEvent ε C → Prop
  | .reset _ => True
  | .server e => promise s.server e

/-- The machine among its peers, as long as its steps are spared and keep `promise`. -/
def sparing (M : Machine σ ε) (sends : σ → ε → C → Prop) (promise : σ → ε → Prop) :
    Machine (World σ C) (WorldEvent ε C) :=
  (withPeers M sends).meeting fun s e => Spared sends s e ∧ Keeps promise s e

variable {promise : σ → ε → Prop}

/-- A server that is spared is running, and one of its own runs has led it where it is. -/
theorem World.reachable_sparing (h : (sparing M sends promise).Reachable s) :
    s.running ∧ (M.meeting promise).Reachable s.server := by
  induction h with
  | init h0 => exact ⟨h0.2.2, .init h0.1⟩
  | step _ hs ih =>
    obtain ⟨hs, hspared, hkeeps⟩ := hs
    refine ⟨hs.running_iff.2 hspared, ?_⟩
    cases hs with
    | reset => exact ih.2
    | server _ ht => exact .step ih.2 ⟨ht, hkeeps⟩
    | killed => exact ih.2

/-- Peers may always go. -/
theorem World.reset_step (hr : s.running) (c : C) :
    (sparing M sends promise).step s (.reset c) { s with gone := fun c' => s.gone c' ∨ c' = c } :=
  ⟨.reset hr, trivial, trivial⟩

/-- A step of the server that is spared. -/
theorem World.spared_step {e : ε} {t : σ} (hr : s.running) (ht : M.step s.server e t)
    (hc : ∀ c, sends s.server e c → ¬ s.gone c) (he : promise s.server e) :
    (sparing M sends promise).step s (.server e) { s with server := t } :=
  ⟨.server hr ht hc, hc, he⟩

/-- Nobody can end a run that sends nothing. -/
theorem World.silent_run {evs : List ε} {t : σ} (hr : s.running) (h : M.Run s.server evs t)
    (he : ∀ e ∈ evs, ∀ u, (∀ c, ¬ sends u e c) ∧ promise u e) :
    (sparing M sends promise).Run s (evs.map .server) { s with server := t } := by
  induction h with
  | nil => exact .nil s
  | @snoc t u evs e _ ht ih =>
    obtain ⟨hsends, hpromise⟩ := he e (by simp) t
    rw [List.map_append]
    exact (ih fun e' he' => he e' (by simp [he'])).snoc
      (World.spared_step (s := { s with server := t }) hr ht (fun c hc => absurd hc (hsends c)) hpromise)

end Lib
