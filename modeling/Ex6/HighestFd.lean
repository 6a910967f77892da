import Mathlib.Order.Bounds.Basic
import Ex6.Reactor
/-!
# The highest descriptor

`InstallHandler` raises `highest_fd` to the descriptor it installs, from
whatever `malloc` left in it. `highest_fd_iff` compares two reactors that
receive the same installations and says from which memory both end up right.
-/

namespace Ex6.Reactor

/-- `InstallHandler(reac, func, fd)` for each of `calls`. -/
def installs (reac : Reactor) : List (Handler × Nat) → Option Reactor
  | [] => some reac
  | (func, fd) :: calls => do
    let reac ← InstallHandler reac func fd
    installs reac calls

/-- The descriptors of some calls. -/
def installed (calls : List (Handler × Nat)) : Set Int := {fd | ∃ call ∈ calls, (call.2 : Int) = fd}

/-- `h` is the largest of `h0` and the descriptors of `calls`. -/
structure Raised (h0 : Int) (calls : List (Handler × Nat)) (h : Int) : Prop where
  start : h0 ≤ h
  above : ∀ call ∈ calls, (call.2 : Int) ≤ h
  attained : h = h0 ∨ ∃ call ∈ calls, (call.2 : Int) = h

theorem Raised.cons {h0 h : Int} {call : Handler × Nat} {calls : List (Handler × Nat)}
    (hr : Raised (max h0 call.2) calls h) : Raised h0 (call :: calls) h where
  start := (le_max_left _ _).trans hr.start
  above := by
    intro call' hc
    rcases List.mem_cons.1 hc with rfl | hc
    · exact (le_max_right _ _).trans hr.start
    · exact hr.above call' hc
  attained := by
    rcases hr.attained with h1 | ⟨call', hc, h1⟩
    · rcases max_choice h0 (call.2 : Int) with hm | hm
      · exact .inl (h1.trans hm)
      · exact .inr ⟨call, by simp, (h1.trans hm).symm⟩
    · exact .inr ⟨call', by simp [hc], h1⟩

/-- In range, the calls succeed, and each raises `highest_fd` or leaves it. -/
theorem installs_spec (reac : Reactor) {calls : List (Handler × Nat)} (h : ∀ call ∈ calls, call.2 < MAX_FDS) :
    ∃ reac', installs reac calls = some reac' ∧ Raised reac.highest_fd calls reac'.highest_fd := by
  induction calls generalizing reac with
  | nil => exact ⟨reac, rfl, le_rfl, by simp, .inl rfl⟩
  | cons call calls ih =>
    obtain ⟨reac₁, h₁, -, hmax, -⟩ := InstallHandler_spec reac call.1 (h call (by simp))
    obtain ⟨reac', h', hr⟩ := ih reac₁ fun call' hc => h call' (by simp [hc])
    rw [hmax] at hr
    exact ⟨reac', by simp only [installs, h₁, Option.bind_eq_bind, Option.bind_some, h'], hr.cons⟩

/-- What it started from must not be above all descriptors. -/
theorem Raised.isGreatest_iff {h0 h : Int} {calls : List (Handler × Nat)} (hr : Raised h0 calls h) :
    IsGreatest (installed calls) h ↔ ∃ call ∈ calls, h0 ≤ call.2 := by
  constructor
  · rintro ⟨⟨call, hc, rfl⟩, -⟩
    exact ⟨call, hc, hr.start⟩
  · rintro ⟨call, hc, hle⟩
    refine ⟨?_, ?_⟩
    · rcases hr.attained with rfl | hatt
      · exact ⟨call, hc, le_antisymm (hr.above call hc) hle⟩
      · exact hatt
    · rintro fd ⟨call', hc', rfl⟩
      exact hr.above call' hc'

theorem installed_perm {calls calls' : List (Handler × Nat)} (h : calls.Perm calls') :
    installed calls = installed calls' := by
  ext fd
  simp only [installed, Set.mem_ofPred_eq, h.mem_iff]

/-- A reactor's `highest_fd` is the largest descriptor installed, and a scan up to
it stays inside the table. -/
structure Highest (reac : Reactor) (calls : List (Handler × Nat)) : Prop where
  greatest : IsGreatest (installed calls) reac.highest_fd
  scan : ∀ i : Nat, (i : Int) ≤ reac.highest_fd → i < MAX_FDS

theorem highest_iff {reac : Reactor} {calls : List (Handler × Nat)} (h : ∀ call ∈ calls, call.2 < MAX_FDS) :
    Highest reac calls ↔ IsGreatest (installed calls) reac.highest_fd := by
  refine ⟨fun hh => hh.greatest, fun hg => ⟨hg, fun i hi => ?_⟩⟩
  obtain ⟨call, hc, hcall⟩ := hg.1
  have := h call hc
  omega

/-- Two reactors with the same installations, in any order, have and agree on the
largest descriptor exactly if neither started above all of them. -/
theorem highest_fd_iff {calls calls' : List (Handler × Nat)} (hperm : calls.Perm calls')
    (hlt : ∀ call ∈ calls, call.2 < MAX_FDS) (junk junk' : Int) :
    (∃ reac reac', installs (newReactor junk) calls = some reac ∧ installs (newReactor junk') calls' = some reac' ∧
      Highest reac calls ∧ Highest reac' calls' ∧ reac.highest_fd = reac'.highest_fd) ↔
      (∃ call ∈ calls, junk ≤ call.2) ∧ ∃ call ∈ calls, junk' ≤ call.2 := by
  have hlt' : ∀ call ∈ calls', call.2 < MAX_FDS := fun call hc => hlt call (hperm.mem_iff.2 hc)
  obtain ⟨reac, hi, hr⟩ := installs_spec (newReactor junk) hlt
  obtain ⟨reac', hi', hr'⟩ := installs_spec (newReactor junk') hlt'
  have hstart' : (∃ call ∈ calls', junk' ≤ call.2) ↔ ∃ call ∈ calls, junk' ≤ call.2 := by
    simp only [hperm.mem_iff]
  constructor
  · rintro ⟨reac₁, reac₁', h₁, h₁', hh, hh', -⟩
    obtain rfl := Option.some.inj (hi.symm.trans h₁)
    obtain rfl := Option.some.inj (hi'.symm.trans h₁')
    exact ⟨hr.isGreatest_iff.1 hh.greatest, hstart'.1 (hr'.isGreatest_iff.1 hh'.greatest)⟩
  · rintro ⟨hj, hj'⟩
    have hg := hr.isGreatest_iff.2 hj
    have hg' := hr'.isGreatest_iff.2 (hstart'.2 hj')
    refine ⟨reac, reac', hi, hi', (highest_iff hlt).2 hg, (highest_iff hlt').2 hg', ?_⟩
    rw [← installed_perm hperm] at hg'
    exact hg.unique hg'

theorem highest_fd_iff_two :
    ∃ reac reac', installs (newReactor 0) [(.accept_connection, 3), (.handle_client_data, 4)] = some reac ∧
      installs (newReactor (-1)) [(.handle_client_data, 4), (.accept_connection, 3)] = some reac' ∧
      Highest reac [(.accept_connection, 3), (.handle_client_data, 4)] ∧
      Highest reac' [(.handle_client_data, 4), (.accept_connection, 3)] ∧ reac.highest_fd = reac'.highest_fd :=
  (highest_fd_iff (.swap _ _ _) (by decide) 0 (-1)).2 ⟨⟨_, .head _, by decide⟩, ⟨_, .head _, by decide⟩⟩

/-- Memory that held a large number: the field keeps it, and a scan leaves the table. -/
theorem highest_fd_of_junk : ¬ ∀ (calls : List (Handler × Nat)) (junk : Int), calls ≠ [] →
    (∀ call ∈ calls, call.2 < MAX_FDS) →
    ∃ reac, installs (newReactor junk) calls = some reac ∧ Highest reac calls := by
  intro h
  obtain ⟨reac, hi, hh⟩ := h [(.accept_connection, 3)] 1000 (by simp) (by decide)
  have hhigh : (installs (newReactor 1000) [(.accept_connection, 3)]).map highest_fd = some 1000 := rfl
  rw [hi, Option.map_some, Option.some.injEq] at hhigh
  exact absurd (hh.scan 1000 (by rw [hhigh]; rfl)) (by decide)

end Ex6.Reactor
