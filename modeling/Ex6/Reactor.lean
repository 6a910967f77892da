import Mathlib.Data.Finset.Basic
import Mathlib.Logic.Function.Basic
/-!
# The reactor

A table of handlers by descriptor and, right after it in memory, the set of
descriptors to watch. Nothing checks a descriptor against the length of the
table.
-/

namespace Ex6

/-- The functions that are installed as handlers. -/
inductive Handler
  | accept_connection
  | handle_client_data
deriving Repr, DecidableEq

abbrev MAX_FDS : Nat := 64

structure Reactor where
  handlers : Fin MAX_FDS → Option Handler
  fds : Finset Nat
  highest_fd : Int

namespace Reactor

/-- `newReactor`: `malloc` leaves `highest_fd` as it finds it. -/
def newReactor (junk : Int) : Reactor := ⟨fun _ => none, ∅, junk⟩

def FD_SET (reac : Reactor) (fd : Nat) : Reactor := { reac with fds := insert fd reac.fds }

def FD_CLR (reac : Reactor) (fd : Nat) : Reactor := { reac with fds := reac.fds.erase fd }

/-- `reac->handlers[fd]`, none where there is no such entry or it is null. -/
def handler (reac : Reactor) (fd : Nat) : Option Handler :=
  if h : fd < MAX_FDS then reac.handlers ⟨fd, h⟩ else none

/-- Undefined, as the store to `handlers[fd]` is, beyond the table. -/
def InstallHandler (reac : Reactor) (func : Handler) (fd : Nat) : Option Reactor :=
  if h : fd < MAX_FDS then
    some { handlers := Function.update reac.handlers ⟨fd, h⟩ (some func)
           highest_fd := if reac.highest_fd < fd then fd else reac.highest_fd
           fds := insert fd reac.fds }
  else none

/-- The bit in `fds` is left as it is. -/
def RemoveHandler (reac : Reactor) (FD : Nat) : Option Reactor :=
  if h : FD < MAX_FDS then some { reac with handlers := Function.update reac.handlers ⟨FD, h⟩ none } else none

/-! ## Where the table ends -/

/-- The size of a function pointer. -/
abbrev slot_size : Nat := 8

/-- The offset of `handlers[fd]` in the reactor. -/
def slot (fd : Nat) : Nat := slot_size * fd

/-- The offset of `fds`. -/
def fds_offset : Nat := slot_size * MAX_FDS

/-- An entry ends before `fds` starts exactly if its index is in range. -/
theorem slot_end_le (fd : Nat) : slot fd + slot_size ≤ fds_offset ↔ fd < MAX_FDS := by
  simp only [slot, fds_offset, slot_size, MAX_FDS]
  omega

@[simp] theorem FD_SET_fds (reac : Reactor) (fd : Nat) : (reac.FD_SET fd).fds = insert fd reac.fds := rfl

@[simp] theorem FD_SET_highest_fd (reac : Reactor) (fd : Nat) : (reac.FD_SET fd).highest_fd = reac.highest_fd := rfl

@[simp] theorem FD_SET_handler (reac : Reactor) (fd : Nat) : (reac.FD_SET fd).handler = reac.handler := rfl

@[simp] theorem FD_CLR_fds (reac : Reactor) (fd : Nat) : (reac.FD_CLR fd).fds = reac.fds.erase fd := rfl

@[simp] theorem FD_CLR_highest_fd (reac : Reactor) (fd : Nat) : (reac.FD_CLR fd).highest_fd = reac.highest_fd := rfl

@[simp] theorem FD_CLR_handler (reac : Reactor) (fd : Nat) : (reac.FD_CLR fd).handler = reac.handler := rfl

theorem InstallHandler_eq_none {reac : Reactor} {func : Handler} {fd : Nat} (h : ¬ fd < MAX_FDS) :
    InstallHandler reac func fd = none := by
  simp [InstallHandler, h]

/-- An entry, after a store to the table. -/
theorem handler_update {reac reac' : Reactor} {entry : Option Handler} {fd : Nat} (h : fd < MAX_FDS)
    (hstore : reac'.handlers = Function.update reac.handlers ⟨fd, h⟩ entry) :
    reac'.handler = Function.update reac.handler fd entry := by
  funext k
  by_cases hk : k = fd
  · subst hk; simp [handler, h, hstore]
  · have hne : ∀ hk' : k < MAX_FDS, (⟨k, hk'⟩ : Fin MAX_FDS) ≠ ⟨fd, h⟩ := fun _ he => hk (Fin.mk.inj he)
    simp only [handler, hstore, Function.update_of_ne hk]
    split
    · exact Function.update_of_ne (hne _) _ _
    · rfl

/-- In range, `InstallHandler` sets the entry, the bit and, if it was lower,
`highest_fd`. -/
theorem InstallHandler_spec (reac : Reactor) (func : Handler) {fd : Nat} (h : fd < MAX_FDS) :
    ∃ reac', InstallHandler reac func fd = some reac' ∧ reac'.fds = insert fd reac.fds ∧
      reac'.highest_fd = max reac.highest_fd fd ∧
      reac'.handler = Function.update reac.handler fd (some func) := by
  refine ⟨_, dif_pos h, rfl, ?_, handler_update h rfl⟩
  simp only [max_def, le_iff_lt_or_eq]
  split <;> split <;> omega

/-- In range, `RemoveHandler` clears the entry and nothing else. -/
theorem RemoveHandler_spec (reac : Reactor) {FD : Nat} (h : FD < MAX_FDS) :
    ∃ reac', RemoveHandler reac FD = some reac' ∧ reac'.fds = reac.fds ∧ reac'.highest_fd = reac.highest_fd ∧
      reac'.handler = Function.update reac.handler FD none :=
  ⟨_, dif_pos h, rfl, rfl, handler_update h rfl⟩

theorem InstallHandler_some {reac reac' : Reactor} {func : Handler} {fd : Nat}
    (h : InstallHandler reac func fd = some reac') :
    reac'.fds = insert fd reac.fds ∧ reac'.handler = Function.update reac.handler fd (some func) := by
  by_cases hlt : fd < MAX_FDS
  · obtain ⟨reac'', hreac, hfds, -, hh⟩ := InstallHandler_spec reac func hlt
    obtain rfl := Option.some.inj (h.symm.trans hreac)
    exact ⟨hfds, hh⟩
  · rw [InstallHandler_eq_none hlt] at h
    cases h

theorem RemoveHandler_some {reac reac' : Reactor} {FD : Nat} (h : RemoveHandler reac FD = some reac') :
    reac'.fds = reac.fds ∧ reac'.handler = Function.update reac.handler FD none := by
  by_cases hlt : FD < MAX_FDS
  · obtain ⟨reac'', hreac, hfds, -, hh⟩ := RemoveHandler_spec reac hlt
    obtain rfl := Option.some.inj (h.symm.trans hreac)
    exact ⟨hfds, hh⟩
  · simp [RemoveHandler, hlt] at h

end Reactor

end Ex6
