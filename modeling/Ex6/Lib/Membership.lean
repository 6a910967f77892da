import Mathlib.Data.List.Basic
import Mathlib.Data.List.TakeWhile
/-!
# Logs of a group

A group's log: members join and leave, and things are said to all of them.
`heard c log` is what `c` heard, that is, what was said after it joined and
before it left. `Member` is the time in between, over which all members hear
the same.
-/

namespace Lib
variable {C A : Type}

inductive Entry (C A : Type)
  | join (c : C) | leave (c : C) | say (a : A)
deriving DecidableEq

/-- What an entry says to the members. -/
def Entry.said : Entry C A → Option A
  | .say a => some a
  | _ => none

/-- What happened, but not to whom. -/
def Entry.kind : Entry C A → Entry Unit A
  | .join _ => .join ()
  | .leave _ => .leave ()
  | .say a => .say a

namespace Log
variable [DecidableEq C] [DecidableEq A]

/-- The log from the moment `c` joined. -/
def since (c : C) (log : List (Entry C A)) : List (Entry C A) := log.dropWhile (fun e => !decide (e = .join c))

def heard (c : C) (log : List (Entry C A)) : List A :=
  ((since c log).takeWhile (fun e => !decide (e = .leave c))).filterMap Entry.said

/-- `c` has joined and not left since. -/
def Member (c : C) (log : List (Entry C A)) : Prop := .join c ∈ log ∧ .leave c ∉ since c log

variable {c : C} {log : List (Entry C A)}

theorem since_append (h : .join c ∈ log) (new : List (Entry C A)) : since c (log ++ new) = since c log ++ new := by
  have hne : since c log ≠ [] := by
    rw [since, Ne, List.dropWhile_eq_nil_iff]
    intro hall
    simpa using hall _ h
  have he : (since c log).isEmpty = false := List.isEmpty_eq_false_iff.2 hne
  rw [since] at he
  rw [since, List.dropWhile_append, he]
  rfl

theorem since_of_not_joined (h : .join c ∉ log) (new : List (Entry C A)) : since c (log ++ new) = since c new := by
  have hnil : log.dropWhile (fun e => !decide (e = .join c)) = [] := by
    rw [List.dropWhile_eq_nil_iff]
    rintro e he
    simp only [Bool.not_eq_true', decide_eq_false_iff_not]
    rintro rfl; exact h he
  rw [since, List.dropWhile_append, hnil]
  rfl

/-- A member hears all that is said until it leaves. -/
theorem heard_append (h : Member c log) (new : List (Entry C A)) :
    heard c (log ++ new) = heard c log ++ (new.takeWhile (fun e => !decide (e = .leave c))).filterMap Entry.said := by
  have hall : ∀ e ∈ since c log, (!decide (e = .leave c)) = true := by
    intro e he
    simp only [Bool.not_eq_true', decide_eq_false_iff_not]
    rintro rfl; exact h.2 he
  rw [heard, heard, since_append h.1, List.takeWhile_append_of_pos hall, List.filterMap_append,
    List.takeWhile_eq_self_iff.2 hall]

/-- Between two points at which `c` is a member it hears what is said. -/
theorem heard_of_member {new : List (Entry C A)} (h : Member c log) (h' : Member c (log ++ new)) :
    heard c (log ++ new) = heard c log ++ new.filterMap Entry.said := by
  have hall : ∀ e ∈ new, (!decide (e = .leave c)) = true := by
    intro e he
    simp only [Bool.not_eq_true', decide_eq_false_iff_not]
    rintro rfl
    exact h'.2 (by rw [since_append h.1]; exact List.mem_append_right _ he)
  rw [heard_append h, List.takeWhile_eq_self_iff.2 hall]

/-- One that has left hears nothing more. -/
theorem heard_of_left (h : .leave c ∈ since c log) (hj : .join c ∈ log) (new : List (Entry C A)) :
    heard c (log ++ new) = heard c log := by
  obtain ⟨xs, ys, hxy, hx⟩ := List.eq_append_cons_of_mem h
  have hall : ∀ e ∈ xs, (!decide (e = .leave c)) = true := by
    intro e he
    simp only [Bool.not_eq_true', decide_eq_false_iff_not]
    rintro rfl; exact hx he
  rw [heard, heard, since_append hj, hxy, List.append_assoc, List.takeWhile_append_of_pos hall,
    List.takeWhile_append_of_pos hall]
  simp

theorem heard_of_not_joined (h : .join c ∉ log) : heard c log = [] := by
  have hs : since c log = [] := by simpa [since] using since_of_not_joined h []
  rw [heard, hs]
  rfl

/-- What one hears does not depend on whether another has left. -/
theorem heard_filter {d : C} (h : d ≠ c) (log : List (Entry C A)) :
    heard c (log.filter fun e => !decide (e = .leave d)) = heard c log := by
  have hjoin : ∀ e : Entry C A, (!!decide (e = .leave d) || !decide (e = .join c)) = !decide (e = .join c) := by
    intro e
    by_cases he : e = .leave d
    · subst he; simp
    · simp [he]
  have hleave : ∀ e : Entry C A, (!!decide (e = .leave d) || !decide (e = .leave c)) = !decide (e = .leave c) := by
    intro e
    by_cases he : e = .leave d
    · subst he; simp [h]
    · simp [he]
  unfold heard since
  simp only [List.dropWhile_filter, List.takeWhile_filter, hjoin, hleave, List.filterMap_filter]
  apply List.filterMap_congr
  intro e _
  by_cases he : e = .leave d
  · subst he; simp [Entry.said]
  · simp [he]

/-! ## One entry more -/

/-- Joining and leaving are not heard. -/
theorem heard_silent {e : Entry C A} (he : e.said = none) : heard c (log ++ [e]) = heard c log := by
  by_cases hj : .join c ∈ log
  · by_cases hl : .leave c ∈ since c log
    · exact heard_of_left hl hj [e]
    · rw [heard_append ⟨hj, hl⟩, List.takeWhile_cons]
      split <;> simp [he]
  · rw [heard, since_of_not_joined hj, heard_of_not_joined hj, since, List.dropWhile_cons]
    split <;> simp [he, List.takeWhile_cons]

theorem heard_say (h : Member c log) (a : A) : heard c (log ++ [.say a]) = heard c log ++ [a] := by
  rw [heard_append h]
  simp [Entry.said]

theorem heard_say_other (h : ¬ Member c log) (a : A) : heard c (log ++ [.say a]) = heard c log := by
  by_cases hj : .join c ∈ log
  · exact heard_of_left (not_not.1 fun hl => h ⟨hj, hl⟩) hj _
  · rw [heard_of_not_joined hj, heard_of_not_joined (by simpa using hj)]

theorem member_join (h : .join c ∉ log) : Member c (log ++ [.join c]) := by
  refine ⟨by simp, ?_⟩
  rw [since_of_not_joined h]
  simp [since]

/-- Only its own entries make or end a membership. -/
theorem member_append {e : Entry C A} (hj : e ≠ .join c) (hl : e ≠ .leave c) :
    Member c (log ++ [e]) ↔ Member c log := by
  by_cases h : .join c ∈ log
  · rw [Member, Member, since_append h]
    simp [h, Ne.symm hl]
  · exact ⟨fun hm => absurd hm.1 (by simp [h, Ne.symm hj]), fun hm => absurd hm.1 h⟩

theorem not_member_leave (h : .join c ∈ log) : ¬ Member c (log ++ [.leave c]) := by
  rintro ⟨-, hl⟩
  rw [since_append h] at hl
  simp at hl

end Log

end Lib
