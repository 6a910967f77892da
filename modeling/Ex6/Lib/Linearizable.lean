import Mathlib.Logic.Relation
import Ex6.Lib.Machine
/-!
# Linearizable histories

An `Object` says what operations do one after the other. In a history threads
call operations and operations return, and those of different threads overlap.
It is linearizable if its operations can be put in an order that the object
allows, with the results they have returned, and in which an operation that had
returned when another was called comes before that one.

`atomic` is the object in the hands of threads: an operation takes effect at
one point between its call and its return. `atomic_linearizable` says that the
order of these points will do.
-/

namespace Lib
variable {T Op Res σ : Type}

structure Object (Op Res σ : Type) where
  init : σ
  step : σ → Op → Res → σ → Prop

/-- The operations with their results, one after the other, lead to `s`. -/
inductive Object.Legal (O : Object Op Res σ) : List (Op × Res) → σ → Prop
  | nil : Legal O [] O.init
  | snoc {l : List (Op × Res)} {s t : σ} {op : Op} {res : Res} :
      Legal O l s → O.step s op res t → Legal O (l ++ [(op, res)]) t

/-- Operations given by their code: each step reads and changes the data, and one that
may return `res` ends there. -/
structure Code (Op Res L σ : Type) where
  enter : Op → L
  step : L × σ → L × σ → Prop
  ret : L → σ → Res → Prop

/-- What the code does to `init` with nobody else there. -/
def Code.alone {L : Type} (C : Code Op Res L σ) (init : σ) : Object Op Res σ :=
  ⟨init, fun s op res t => ∃ l, Relation.ReflTransGen C.step (C.enter op, s) (l, t) ∧ C.ret l t res⟩

/-! ## Histories -/

inductive Action (T Op Res : Type)
  | call (t : T) (op : Op)
  | ret (t : T) (res : Res)

/-- An operation is named by the place of its call in the history. -/
def Called (H : List (Action T Op Res)) (i : Nat) (t : T) (op : Op) : Prop := H[i]? = some (.call t op)

/-- The operation that `t` calls at `i` returns `res` at `k`. -/
structure Returns (H : List (Action T Op Res)) (i : Nat) (t : T) (res : Res) (k : Nat) : Prop where
  later : i < k
  action : H[k]? = some (.ret t res)
  first : ∀ m, i < m → m < k → ∀ r, H[m]? ≠ some (.ret t r)

/-- The operation that `t` calls at `i` has not returned. -/
def Pending (H : List (Action T Op Res)) (i : Nat) (t : T) : Prop := ∀ m, i < m → ∀ r, H[m]? ≠ some (.ret t r)

/-- Operation `i` has returned when operation `j` is called. -/
def Precedes (H : List (Action T Op Res)) (i j : Nat) : Prop :=
  ∃ t op res k u op', Called H i t op ∧ Returns H i t res k ∧ k < j ∧ Called H j u op'

structure Linearization (O : Object Op Res σ) (H : List (Action T Op Res)) (lin : List (Nat × Op × Res)) : Prop where
  legal : ∃ s, O.Legal (lin.map Prod.snd) s
  nodup : (lin.map Prod.fst).Nodup
  called : ∀ x ∈ lin, ∃ t, Called H x.1 t x.2.1
  returned : ∀ i t op res k, Called H i t op → Returns H i t res k → (i, op, res) ∈ lin
  order : ∀ i j, Precedes H i j → j ∈ lin.map Prod.fst → [i, j].Sublist (lin.map Prod.fst)

def Linearizable (O : Object Op Res σ) (H : List (Action T Op Res)) : Prop := ∃ lin, Linearization O H lin

/-! ## An object among threads -/

inductive Status (Op Res : Type)
  | idle
  | called (op : Op)
  | done (res : Res)

structure Shared (T Op Res σ : Type) where
  obj : σ
  status : T → Status Op Res

inductive AtomicEvent (T Op Res : Type)
  | act (a : Action T Op Res)
  | commit (t : T)

inductive AtomicStep [DecidableEq T] (O : Object Op Res σ) (s : Shared T Op Res σ) :
    AtomicEvent T Op Res → Shared T Op Res σ → Prop
  | call {t op} : s.status t = .idle →
      AtomicStep O s (.act (.call t op)) { s with status := Function.update s.status t (.called op) }
  | commit {t op res obj} : s.status t = .called op → O.step s.obj op res obj →
      AtomicStep O s (.commit t) ⟨obj, Function.update s.status t (.done res)⟩
  | ret {t res} : s.status t = .done res →
      AtomicStep O s (.act (.ret t res)) { s with status := Function.update s.status t .idle }

def atomic (O : Object Op Res σ) (T : Type) [DecidableEq T] : Machine (Shared T Op Res σ) (AtomicEvent T Op Res) where
  init s := s = ⟨O.init, fun _ => .idle⟩
  step := AtomicStep O

/-- What a client sees of an event. -/
def AtomicEvent.action : AtomicEvent T Op Res → Option (Action T Op Res)
  | .act a => some a
  | .commit _ => none

/-! ## One more action -/

variable {H : List (Action T Op Res)} {a : Action T Op Res} {i j k : Nat} {t u : T} {op : Op} {res : Res}

theorem getElem?_snoc {α : Type} {l : List α} {x y : α} {i : Nat} :
    (l ++ [x])[i]? = some y ↔ l[i]? = some y ∨ (i = l.length ∧ x = y) := by
  rcases Nat.lt_trichotomy i l.length with hi | rfl | hi
  · rw [List.getElem?_append_left hi]
    exact ⟨.inl, fun h => h.resolve_right fun he => Nat.ne_of_lt hi he.1⟩
  · simp
  · rw [List.getElem?_eq_none (by simp; omega), List.getElem?_eq_none (by omega)]
    simp
    omega

theorem Called.lt (h : Called H i t op) : i < H.length := (List.getElem?_eq_some_iff.1 h).1

theorem Called.unique {op' : Op} (h : Called H i t op) (h' : Called H i u op') : t = u ∧ op = op' := by
  have he := h.symm.trans h'
  simp only [Option.some.injEq, Action.call.injEq] at he
  exact he

theorem called_snoc : Called (H ++ [a]) i t op ↔ Called H i t op ∨ (i = H.length ∧ a = .call t op) := getElem?_snoc

/-- The last action is a return of the operations that had not returned. -/
theorem Returns.snoc_cases (h : Returns (H ++ [a]) i t res k) :
    Returns H i t res k ∨ (k = H.length ∧ a = .ret t res ∧ Pending H i t) := by
  have hfirst : ∀ m, i < m → m < k → ∀ r, H[m]? ≠ some (.ret t r) := fun m hm hk r he =>
    h.first m hm hk r (getElem?_snoc.2 (.inl he))
  rcases getElem?_snoc.1 h.action with hk | ⟨rfl, rfl⟩
  · exact .inl ⟨h.later, hk, hfirst⟩
  · exact .inr ⟨rfl, rfl, fun m hm r he => hfirst m hm (List.getElem?_eq_some_iff.1 he).1 r he⟩

theorem Precedes.of_snoc (h : Precedes (H ++ [a]) i j) (hj : j < H.length) : Precedes H i j := by
  obtain ⟨t, op, res, k, u, op', hc, hr, hk, hc'⟩ := h
  have hc' := (called_snoc.1 hc').resolve_right fun he => Nat.ne_of_lt hj he.1
  rcases hr.snoc_cases with hr | ⟨rfl, -, -⟩
  · refine ⟨t, op, res, k, u, op', (called_snoc.1 hc).resolve_right fun he => ?_, hr, hk, hc'⟩
    have := hr.later
    omega
  · omega

theorem pending_snoc (hi : i < H.length) : Pending (H ++ [a]) i t ↔ Pending H i t ∧ ∀ r, a ≠ .ret t r := by
  constructor
  · exact fun h => ⟨fun m hm r he => h m hm r (getElem?_snoc.2 (.inl he)),
      fun r he => h H.length hi r (getElem?_snoc.2 (.inr ⟨rfl, he⟩))⟩
  · rintro ⟨h, ha⟩ m hm r he
    rcases getElem?_snoc.1 he with he | ⟨-, he⟩
    · exact h m hm r he
    · exact ha r he

/-! ## The order of the commits -/

variable {O : Object Op Res σ} {s s' : Shared T Op Res σ} {lin lin' : List (Nat × Op × Res)}

/-- `t` has called `op` at `i` and no return has followed; of no other call is that so. -/
structure Current (H : List (Action T Op Res)) (t : T) (i : Nat) (op : Op) : Prop where
  called : Called H i t op
  pending : Pending H i t
  only : ∀ j op', Called H j t op' → Pending H j t → j = i

/-- What the status of a thread says of the history and the commits. -/
def Follows (H : List (Action T Op Res)) (lin : List (Nat × Op × Res)) (t : T) : Status Op Res → Prop
  | .idle => ∀ i op, Called H i t op → ¬ Pending H i t
  | .called op => ∃ i, Current H t i op ∧ i ∉ lin.map Prod.fst
  | .done res => ∃ i op, Current H t i op ∧ (i, op, res) ∈ lin

structure Recorded (O : Object Op Res σ) (s : Shared T Op Res σ) (H : List (Action T Op Res))
    (lin : List (Nat × Op × Res)) : Prop extends Linearization O H lin where
  now : O.Legal (lin.map Prod.snd) s.obj
  status : ∀ t, Follows H lin t (s.status t)

theorem Linearization.lt (h : Linearization O H lin) (hi : i ∈ lin.map Prod.fst) : i < H.length := by
  obtain ⟨x, hx, rfl⟩ := List.mem_map.1 hi
  obtain ⟨t, ht⟩ := h.called x hx
  exact ht.lt

/-- What precedes another operation has been committed. -/
theorem Linearization.mem_of_precedes (h : Linearization O H lin) (hp : Precedes H i j) : i ∈ lin.map Prod.fst := by
  obtain ⟨t, op, res, k, u, op', hc, hr, -⟩ := hp
  exact List.mem_map.2 ⟨_, h.returned i t op res k hc hr, rfl⟩

/-- The commits do for a longer history if they have what it says returned. -/
theorem Linearization.snoc (h : Linearization O H lin)
    (hr : ∀ i t op res, Called H i t op → Pending H i t → a = .ret t res → (i, op, res) ∈ lin) :
    Linearization O (H ++ [a]) lin := by
  refine ⟨h.legal, h.nodup, fun x hx => ?_, fun i t op res k hc hret => ?_, fun i j hp hj => ?_⟩
  · obtain ⟨t, ht⟩ := h.called x hx
    exact ⟨t, called_snoc.2 (.inl ht)⟩
  · rcases hret.snoc_cases with hret' | ⟨-, ha, hpend⟩
    · rcases called_snoc.1 hc with hc | ⟨rfl, -⟩
      · exact h.returned i t op res k hc hret'
      · exact absurd (Nat.lt_trans hret'.later (List.getElem?_eq_some_iff.1 hret'.action).1) (Nat.lt_irrefl _)
    · rcases called_snoc.1 hc with hc | ⟨-, hc⟩
      · exact hr i t op res hc hpend ha
      · rw [ha] at hc
        cases hc
  · exact h.order i j (hp.of_snoc (h.lt hj)) hj

/-- A thread that has neither called nor returned nor committed is where it was. -/
theorem Follows.other (h : Follows H lin t (s.status t)) (hc : ∀ op, a ≠ .call t op) (hr : ∀ r, a ≠ .ret t r) :
    Follows (H ++ [a]) lin t (s.status t) := by
  have hcalled : ∀ i op, Called (H ++ [a]) i t op → Called H i t op := fun i op h =>
    (called_snoc.1 h).resolve_right fun he => hc op he.2
  have hcurrent : ∀ i op, Current H t i op → Current (H ++ [a]) t i op := fun i op h =>
    ⟨called_snoc.2 (.inl h.called), (pending_snoc h.called.lt).2 ⟨h.pending, hr⟩, fun j op' hj hp =>
      h.only j op' (hcalled j op' hj) ((pending_snoc (hcalled j op' hj).lt).1 hp).1⟩
  cases hst : s.status t with
  | idle =>
    rw [hst] at h
    exact fun i op hi hp => h i op (hcalled i op hi) ((pending_snoc (hcalled i op hi).lt).1 hp).1
  | called op =>
    rw [hst] at h
    obtain ⟨i, hi, hn⟩ := h
    exact ⟨i, hcurrent i op hi, hn⟩
  | done res =>
    rw [hst] at h
    obtain ⟨i, op, hi, hm⟩ := h
    exact ⟨i, op, hcurrent i op hi, hm⟩

theorem Recorded.call [DecidableEq T] (h : Recorded O s H lin) (hidle : s.status t = .idle) :
    Recorded O { s with status := Function.update s.status t (.called op) } (H ++ [.call t op]) lin := by
  refine ⟨h.toLinearization.snoc (fun _ _ _ _ _ _ ha => by cases ha), h.now, fun u => ?_⟩
  by_cases hu : u = t
  · subst hu
    have hno := h.status u
    rw [hidle] at hno
    simp only [Function.update_self]
    refine ⟨H.length, ⟨called_snoc.2 (.inr ⟨rfl, rfl⟩), fun m hm r he => ?_, fun j op' hj hp => ?_⟩,
      fun hm => Nat.lt_irrefl _ (h.lt hm)⟩
    · have := (List.getElem?_eq_some_iff.1 he).1
      simp only [List.length_append, List.length_singleton] at this
      omega
    · rcases called_snoc.1 hj with hj | ⟨rfl, -⟩
      · exact absurd ((pending_snoc hj.lt).1 hp).1 (hno j op' hj)
      · rfl
  · simp only [Function.update_of_ne hu]
    exact (h.status u).other (fun op' he => by cases he; exact hu rfl) (fun r he => by cases he)

theorem Recorded.commit [DecidableEq T] {obj : σ} (h : Recorded O s H lin) (ht : s.status t = .called op)
    (ho : O.step s.obj op res obj) :
    ∃ i, Recorded O ⟨obj, Function.update s.status t (.done res)⟩ H (lin ++ [(i, op, res)]) := by
  have hc := h.status t
  rw [ht] at hc
  obtain ⟨i, hi, hnew⟩ := hc
  have hnow : O.Legal ((lin ++ [(i, op, res)]).map Prod.snd) obj := by
    rw [List.map_append]
    exact h.now.snoc ho
  have hfst : (lin ++ [(i, op, res)]).map Prod.fst = lin.map Prod.fst ++ [i] := by simp
  refine ⟨i, ⟨⟨obj, hnow⟩, ?_, fun x hx => ?_, fun j u op' res' k hj hr => ?_, fun j k hp hk => ?_⟩, hnow, fun u => ?_⟩
  · rw [hfst, List.nodup_append]
    refine ⟨h.nodup, by simp, fun a ha b hb => ?_⟩
    rw [List.mem_singleton.1 hb]
    exact fun he => hnew (he ▸ ha)
  · rcases List.mem_append.1 hx with hx | hx
    · exact h.called x hx
    · rw [List.mem_singleton.1 hx]
      exact ⟨t, hi.called⟩
  · exact List.mem_append.2 (.inl (h.returned j u op' res' k hj hr))
  · rw [hfst] at hk ⊢
    rcases List.mem_append.1 hk with hk | hk
    · exact (h.order j k hp hk).trans (List.sublist_append_left _ _)
    · -- it comes last, after all that have returned
      rw [List.mem_singleton.1 hk] at hp ⊢
      exact (List.singleton_sublist.2 (h.toLinearization.mem_of_precedes hp)).append (List.Sublist.refl [i])
  · by_cases hu : u = t
    · subst hu
      simp only [Function.update_self]
      exact ⟨i, op, hi, by simp⟩
    · have hs := h.status u
      simp only [Function.update_of_ne hu]
      cases hst : s.status u with
      | idle =>
        rw [hst] at hs
        exact hs
      | called op' =>
        rw [hst] at hs
        obtain ⟨j, hj, hn⟩ := hs
        refine ⟨j, hj, fun hm => ?_⟩
        rw [hfst] at hm
        rcases List.mem_append.1 hm with hm | hm
        · exact hn hm
        · have hji := List.mem_singleton.1 hm
          subst hji
          exact hu (hj.called.unique hi.called).1
      | done res' =>
        rw [hst] at hs
        obtain ⟨j, op', hj, hm⟩ := hs
        exact ⟨j, op', hj, List.mem_append.2 (.inl hm)⟩

theorem Recorded.ret [DecidableEq T] (h : Recorded O s H lin) (ht : s.status t = .done res) :
    Recorded O { s with status := Function.update s.status t .idle } (H ++ [.ret t res]) lin := by
  have hc := h.status t
  rw [ht] at hc
  obtain ⟨i, op, hi, hm⟩ := hc
  refine ⟨h.toLinearization.snoc (fun j u op' res' hj hp ha => ?_), h.now, fun u => ?_⟩
  · cases ha
    have hji := hi.only j op' hj hp
    subst hji
    rw [(hj.unique hi.called).2]
    exact hm
  · by_cases hu : u = t
    · subst hu
      simp only [Function.update_self]
      intro j op' hj hp
      have hj := (called_snoc.1 hj).resolve_right fun he => by cases he.2
      exact ((pending_snoc hj.lt).1 hp).2 res rfl
    · simp only [Function.update_of_ne hu]
      exact (h.status u).other (fun op' he => by cases he) (fun r he => by cases he; exact hu rfl)

/-- Operations that take effect at one point between their call and their
return are linearizable. -/
theorem atomic_linearizable [DecidableEq T] {evs : List (AtomicEvent T Op Res)}
    (h : (atomic O T).Run ⟨O.init, fun _ => .idle⟩ evs s) : Linearizable O (evs.filterMap AtomicEvent.action) := by
  suffices hrec : ∃ lin, Recorded O s (evs.filterMap AtomicEvent.action) lin from
    hrec.elim fun lin hl => ⟨lin, hl.toLinearization⟩
  induction h with
  | nil =>
    refine ⟨[], ⟨⟨O.init, .nil⟩, List.nodup_nil, by simp, ?_, by simp⟩, .nil, fun t => ?_⟩
    · intro i t op res k hc
      simp [Called] at hc
    · intro i op hc
      simp [Called] at hc
  | @snoc t u evs e _ hst ih =>
    obtain ⟨lin, hl⟩ := ih
    rw [List.filterMap_append]
    cases hst with
    | call hidle => exact ⟨lin, hl.call hidle⟩
    | commit hc ho =>
      obtain ⟨i, hi⟩ := hl.commit hc ho
      rw [← List.append_nil (evs.filterMap AtomicEvent.action)] at hi
      exact ⟨_, hi⟩
    | ret hd => exact ⟨lin, hl.ret hd⟩

end Lib
