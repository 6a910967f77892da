import Mathlib.Logic.Function.Basic
import Ex6.Queue
/-!
# Singletons

`Singleton<T>` is one class for each type, but all of them keep their object in
one global pointer, which `Instance` sets once and nothing ever clears.
`lifecycle_iff` says which sequences of calls at one type meet what a singleton
promises, and `independent_iff` when those of several types stay apart.
-/

namespace Ex6.Singleton

/-- An object of `Singleton<type>`. -/
structure Object {Ty : Type} (Val : Ty → Type) where
  type : Ty
  obj : Val type

/-- The objects created and not deleted, and the global `instance`. -/
structure State {Ty : Type} (Val : Ty → Type) where
  heap : Addr → Option (Object Val)
  inst : Option Addr

/-- `Singleton<type>::Instance(value)`, where `new` would put the object at `a`. -/
structure Call {Ty : Type} (Val : Ty → Type) where
  type : Ty
  value : Val type
  a : Addr

inductive Op {Ty : Type} (Val : Ty → Type)
  | Instance (call : Call Val)
  | Destroy

variable {Ty : Type} {Val : Ty → Type}

def start : State Val := ⟨fun _ => none, none⟩

/-- What `new Singleton<T>(value)` makes. -/
def Call.object (call : Call Val) : Object Val := ⟨call.type, call.value⟩

/-- `Singleton<T>::Instance`: the pointer returned, and the state then. -/
def Instance (s : State Val) (call : Call Val) : Addr × State Val :=
  match s.inst with
  | none => (call.a, ⟨Function.update s.heap call.a (some call.object), some call.a⟩)
  | some p => (p, s)

/-- `Singleton<T>::Destroy`: what it throws, if anything, and the state then. A
`delete` of what is not there is undefined. -/
def Destroy (s : State Val) : Option (Option String × State Val) :=
  match s.inst with
  | none => some (some "cannot destroy singleton that wasn't created.", s)
  | some p =>
    match s.heap p with
    | none => none
    | some _ => some (none, { s with heap := Function.update s.heap p none })

/-! ## Create and destroy -/

/-- What the callers may expect of `ops`, when the object they share is `life`:
`Instance` returns it, live and with its first value, creating it if there is
none; `Destroy` deletes it once, and throws if there is none. -/
def Fulfilled : State Val → Option (Addr × Object Val) → List (Op Val) → Prop
  | _, _, [] => True
  | s, life, .Instance call :: ops =>
    ∃ p obj, obj = (life.map Prod.snd).getD call.object ∧ (∀ x ∈ life, x.1 = p) ∧
      (Instance s call).1 = p ∧ (Instance s call).2.heap p = some obj ∧
      Fulfilled (Instance s call).2 (some (p, obj)) ops
  | s, life, .Destroy :: ops =>
    ∃ thrown t, Destroy s = some (thrown, t) ∧ (thrown.isSome ↔ life = none) ∧ (life = none → t = s) ∧
      (∀ x ∈ life, t.heap x.1 = none) ∧ Fulfilled t none ops

/-- Nothing follows a `Destroy` of an object, where `created` says whether one
has been created before. -/
def DestroyLast (created : Prop) (ops : List (Op Val)) : Prop :=
  ∀ pre post, ops = pre ++ .Destroy :: post → (created ∨ ∃ op ∈ pre, op ≠ .Destroy) → post = []

variable {s : State Val} {ops : List (Op Val)} {p : Addr} {obj : Object Val}

theorem destroyLast_cons {created : Prop} (op : Op Val) :
    DestroyLast created (op :: ops) ↔
      (op = .Destroy → created → ops = []) ∧ DestroyLast (created ∨ op ≠ .Destroy) ops := by
  constructor
  · intro h
    refine ⟨fun hop hc => h [] ops (by rw [hop]; rfl) (.inl hc), fun pre post he hc => ?_⟩
    apply h (op :: pre) post (by rw [he]; rfl)
    rcases hc with (hc | hop) | ⟨op', hop', hne⟩
    · exact .inl hc
    · exact .inr ⟨op, by simp, hop⟩
    · exact .inr ⟨op', by simp [hop'], hne⟩
  · rintro ⟨hop, h⟩ pre post he hc
    cases pre with
    | nil =>
      obtain ⟨rfl, rfl⟩ := List.cons.inj he
      exact hop rfl (hc.resolve_right (by simp))
    | cons op' pre =>
      obtain ⟨rfl, hops⟩ := List.cons.inj he
      apply h pre post hops
      rcases hc with hc | ⟨op', hop', hne⟩
      · exact .inl (.inl hc)
      · rcases List.mem_cons.1 hop' with rfl | hop'
        · exact .inl (.inr hne)
        · exact .inr ⟨op', hop', hne⟩

theorem instance_absent (hi : s.inst = none) (call : Call Val) :
    Instance s call = (call.a, ⟨Function.update s.heap call.a (some call.object), some call.a⟩) := by
  simp only [Instance, hi]

theorem instance_present (hi : s.inst = some p) (call : Call Val) : Instance s call = (p, s) := by
  simp only [Instance, hi]

/-- The pointer is left dangling: no call does what it should any more. -/
theorem fulfilled_dangling (hi : s.inst = some p) (hp : s.heap p = none) : Fulfilled s none ops ↔ ops = [] := by
  constructor
  · intro h
    cases ops with
    | nil => rfl
    | cons op ops =>
      cases op with
      | Instance call =>
        obtain ⟨p', obj, -, -, hret, hlive, -⟩ := h
        rw [instance_present hi] at hret hlive
        rw [← hret] at hlive
        rw [hp] at hlive
        cases hlive
      | Destroy =>
        obtain ⟨thrown, t, hd, -⟩ := h
        simp only [Destroy, hi, hp] at hd
        cases hd
  · rintro rfl
    exact trivial

theorem fulfilled_live (hi : s.inst = some p) (hp : s.heap p = some obj) :
    Fulfilled s (some (p, obj)) ops ↔ DestroyLast True ops := by
  induction ops with
  | nil => simp [Fulfilled, DestroyLast]
  | cons op ops ih =>
    rw [destroyLast_cons]
    cases op with
    | Instance call =>
      have hI := instance_present hi call
      simp only [Fulfilled, hI, true_or]
      rw [← ih]
      simp [hp]
    | Destroy =>
      have hD : Destroy s = some (none, { s with heap := Function.update s.heap p none }) := by
        simp only [Destroy, hi, hp]
      have hdangling := @fulfilled_dangling _ _ { s with heap := Function.update s.heap p none } ops p hi
        (Function.update_self ..)
      constructor
      · rintro ⟨thrown, t, hd, -, -, -, h⟩
        rw [hD] at hd
        obtain ⟨rfl, rfl⟩ := Prod.mk.inj (Option.some.inj hd)
        have hnil := hdangling.1 h
        exact ⟨fun _ _ => hnil, by rw [hnil]; simp [DestroyLast]⟩
      · rintro ⟨hnil, -⟩
        exact ⟨_, _, hD, by simp, by simp, by simp, hdangling.2 (hnil rfl trivial)⟩

theorem fulfilled_absent (hi : s.inst = none) : Fulfilled s none ops ↔ DestroyLast False ops := by
  induction ops with
  | nil => simp [Fulfilled, DestroyLast]
  | cons op ops ih =>
    rw [destroyLast_cons]
    cases op with
    | Instance call =>
      have hI := instance_absent hi call
      have hlive := @fulfilled_live _ _ ⟨Function.update s.heap call.a (some call.object), some call.a⟩ ops call.a
        call.object rfl (Function.update_self ..)
      simp only [Fulfilled, hI]
      simp [hlive]
    | Destroy =>
      have hD : Destroy s = some (some "cannot destroy singleton that wasn't created.", s) := by
        simp only [Destroy, hi]
      simp only [Fulfilled, hD]
      simp [ih]

/-- The calls do what is expected of them exactly if nothing comes after the
first `Destroy` that deletes an object. -/
theorem lifecycle_iff (ops : List (Op Val)) :
    Fulfilled start none ops ↔
      ∀ pre post, ops = pre ++ .Destroy :: post → (∃ op ∈ pre, op ≠ .Destroy) → post = [] := by
  rw [fulfilled_absent rfl]
  simp [DestroyLast]

/-- Created, destroyed, and asked for again: what is returned has been deleted. -/
theorem instance_after_Destroy : ¬ ∀ ops : List (Op (fun _ : Unit => Nat)), Fulfilled start none ops := by
  intro h
  obtain ⟨p, obj, rfl, -, rfl, -, thrown, t, hd, -, -, -, p', obj', -, -, hret, hlive, -⟩ :=
    h [.Instance ⟨(), 1, 0⟩, .Destroy, .Instance ⟨(), 2, 1⟩]
  obtain ⟨rfl, rfl⟩ := Prod.mk.inj (Option.some.inj hd)
  subst hret
  cases hlive

/-! ## Several types -/

variable {calls : List (Call Val)}

/-- The state after a sequence of calls of `Instance`. -/
def created (s : State Val) (calls : List (Call Val)) : State Val :=
  calls.foldl (fun s call => (Instance s call).2) s

/-- `first` is the first call at the type `T`. -/
def FirstAt (T : Ty) (first : Call Val) (calls : List (Call Val)) : Prop :=
  first.type = T ∧ ∃ pre post, calls = pre ++ first :: post ∧ ∀ call ∈ pre, call.type ≠ T

/-- What a call returns was created by the first call at its type, with that
call's value, and is so still after any of the later calls. -/
def Independent (calls : List (Call Val)) : Prop :=
  ∀ pre call post post', calls = pre ++ call :: (post ++ post') →
    ∃ first, FirstAt call.type first calls ∧
      (created start (pre ++ call :: post)).heap (Instance (created start pre) call).1 = some first.object

/-- Once there is an object, calls change nothing. -/
theorem created_present (hi : s.inst = some p) (calls : List (Call Val)) : created s calls = s := by
  induction calls with
  | nil => rfl
  | cons call calls ih =>
    unfold created
    rw [List.foldl_cons, instance_present hi]
    exact ih

/-- The first call of all creates the one object there will be. -/
theorem created_cons (call : Call Val) (calls : List (Call Val)) :
    created start (call :: calls) = ⟨Function.update (fun _ => none) call.a (some call.object), some call.a⟩ := by
  unfold created
  rw [List.foldl_cons, instance_absent rfl]
  exact created_present rfl calls

/-- Every call returns the object of the first one. -/
theorem returned_object (pre : List (Call Val)) (call : Call Val) (post : List (Call Val)) :
    (created start (pre ++ call :: post)).heap (Instance (created start pre) call).1 =
      some ((pre.head?.getD call).object) := by
  cases pre with
  | nil =>
    have hret : (Instance (created start []) call).1 = call.a := by rw [created, List.foldl_nil, instance_absent rfl]
    rw [hret, List.nil_append, created_cons]
    simp
  | cons first pre =>
    have hret : (Instance (created start (first :: pre)) call).1 = first.a := by
      rw [created_cons, instance_present rfl]
    rw [hret, List.cons_append, created_cons]
    simp

/-- The first call of a sequence, seen from any of its calls. -/
theorem head_of_split {head call : Call Val} {tail pre post : List (Call Val)}
    (h : head :: tail = pre ++ call :: post) : pre.head?.getD call = head := by
  cases pre with
  | nil => exact (List.cons.inj h).1.symm
  | cons first pre => exact (List.cons.inj h).1.symm

/-- Singletons are independent exactly if they are all of one type. -/
theorem independent_iff (calls : List (Call Val)) :
    Independent calls ↔ ∀ call ∈ calls, ∀ call' ∈ calls, call.type = call'.type := by
  cases calls with
  | nil => simp [Independent]
  | cons head tail =>
    constructor
    · intro h
      have hhead : ∀ call ∈ head :: tail, head.type = call.type := fun call hc => by
        obtain ⟨pre, post, he⟩ := List.append_of_mem hc
        obtain ⟨first, ⟨hfirst, -⟩, hobj⟩ := h pre call [] post he
        rw [returned_object, head_of_split he] at hobj
        have htype : head.object.type = first.object.type := congrArg Object.type (Option.some.inj hobj)
        exact htype.trans hfirst
      exact fun call hc call' hc' => (hhead call hc).symm.trans (hhead call' hc')
    · intro h pre call post post' he
      refine ⟨head, ⟨h head (by simp) call (by rw [he]; simp), [], tail, rfl, by simp⟩, ?_⟩
      rw [returned_object, head_of_split he]

/-- An `int` and then a `bool`: the second call returns the first one's object. -/
theorem second_type_gets_first : ¬ ∀ calls : List (Call (fun isInt : Bool => if isInt then Int else Bool)),
    Independent calls := by
  intro h
  obtain ⟨first, ⟨hfirst, -⟩, hobj⟩ :=
    h [⟨true, (5 : Int), 0⟩, ⟨false, true, 1⟩] [⟨true, (5 : Int), 0⟩] ⟨false, true, 1⟩ [] [] rfl
  rw [returned_object] at hobj
  have htype : true = first.type := congrArg Object.type (Option.some.inj hobj)
  cases htype.trans hfirst

end Ex6.Singleton
