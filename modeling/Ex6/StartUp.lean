import Ex6.Lib.Attempts
import Ex6.SelectCapacity
/-!
# Starting up

The two servers and the select server's client go through the addresses that
`getaddrinfo` has found until a socket can be bound, or connected. `main_ends` says
which address that is, and that no other socket stays open. With that the select
server is where its loop begins, and `from_the_start` follows its descriptors from
the first statement of `main` on.
-/
open Lib

namespace Ex6.StartUp

/-- What a descriptor of the process is open on. `A` are the entries of the list that
`getaddrinfo` makes. -/
inductive Desc (A : Type)
  | file
  | socket
  | bound (p : A)
  | listening (p : A)
  | connected (p : A)

abbrev Table (A : Type) := Nat → Option (Desc A)

/-- What the calls return with the descriptors a process has when it makes them, `none`
and `false` for a failure. `socket` returns a descriptor that is not open. -/
structure Kernel (A : Type) where
  getaddrinfo : Option (List A)
  socket : Table A → A → Option Nat
  setsockopt : Table A → A → Bool
  bind : Table A → A → Bool
  connect : Table A → A → Bool
  listen : Table A → Bool
  sigaction : Bool
  fresh : ∀ table p fd, socket table p = some fd → table fd = none

/-- The variables of `main`. What the select server assigns to its `listener` it assigns
to `rd_st.listener_fd` and `ac_st.listener_fd` as well. -/
structure Vars (A : Type) where
  sockfd : Option Nat
  table : Table A

/-- What the three programs differ in. -/
structure Program (A : Type) where
  /-- The call that has to succeed on every socket, or the program exits. -/
  must : Kernel A → Table A → A → Bool
  /-- The call that makes a socket the one to use, and what it is then. -/
  use : Kernel A → Table A → A → Bool
  used : A → Desc A
  /-- The exit code if no address can be used. -/
  failed : Nat
  /-- The exit code of the first call after the loop that fails, if one does. -/
  after : Kernel A → Table A → Option Nat
  /-- What the socket is once all calls have succeeded. -/
  ready : A → Desc A

/-- Server.cpp. -/
def Server (A : Type) : Program A where
  must K := K.setsockopt
  use K := K.bind
  used := .bound
  failed := 1
  after K table := if K.listen table = false then some 1 else if K.sigaction = false then some 1 else none
  ready := .listening

/-- selectserver.cpp, which does not look at what `setsockopt` returns. -/
def selectserver (A : Type) : Program A where
  must _ _ _ := true
  use K := K.bind
  used := .bound
  failed := 2
  after K table := if K.listen table = false then some 3 else none
  ready := .listening

/-- selectclient.cpp. -/
def selectclient (A : Type) : Program A where
  must _ _ _ := true
  use K := K.connect
  used := .connected
  failed := 2
  after _ _ := none
  ready := .connected

variable {A : Type}

/-- One iteration of the loop over the addresses. -/
def Program.iteration (P : Program A) (K : Kernel A) (s : Vars A) (p : A) : Attempt (Vars A) :=
  match K.socket s.table p with
  | none => .next { s with sockfd := none }
  | some fd =>
    let table := Function.update s.table fd (some .socket)
    if P.must K table p = false then .exits 1 ⟨some fd, table⟩
    else if P.use K table p = false then .next ⟨some fd, Function.update table fd none⟩
    else .found ⟨some fd, Function.update table fd (some (P.used p))⟩

/-- How `main` has ended, or that it has come to its loop. -/
inductive Ending (A : Type)
  | exited (code : Nat) (s : Vars A)
  | serving (p : A) (s : Vars A)

/-- What `listen` makes of the socket. -/
def Vars.become (s : Vars A) (d : Desc A) : Vars A :=
  match s.sockfd with
  | none => s
  | some fd => { s with table := Function.update s.table fd (some d) }

/-- `main` up to its loop. -/
def Program.main (P : Program A) (K : Kernel A) (s : Vars A) : Ending A :=
  match K.getaddrinfo with
  | none => .exited 1 s
  | some ai =>
    match attempts (P.iteration K) s ai with
    | .exits code s => .exited code s
    | .null s => .exited P.failed s
    | .found p s =>
      match P.after K s.table with
      | some code => .exited code s
      | none => .serving p (s.become (P.ready p))

/-! ## Which address it is -/

/-- With the descriptors of `table` there is no socket for `p`, or it is of no use. -/
def Unusable (P : Program A) (K : Kernel A) (table : Table A) (p : A) : Prop :=
  ∀ fd, K.socket table p = some fd → P.must K (Function.update table fd (some .socket)) p = true ∧
    P.use K (Function.update table fd (some .socket)) p = false

/-- The socket for `p` is `fd`, and can be used. -/
structure Usable (P : Program A) (K : Kernel A) (table : Table A) (p : A) (fd : Nat) : Prop where
  socket : K.socket table p = some fd
  must : P.must K (Function.update table fd (some .socket)) p = true
  use : P.use K (Function.update table fd (some .socket)) p = true

/-- How `main` ends if it starts with the descriptors of `table`. -/
inductive Ends (P : Program A) (K : Kernel A) (table : Table A) : Ending A → Prop
  | no_list {sockfd} : K.getaddrinfo = none → Ends P K table (.exited 1 ⟨sockfd, table⟩)
  | no_address {ai sockfd} : K.getaddrinfo = some ai → (∀ p ∈ ai, Unusable P K table p) →
      Ends P K table (.exited P.failed ⟨sockfd, table⟩)
  | must {before p after fd} : K.getaddrinfo = some (before ++ p :: after) → (∀ q ∈ before, Unusable P K table q) →
      K.socket table p = some fd → P.must K (Function.update table fd (some .socket)) p = false →
      Ends P K table (.exited 1 ⟨some fd, Function.update table fd (some .socket)⟩)
  | after {before p after fd code} : K.getaddrinfo = some (before ++ p :: after) →
      (∀ q ∈ before, Unusable P K table q) → Usable P K table p fd →
      P.after K (Function.update table fd (some (P.used p))) = some code →
      Ends P K table (.exited code ⟨some fd, Function.update table fd (some (P.used p))⟩)
  | serving {before p after fd} : K.getaddrinfo = some (before ++ p :: after) →
      (∀ q ∈ before, Unusable P K table q) → Usable P K table p fd →
      P.after K (Function.update table fd (some (P.used p))) = none →
      Ends P K table (.serving p ⟨some fd, Function.update table fd (some (P.ready p))⟩)

variable {P : Program A} {K : Kernel A} {s t : Vars A} {p : A}

/-- What an iteration does, by what the calls return. -/
theorem iteration_next (h : P.iteration K s p = .next t) : t.table = s.table ∧ Unusable P K s.table p := by
  unfold Program.iteration at h
  split at h
  · next hs =>
    cases h
    exact ⟨rfl, fun fd hfd => by rw [hs] at hfd; cases hfd⟩
  · next fd hs =>
    dsimp only at h
    split at h
    · cases h
    · next hm =>
      split at h
      · next hu =>
        cases h
        refine ⟨?_, fun fd' hfd => ?_⟩
        · -- `close` gives back what `socket` took
          simp only [Function.update_idem]
          rw [← K.fresh _ _ _ hs, Function.update_eq_self]
        · rw [hs, Option.some.injEq] at hfd
          subst hfd
          exact ⟨Bool.eq_true_of_not_eq_false hm, hu⟩
      · cases h

theorem iteration_found (h : P.iteration K s p = .found t) : ∃ fd, Usable P K s.table p fd ∧
    t = ⟨some fd, Function.update s.table fd (some (P.used p))⟩ := by
  unfold Program.iteration at h
  split at h
  · cases h
  · next fd hs =>
    dsimp only at h
    split at h
    · cases h
    · next hm =>
      split at h
      · cases h
      · next hu =>
        cases h
        exact ⟨fd, ⟨hs, Bool.eq_true_of_not_eq_false hm, Bool.eq_true_of_not_eq_false hu⟩,
          by rw [Function.update_idem]⟩

theorem iteration_exits {code : Nat} (h : P.iteration K s p = .exits code t) : code = 1 ∧ ∃ fd,
    K.socket s.table p = some fd ∧ P.must K (Function.update s.table fd (some .socket)) p = false ∧
      t = ⟨some fd, Function.update s.table fd (some .socket)⟩ := by
  unfold Program.iteration at h
  split at h
  · cases h
  · next fd hs =>
    dsimp only at h
    split at h
    · next hm =>
      cases h
      exact ⟨rfl, fd, hs, hm, rfl⟩
    · split at h <;> cases h

/-- An attempt that has failed has done so with the descriptors there were at the start. -/
theorem unusable_of_failed (h : Failed (P.iteration K) Vars.table s p) : Unusable P K s.table p := by
  obtain ⟨u, v, hu, hb⟩ := h
  rw [← hu]
  exact (iteration_next hb).2

/-- `main` serves at the first address it can use, with one more descriptor open than
before. Where it exits it has closed what was of no use. -/
theorem main_ends (P : Program A) (K : Kernel A) (s : Vars A) : Ends P K s.table (P.main K s) := by
  unfold Program.main
  cases hlist : K.getaddrinfo with
  | none => exact .no_list hlist
  | some ai =>
    dsimp only
    have hkeep : ∀ u p v, P.iteration K u p = .next v → Vars.table v = Vars.table u := fun _ _ _ h =>
      (iteration_next h).1
    have htried := attempts_tried hkeep s ai
    generalize attempts (P.iteration K) s ai = r at htried
    cases htried with
    | @null t hall ht =>
      obtain ⟨sockfd, table⟩ := t
      obtain rfl : table = s.table := ht
      exact .no_address hlist fun p hp => unusable_of_failed (hall p hp)
    | @exits before p after t code u hai hall ht hb =>
      obtain ⟨rfl, fd, hs, hm, rfl⟩ := iteration_exits hb
      rw [ht] at hs hm ⊢
      exact .must (hai ▸ hlist) (fun q hq => unusable_of_failed (hall q hq)) hs hm
    | @found before p after t u hai hall ht hb =>
      obtain ⟨fd, husable, rfl⟩ := iteration_found hb
      rw [ht] at husable ⊢
      have hall' : ∀ q ∈ before, Unusable P K s.table q := fun q hq => unusable_of_failed (hall q hq)
      cases hafter : P.after K (Function.update s.table fd (some (P.used p))) with
      | some code =>
        simp only [hafter]
        exact .after (hai ▸ hlist) hall' husable hafter
      | none =>
        simp only [hafter, Vars.become, Function.update_idem]
        exact .serving (hai ▸ hlist) hall' husable hafter

/-- Server.cpp does not serve where `setsockopt` fails. To the select server it is all
the same. -/
theorem setsockopt_fails (K : Kernel A) (s : Vars A) : ((∀ table p, K.setsockopt table p = false) →
    ∀ p t, (Server A).main K s ≠ .serving p t) ∧
      ∀ setsockopt, (selectserver A).main { K with setsockopt } s = (selectserver A).main K s := by
  refine ⟨fun hset p t h => ?_, fun _ => rfl⟩
  have he := main_ends (Server A) K s
  rw [h] at he
  cases he with
  | serving _ _ husable _ => exact Bool.false_ne_true ((hset _ p).symm.trans husable.must)

/-! ## The select server from its first statement on -/

/-- What a descriptor is to the loop of the select server. -/
def Desc.seen : Desc A → SelectServer.Desc
  | .listening _ => .listening
  | _ => .file

/-- The select server when `main` begins, with the descriptors it has then. -/
structure Begun (x : SelectServer.State) (s : Vars A) : Prop where
  boot : SelectServer.AtBoot x
  table : ∀ fd, x.table fd = (s.table fd).map Desc.seen

/-- What `main` has come to when it serves. -/
theorem serving_spec (h : P.main K s = .serving p t) : ∃ fd, s.table fd = none ∧
    t = ⟨some fd, Function.update s.table fd (some (P.ready p))⟩ := by
  have he := main_ends P K s
  rw [h] at he
  cases he with
  | serving _ _ husable _ => exact ⟨_, K.fresh _ _ _ husable.socket, rfl⟩

/-- The loop begins as `SelectServer.boot` says, on the socket of `main`. -/
theorem serving_boots {x : SelectServer.State} (hx : Begun x s) (h : (selectserver A).main K s = .serving p t) :
    ∃ fd, t.sockfd = some fd ∧ SelectServer.Step x (.boot fd) (SelectServer.boot x fd) ∧
      ∀ j, (SelectServer.boot x fd).table j = (t.table j).map Desc.seen := by
  obtain ⟨fd, hfree, rfl⟩ := serving_spec h
  refine ⟨fd, rfl, .boot hx.boot.ctl ?_, fun j => ?_⟩
  · rw [hx.table, hfree]
    rfl
  · rw [(SelectServer.boot_table x fd).1]
    by_cases hj : j = fd
    · subst hj
      simp [selectserver, Desc.seen]
    · simp only [Function.update_of_ne hj]
      exact hx.table j

/-- From its first statement on, the select server has open what it had open then, the
one socket of the first address that can be used, and the connections it has accepted
and not closed; and it waits on the last two. -/
theorem from_the_start {x y : SelectServer.State} {evs : List SelectServer.Event} {fd : Nat} (hx : Begun x s)
    (h : (selectserver A).main K s = .serving p t) (hfd : t.sockfd = some fd) (hlt : fd < MAX_FDS)
    (hr : (SelectServer.server SelectServer.AtBoot).Run (SelectServer.boot x fd) evs y)
    (he : ∀ e ∈ evs, e.InRange) :
    (∀ j, y.table j = some .file ↔ s.table j ≠ none) ∧ (∀ j, y.table j = some .listening ↔ j = fd) ∧
      (∀ j, j ∈ y.reactor.fds ↔ j = fd ∨ ∃ c, y.table j = some (.conn c)) ∧
      y.ac_st.listener_fd = fd ∧ y.rd_st.listener_fd = fd := by
  obtain ⟨fd', hfree, rfl⟩ := serving_spec h
  obtain rfl : fd' = fd := Option.some.inj hfd
  have hkeep : SelectServer.Inv y ∧ (∀ j, y.table j = some .file ↔ s.table j ≠ none) ∧ y.listener = fd' := by
    apply (hr.under he).keeps (P := fun y => SelectServer.Inv y ∧ (∀ j, y.table j = some .file ↔ s.table j ≠ none) ∧
      y.listener = fd')
    · rintro u e v ⟨hi, hfiles, hl⟩ ⟨hs, hin⟩
      obtain ⟨hfiles', hl'⟩ := SelectServer.files_step hi hs hin
      exact ⟨SelectServer.inv_step hi hs hin, fun j => (hfiles' j).trans (hfiles j), hl'.trans hl⟩
    · refine ⟨SelectServer.inv_boot hx.boot hlt, fun j => ?_, (SelectServer.boot_table x fd').2⟩
      rw [(SelectServer.boot_table x fd').1]
      by_cases hj : j = fd'
      · subst hj
        simp [hfree]
      · rw [Function.update_of_ne hj]
        constructor
        · intro hfile hnone
          rw [hx.table, hnone] at hfile
          cases hfile
        · intro hsome
          obtain ⟨d, hd⟩ := Option.ne_none_iff_exists'.1 hsome
          have hseen : x.table j = some d.seen := by
            rw [hx.table, hd]
            rfl
          rw [hseen, hx.boot.table j _ hseen]
  obtain ⟨hi, hfiles, hl⟩ := hkeep
  have hd := hi.descriptors
  refine ⟨hfiles, fun j => ?_, fun j => ?_, ?_, ?_⟩
  · rw [hd.listening, hl]
  · rw [hd.fds, hl]
  · rw [hd.ac_st, hl]
  · rw [hd.rd_st, hl]

/-- One address, all calls succeed, and `socket` returns 3 if that is free. -/
def one_address : Kernel Unit where
  getaddrinfo := some [()]
  socket table _ :=
    match table 3 with
    | none => some 3
    | some _ => none
  setsockopt _ _ := true
  bind _ _ := true
  connect _ _ := true
  listen _ := true
  sigaction := true
  fresh table _ fd h := by
    split at h
    · next hnone =>
      cases h
      exact hnone
    · cases h

/-- The three standard descriptors are open. -/
def standard : Vars Unit := ⟨none, fun fd => if fd < 3 then some .file else none⟩

theorem standard_begun : Begun SelectServer.stdio standard where
  boot := SelectServer.stdio_atBoot
  table fd := by
    unfold SelectServer.stdio standard
    dsimp only
    split <;> rfl

/-- The listener is 3, and a client connects on 4. -/
theorem from_the_start_client : ∃ y : SelectServer.State, (∃ c, y.table 4 = some (.conn c)) ∧
    ∀ j, y.table j = some .listening ↔ j = 3 := by
  have hboot := SelectServer.inv_boot SelectServer.stdio_atBoot (show 3 < MAX_FDS by decide)
  obtain ⟨evs, y, hr, hevs, -, -, hopen⟩ := SelectServer.client_run hboot rfl (show 4 < MAX_FDS by decide) rfl
  have he : ∀ e ∈ evs, e.InRange := by
    intro e hm k hk
    have hin : k ∈ evs.filterMap SelectServer.Event.installs := List.mem_filterMap.2 ⟨e, hm, hk⟩
    rw [hevs, List.mem_singleton] at hin
    rw [hin]
    decide
  obtain ⟨hfile, hlistening, -⟩ := from_the_start (K := one_address) standard_begun rfl rfl (by decide) hr he
  refine ⟨y, ?_, hlistening⟩
  obtain ⟨d, hd⟩ := Option.ne_none_iff_exists'.1 ((hopen 4).2 (.inl rfl))
  cases d with
  | conn c => exact ⟨c, hd⟩
  | file => exact absurd rfl ((hfile 4).1 hd)
  | listening => exact absurd ((hlistening 4).1 hd) (by decide)

end Ex6.StartUp
