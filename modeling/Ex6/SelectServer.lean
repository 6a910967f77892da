import Ex6.Lib.CString
import Ex6.Lib.Machine
import Ex6.Lib.Membership
import Ex6.Reactor
import Ex6.Text
/-!
# The select server

`main` of the select server as a state machine. One step is one call of
`select`, one iteration of the loop over its result, or the end of that loop.
An iteration that calls a handler runs it to its end: the process has one
thread, and its descriptors change only by what it does itself.

The kernel decides what `select` reports, what `accept` and `recv` return and
how much of its argument each `send` transmits. `Event` has its answers.
-/
open Lib Lib.CString

namespace Ex6.SelectServer

/-- What a descriptor is open on. Connections are numbered as they are accepted. -/
inductive Desc
  | file
  | listening
  | conn (c : Nat)
deriving Repr, DecidableEq

structure accept_struct where
  listener_fd : Nat
deriving Repr, DecidableEq

/-- `buffer` points to `buf` of `main`, which is a field of the state. -/
structure read_struct where
  fd : Nat
  listener_fd : Nat
  buffersize : Nat
deriving Repr, DecidableEq

/-- The `void *` a handler is called with. -/
inductive Arg
  | ac_st (st : accept_struct)
  | rd_st (st : read_struct)
deriving Repr, DecidableEq

/-- A call `reactor->handlers[fd](arg)`, and what `fd` was open on then. -/
structure Call where
  fd : Nat
  handler : Option Handler
  arg : Arg
  desc : Option Desc
deriving Repr, DecidableEq

/-- One walk over what `select` left in `read_fds`. -/
structure Round where
  read_fds : Finset Nat
  /-- What the descriptors were open on when `select` returned. -/
  table : Nat → Option Desc
  calls : List Call

inductive Ctl
  | boot
  | select
  | scan (i : Nat) (round : Round)
  | exited
  /-- Out of the table, through a null pointer, or into the wrong handler. -/
  | undefined

structure State where
  reactor : Reactor
  listener : Nat
  ac_st : accept_struct
  rd_st : read_struct
  buf : List Byte
  ctl : Ctl
  /-- The descriptors of the process. -/
  table : Nat → Option Desc
  /-- Connections accepted so far. -/
  accepted : Nat
  /-- What has been sent, by what it was sent on. -/
  wire : Desc → List Byte
  /-- Who came and went and what was received, as the server got to it. -/
  log : List (Entry Nat (List Byte))
  /-- The indices at which `handlers` was read or written. -/
  accesses : List Nat

/-! ## The handlers -/

/-- What `accept` does to the process before it returns `newfd`. -/
def State.open_conn (s : State) (newfd : Nat) : State :=
  { s with
    table := Function.update s.table newfd (some (.conn s.accepted))
    accepted := s.accepted + 1
    log := s.log ++ [.join s.accepted] }

/-- `accept_connection`, where `accept` returns `newfd`, or -1. -/
def accept_connection (s : State) : Option Nat → State
  | none => s
  | some newfd =>
    let s := s.open_conn newfd
    let reac := s.reactor.FD_SET newfd
    let s := { s with accesses := s.accesses ++ [newfd] }
    match reac.InstallHandler .handle_client_data newfd with
    | none => { s with ctl := .undefined }
    | some reac =>
      { s with reactor := { reac with
        highest_fd := if (newfd : Int) > reac.highest_fd then newfd else reac.highest_fd } }

/-- The log entry of a `close`. -/
def hang_up : Option Desc → List (Entry Nat (List Byte))
  | some (.conn c) => [.leave c]
  | _ => []

/-- `send(j, bytes, …)`, of which the kernel takes the first `n`. -/
def send (table : Nat → Option Desc) (j : Nat) (bytes : List Byte) (n : Nat) (wire : Desc → List Byte) :
    Desc → List Byte :=
  match table j with
  | none => wire
  | some d => Function.update wire d (wire d ++ bytes.take n)

/-- One iteration of the loop that sends to everyone. -/
def send_if_set (s : State) (listener_fd : Nat) (bytes : List Byte) (sent : Nat → Nat) (j : Nat)
    (wire : Desc → List Byte) : Desc → List Byte :=
  if j ∈ s.reactor.fds then
    if j ≠ listener_fd then send s.table j bytes (sent j) wire else wire
  else wire

/-- `handle_client_data`, where `recv` returns `data` or -1. After an error or a
hang-up the descriptor is closed; anything else goes out to everyone, `sent`
bytes of it. Before that the source prints `buf` with `%s`, which is left out
here: over 256 bytes without a NUL it reads on past the end. -/
def handle_client_data (s : State) (st : read_struct) (data : Option (List Byte)) (sent : Nat → Nat) : State :=
  match data with
  | none | some [] =>
    { s with
      table := Function.update s.table st.fd none
      log := s.log ++ hang_up (s.table st.fd)
      reactor := s.reactor.FD_CLR st.fd }
  | some data =>
    let s := { s with buf := overwrite s.buf data, log := s.log ++ [.say data] }
    let body := send_if_set s st.listener_fd (s.buf.take data.length) sent
    { s with wire := forLoop body 0 (s.reactor.highest_fd + 1).toNat s.wire }

/-! ## `main` -/

/-- `main` up to its loop, with `listener` bound and listening. -/
def boot (s : State) (listener : Nat) : State :=
  let s := { s with
    listener
    ac_st := ⟨listener⟩
    rd_st := { s.rd_st with listener_fd := listener }
    table := Function.update s.table listener (some .listening)
    accesses := s.accesses ++ [listener] }
  match (s.reactor.FD_SET listener).InstallHandler .accept_connection listener with
  | none => { s with ctl := .undefined }
  | some reac => { s with reactor := { reac with highest_fd := listener }, ctl := .select }

/-- What `handlers[i]` is called with. -/
def State.arg (s : State) (i : Nat) : Arg :=
  if i = s.listener then .ac_st s.ac_st else .rd_st { s.rd_st with fd := i }

/-- The state a handler called on `i` starts in: `rd_st.fd` is set unless `i` is
the listener, and the loop is about to go on with `i + 1`. -/
def State.called (s : State) (i : Nat) (r : Round) : State :=
  { s with
    rd_st := if i = s.listener then s.rd_st else { s.rd_st with fd := i }
    ctl := .scan (i + 1) { r with calls := r.calls ++ [⟨i, s.reactor.handler i, s.arg i, s.table i⟩] }
    accesses := s.accesses ++ [i] }

inductive Event
  | boot (listener : Nat)
  | select (ready : Finset Nat)
  | select_fails
  | skip
  | accept (newfd : Option Nat)
  | recv (data : Option (List Byte)) (sent : Nat → Nat)
  | mismatch
  | done

/-- A handler that is null or is given the other handler's struct. -/
def Mismatch : Option Handler → Arg → Prop
  | some .accept_connection, .ac_st _ => False
  | some .handle_client_data, .rd_st _ => False
  | _, _ => True

/-- The loop has come to a descriptor that `select` reported. -/
structure Turn (s : State) (i : Nat) (r : Round) : Prop where
  ctl : s.ctl = .scan i r
  bound : (i : Int) ≤ s.reactor.highest_fd
  ready : i ∈ r.read_fds

inductive Step (s : State) : Event → State → Prop
  | boot {listener} : s.ctl = .boot → s.table listener = none → Step s (.boot listener) (boot s listener)
  | select {ready} : s.ctl = .select → ready ⊆ s.reactor.fds →
      Step s (.select ready) { s with ctl := .scan 0 ⟨ready, s.table, []⟩ }
  | select_fails : s.ctl = .select → Step s .select_fails { s with ctl := .exited }
  | skip {i r} : s.ctl = .scan i r → (i : Int) ≤ s.reactor.highest_fd → i ∉ r.read_fds →
      Step s .skip { s with ctl := .scan (i + 1) r }
  | accept {i r st newfd} : Turn s i r → s.reactor.handler i = some .accept_connection → s.arg i = .ac_st st →
      (∀ fd, newfd = some fd → s.table st.listener_fd = some .listening ∧ s.table fd = none) →
      Step s (.accept newfd) (accept_connection (s.called i r) newfd)
  | recv {i r st data sent} : Turn s i r → s.reactor.handler i = some .handle_client_data → s.arg i = .rd_st st →
      (∀ bytes, data = some bytes → bytes.length ≤ st.buffersize) →
      Step s (.recv data sent) (handle_client_data (s.called i r) st data sent)
  | mismatch {i r} : Turn s i r → Mismatch (s.reactor.handler i) (s.arg i) →
      Step s .mismatch { s.called i r with ctl := .undefined }
  | done {i r} : s.ctl = .scan i r → s.reactor.highest_fd < i → Step s .done { s with ctl := .select }

/-- Before `main` has a listener: some files may be open, and nothing has happened. -/
structure AtBoot (s : State) : Prop where
  ctl : s.ctl = .boot
  reactor : ∃ junk, s.reactor = Reactor.newReactor junk
  buf : s.buf.length = 256
  buffersize : s.rd_st.buffersize = 256
  table : ∀ fd d, s.table fd = some d → d = .file
  accepted : s.accepted = 0
  wire : ∀ d, s.wire d = []
  log : s.log = []
  accesses : s.accesses = []

/-- Start-up is over: `main` is before its first `select`. -/
def Started (s : State) : Prop :=
  ∃ s0 listener, AtBoot s0 ∧ s0.table listener = none ∧ s = boot s0 listener ∧ s.ctl = .select

/-- The server from the states `init` on. -/
def server (init : State → Prop) : Machine State Event where
  init := init
  step := Step

/-- The descriptor an event brings to `InstallHandler`. -/
def Event.installs : Event → Option Nat
  | .boot listener => some listener
  | .accept newfd => newfd
  | _ => none

/-- The descriptor is in the range of the handler table. -/
def Event.InRange (e : Event) : Prop := ∀ fd, e.installs = some fd → fd < MAX_FDS

/-- `send` transmits its whole argument. -/
def Event.SendsAll : Event → Prop
  | .recv (some data) sent => ∀ j, data.length ≤ sent j
  | _ => True

/-- Descriptors stay within the table, and `send` transmits its whole argument. -/
def Event.Whole (e : Event) : Prop := e.InRange ∧ e.SendsAll

/-! ## A run -/

/-- The server started with the three standard descriptors open. -/
def stdio : State where
  reactor := Reactor.newReactor 0
  listener := 0
  ac_st := ⟨0⟩
  rd_st := ⟨0, 0, 256⟩
  buf := List.replicate 256 NUL
  ctl := .boot
  table fd := if fd < 3 then some .file else none
  accepted := 0
  wire _ := []
  log := []
  accesses := []

theorem stdio_atBoot : AtBoot stdio where
  ctl := rfl
  reactor := ⟨0, rfl⟩
  buf := List.length_replicate
  buffersize := rfl
  table fd d h := by
    simp only [stdio] at h
    split at h <;> cases h
    rfl
  accepted := rfl
  wire _ := rfl
  log := rfl
  accesses := rfl

end Ex6.SelectServer
