import Ex6.Lib.Machine
import Ex6.Queue
import Ex6.Text
/-!
# The active-object server

`main` accepts connections; each gets two queues and three threads, and the
threads pass its messages on:

    listenAO -> q2 -> ao_func(convert_opposite_case_letters, insert_to_queue)
             -> q3 -> ao_func(caesar_cipher_1, send_message)

Queues, buffers and threads are numbered as they are created. A capsula is
never changed after its construction, so a pointer to one is the capsula; its
buffer is rewritten in place. `enQ` and `deQ` are one step each, under their
mutex, and so is an iteration of a stage's loop.
-/
open Lib Lib.CString Ex6.Queue Ex6.Text

namespace Ex6.Pipeline

structure capsula where
  q : Nat
  buffer : Option Nat
  socket : Nat
  q_send : Option Nat
deriving Repr, DecidableEq

/-- What `ao_func` can be given as `before_func`. -/
inductive BeforeFunc
  | convert_opposite_case_letters
  | caesar_cipher_1
deriving Repr, DecidableEq

/-- What `ao_func` can be given as `after_func`. -/
inductive AfterFunc
  | insert_to_queue
  | send_message
deriving Repr, DecidableEq

structure arg_functions_queue where
  q : Nat
  before_func : BeforeFunc
  after_func : AfterFunc
deriving Repr, DecidableEq

/-- The loop body of a stage. -/
def BeforeFunc.char : BeforeFunc → Byte → Byte
  | .convert_opposite_case_letters => convert_char
  | .caesar_cipher_1 => caesar_char

inductive ListenPc
  | recv
  | enQ (capsul : capsula)
  | returned
deriving Repr, DecidableEq

inductive AoPc
  | deQ
  | before (capsul : capsula)
  | loop (capsul : capsula) (i n : Nat)
  | after (capsul : capsula)
  /-- In a `strlen` that runs off the buffer. -/
  | undefined (capsul : capsula)
deriving Repr, DecidableEq

inductive Thread
  | listenAO (caps : capsula) (pc : ListenPc)
  | ao_func (funq : arg_functions_queue) (pc : AoPc)
deriving Repr, DecidableEq

/-- Where `main` is in its loop: each line starts one thread. -/
inductive MainPc
  | accept
  | new_listenAO (new_fd q2 q3 : Nat)
  | new_AO_convert (q2 q3 : Nat)
  | new_AO_caesar (q3 : Nat)
deriving Repr, DecidableEq

structure State (w : Nat) where
  main : MainPc
  /-- The descriptors accepted, one for each connection. -/
  conns : List Nat
  queues : Nat → queue w capsula
  nqueues : Nat
  buffers : Nat → List Byte
  nbuffers : Nat
  threads : Nat → Option Thread
  nthreads : Nat
  /-- How much `recv` has written to each buffer. -/
  written : Nat → Nat
  /-- By descriptor, what the new buffer held and what `recv` wrote over it. -/
  received : Nat → List (List Byte × List Byte)
  /-- By descriptor, what was sent. -/
  sent : Nat → List (List Byte)

variable {w : Nat}

def start (buffers : Nat → List Byte) : State w where
  main := .accept
  conns := []
  queues _ := createQ w capsula
  nqueues := 0
  buffers := buffers
  nbuffers := 0
  threads _ := none
  nthreads := 0
  written _ := 0
  received _ := []
  sent _ := []

/-- `pthread_create`. -/
def State.create (s : State w) (th : Thread) (main : MainPc) : State w :=
  { s with main, threads := Function.update s.threads s.nthreads (some th), nthreads := s.nthreads + 1 }

/-- Thread `t` goes on to `pc`. -/
def State.goto (s : State w) (t : Nat) (th : Thread) : State w :=
  { s with threads := Function.update s.threads t (some th) }

/-- Queue `k` becomes `q'`. -/
def State.setQ (s : State w) (k : Nat) (q' : queue w capsula) : State w :=
  { s with queues := Function.update s.queues k q' }

inductive Event
  | accept (new_fd : Option Nat)
  | create
  | recv (t : Nat) (junk : List Byte) (data : Option (List Byte))
  | enQ (t : Nat) (a : Addr)
  | deQ (t : Nat)
  | stage (t : Nat)
  | send (t : Nat)

inductive Step (s : State w) : Event → State w → Prop
  | accept_fails : s.main = .accept → Step s (.accept none) s
  | accept {new_fd} : s.main = .accept → new_fd ∉ s.conns →
      Step s (.accept (some new_fd)) { s with
        main := .new_listenAO new_fd s.nqueues (s.nqueues + 1)
        conns := s.conns ++ [new_fd]
        queues := Function.update (Function.update s.queues s.nqueues (createQ w capsula)) (s.nqueues + 1)
          (createQ w capsula)
        nqueues := s.nqueues + 2 }
  -- `ao1` is made with `q2`, its `this->q`, which the capsula carries as `q_send`
  | new_listenAO {new_fd q2 q3} : s.main = .new_listenAO new_fd q2 q3 →
      Step s .create (s.create (.listenAO ⟨q3, none, new_fd, some q2⟩ .recv) (.new_AO_convert q2 q3))
  | new_AO_convert {q2 q3} : s.main = .new_AO_convert q2 q3 →
      Step s .create
        (s.create (.ao_func ⟨q2, .convert_opposite_case_letters, .insert_to_queue⟩ .deQ) (.new_AO_caesar q3))
  | new_AO_caesar {q3} : s.main = .new_AO_caesar q3 →
      Step s .create (s.create (.ao_func ⟨q3, .caesar_cipher_1, .send_message⟩ .deQ) .accept)
  | recv {t caps junk data} : s.threads t = some (.listenAO caps .recv) → junk.length = 1024 → data.length ≤ 1024 →
      Step s (.recv t junk (some data)) {
        s.goto t (.listenAO caps (.enQ ⟨caps.q, some s.nbuffers, caps.socket, none⟩)) with
        buffers := Function.update s.buffers s.nbuffers (overwrite junk data)
        nbuffers := s.nbuffers + 1
        written := Function.update s.written s.nbuffers data.length
        received := Function.update s.received caps.socket (s.received caps.socket ++ [(junk, data)]) }
  | recv_fails {t caps junk} : s.threads t = some (.listenAO caps .recv) →
      Step s (.recv t junk none) (s.goto t (.listenAO caps .returned))
  | listen_enQ {t caps capsul q a q'} : s.threads t = some (.listenAO caps (.enQ capsul)) → caps.q_send = some q →
      a ∉ (s.queues q).heap → enQ (s.queues q) a capsul = some q' →
      Step s (.enQ t a) ((s.goto t (.listenAO caps .recv)).setQ q q')
  | deQ {t funq capsul q'} : s.threads t = some (.ao_func funq .deQ) → blocked (s.queues funq.q) = false →
      private_deQ (s.queues funq.q) = some (capsul, q') →
      Step s (.deQ t) ((s.goto t (.ao_func funq (.before capsul))).setQ funq.q q')
  | before {t funq capsul b n} : s.threads t = some (.ao_func funq (.before capsul)) → capsul.buffer = some b →
      strlen NUL (s.buffers b) = some n → Step s (.stage t) (s.goto t (.ao_func funq (.loop capsul 0 n)))
  | before_undefined {t funq capsul b} : s.threads t = some (.ao_func funq (.before capsul)) → capsul.buffer = some b →
      strlen NUL (s.buffers b) = none → Step s (.stage t) (s.goto t (.ao_func funq (.undefined capsul)))
  | loop {t funq capsul i n b} : s.threads t = some (.ao_func funq (.loop capsul i n)) → i < n →
      capsul.buffer = some b →
      Step s (.stage t) { s.goto t (.ao_func funq (.loop capsul (i + 1) n)) with
        buffers := Function.update s.buffers b ((s.buffers b).modify i funq.before_func.char) }
  | leave {t funq capsul i n} : s.threads t = some (.ao_func funq (.loop capsul i n)) → ¬ i < n →
      Step s (.stage t) (s.goto t (.ao_func funq (.after capsul)))
  | insert_to_queue {t funq capsul a q'} : s.threads t = some (.ao_func funq (.after capsul)) →
      funq.after_func = .insert_to_queue → a ∉ (s.queues capsul.q).heap → enQ (s.queues capsul.q) a capsul = some q' →
      Step s (.enQ t a) ((s.goto t (.ao_func funq .deQ)).setQ capsul.q q')
  | send_message {t funq capsul b bytes} : s.threads t = some (.ao_func funq (.after capsul)) →
      funq.after_func = .send_message → capsul.buffer = some b → send_message (s.buffers b) = some bytes →
      Step s (.send t) { s.goto t (.ao_func funq .deQ) with
        sent := Function.update s.sent capsul.socket (s.sent capsul.socket ++ [bytes]) }
  | send_undefined {t funq capsul b} : s.threads t = some (.ao_func funq (.after capsul)) →
      funq.after_func = .send_message → capsul.buffer = some b → send_message (s.buffers b) = none →
      Step s (.send t) (s.goto t (.ao_func funq (.undefined capsul)))

/-- The server, from any content of the memory its buffers come from. -/
def server (w : Nat) : Machine (State w) Event where
  init s := ∃ buffers, s = start buffers
  step := Step

/-! ## What is on its way -/

/-- What is still to be made of a buffer. `none` is the outcome of a `strlen` that
runs off it. -/
abbrev Rest := List Byte → Option (List Byte)

/-- What the stages from `caesar_cipher_1` on make of a buffer. -/
def fromCaesar : Rest := fun buffer => caesar_cipher_1 buffer >>= send_message

/-- What is left once `before_func` has returned. -/
def AfterFunc.rest : AfterFunc → Rest
  | .insert_to_queue => fromCaesar
  | .send_message => Text.send_message

/-- The capsula a thread is at work on, and what is still to be made of its buffer. -/
def load : Option Thread → List (capsula × Rest)
  | some (.listenAO _ (.enQ capsul)) => [(capsul, respond)]
  | some (.ao_func funq (.before capsul)) =>
    [(capsul, fun buffer => rewrite_string funq.before_func.char buffer >>= funq.after_func.rest)]
  | some (.ao_func funq (.loop capsul i n)) =>
    [(capsul, fun buffer =>
      funq.after_func.rest (forLoop (fun i (str : List Byte) => str.modify i funq.before_func.char) i n buffer))]
  | some (.ao_func funq (.after capsul)) => [(capsul, funq.after_func.rest)]
  | some (.ao_func _ (.undefined capsul)) => [(capsul, fun _ => none)]
  | _ => []

def queued (rest : Rest) (q : queue w capsula) : List (capsula × Rest) := (linked q).map (fun capsul => (capsul, rest))

/-- The threads and queues of connection number `c`, from the one that sends back
to the one that receives. -/
def contents (threads : Nat → Option Thread) (queues : Nat → queue w capsula) (c : Nat) : List (capsula × Rest) :=
  load (threads (3 * c + 2)) ++ queued fromCaesar (queues (2 * c + 1)) ++ load (threads (3 * c + 1)) ++
    queued respond (queues (2 * c)) ++ load (threads (3 * c))

/-- What `buffers` holds at a pointer. -/
def deref (buffers : Nat → List Byte) : Option Nat → List Byte
  | some b => buffers b
  | none => []

/-- What will be sent for a capsula on its way. -/
def image (buffers : Nat → List Byte) (x : capsula × Rest) : Option (List Byte) := x.2 (deref buffers x.1.buffer)

end Ex6.Pipeline
