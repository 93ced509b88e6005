import ModernTcp.Lib.Execution
import ModernTcp.Net.EpollConnection

/-! # Closing a connection that still has output

The reactor thread and the workers of one HTTP connection. `send` only appends to
`output_buffer_`; the bytes reach the socket in `handle_write`, which runs on the reactor
thread between two events; `shutdown` clears the buffer. `handle_read` runs as the rounds
of its two loops, and everything it does to the outside is a queue of operations that the
steps of other threads may come between.
-/
namespace ModernTcp.ServerClose
open EpollConnection Execution

/-- The operations a thread has in front of it. `append` is the critical section of a `send`
that found the connection alive, `clear` the end of a `shutdown` that closed it. -/
inductive Op
  | check
  | send (data : List UInt8)
  | append (data : List UInt8)
  | submit (request : SimpleHttpRequest) (closeAfter : Bool)
  | shutdown (why : CloseReason)
  | clear
deriving DecidableEq

/-- The moment at which `shutdown` took effect. -/
structure Closing where
  why : CloseReason
  accepted : List UInt8
  written : List UInt8
deriving DecidableEq

/-- What the threads share. `accepted` and `written` remember the bytes for which `send`
returned their length and those that `handle_write` put on the socket. -/
structure Link where
  running : Bool := true
  output : List UInt8 := []
  accepted : List UInt8 := []
  written : List UInt8 := []
  closed : Option Closing := none
  tasks : List (SimpleHttpRequest × Bool) := []
deriving DecidableEq

/-- One operation of a thread and what is in front of the thread then. -/
def Link.perform (m : Link) (rest : List Op) : Op → Link × List Op
  | .check => (m,if m.running then rest else [])
  | .send data => (m,if m.running ∧ data ≠ [] then .append data :: rest else rest)
  | .append data =>
    if maxBufferSize < m.output.length + data.length then (m,.shutdown .overflow :: rest)
    else ({ m with output := m.output ++ data, accepted := m.accepted ++ data },rest)
  | .submit request closeAfter => ({ m with tasks := m.tasks ++ [(request,closeAfter)] },rest)
  | .shutdown why =>
    if m.running then
      ({ m with running := false, closed := some ⟨why,m.accepted,m.written⟩ },.clear :: rest)
    else (m,rest)
  | .clear => ({ m with output := [] },rest)

/-- The task that `handle_read` submits for a request. -/
def taskOps (run : HandlerRun) (closeAfter : Bool) : List Op :=
  .check :: run.sends.map .send ++ (if run.closes then [.shutdown .handler] else []) ++
    (if run.throws then [.send serverError,.shutdown .answered]
      else if closeAfter then [.shutdown .answered] else [])

def effectOps (h : Handlers) : Effect → List Op
  | .handle request => (h.http request).sends.map .send
  | .submit request _ closeAfter => [.submit request closeAfter]
  | .send data => [.send data]
  | .shutdown why => [.shutdown why]
  | .message _ | .decode _ => []

inductive Phase
  | idle | parsing | dispatching
deriving DecidableEq

structure Reactor where
  reading : Reading := { conn := {} }
  phase : Phase := .idle
  todo : List Op := []
deriving DecidableEq

def Reactor.Idle (r : Reactor) : Prop := r.phase = .idle ∧ r.todo = []

instance (r : Reactor) : Decidable r.Idle := inferInstanceAs (Decidable (_ ∧ _))

structure State (W : Type*) where
  link : Link := {}
  reactor : Reactor := {}
  worker : W → List Op := fun _ => []

/-- `read`, `write` and `drop` start an event of the reactor: data or an end of stream, room
for `n` bytes in the socket, and an error or a timeout. -/
inductive Act (W : Type*)
  | read (chunk : List UInt8)
  | write (n : ℕ)
  | drop
  | round
  | reactor
  | take (w : W)
  | worker (w : W)

section Model
variable {W : Type*} [DecidableEq W]

def Reactor.read (r : Reactor) (running : Bool) (chunk : List UInt8) : Option Reactor :=
  let c := { r.reading.conn with running, inputBuffer := r.reading.conn.inputBuffer ++ chunk }.protocolDetected
  if running = false then some r
  else if chunk = [] then some { r with todo := [.shutdown .endOfStream] }
  else if c.protocol = some .http ∨ c.httpHandler then
    some { r with reading := { conn := c }, phase := .parsing }
  else none

def Reactor.follow (h : Handlers) (r : Reactor) (s : Reading) : Reactor :=
  { r with reading := { s with effects := [] }, todo := s.effects.flatMap (effectOps h) }

def Reactor.round (h : Handlers) (r : Reactor) (running : Bool) : Option Reactor :=
  let s := { r.reading with conn := { r.reading.conn with running }, effects := [] }
  match r.phase with
  | .idle => none
  | .parsing =>
    match s.parseRound with
    | some t => some (r.follow h t)
    | none => some { r with phase := .dispatching }
  | .dispatching =>
    match s.dispatchRound h with
    | some t => some (r.follow h t)
    | none => some { r with phase := .idle }

def step (h : Handlers) (s : State W) : Act W → Option (State W)
  | .read chunk =>
    if s.reactor.Idle then (s.reactor.read s.link.running chunk).map (fun r => { s with reactor := r })
    else none
  | .write n =>
    if s.reactor.Idle ∧ s.link.running = true ∧ n ≤ s.link.output.length then
      some { s with link := { s.link with
        output := s.link.output.drop n
        written := s.link.written ++ s.link.output.take n } }
    else none
  | .drop =>
    if s.reactor.Idle then some { s with reactor := { s.reactor with todo := [.shutdown .reactor] } } else none
  | .round =>
    if s.reactor.todo = [] then
      (s.reactor.round h s.link.running).map (fun r => { s with reactor := r })
    else none
  | .reactor =>
    match s.reactor.todo with
    | [] => none
    | op :: rest =>
      let r := s.link.perform rest op
      some { s with link := r.1, reactor := { s.reactor with todo := r.2 } }
  | .take w =>
    match s.worker w, s.link.tasks with
    | [], (request,closeAfter) :: rest =>
      some { s with
        link := { s.link with tasks := rest }
        worker := Function.update s.worker w (taskOps (h.http request) closeAfter) }
    | _, _ => none
  | .worker w =>
    match s.worker w with
    | [] => none
    | op :: rest =>
      let r := s.link.perform rest op
      some { s with link := r.1, worker := Function.update s.worker w r.2 }

def nextOp (s : State W) : Act W → Option Op
  | .reactor => s.reactor.todo.head?
  | .worker w => (s.worker w).head?
  | _ => none

/-- The closes that come after an answer: keep-alive is off, the handler threw, or the request
was bad. -/
def afterAnswer : CloseReason → Bool
  | .answered | .badRequest => true
  | _ => false

def Op.closesAfterAnswer : Op → Bool
  | .shutdown why => afterAnswer why
  | _ => false

def ServerCloses (s : State W) (a : Act W) : Prop :=
  s.link.running = true ∧ (nextOp s a).any Op.closesAfterAnswer = true

def Act.byWorker : Act W → Bool
  | .worker _ => true
  | _ => false

/-- A close after an answer is made by a worker, when `handle_write` has drained the output. -/
def ClosesDrained (s : State W) (a : Act W) : Prop :=
  ServerCloses s a → a.byWorker = true ∧ s.link.output = []

instance (s : State W) (a : Act W) : Decidable (ClosesDrained s a) :=
  inferInstanceAs (Decidable (_ ∧ _ → _ ∧ _))

/-- Whatever `send` had accepted when the server closed was on the socket. -/
def NoLoss (s : State W) : Prop :=
  ∀ c, s.link.closed = some c → afterAnswer c.why = true → c.accepted = c.written

/-- Every request gets at least one byte from its handler, unless the handler throws. -/
def Answers (h : Handlers) : Prop :=
  ∀ request, (∃ data ∈ (h.http request).sends, data ≠ []) ∨ (h.http request).throws = true

end Model

end ModernTcp.ServerClose
