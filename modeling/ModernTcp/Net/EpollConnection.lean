import ModernTcp.Http.HttpParserPipeline
import ModernTcp.Net.ProtocolDetect

/-! # One connection on its reactor thread

`EpollConnection::handle_read` with its three protocols, run by one thread. Buffers are
byte sequences and `input_buffer_` is what `read_fd` has put behind the unread bytes. What
the connection does to the outside (handler calls, submitted tasks, sends, the close) is
logged in order. The handlers are parameters: of a call it matters here only whether it
closed the connection and whether it threw, what it sends is not logged.
-/
namespace ModernTcp

/-- Which call of `shutdown` it is: for an answered request that was not keep-alive or whose
handler threw, for a request that was refused, or for another reason. -/
inductive CloseReason
  | answered | badRequest | pipelineDepth | endOfStream | handler | frameLength | overflow | reactor
deriving DecidableEq

inductive Effect
  | handle (request : SimpleHttpRequest)
  | submit (request : SimpleHttpRequest) (raw : List UInt8) (closeAfter : Bool)
  | message (line : List UInt8)
  | decode (payload : List UInt8)
  | send (data : List UInt8)
  | shutdown (why : CloseReason)
deriving DecidableEq

/-- A call of a handler: what it sends, and how it ends. `badWeakPtr` says of an exception that
it is a `std::bad_weak_ptr`, which only the line protocol catches on its own. -/
structure HandlerRun where
  sends : List (List UInt8) := []
  closes : Bool := false
  throws : Bool := false
  badWeakPtr : Bool := false

/-- The message handler may depend on what has happened before. -/
structure Handlers where
  workerPool : Bool
  http : SimpleHttpRequest → HandlerRun
  message : Option (List Effect → List UInt8 → HandlerRun)

/-- Handlers on the IO thread that do nothing. -/
def Handlers.silent : Handlers := { workerPool := false, http := fun _ => {}, message := none }

structure EpollConnection where
  running : Bool := true
  inputBuffer : List UInt8 := []
  protocol : Option Protocol := none
  httpHandler : Bool := true
  httpParser : HttpParser := {}
  pendingRequests : List (SimpleHttpRequest × List UInt8) := []
  pipelineDepth : ℕ := 0
  lengthRead : Bool := false
  expectedLength : ℕ := 0
deriving DecidableEq

namespace EpollConnection

/-- Without HTTP in sight the HTTP handler is dropped for good. -/
def protocolDetected (c : EpollConnection) : EpollConnection :=
  if c.protocol = none ∧ c.inputBuffer ≠ [] then
    let protocol := ModernTcp.protocolDetected c.inputBuffer
    { c with protocol := some protocol, httpHandler := c.httpHandler && protocol = .http }
  else c

/-- How a loop of `handle_read` is left: by its condition, by `break`, or by `return`. -/
inductive LoopStatus
  | looping | broken | returned
deriving DecidableEq

/-- What the loops of `handle_read` work on. -/
structure Reading where
  conn : EpollConnection
  effects : List Effect := []
  shouldClose : Bool := false
  status : LoopStatus := .looping
deriving DecidableEq

def badRequest : List UInt8 :=
  bytes "HTTP/1.1 400 Bad Request\r\nContent-Length:0\r\nConnection: close\r\n\r\n"

def serverError : List UInt8 :=
  bytes "HTTP/1.1 500 Internal Server Error\r\nContent-Length:0\r\nConnection: close\r\n\r\n"

namespace Reading

def emit (s : Reading) (e : Effect) : Reading := { s with effects := s.effects ++ [e] }

def leave (s : Reading) (status : LoopStatus) : Reading := { s with status }

/-- Only the first call finds `running_` set. -/
def shutdown (s : Reading) (why : CloseReason) : Reading :=
  if s.conn.running then
    { s with conn := { s.conn with running := false, inputBuffer := [] } }.emit (.shutdown why)
  else s

def send (s : Reading) (data : List UInt8) : Reading :=
  if s.conn.running ∧ data ≠ [] then s.emit (.send data) else s

/-- A completed request joins the queue; only now are its bytes retrieved. -/
def queueRequest (s : Reading) (result : HttpParser.ParseResult) : Reading :=
  let req := s.conn.httpParser.getRequest.1
  let raw := (s.conn.inputBuffer.drop result.requestStartIndex).take result.requestTotalLen
  let queued := { s with conn := { s.conn with
    httpParser := s.conn.httpParser.getRequest.2
    pendingRequests := s.conn.pendingRequests ++ [(req,raw)]
    pipelineDepth := s.conn.pipelineDepth + 1 } }
  if maxHttpPipeline < queued.conn.pipelineDepth then (queued.shutdown .pipelineDepth).leave .returned
  else { queued with
    conn := { queued.conn with inputBuffer := queued.conn.inputBuffer.drop result.consumedBytes }
    shouldClose := s.shouldClose || !req.keepAlive }

/-- The parser has kept what it saw of an incomplete request, and so does the buffer: the
`break` comes before the `retrieve`. -/
def parsed (s : Reading) (result : HttpParser.ParseResult) : Reading :=
  if result.hasError then ((s.send badRequest).shutdown .badRequest).leave .returned
  else if result.isComplete then s.queueRequest result
  else s.leave .broken

def parseRound (s : Reading) : Option Reading :=
  if s.status ≠ .looping ∨ s.conn.inputBuffer = [] ∨ s.conn.running = false then none
  else
    let p := s.conn.httpParser.parse s.conn.inputBuffer
    some ({ s with conn := { s.conn with httpParser := p.1 } }.parsed p.2)

def parseMeasure (s : Reading) : ℕ :=
  if s.status = .looping then
    1 + 2 * s.conn.inputBuffer.length + (decide (s.conn.httpParser.state ≠ .expectRequestLine)).toNat
  else 0

def parseLoop (s : Reading) : Reading := Loop.run parseRound parseMeasure s

/-- The handler on the IO thread. Its exception is answered with a 500. -/
def callHandler (h : Handlers) (s : Reading) (req : SimpleHttpRequest) : Reading :=
  let run := h.http req
  let called := s.emit (.handle req)
  let called := if run.closes then called.shutdown .handler else called
  if run.throws then { called.send serverError with shouldClose := true } else called

def closeIfDone (s : Reading) : Reading :=
  if s.shouldClose ∧ s.conn.pendingRequests = [] then s.shutdown .answered else s

def dispatch (h : Handlers) (s : Reading) (req : SimpleHttpRequest) (raw : List UInt8) : Reading :=
  if s.conn.httpHandler then
    if h.workerPool then s.emit (.submit req raw (!req.keepAlive))
    else (s.callHandler h req).closeIfDone
  else s

def popRequest (s : Reading) : Reading :=
  { s with conn := { s.conn with
    pendingRequests := s.conn.pendingRequests.tail
    pipelineDepth := s.conn.pipelineDepth - 1 } }

def dispatchRound (h : Handlers) (s : Reading) : Option Reading :=
  if s.status = .returned ∨ s.conn.running = false then none
  else match s.conn.pendingRequests with
    | [] => none
    | (req,raw) :: _ => some (s.popRequest.dispatch h req raw)

def dispatchLoop (h : Handlers) (s : Reading) : Reading :=
  Loop.run (dispatchRound h) (fun s => s.conn.pendingRequests.length) s

def handleHttp (h : Handlers) (s : Reading) : Reading := s.parseLoop.dispatchLoop h

/-- `be32toh` of the first four bytes. -/
def be32 (b : List UInt8) : ℕ := (b.take 4).foldl (fun n c => 256 * n + c.toNat) 0

def maxProtobufSize : ℕ := 4 * 1024 * 1024

def readLength (s : Reading) : Reading :=
  if s.conn.lengthRead then s
  else
    let n := be32 s.conn.inputBuffer
    let t := { s with conn := { s.conn with
      expectedLength := n
      inputBuffer := s.conn.inputBuffer.drop 4
      lengthRead := true } }
    if maxProtobufSize < n then (t.shutdown .frameLength).leave .returned else t

/-- The payload goes to `ParseFromString`; whatever that says, a new length is due. -/
def takePayload (s : Reading) : Reading :=
  if s.status = .returned then s
  else if s.conn.expectedLength ≤ s.conn.inputBuffer.length then
    { s with conn := { s.conn with
      inputBuffer := s.conn.inputBuffer.drop s.conn.expectedLength
      lengthRead := false } }.emit (.decode (s.conn.inputBuffer.take s.conn.expectedLength))
  else s.leave .broken

def protobufRound (s : Reading) : Option Reading :=
  if s.status ≠ .looping ∨ s.conn.inputBuffer.length < 4 ∨ s.conn.running = false then none
  else some s.readLength.takePayload

def protobufMeasure (s : Reading) : ℕ :=
  if s.status = .looping then 1 + 2 * s.conn.inputBuffer.length + s.conn.lengthRead.toNat else 0

def handleProtobuf (s : Reading) : Reading := Loop.run protobufRound protobufMeasure s

/-- Exceptions of the handler are logged and forgotten, except for a `std::bad_weak_ptr`: it is
taken for one of `shared_from_this()` and ends the connection. -/
def callMessageHandler (h : Handlers) (s : Reading) (line : List UInt8) : Reading :=
  match h.message with
  | none => s
  | some handler =>
    let run := handler s.effects line
    let called := s.emit (.message line)
    let called := if run.closes then called.shutdown .handler else called
    if run.throws ∧ run.badWeakPtr then (called.shutdown .handler).leave .returned else called

/-- A line that ends in CRLF loses its CR too. -/
def stripCr (line : List UInt8) : List UInt8 := rtrimCc line

/-- The loop of `handle_line_protocol` does not look at `running_`. -/
def lineRound (h : Handlers) (s : Reading) : Option Reading :=
  if s.status = .returned ∨ 10 ∉ s.conn.inputBuffer then none
  else
    let line := stripCr (s.conn.inputBuffer.takeWhile (· ≠ 10))
    let rest := (s.conn.inputBuffer.dropWhile (· ≠ 10)).drop 1
    let t := { s with conn := { s.conn with inputBuffer := rest } }
    some (if line = [] then t else t.callMessageHandler h line)

def handleLineProtocol (h : Handlers) (s : Reading) : Reading :=
  Loop.run (lineRound h) (fun s => s.conn.inputBuffer.length) s

def handleProtocol (h : Handlers) (s : Reading) : Reading :=
  if s.conn.protocol = some .http ∨ s.conn.httpHandler then s.handleHttp h
  else if s.conn.protocol = some .protobuf then s.handleProtobuf
  else s.handleLineProtocol h

end Reading

/-- `chunk` is what `read_fd` found; it returns 0 or less when that is nothing. -/
def handleRead (h : Handlers) (c : EpollConnection) (chunk : List UInt8) : Reading :=
  if c.running = false then { conn := c }
  else if chunk = [] then Reading.shutdown { conn := c } .endOfStream
  else Reading.handleProtocol h
    { conn := { c with inputBuffer := c.inputBuffer ++ chunk }.protocolDetected }

/-- `handle_read` once for each chunk, with the log of all of them. -/
def reads (h : Handlers) : EpollConnection → List (List UInt8) → EpollConnection × List Effect
  | c, [] => (c,[])
  | c, chunk :: rest =>
    let s := c.handleRead h chunk
    let later := reads h s.conn rest
    (later.1,s.effects ++ later.2)

end EpollConnection
end ModernTcp
