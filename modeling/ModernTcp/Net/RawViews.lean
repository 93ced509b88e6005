import ModernTcp.Net.BufferQueue
import ModernTcp.Net.HttpDelivery

/-! # The bytes behind a request

`raw_view` points into the storage of `input_buffer_`, and `raw_request` is made from it when the
handler is called. Here the HTTP part of `handle_read` works on the storage, where bytes are found
behind the view, too. Without its storage it is the one that works on byte sequences. What the
connection sends is left out.
-/
namespace ModernTcp

/-- A `std::string_view` of a buffer, with its distance from `begin()`. -/
structure StringView where
  offset : ℕ
  size : ℕ
deriving DecidableEq

namespace StringView

/-- `std::string{raw.data(), raw.size()}`. -/
def copy (v : StringView) (storage : List UInt8) : List UInt8 := (storage.drop v.offset).take v.size

/-- The `std::string` made from `raw.data()` alone. It ends before the first NUL; when the storage
ends first, the constructor reads past it. -/
def cString (v : StringView) (storage : List UInt8) : Option (List UInt8) :=
  if 0 ∈ storage.drop v.offset then some ((storage.drop v.offset).takeWhile (· ≠ 0)) else none

end StringView

structure PendingHttpRequest where
  request : SimpleHttpRequest
  rawView : StringView
deriving DecidableEq

/-- What `http_handler_` is called with, or a task of the pool will call it with. -/
structure HttpCall where
  request : SimpleHttpRequest
  rawRequest : Option (List UInt8)
deriving DecidableEq

/-- An HTTP handler that may look at both of its arguments. -/
structure RawHandlers where
  workerPool : Bool
  http : HttpCall → HandlerRun

/-- The string is made of the same view in two ways. -/
def RawHandlers.call (h : RawHandlers) (storage : List UInt8) (p : PendingHttpRequest) : HttpCall :=
  ⟨p.request,if h.workerPool then some (p.rawView.copy storage) else p.rawView.cString storage⟩

namespace EpollConnection

/-- The loops of `handle_read` over the storage of `input_buffer_`. -/
structure RawReading where
  inputBuffer : Buffer
  wf : inputBuffer.Wf
  running : Bool := true
  httpHandler : Bool := true
  httpParser : HttpParser := {}
  pendingRequests : List PendingHttpRequest := []
  pipelineDepth : ℕ := 0
  calls : List HttpCall := []
  shouldClose : Bool := false
  status : LoopStatus := .looping

namespace RawReading

def leave (s : RawReading) (status : LoopStatus) : RawReading := { s with status }

/-- The indices are reset, the bytes stay where they are. -/
def shutdown (s : RawReading) : RawReading :=
  if s.running then
    { s with running := false, inputBuffer := s.inputBuffer.retrieveAll, wf := s.wf.retrieveAll }
  else s

def retrieve (s : RawReading) (len : ℕ) : RawReading :=
  { s with inputBuffer := s.inputBuffer.retrieve len, wf := s.wf.retrieve len }

def rawView (s : RawReading) (result : HttpParser.ParseResult) : StringView :=
  ⟨s.inputBuffer.readerIndex + result.requestStartIndex,result.requestTotalLen⟩

/-- The request joins the queue with a view of its bytes. -/
def enqueue (s : RawReading) (result : HttpParser.ParseResult) : RawReading :=
  { s with
    httpParser := s.httpParser.getRequest.2
    pendingRequests := s.pendingRequests ++ [⟨s.httpParser.getRequest.1,s.rawView result⟩]
    pipelineDepth := s.pipelineDepth + 1 }

def noteKeepAlive (s : RawReading) (req : SimpleHttpRequest) : RawReading :=
  { s with shouldClose := s.shouldClose || !req.keepAlive }

def queueRequest (s : RawReading) (result : HttpParser.ParseResult) : RawReading :=
  let queued := s.enqueue result
  if maxHttpPipeline < queued.pipelineDepth then queued.shutdown.leave .returned
  else (queued.noteKeepAlive s.httpParser.getRequest.1).retrieve result.consumedBytes

def parsed (s : RawReading) (result : HttpParser.ParseResult) : RawReading :=
  if result.hasError then s.shutdown.leave .returned
  else if result.isComplete then s.queueRequest result
  else s.leave .broken

def parseRound (s : RawReading) : Option RawReading :=
  if s.status ≠ .looping ∨ s.inputBuffer.readableBytes = 0 ∨ s.running = false then none
  else
    let p := s.httpParser.parse s.inputBuffer.contents
    some ({ s with httpParser := p.1 }.parsed p.2)

def parseMeasure (s : RawReading) : ℕ :=
  if s.status = .looping then
    1 + 2 * s.inputBuffer.contents.length + (decide (s.httpParser.state ≠ .expectRequestLine)).toNat
  else 0

def parseLoop (s : RawReading) : RawReading := Loop.run parseRound parseMeasure s

def emit (s : RawReading) (call : HttpCall) : RawReading := { s with calls := s.calls ++ [call] }

def callHandler (h : RawHandlers) (s : RawReading) (call : HttpCall) : RawReading :=
  let run := h.http call
  let called := s.emit call
  let called := if run.closes then called.shutdown else called
  if run.throws then { called with shouldClose := true } else called

def closeIfDone (s : RawReading) : RawReading :=
  if s.shouldClose ∧ s.pendingRequests = [] then s.shutdown else s

def dispatch (h : RawHandlers) (s : RawReading) (p : PendingHttpRequest) : RawReading :=
  let call := h.call s.inputBuffer.buffer p
  if s.httpHandler then
    if h.workerPool then s.emit call else (s.callHandler h call).closeIfDone
  else s

def popRequest (s : RawReading) : RawReading :=
  { s with pendingRequests := s.pendingRequests.tail, pipelineDepth := s.pipelineDepth - 1 }

def dispatchRound (h : RawHandlers) (s : RawReading) : Option RawReading :=
  if s.status = .returned ∨ s.running = false then none
  else match s.pendingRequests with
    | [] => none
    | p :: _ => some (s.popRequest.dispatch h p)

def dispatchLoop (h : RawHandlers) (s : RawReading) : RawReading :=
  Loop.run (dispatchRound h) (fun s => s.pendingRequests.length) s

def handleHttp (h : RawHandlers) (s : RawReading) : RawReading := s.parseLoop.dispatchLoop h

theorem contents_eq_nil_iff (s : RawReading) : s.inputBuffer.contents = [] ↔ s.inputBuffer.readableBytes = 0 := by
  rw [← s.wf.contents_length, List.length_eq_zero_iff]

theorem retrieve_contents (s : RawReading) (len : ℕ) :
    (s.retrieve len).inputBuffer.contents = s.inputBuffer.contents.drop len :=
  s.wf.retrieve_contents len

theorem parseMeasure_of_looping {s : RawReading} (h : s.status = .looping) :
    s.parseMeasure = 1 + 2 * s.inputBuffer.contents.length +
      (decide (s.httpParser.state ≠ .expectRequestLine)).toNat := if_pos h

theorem parseRound_decreases : Loop.Decreases parseRound parseMeasure := by
  intro s t h
  unfold parseRound at h
  split at h
  · cases h
  rename_i hgo
  simp only [not_or, not_not, ← contents_eq_nil_iff] at hgo
  obtain ⟨hstatus,hne,-⟩ := hgo
  cases h
  have hpos : 0 < parseMeasure s := by
    rw [parseMeasure_of_looping hstatus]
    omega
  unfold parsed
  split
  · exact hpos
  split
  · unfold queueRequest
    dsimp only
    split
    · exact hpos
    · have hlt := HttpParser.parse_shrinks (p := s.httpParser) hne
      rw [parseMeasure_of_looping hstatus, Nat.add_assoc]
      refine lt_of_eq_of_lt (parseMeasure_of_looping hstatus) ?_
      rw [retrieve_contents, Nat.add_assoc]
      exact Nat.add_lt_add_left hlt 1
  · exact hpos

theorem parseLoop_of_none {s : RawReading} (h : s.parseRound = none) : s.parseLoop = s :=
  Loop.run_of_none h

theorem parseLoop_of_some {s t : RawReading} (h : s.parseRound = some t) : s.parseLoop = t.parseLoop :=
  Loop.run_of_some parseRound_decreases h

theorem shutdown_pendingRequests (s : RawReading) : s.shutdown.pendingRequests = s.pendingRequests := by
  unfold shutdown
  split <;> rfl

theorem closeIfDone_pendingRequests (s : RawReading) : s.closeIfDone.pendingRequests = s.pendingRequests := by
  unfold closeIfDone
  split
  · exact shutdown_pendingRequests s
  · rfl

theorem callHandler_pendingRequests (h : RawHandlers) (s : RawReading) (call : HttpCall) :
    (s.callHandler h call).pendingRequests = s.pendingRequests := by
  unfold callHandler
  dsimp only
  split <;> split <;> simp [emit, shutdown_pendingRequests]

theorem dispatch_pendingRequests (h : RawHandlers) (s : RawReading) (p : PendingHttpRequest) :
    (s.dispatch h p).pendingRequests = s.pendingRequests := by
  unfold dispatch
  dsimp only
  split
  · split
    · rfl
    · rw [closeIfDone_pendingRequests, callHandler_pendingRequests]
  · rfl

theorem dispatchRound_decreases (h : RawHandlers) :
    Loop.Decreases (dispatchRound h) (fun s => s.pendingRequests.length) := by
  intro s t hr
  unfold dispatchRound at hr
  split at hr
  · cases hr
  · cases hp : s.pendingRequests with
    | nil => simp [hp] at hr
    | cons p rest =>
      simp only [hp, Option.some.injEq] at hr
      subst hr
      dsimp only
      rw [dispatch_pendingRequests]
      simp [popRequest, hp]

end RawReading
end EpollConnection

/-- The queue entry over byte sequences. -/
def PendingHttpRequest.bytes (storage : List UInt8) (p : PendingHttpRequest) : SimpleHttpRequest × List UInt8 :=
  (p.request,p.rawView.copy storage)

/-- Calls on the IO thread are logged without `raw_request`. -/
def HttpCall.logged (workerPool : Bool) (call : HttpCall) : HttpCall :=
  if workerPool then call else { call with rawRequest := none }

/-- A handler that does not look at `raw_request`. -/
def Handlers.raw (h : Handlers) : RawHandlers := ⟨h.workerPool,fun call => h.http call.request⟩

namespace EpollConnection

def Effect.httpCall : Effect → Option HttpCall
  | .handle request => some ⟨request,none⟩
  | .submit request raw _ => some ⟨request,some raw⟩
  | _ => none

/-- Without its storage, `s` is `r`. -/
structure RawReading.Refines (workerPool : Bool) (s : RawReading) (r : Reading) : Prop where
  contents : s.inputBuffer.contents = r.conn.inputBuffer
  running : s.running = r.conn.running
  httpHandler : s.httpHandler = r.conn.httpHandler
  httpParser : s.httpParser = r.conn.httpParser
  startsAtZero : s.httpParser.StartsAtZero
  pendingRequests : s.pendingRequests.map (·.bytes s.inputBuffer.buffer) = r.conn.pendingRequests
  pipelineDepth : s.pipelineDepth = r.conn.pipelineDepth
  calls : s.calls.map (·.logged workerPool) = r.effects.filterMap Effect.httpCall
  shouldClose : s.shouldClose = r.shouldClose
  status : s.status = r.status

namespace RawReading.Refines
variable {workerPool : Bool} {s : RawReading} {r : Reading}

theorem shutdown (hr : s.Refines workerPool r) (why : CloseReason) :
    s.shutdown.Refines workerPool (r.shutdown why) := by
  unfold RawReading.shutdown Reading.shutdown
  rw [hr.running]
  split
  · refine { hr with contents := Buffer.retrieveAll_contents _, running := rfl, calls := ?_ }
    rw [hr.calls]
    simp [Reading.emit, Effect.httpCall]
  · exact hr

theorem send (hr : s.Refines workerPool r) (data : List UInt8) : s.Refines workerPool (r.send data) := by
  unfold Reading.send
  split
  · refine { hr with calls := ?_ }
    rw [hr.calls]
    simp [Reading.emit, Effect.httpCall]
  · exact hr

theorem leave (hr : s.Refines workerPool r) (status : LoopStatus) :
    (s.leave status).Refines workerPool (r.leave status) := { hr with status := rfl }

theorem closeIfDone (hr : s.Refines workerPool r) : s.closeIfDone.Refines workerPool r.closeIfDone := by
  have hnil : s.pendingRequests = [] ↔ r.conn.pendingRequests = [] := by
    rw [← hr.pendingRequests, List.map_eq_nil_iff]
  unfold RawReading.closeIfDone Reading.closeIfDone
  by_cases hdone : s.shouldClose = true ∧ s.pendingRequests = []
  · rw [if_pos hdone, if_pos ⟨hr.shouldClose ▸ hdone.1,hnil.mp hdone.2⟩]
    exact hr.shutdown .answered
  · rw [if_neg hdone, if_neg (fun hd => hdone ⟨hr.shouldClose ▸ hd.1,hnil.mpr hd.2⟩)]
    exact hr

theorem retrieve (hr : s.Refines workerPool r) (len : ℕ) :
    (s.retrieve len).Refines workerPool
      { r with conn := { r.conn with inputBuffer := r.conn.inputBuffer.drop len } } := by
  refine { hr with contents := ?_, pendingRequests := ?_ }
  · rw [retrieve_contents, hr.contents]
  · change s.pendingRequests.map (·.bytes (s.inputBuffer.retrieve len).buffer) = _
    rw [Buffer.retrieve_buffer]
    exact hr.pendingRequests

/-- The view holds the bytes that are copied out of the unread ones. -/
theorem rawView_copy {result : HttpParser.ParseResult}
    (hle : result.requestStartIndex + result.requestTotalLen ≤ s.inputBuffer.contents.length) :
    (s.rawView result).copy s.inputBuffer.buffer =
      (s.inputBuffer.contents.drop result.requestStartIndex).take result.requestTotalLen := by
  rw [s.wf.contents_length] at hle
  rw [Buffer.contents, Buffer.peekView, List.drop_take, List.take_take, List.drop_drop, Nat.min_eq_left (by omega)]
  rfl

theorem queueRequest (hr : s.Refines workerPool r) {result : HttpParser.ParseResult}
    (hle : result.requestStartIndex + result.requestTotalLen ≤ s.inputBuffer.contents.length) :
    (s.queueRequest result).Refines workerPool (r.queueRequest result) := by
  have hview := rawView_copy hle
  rw [hr.contents] at hview
  have hqueued : (s.enqueue result).Refines workerPool { r with conn := { r.conn with
      httpParser := r.conn.httpParser.getRequest.2
      pendingRequests := r.conn.pendingRequests ++ [(r.conn.httpParser.getRequest.1,
        (r.conn.inputBuffer.drop result.requestStartIndex).take result.requestTotalLen)]
      pipelineDepth := r.conn.pipelineDepth + 1 } } := by
    refine { hr with
      httpParser := congrArg (fun p => p.getRequest.2) hr.httpParser
      pendingRequests := ?_
      pipelineDepth := congrArg (· + 1) hr.pipelineDepth }
    change (s.pendingRequests ++ [_]).map (PendingHttpRequest.bytes s.inputBuffer.buffer) = _
    rw [List.map_append, hr.pendingRequests, ← hr.httpParser]
    simp only [List.map_cons, List.map_nil, PendingHttpRequest.bytes, hview]
  unfold RawReading.queueRequest Reading.queueRequest
  dsimp only
  rw [show (s.enqueue result).pipelineDepth = r.conn.pipelineDepth + 1 from hqueued.pipelineDepth]
  split
  · exact (hqueued.shutdown .pipelineDepth).leave .returned
  · refine { hqueued.retrieve result.consumedBytes with shouldClose := ?_ }
    change (s.shouldClose || _) = (r.shouldClose || _)
    rw [hr.shouldClose, hr.httpParser]

theorem parseRound (hr : s.Refines workerPool r) :
    Option.Rel (RawReading.Refines workerPool) s.parseRound r.parseRound := by
  have hnil : s.inputBuffer.readableBytes = 0 ↔ r.conn.inputBuffer = [] := by
    rw [← contents_eq_nil_iff, hr.contents]
  unfold RawReading.parseRound Reading.parseRound
  by_cases hgo : s.status ≠ .looping ∨ s.inputBuffer.readableBytes = 0 ∨ s.running = false
  · rw [if_pos hgo, if_pos (by rwa [← hr.status, ← hr.running, ← hnil])]
    exact .none
  · rw [if_neg hgo, if_neg (by rwa [← hr.status, ← hr.running, ← hnil])]
    refine .some ?_
    have hle := HttpParser.parse_viewWithin hr.startsAtZero s.inputBuffer.contents
    have hparsed : ({ s with httpParser := (s.httpParser.parse s.inputBuffer.contents).1 } : RawReading).Refines
        workerPool { r with conn := { r.conn with
          httpParser := (r.conn.httpParser.parse r.conn.inputBuffer).1 } } := by
      refine { hr with httpParser := ?_, startsAtZero := hr.startsAtZero.parse _ }
      rw [hr.httpParser, hr.contents]
    rw [hr.httpParser, hr.contents] at hparsed hle ⊢
    dsimp only
    unfold RawReading.parsed Reading.parsed
    split
    · exact ((hparsed.send _).shutdown .badRequest).leave .returned
    · split
      · exact hparsed.queueRequest (by rw [hparsed.contents]; exact hle)
      · exact hparsed.leave .broken

theorem callHandler {h : Handlers} (hr : s.Refines workerPool r) (call : HttpCall)
    (hlog : call.logged workerPool = ⟨call.request,none⟩) :
    (s.callHandler h.raw call).Refines workerPool (r.callHandler h call.request) := by
  have hcalled : (s.emit call).Refines workerPool (r.emit (.handle call.request)) := by
    refine { hr with calls := ?_ }
    change (s.calls ++ [call]).map (HttpCall.logged workerPool) = (r.effects ++ [_]).filterMap Effect.httpCall
    rw [List.map_append, List.filterMap_append, hr.calls, List.map_singleton, hlog]
    rfl
  have hclosed : (if (h.http call.request).closes then (s.emit call).shutdown else s.emit call).Refines workerPool
      (if (h.http call.request).closes then (r.emit (.handle call.request)).shutdown .handler
        else r.emit (.handle call.request)) := by
    split
    · exact hcalled.shutdown .handler
    · exact hcalled
  unfold RawReading.callHandler Reading.callHandler
  change RawReading.Refines workerPool (if (h.http call.request).throws then _ else _) _
  dsimp only
  split
  · exact { hclosed.send serverError with shouldClose := rfl }
  · exact hclosed

theorem dispatch {h : Handlers} (hr : s.Refines h.workerPool r) (p : PendingHttpRequest) :
    (s.dispatch h.raw p).Refines h.workerPool
      (r.dispatch h p.request (p.rawView.copy s.inputBuffer.buffer)) := by
  unfold RawReading.dispatch Reading.dispatch
  dsimp only
  rw [hr.httpHandler]
  split
  · change RawReading.Refines h.workerPool (if h.workerPool = true then _ else _) _
    split
    · rename_i hpool
      refine { hr with calls := ?_ }
      change (s.calls ++ [_]).map (HttpCall.logged h.workerPool) = (r.effects ++ [_]).filterMap Effect.httpCall
      rw [List.map_append, List.filterMap_append, hr.calls, hpool]
      simp [RawHandlers.call, HttpCall.logged, Handlers.raw, Effect.httpCall, hpool]
    · rename_i hpool
      refine (hr.callHandler _ ?_).closeIfDone
      simp [HttpCall.logged, hpool]
  · exact hr

theorem popRequest (hr : s.Refines workerPool r) : s.popRequest.Refines workerPool r.popRequest := by
  refine { hr with pendingRequests := ?_, pipelineDepth := congrArg (· - 1) hr.pipelineDepth }
  change s.pendingRequests.tail.map (PendingHttpRequest.bytes s.inputBuffer.buffer) = r.conn.pendingRequests.tail
  rw [← hr.pendingRequests, List.map_tail]

theorem dispatchRound {h : Handlers} (hr : s.Refines h.workerPool r) :
    Option.Rel (RawReading.Refines h.workerPool) (s.dispatchRound h.raw) (r.dispatchRound h) := by
  unfold RawReading.dispatchRound Reading.dispatchRound
  rw [hr.status, hr.running]
  split
  · exact .none
  · have hpending := hr.pendingRequests
    cases hp : s.pendingRequests with
    | nil =>
      rw [hp, List.map_nil] at hpending
      rw [← hpending]
      exact .none
    | cons p rest =>
      rw [hp, List.map_cons] at hpending
      rw [← hpending]
      exact .some (hr.popRequest.dispatch p)

end RawReading.Refines

/-- The connection when `handle_read` has filled its buffer with requests. -/
def RawReading.start (b : Buffer) (hb : b.Wf) : RawReading := { inputBuffer := b, wf := hb }

theorem RawReading.start_refines {b : Buffer} (hb : b.Wf) (workerPool : Bool) :
    (start b hb).Refines workerPool { conn := { inputBuffer := b.contents } } :=
  ⟨rfl,rfl,rfl,rfl,rfl,rfl,rfl,rfl,rfl,rfl⟩

/-- The loops over the storage are those over byte sequences, for handlers that do not look at
`raw_request`. -/
theorem RawReading.handleHttp_refines {h : Handlers} {s : RawReading} {r : Reading} (hr : s.Refines h.workerPool r) :
    (s.handleHttp h.raw).Refines h.workerPool (r.handleHttp h) := by
  have hparse : s.parseLoop.Refines h.workerPool r.parseLoop :=
    Loop.run_related parseRound_decreases Reading.parseRound_decreases (fun _ _ hst => hst.parseRound) hr
  exact Loop.run_related (dispatchRound_decreases h.raw) (Reading.dispatchRound_decreases h)
    (fun _ _ hst => hst.dispatchRound) hparse

end EpollConnection
end ModernTcp
