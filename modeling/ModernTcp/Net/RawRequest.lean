import ModernTcp.Net.Pipelining
import ModernTcp.Net.RawViews
import ModernTcp.Net.ReadClose

/-! # What a handler gets as the raw request

A task of the worker pool carries a copy of the view. A handler on the IO thread gets a string made
from the start of the view alone. It goes on behind the request, through the requests that follow
it and through bytes of earlier ones, and it ends early at a NUL in a body.
-/
namespace ModernTcp
open HttpParser

namespace StringView
variable {v : StringView} {storage r rest : List UInt8}

theorem copy_eq (h : storage.drop v.offset = r ++ rest) (hsize : v.size = r.length) : v.copy storage = r := by
  rw [copy, h, hsize, List.take_left]

theorem cString_eq_iff (h : storage.drop v.offset = r ++ rest) :
    v.cString storage = some r ↔ 0 ∉ r ∧ rest.head? = some 0 := by
  unfold cString
  rw [h]
  by_cases hnot : 0 ∉ r
  · rw [takeWhile_ne_append hnot]
    cases rest with
    | nil => simp [hnot]
    | cons c rest =>
      by_cases hc : c = 0 <;> simp [hc, hnot]
  · -- the request has more than the string can hold
    have hlast := not_mem_takeWhile_ne 0 (r ++ rest)
    constructor
    · intro hr
      split at hr
      · injection hr with hr
        rw [hr] at hlast
        exact absurd hlast hnot
      · cases hr
    · rintro ⟨hr,-⟩
      exact absurd hr hnot

end StringView

namespace RawHandlers

/-- The connection is closed when the call returns. A task of the pool runs later. -/
def closes (h : RawHandlers) (call : HttpCall) : Bool := !h.workerPool && (h.http call).closes

/-- The calls for queued requests, none after one that closes the connection. -/
def calls (h : RawHandlers) (storage : List UInt8) : List PendingHttpRequest → List HttpCall
  | [] => []
  | p :: rest => h.call storage p :: if h.closes (h.call storage p) then [] else h.calls storage rest

end RawHandlers

namespace EpollConnection

/-- The queue entries of requests that lie one behind the other from `start` on. -/
def views (start : ℕ) : List (List UInt8) → List PendingHttpRequest
  | [] => []
  | r :: rs => ⟨requestOf r,⟨start,r.length⟩⟩ :: views (start + r.length) rs

namespace RawReading
variable {s t : RawReading} {r tail : List UInt8} {rs : List (List UInt8)}

structure Parsing (s : RawReading) : Prop where
  status : s.status = .looping
  running : s.running = true
  fresh : s.httpParser = {}

/-- The state with one more request queued. -/
def accept (s : RawReading) (r : List UInt8) : RawReading :=
  let queued : RawReading := { s with
    httpParser := {}
    pendingRequests := s.pendingRequests ++ [⟨requestOf r,⟨s.inputBuffer.readerIndex,r.length⟩⟩]
    pipelineDepth := s.pipelineDepth + 1 }
  (queued.noteKeepAlive (requestOf r)).retrieve r.length

theorem Parsing.accept (hs : s.Parsing) (r : List UInt8) : (s.accept r).Parsing := ⟨hs.status,hs.running,rfl⟩

@[simp] theorem accept_pipelineDepth (s : RawReading) (r : List UInt8) :
    (s.accept r).pipelineDepth = s.pipelineDepth + 1 := rfl

theorem accept_contents (hin : s.inputBuffer.contents = r ++ tail) : (s.accept r).inputBuffer.contents = tail := by
  change (s.inputBuffer.retrieve r.length).contents = tail
  rw [s.wf.retrieve_contents, hin, List.drop_left]

theorem parseRound_request (hs : s.Parsing) (hr : Accepted r) (hin : s.inputBuffer.contents = r ++ tail) :
    s.parseRound = some ({ s with httpParser := (parse {} r).1 }.queueRequest (parse {} r).2) := by
  have hne : s.inputBuffer.contents ≠ [] := by
    rw [hin]
    exact List.append_ne_nil_of_left_ne_nil hr.ne_nil tail
  unfold parseRound
  rw [if_neg (by simp [hs.status, hs.running, ← contents_eq_nil_iff, hne]), hs.fresh, hin, hr.parse_append]
  simp [parsed, hr.no_error, hr.complete]

theorem parseRound_accepted (hs : s.Parsing) (hr : Accepted r) (hin : s.inputBuffer.contents = r ++ tail)
    (hdepth : s.pipelineDepth + 1 ≤ maxHttpPipeline) : s.parseRound = some (s.accept r) := by
  rw [parseRound_request hs hr hin, queueRequest]
  dsimp only
  split
  · rename_i hover
    exact absurd hover (Nat.not_lt.mpr hdepth)
  · rw [hr.consumed, enqueue, rawView, hr.located.1, hr.located.2, getRequest_new]
    rfl

theorem parseRound_exceeded (hs : s.Parsing) (hr : Accepted r) (hin : s.inputBuffer.contents = r ++ tail)
    (hdepth : maxHttpPipeline ≤ s.pipelineDepth) :
    ∃ t, s.parseRound = some t ∧ t.status = .returned ∧ t.calls = s.calls := by
  refine ⟨_,parseRound_request hs hr hin,?_⟩
  unfold queueRequest
  dsimp only
  split
  · refine ⟨rfl,?_⟩
    unfold leave shutdown
    split <;> rfl
  · rename_i hroom
    exact absurd (Nat.lt_succ_of_le hdepth) hroom

theorem views_accept (hrs : ∀ q ∈ rs, Accepted q) (hin : s.inputBuffer.contents = r ++ rs.flatten) :
    views (s.accept r).inputBuffer.readerIndex rs = views (s.inputBuffer.readerIndex + r.length) rs := by
  cases rs with
  | nil => rfl
  | cons q rs =>
    have hpos : 0 < q.length := List.length_pos_of_ne_nil (hrs q List.mem_cons_self).ne_nil
    have hlen := congrArg List.length hin
    rw [s.wf.contents_length, List.flatten_cons, List.length_append, List.length_append] at hlen
    have hreader : (s.accept r).inputBuffer.readerIndex = s.inputBuffer.readerIndex + r.length := by
      change (s.inputBuffer.retrieve r.length).readerIndex = _
      rw [Buffer.retrieve, if_pos (by omega)]
    rw [hreader]

/-- The queue holds views of all requests, and the storage their bytes. -/
structure Queues (s t : RawReading) (rs : List (List UInt8)) : Prop where
  status : t.status = .looping
  running : t.running = true
  httpHandler : t.httpHandler = s.httpHandler
  storage : t.inputBuffer.buffer = s.inputBuffer.buffer
  pendingRequests : t.pendingRequests = s.pendingRequests ++ views s.inputBuffer.readerIndex rs
  calls : t.calls = s.calls

theorem parseLoop_accepted (hs : s.Parsing) (hrs : ∀ r ∈ rs, Accepted r)
    (hin : s.inputBuffer.contents = rs.flatten) (hdepth : s.pipelineDepth + rs.length ≤ maxHttpPipeline) :
    s.Queues s.parseLoop rs := by
  induction rs generalizing s with
  | nil =>
    have hempty : s.inputBuffer.readableBytes = 0 := s.contents_eq_nil_iff.mp hin
    rw [parseLoop_of_none (by simp [parseRound, hempty])]
    exact ⟨hs.status,hs.running,rfl,rfl,(List.append_nil _).symm,rfl⟩
  | cons r rs ih =>
    rw [List.length_cons] at hdepth
    have hrest : ∀ q ∈ rs, Accepted q := fun q hq => hrs q (List.mem_cons_of_mem _ hq)
    have hround := parseRound_accepted hs (hrs r List.mem_cons_self) hin (by omega)
    have hnext := ih (hs.accept r) hrest (accept_contents hin) (by rw [accept_pipelineDepth]; omega)
    rw [parseLoop_of_some hround]
    refine ⟨hnext.status,hnext.running,hnext.httpHandler,?_,?_,hnext.calls⟩
    · exact hnext.storage.trans (Buffer.retrieve_buffer _ _)
    · rw [hnext.pendingRequests, views_accept hrest hin]
      exact List.append_assoc _ _ _

theorem parseLoop_exceeded (hs : s.Parsing) (hrs : ∀ r ∈ rs, Accepted r)
    (hin : s.inputBuffer.contents = rs.flatten) (hroom : s.pipelineDepth ≤ maxHttpPipeline)
    (hdepth : maxHttpPipeline < s.pipelineDepth + rs.length) :
    s.parseLoop.status = .returned ∧ s.parseLoop.calls = s.calls := by
  induction rs generalizing s with
  | nil => exact absurd hroom (Nat.not_le.mpr hdepth)
  | cons r rs ih =>
    rw [List.length_cons] at hdepth
    by_cases hlast : maxHttpPipeline ≤ s.pipelineDepth
    · obtain ⟨t,hround,hreturned,hcalls⟩ := parseRound_exceeded hs (hrs r List.mem_cons_self) hin hlast
      rw [parseLoop_of_some hround, parseLoop_of_none (by simp [parseRound, hreturned])]
      exact ⟨hreturned,hcalls⟩
    · rw [parseLoop_of_some (parseRound_accepted hs (hrs r List.mem_cons_self) hin (by omega))]
      exact ih (hs.accept r) (fun q hq => hrs q (List.mem_cons_of_mem _ hq))
        (accept_contents hin) (by rw [accept_pipelineDepth]; omega) (by rw [accept_pipelineDepth]; omega)

/-- All that a dispatched request leaves alone. -/
structure Keeps (s t : RawReading) : Prop where
  storage : t.inputBuffer.buffer = s.inputBuffer.buffer
  pendingRequests : t.pendingRequests = s.pendingRequests
  httpHandler : t.httpHandler = s.httpHandler
  status : t.status = s.status
  calls : t.calls = s.calls

theorem Keeps.refl (s : RawReading) : s.Keeps s := ⟨rfl,rfl,rfl,rfl,rfl⟩

theorem Keeps.trans {u : RawReading} (hst : s.Keeps t) (htu : t.Keeps u) : s.Keeps u :=
  ⟨htu.storage.trans hst.storage,htu.pendingRequests.trans hst.pendingRequests,htu.httpHandler.trans hst.httpHandler,
    htu.status.trans hst.status,htu.calls.trans hst.calls⟩

theorem shutdown_keeps (s : RawReading) : s.Keeps s.shutdown := by
  unfold shutdown
  split
  · exact ⟨rfl,rfl,rfl,rfl,rfl⟩
  · exact Keeps.refl s

theorem shutdown_running (s : RawReading) : s.shutdown.running = false := by
  unfold shutdown
  split
  · rfl
  · rename_i hrun
    exact Bool.eq_false_of_not_eq_true hrun

theorem callHandler_spec (h : RawHandlers) (hrun : s.running = true) (call : HttpCall) :
    (s.emit call).Keeps (s.callHandler h call) ∧ (s.callHandler h call).running = !(h.http call).closes := by
  unfold callHandler
  dsimp only
  cases hcloses : (h.http call).closes
  · split <;> exact ⟨⟨rfl,rfl,rfl,rfl,rfl⟩,hrun⟩
  · have hkeeps := shutdown_keeps (s.emit call)
    have hdown := shutdown_running (s.emit call)
    split
    · exact ⟨⟨hkeeps.storage,hkeeps.pendingRequests,hkeeps.httpHandler,hkeeps.status,hkeeps.calls⟩,hdown⟩
    · exact ⟨hkeeps,hdown⟩

theorem closeIfDone_spec (s : RawReading) :
    s.Keeps s.closeIfDone ∧ (s.pendingRequests ≠ [] → s.closeIfDone.running = s.running) := by
  unfold closeIfDone
  split
  · rename_i hdone
    exact ⟨shutdown_keeps s,fun hne => absurd hdone.2 hne⟩
  · exact ⟨Keeps.refl s,fun _ => rfl⟩

/-- A request is dispatched with one call. The next one is dispatched, too, if there is one and the
call has not closed the connection. -/
theorem dispatch_spec (h : RawHandlers) (hhandler : s.httpHandler = true) (hrun : s.running = true)
    (p : PendingHttpRequest) : let call := h.call s.inputBuffer.buffer p
    (s.emit call).Keeps (s.dispatch h p) ∧
      (s.pendingRequests ≠ [] → (s.dispatch h p).running = !h.closes call) := by
  unfold dispatch RawHandlers.closes
  dsimp only
  rw [if_pos hhandler]
  cases hpool : h.workerPool
  · obtain ⟨hkeeps,hrunning⟩ := callHandler_spec h hrun (h.call s.inputBuffer.buffer p)
    obtain ⟨hclose,hopen⟩ := closeIfDone_spec (s.callHandler h (h.call s.inputBuffer.buffer p))
    rw [hkeeps.pendingRequests, hrunning] at hopen
    exact ⟨hkeeps.trans hclose,hopen⟩
  · exact ⟨Keeps.refl _,fun _ => hrun⟩

theorem dispatchLoop_of_none {h : RawHandlers} (hround : s.dispatchRound h = none) : s.dispatchLoop h = s :=
  Loop.run_of_none hround

theorem dispatchLoop_of_some {h : RawHandlers} (hround : s.dispatchRound h = some t) :
    s.dispatchLoop h = t.dispatchLoop h :=
  Loop.run_of_some (dispatchRound_decreases h) hround

theorem dispatchLoop_calls (h : RawHandlers) (hhandler : s.httpHandler = true) (hrun : s.running = true)
    (hstatus : s.status ≠ .returned) :
    (s.dispatchLoop h).calls = s.calls ++ h.calls s.inputBuffer.buffer s.pendingRequests := by
  obtain ⟨rest,hpending⟩ : ∃ rest, s.pendingRequests = rest := ⟨_,rfl⟩
  induction rest generalizing s with
  | nil =>
    rw [dispatchLoop_of_none (by simp [dispatchRound, hpending]), hpending]
    exact (List.append_nil _).symm
  | cons p rest ih =>
    have hround : s.dispatchRound h = some (s.popRequest.dispatch h p) := by
      simp [dispatchRound, hpending, hrun, hstatus]
    obtain ⟨hkeeps,hrunning⟩ := dispatch_spec h (s := s.popRequest) hhandler hrun p
    have hrest : s.popRequest.pendingRequests = rest := by
      change s.pendingRequests.tail = rest
      rw [hpending, List.tail_cons]
    have hcalls : (s.popRequest.dispatch h p).calls = s.calls ++ [h.call s.inputBuffer.buffer p] := hkeeps.calls
    -- whether the loop goes on decides only when something is left
    have hlater : (if h.closes (h.call s.inputBuffer.buffer p) then [] else h.calls s.inputBuffer.buffer rest) =
        if (s.popRequest.dispatch h p).running then h.calls s.inputBuffer.buffer rest else [] := by
      by_cases hne : rest = []
      · rw [hne, RawHandlers.calls, ite_self, ite_self]
      · rw [hrunning (hrest ▸ hne)]
        change _ = if (!h.closes (h.call s.inputBuffer.buffer p)) = true then _ else _
        cases h.closes (h.call s.inputBuffer.buffer p) <;> rfl
    rw [dispatchLoop_of_some hround, hpending, RawHandlers.calls, hlater, List.append_cons, ← hcalls]
    split
    · rename_i hgo
      rw [ih (hkeeps.httpHandler.trans hhandler) hgo (hkeeps.status ▸ hstatus) (hkeeps.pendingRequests.trans hrest),
        hkeeps.pendingRequests, hkeeps.storage]
      change _ ++ h.calls s.inputBuffer.buffer s.popRequest.pendingRequests = _
      rw [hrest]
    · rename_i hstop
      rw [dispatchLoop_of_none (by simp [dispatchRound, hstop]), List.append_nil]

end RawReading

/-- What the handler is called with, for as many of the requests as it is called for. -/
def ExactCalls (calls : List HttpCall) (rs : List (List UInt8)) : Prop :=
  calls <+: rs.map (fun r => ⟨requestOf r,some r⟩)

section Calls
variable {h : RawHandlers} {storage r rest : List UInt8} {rs : List (List UInt8)} {start : ℕ}

theorem drop_behind (hdrop : storage.drop start = r ++ rest) : storage.drop (start + r.length) = rest := by
  rw [← List.drop_drop, hdrop, List.drop_left]

theorem calls_pool (hpool : h.workerPool = true) (hdrop : storage.drop start = rs.flatten ++ rest) :
    h.calls storage (views start rs) = rs.map (fun r => ⟨requestOf r,some r⟩) := by
  induction rs generalizing start with
  | nil => rfl
  | cons r rs ih =>
    rw [List.flatten_cons, List.append_assoc] at hdrop
    have hcall : h.call storage ⟨requestOf r,⟨start,r.length⟩⟩ = ⟨requestOf r,some r⟩ := by
      rw [RawHandlers.call, hpool, if_pos rfl, StringView.copy_eq hdrop rfl]
    rw [views, RawHandlers.calls, ih (drop_behind hdrop), hcall, RawHandlers.closes, hpool]
    rfl

theorem call_io_iff (hpool : h.workerPool = false) (hdrop : storage.drop start = r ++ rest) :
    h.call storage ⟨requestOf r,⟨start,r.length⟩⟩ = ⟨requestOf r,some r⟩ ↔
      0 ∉ r ∧ storage[start + r.length]? = some 0 := by
  rw [RawHandlers.call, hpool, if_neg Bool.false_ne_true, HttpCall.mk.injEq, StringView.cString_eq_iff hdrop,
    ← List.head?_drop, drop_behind hdrop]
  exact and_iff_right rfl

/-- The byte behind one request is the first of the next, and that one has no NUL either. -/
theorem exactCalls_io_iff (hpool : h.workerPool = false) (hrs : ∀ q ∈ rs, q ≠ [])
    (hdrop : storage.drop start = r ++ (rs.flatten ++ rest)) :
    ExactCalls (h.calls storage (views start (r :: rs))) (r :: rs) ↔
      (rs = [] ∨ (h.http ⟨requestOf r,some r⟩).closes = true) ∧ 0 ∉ r ∧ storage[start + r.length]? = some 0 := by
  have hcall := call_io_iff (h := h) hpool hdrop
  rw [ExactCalls, views, RawHandlers.calls, List.map_cons, List.cons_prefix_cons, hcall, and_comm]
  refine and_congr_left fun hexact => ?_
  rw [hcall.mpr hexact, RawHandlers.closes, hpool, Bool.not_false, Bool.true_and]
  cases hcloses : (h.http ⟨requestOf r,some r⟩).closes with
  | true => simp
  | false =>
    cases rs with
    | nil => simp [views, RawHandlers.calls]
    | cons q rs =>
      obtain ⟨c,q',hq⟩ := List.exists_cons_of_ne_nil (hrs q List.mem_cons_self)
      have hbehind := drop_behind hdrop
      have hfirst : c = 0 := by
        have hhead := congrArg List.head? hbehind
        rw [List.head?_drop, hexact.2, hq] at hhead
        exact (Option.some.inj hhead).symm
      rw [List.flatten_cons, List.append_assoc] at hbehind
      refine iff_of_false (fun hcalls => ?_) (by simp)
      rw [if_neg Bool.false_ne_true, views, RawHandlers.calls, List.map_cons, List.cons_prefix_cons,
        call_io_iff hpool hbehind] at hcalls
      exact hcalls.1.1 (by simp [hq, hfirst])

end Calls

/-- All requests are queued before the first of them is dispatched, and none if they are too many. -/
theorem handleHttp_calls (h : RawHandlers) {b : Buffer} (hb : b.Wf) {rs : List (List UInt8)}
    (hrs : ∀ r ∈ rs, Accepted r) (hin : b.contents = rs.flatten) :
    ((RawReading.start b hb).handleHttp h).calls =
      if rs.length ≤ maxHttpPipeline then h.calls b.buffer (views b.readerIndex rs) else [] := by
  have hs : (RawReading.start b hb).Parsing := ⟨rfl,rfl,rfl⟩
  have hdepth : (RawReading.start b hb).pipelineDepth = 0 := rfl
  unfold RawReading.handleHttp
  split
  · rename_i hlen
    have hqueues := RawReading.parseLoop_accepted hs hrs hin (by omega)
    rw [RawReading.dispatchLoop_calls h hqueues.httpHandler hqueues.running (by rw [hqueues.status]; decide),
      hqueues.calls, hqueues.storage, hqueues.pendingRequests]
    rfl
  · rename_i hlen
    obtain ⟨hreturned,hcalls⟩ := RawReading.parseLoop_exceeded hs hrs hin (by omega) (by omega)
    rw [RawReading.dispatchLoop_of_none (by simp [RawReading.dispatchRound, hreturned]), hcalls]
    rfl

/-- A task of the pool gets the bytes of its request. On the IO thread only a single call gets them,
for a request without a NUL but with one right behind it in the storage. -/
theorem raw_request_iff (h : RawHandlers) {b : Buffer} (hb : b.Wf) {rs : List (List UInt8)}
    (hrs : ∀ r ∈ rs, Accepted r) (hin : b.contents = rs.flatten) :
    ExactCalls ((RawReading.start b hb).handleHttp h).calls rs ↔
      h.workerPool = true ∨ maxHttpPipeline < rs.length ∨ rs = [] ∨
        ∃ r tail, rs = r :: tail ∧ (tail = [] ∨ (h.http ⟨requestOf r,some r⟩).closes = true) ∧
          0 ∉ r ∧ b.buffer[b.readerIndex + r.length]? = some 0 := by
  have hdrop := hb.drop_readerIndex
  rw [hin] at hdrop
  rw [handleHttp_calls h hb hrs hin]
  by_cases hlen : rs.length ≤ maxHttpPipeline
  · rw [if_pos hlen]
    cases hpool : h.workerPool with
    | true =>
      rw [calls_pool hpool hdrop]
      exact iff_of_true (List.prefix_refl _) (Or.inl rfl)
    | false =>
      cases rs with
      | nil => exact iff_of_true (List.prefix_refl _) (Or.inr (Or.inr (Or.inl rfl)))
      | cons r tail =>
        rw [List.flatten_cons, List.append_assoc] at hdrop
        rw [exactCalls_io_iff hpool (fun q hq => (hrs q (List.mem_cons_of_mem _ hq)).ne_nil) hdrop]
        constructor
        · exact fun hexact => Or.inr (Or.inr (Or.inr ⟨r,tail,rfl,hexact⟩))
        · rintro (hfalse | hmany | hnil | ⟨r',tail',heq,hexact⟩)
          · cases hfalse
          · exact absurd hlen (Nat.not_le.mpr hmany)
          · cases hnil
          · cases heq
            exact hexact
  · rw [if_neg hlen]
    exact iff_of_true List.nil_prefix (Or.inr (Or.inl (Nat.not_le.mp hlen)))

theorem new_store (data : List UInt8) :
    (Buffer.new.store data).buffer = data ++ List.replicate (initialBufferSize - data.length) 0 := by
  simp [Buffer.store, Buffer.new]

theorem new_store_spec {data : List UInt8} (hlen : data.length ≤ initialBufferSize) :
    (Buffer.new.store data).Wf ∧ (Buffer.new.store data).contents = data := by
  obtain ⟨hwf,hcontents,-⟩ := Buffer.store_spec Buffer.new_wf (Buffer.new_writableBytes ▸ hlen)
  exact ⟨hwf,hcontents⟩

theorem new_store_behind {data : List UInt8} (hlen : data.length < initialBufferSize) :
    (List.replicate (initialBufferSize - data.length) (0 : UInt8)).head? = some 0 := by
  rw [List.head?_replicate, if_neg (by omega)]

def getRoot : List UInt8 := bytes "GET / HTTP/1.1\r\n\r\n"

theorem raw_request_first : ∃ hb : (Buffer.new.store getRoot).Wf,
    ExactCalls ((RawReading.start _ hb).handleHttp Handlers.silent.raw).calls [getRoot] := by
  have hlen : getRoot.length < initialBufferSize := by decide
  obtain ⟨hb,hcontents⟩ := new_store_spec hlen.le
  have hbehind : (Buffer.new.store getRoot).buffer[0 + getRoot.length]? = some 0 := by
    rw [new_store, Nat.zero_add, ← List.head?_drop, List.drop_left, new_store_behind hlen]
  exact ⟨hb,(raw_request_iff Handlers.silent.raw hb (by decide +kernel) (by simp [hcontents])).mpr
    (Or.inr (Or.inr (Or.inr ⟨getRoot,[],rfl,Or.inl rfl,by decide,hbehind⟩)))⟩

/-- With two requests in the buffer, the handler gets both of them as the first one's. -/
theorem raw_request_reads_on : (∀ r ∈ twoRequests, Accepted r) ∧ ∃ g value, ∃ hb : g.buffer.Wf,
    Buffer.readFd { buffer := Buffer.new } [.bytes twoRequests.flatten] = some (g,value) ∧
    g.buffer.contents = twoRequests.flatten ∧
    ((RawReading.start g.buffer hb).handleHttp Handlers.silent.raw).calls.head?.map HttpCall.rawRequest =
      some (some twoRequests.flatten) ∧
    ¬ ExactCalls ((RawReading.start g.buffer hb).handleHttp Handlers.silent.raw).calls twoRequests := by
  have hrs : ∀ r ∈ twoRequests, Accepted r := by decide +kernel
  have hlen : twoRequests.flatten.length < initialBufferSize := by decide
  obtain ⟨hb,hcontents⟩ := new_store_spec hlen.le
  have hanswers : (Buffer.ReadResult.bytes twoRequests.flatten).Answers initialBufferSize := ⟨by decide,hlen.le⟩
  have hdrop : (Buffer.new.store twoRequests.flatten).buffer.drop 0 =
      twoRequests.flatten ++ List.replicate (initialBufferSize - twoRequests.flatten.length) 0 := new_store _
  have hraw : ∀ size, StringView.cString ⟨0,size⟩ (Buffer.new.store twoRequests.flatten).buffer =
      some twoRequests.flatten :=
    fun _ => (StringView.cString_eq_iff hdrop).mpr ⟨by decide,new_store_behind hlen⟩
  have hcalls := handleHttp_calls Handlers.silent.raw hb hrs hcontents
  rw [if_pos (by decide)] at hcalls
  refine ⟨hrs,{ buffer := Buffer.new.store twoRequests.flatten, total := twoRequests.flatten.length },_,hb,
    readFd_new hanswers rfl,hcontents,?_,?_⟩
  · rw [hcalls]
    exact congrArg some (hraw _)
  · rintro ⟨later,hall⟩
    rw [hcalls] at hall
    have hfirst := congrArg (fun calls => calls.head?.map HttpCall.rawRequest) hall
    have hsome := (congrArg some (hraw _)).symm.trans hfirst
    exact absurd hsome (by decide)

end EpollConnection
end ModernTcp
