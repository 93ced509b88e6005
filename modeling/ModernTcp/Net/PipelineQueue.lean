import ModernTcp.Net.HttpPipeline
import ModernTcp.Net.LineProtocol
import ModernTcp.Net.ProtobufFraming

/-! # `pending_requests_` and its counter over all reads

A connection is read again and again, with whatever handlers and whatever comes in. The rounds of
the two loops of `handle_read` are steps of their own, so that other threads can close the
connection between any two of them; the loops of the other protocols are one step.
-/
namespace ModernTcp.PipelineQueue
open EpollConnection Execution HttpParser
open HttpPipeline (Phase parseRound_parsed dispatchRound_cases dispatchRound_eq_none callHandler_keeps
  closeIfDone_keeps shutdown_keeps protocolDetected_fields)

structure State where
  reading : Reading
  phase : Phase := .idle
deriving DecidableEq

/-- Handlers may change from one call to the next. `shutdown` is a close from outside. -/
inductive Act
  | read (h : Handlers) (chunk : List UInt8)
  | parse
  | dispatch (h : Handlers)
  | shutdown (why : CloseReason)

namespace State

/-- The connection as `handle_read` finds it behind `protocol_detected`. -/
def detected (c : EpollConnection) (chunk : List UInt8) : EpollConnection :=
  { c with inputBuffer := c.inputBuffer ++ chunk }.protocolDetected

def read (s : State) (h : Handlers) (chunk : List UInt8) : State :=
  let c := detected s.reading.conn chunk
  if s.reading.conn.running ∧ chunk ≠ [] ∧ (c.protocol = some .http ∨ c.httpHandler) then ⟨{ conn := c },.parsing⟩
  else ⟨s.reading.conn.handleRead h chunk,.idle⟩

def parse (s : State) : State :=
  match s.reading.parseRound with
  | some t => { s with reading := t }
  | none => { s with phase := .dispatching }

def dispatch (s : State) (h : Handlers) : State :=
  match s.reading.dispatchRound h with
  | some t => { s with reading := t }
  | none => { s with phase := .idle }

end State

def step (s : State) : Act → Option State
  | .read h chunk => if s.phase = .idle then some (s.read h chunk) else none
  | .parse => if s.phase = .parsing then some s.parse else none
  | .dispatch h => if s.phase = .dispatching then some (s.dispatch h) else none
  | .shutdown why => some { s with reading := s.reading.shutdown why }

/-- A new connection, with an HTTP handler or without. -/
def initial (httpHandler : Bool) : State := { reading := { conn := { httpHandler } } }

section Rounds
variable {s t : Reading}

/-- What the code outside of the two loops does to the queue. -/
structure Untouched (s t : Reading) : Prop where
  pendingRequests : t.conn.pendingRequests = s.conn.pendingRequests
  pipelineDepth : t.conn.pipelineDepth = s.conn.pipelineDepth
  running : t.conn.running = true → s.conn.running = true

theorem untouched_refl : Untouched s s := ⟨rfl,rfl,id⟩

theorem Untouched.trans {u : Reading} (h : Untouched s t) (h' : Untouched t u) : Untouched s u :=
  ⟨h'.pendingRequests.trans h.pendingRequests,h'.pipelineDepth.trans h.pipelineDepth,h.running ∘ h'.running⟩

theorem shutdown_untouched (why : CloseReason) : Untouched s (s.shutdown why) :=
  ⟨(shutdown_keeps why).pendingRequests,(shutdown_keeps why).pipelineDepth,fun hrun => by simp at hrun⟩

theorem Untouched.leave (h : Untouched s t) (status : LoopStatus) : Untouched s (t.leave status) :=
  ⟨h.pendingRequests,h.pipelineDepth,h.running⟩

theorem readLength_untouched : Untouched s s.readLength := by
  unfold Reading.readLength
  dsimp only
  split_ifs
  · exact untouched_refl
  · refine Untouched.leave (Untouched.trans ?_ (shutdown_untouched .frameLength)) .returned
    exact ⟨rfl,rfl,id⟩
  · exact ⟨rfl,rfl,id⟩

theorem takePayload_untouched : Untouched s s.takePayload := by
  unfold Reading.takePayload
  split_ifs
  · exact untouched_refl
  · exact ⟨rfl,rfl,id⟩
  · exact ⟨rfl,rfl,id⟩

theorem protobufRound_untouched (h : s.protobufRound = some t) : Untouched s t := by
  unfold Reading.protobufRound at h
  split_ifs at h
  cases h
  exact readLength_untouched.trans takePayload_untouched

theorem callMessageHandler_untouched (h : Handlers) (line : List UInt8) :
    Untouched s (s.callMessageHandler h line) := by
  unfold Reading.callMessageHandler
  split
  · exact untouched_refl
  · rename_i handler _
    have hcalled : Untouched s (s.emit (.message line)) := ⟨rfl,rfl,id⟩
    have hclosed : Untouched s (if (handler s.effects line).closes then (s.emit (.message line)).shutdown .handler
        else s.emit (.message line)) := by
      split_ifs
      · exact hcalled.trans (shutdown_untouched .handler)
      · exact hcalled
    dsimp only
    generalize (if (handler s.effects line).closes then _ else _ : Reading) = called at hclosed ⊢
    split_ifs
    · exact (hclosed.trans (shutdown_untouched .handler)).leave _
    · exact hclosed

theorem lineRound_untouched {h : Handlers} (ht : s.lineRound h = some t) : Untouched s t := by
  unfold Reading.lineRound at ht
  split at ht
  · cases ht
  cases ht
  have htaken : Untouched s { s with conn := { s.conn with
      inputBuffer := (s.conn.inputBuffer.dropWhile (· ≠ 10)).drop 1 } } := ⟨rfl,rfl,id⟩
  split_ifs
  · exact htaken
  · exact htaken.trans (callMessageHandler_untouched h _)

/-- The reads that `handle_protobuf` or `handle_line_protocol` serve, and those that find nothing. -/
theorem handleRead_untouched (h : Handlers) {c : EpollConnection} {chunk : List UInt8}
    (hother : ¬ (c.running ∧ chunk ≠ [] ∧
      ((State.detected c chunk).protocol = some .http ∨ (State.detected c chunk).httpHandler))) :
    Untouched { conn := c } (c.handleRead h chunk) := by
  unfold handleRead
  by_cases hdead : c.running = false
  · rw [if_pos hdead]
    exact untouched_refl
  rw [if_neg hdead]
  by_cases hnil : chunk = []
  · rw [if_pos hnil]
    exact shutdown_untouched .endOfStream
  rw [if_neg hnil]
  have hproto : ¬ ((State.detected c chunk).protocol = some .http ∨ (State.detected c chunk).httpHandler) :=
    fun h => hother ⟨by simpa using hdead,hnil,h⟩
  have hstart : Untouched { conn := c } { conn := State.detected c chunk } := by
    obtain ⟨hrun,hpending,hdepth⟩ := protocolDetected_fields { c with inputBuffer := c.inputBuffer ++ chunk }
    exact ⟨hpending,hdepth,fun h => hrun.symm.trans h⟩
  change Untouched _ (Reading.handleProtocol h { conn := State.detected c chunk })
  unfold Reading.handleProtocol
  rw [if_neg hproto]
  split_ifs
  · exact Loop.run_invariant Reading.protobufRound_decreases
      (fun _ _ hs hround => hs.trans (protobufRound_untouched hround)) hstart
  · exact Loop.run_invariant (Reading.lineRound_decreases h)
      (fun _ _ hs hround => hs.trans (lineRound_untouched hround)) hstart

theorem dispatch_untouched (h : Handlers) (req : SimpleHttpRequest) (raw : List UInt8) :
    Untouched s (s.dispatch h req raw) ∧ (s.dispatch h req raw).status = s.status := by
  unfold Reading.dispatch
  split_ifs
  · exact ⟨⟨rfl,rfl,id⟩,rfl⟩
  · have hkeeps := (callHandler_keeps (s := s) h req).trans closeIfDone_keeps
    refine ⟨⟨hkeeps.pendingRequests,hkeeps.pipelineDepth,fun hrun => ?_⟩,hkeeps.status⟩
    have hlive := (HttpPipeline.closeIfDone_running.mp hrun).1
    rw [HttpPipeline.callHandler_running, Bool.and_eq_true] at hlive
    exact hlive.1
  · exact ⟨untouched_refl,rfl⟩

end Rounds

/-- The counter counts the queue and goes one past the limit at most, then the connection is closed.
A loop that was left by `return` has closed it too. -/
structure Disciplined (s : State) : Prop where
  depth : s.reading.conn.pipelineDepth = s.reading.conn.pendingRequests.length
  limit : s.reading.conn.pipelineDepth ≤ maxHttpPipeline + 1
  room : s.reading.conn.running = true → s.reading.conn.pipelineDepth ≤ maxHttpPipeline
  returned : s.phase ≠ .idle → s.reading.status = .returned → s.reading.conn.running = false
  idle : s.phase = .idle → s.reading.conn.running = true → s.reading.conn.pendingRequests = []

theorem initial_disciplined (httpHandler : Bool) : Disciplined (initial httpHandler) :=
  ⟨rfl,Nat.zero_le _,fun _ => Nat.zero_le _,fun hbusy => absurd rfl hbusy,fun _ _ => rfl⟩

section Steps
variable {s t : State}

theorem Disciplined.untouched {r : Reading} (hs : Disciplined s) (hidle : s.phase = .idle)
    (h : Untouched { conn := s.reading.conn } r) : Disciplined ⟨r,.idle⟩ where
  depth := by rw [h.pipelineDepth, h.pendingRequests]; exact hs.depth
  limit := by rw [h.pipelineDepth]; exact hs.limit
  room hrun := by rw [h.pipelineDepth]; exact hs.room (h.running hrun)
  returned hbusy := absurd rfl hbusy
  idle _ hrun := h.pendingRequests.trans (hs.idle hidle (h.running hrun))

theorem Disciplined.read (hs : Disciplined s) (hidle : s.phase = .idle) (h : Handlers) (chunk : List UInt8) :
    Disciplined (s.read h chunk) := by
  unfold State.read
  dsimp only
  split_ifs with hhttp
  · obtain ⟨hrun,hpending,hdepth⟩ := protocolDetected_fields
      { s.reading.conn with inputBuffer := s.reading.conn.inputBuffer ++ chunk }
    refine ⟨?_,?_,fun _ => ?_,(fun _ hret => by cases hret),fun hphase => by cases hphase⟩
    · exact hdepth.trans (hs.depth.trans (congrArg List.length hpending.symm))
    · exact hdepth.trans_le hs.limit
    · exact hdepth.trans_le (hs.room hhttp.1)
  · exact hs.untouched hidle (handleRead_untouched h hhttp)

theorem Disciplined.parse (hs : Disciplined s) (hphase : s.phase = .parsing) : Disciplined s.parse := by
  unfold State.parse
  split
  · rename_i r hround
    obtain ⟨hrun,-,hparsed⟩ := parseRound_parsed hround
    have hlength := hs.depth
    have hroom := hs.room hrun
    have hbusy : s.phase = .idle → r.conn.running = true → r.conn.pendingRequests = [] := by
      rw [hphase]
      exact fun hidle => by cases hidle
    cases hparsed with
    | refused ho hdead more hone hmore hpending hdepth =>
      refine ⟨?_,?_,?_,fun _ _ => hdead,hbusy⟩
      · simp only [hdepth, hpending, hlength, List.length_append]
      · simp only [hdepth]
        omega
      · intro hlive
        rw [hdead] at hlive
        cases hlive
    | incomplete ho hlive hstatus hpending hdepth hclose =>
      refine ⟨?_,?_,fun _ => ?_,?_,hbusy⟩
      · simp only [hdepth, hpending, hlength]
      · simp only [hdepth, hs.limit]
      · simp only [hdepth, hroom]
      · intro _ hret
        rw [hstatus] at hret
        cases hret
    | queued ho hlive hstatus req raw hpending hdepth hclose =>
      have hless : s.reading.conn.pipelineDepth < maxHttpPipeline := by
        unfold HttpPipeline.outcome at ho
        dsimp only at ho
        split_ifs at ho with herr hcomplete hless
        exact hless
      refine ⟨?_,?_,fun _ => ?_,?_,hbusy⟩
      · simp only [hdepth, hpending, hlength, List.length_append, List.length_cons, List.length_nil]
      · simp only [hdepth]
        omega
      · simp only [hdepth]
        omega
      · intro _ hret
        rw [hstatus] at hret
        cases hret
  · refine ⟨hs.depth,hs.limit,hs.room,fun _ => hs.returned ?_,fun hidle => by cases hidle⟩
    rw [hphase]
    exact fun hidle => by cases hidle

theorem Disciplined.dispatch (hs : Disciplined s) (hphase : s.phase = .dispatching) (h : Handlers) :
    Disciplined (s.dispatch h) := by
  have hbusy : s.phase ≠ .idle := by
    rw [hphase]
    exact fun hidle => by cases hidle
  unfold State.dispatch
  split
  · rename_i r hround
    obtain ⟨req,raw,rest,hpending,hrun,rfl⟩ := dispatchRound_cases hround
    obtain ⟨hr,hstatus⟩ := dispatch_untouched (s := s.reading.popRequest) h req raw
    have hlength := hs.depth
    have hroom := hs.room hrun
    have hless : (s.reading.popRequest.dispatch h req raw).conn.pipelineDepth =
        s.reading.conn.pipelineDepth - 1 := hr.pipelineDepth
    have hrest : (s.reading.popRequest.dispatch h req raw).conn.pendingRequests = rest :=
      hr.pendingRequests.trans (by simp [Reading.popRequest, hpending])
    rw [hpending, List.length_cons] at hlength
    refine ⟨?_,?_,fun _ => ?_,fun _ hret => ?_,fun hidle => absurd hidle hbusy⟩
    · simp only [hless, hrest]
      omega
    · simp only [hless]
      omega
    · simp only [hless]
      omega
    · have hdead := hs.returned hbusy (hstatus.symm.trans hret)
      rw [hrun] at hdead
      cases hdead
  · rename_i hround
    refine ⟨hs.depth,hs.limit,hs.room,fun hidle => absurd rfl hidle,fun _ hrun => ?_⟩
    rcases dispatchRound_eq_none.mp hround with hret | hdead | hnil
    · rw [hs.returned hbusy hret] at hrun
      cases hrun
    · rw [hdead] at hrun
      cases hrun
    · exact hnil

theorem Disciplined.shutdown (hs : Disciplined s) (why : CloseReason) :
    Disciplined { s with reading := s.reading.shutdown why } := by
  have hr := shutdown_untouched (s := s.reading) why
  have hdead := HttpPipeline.shutdown_running (s := s.reading) why
  refine ⟨?_,?_,fun hrun => ?_,fun _ _ => hdead,fun _ hrun => ?_⟩
  · exact hr.pipelineDepth.trans (hs.depth.trans (congrArg List.length hr.pendingRequests.symm))
  · exact hr.pipelineDepth.trans_le hs.limit
  · exact hr.pipelineDepth.trans_le (hs.room (hr.running hrun))
  · rw [hdead] at hrun
    cases hrun

theorem step_disciplined {a : Act} (hs : Disciplined s) (h : step s a = some t) : Disciplined t := by
  cases a with
  | read h' chunk =>
    simp only [step] at h
    split_ifs at h with hidle
    cases h
    exact hs.read hidle h' chunk
  | parse =>
    simp only [step] at h
    split_ifs at h with hphase
    cases h
    exact hs.parse hphase
  | dispatch h' =>
    simp only [step] at h
    split_ifs at h with hphase
    cases h
    exact hs.dispatch hphase h'
  | shutdown why =>
    cases h
    exact hs.shutdown why

theorem visits_disciplined {httpHandler : Bool} {as : List Act} (h : Visits step (initial httpHandler) as t) :
    Disciplined t :=
  visits_invariant (P := fun _ _ => True) (fun _ _ _ hI _ hstep => step_disciplined hI hstep)
    (initial_disciplined httpHandler) (along_of_forall fun _ _ _ => trivial) h

end Steps

/-! ## One read, step by step -/

theorem parseLoop_exec (r : Reading) : ∃ as, exec step ⟨r,.parsing⟩ as = some ⟨r.parseLoop,.dispatching⟩ := by
  refine Loop.run_induction Reading.parseRound_decreases
    (motive := fun r => ∃ as, exec step ⟨r,.parsing⟩ as = some ⟨r.parseLoop,.dispatching⟩) ?_ ?_ r
  · intro r hround
    refine ⟨[.parse],?_⟩
    rw [Reading.parseLoop_of_none hround]
    simp [exec, step, State.parse, hround]
  · rintro r u hround ⟨as,has⟩
    refine ⟨.parse :: as,?_⟩
    rw [Reading.parseLoop_of_some hround, exec_cons_eq_some]
    exact ⟨⟨u,.parsing⟩,by simp [step, State.parse, hround],has⟩

theorem dispatchLoop_exec (h : Handlers) (r : Reading) :
    ∃ as, exec step ⟨r,.dispatching⟩ as = some ⟨r.dispatchLoop h,.idle⟩ := by
  refine Loop.run_induction (Reading.dispatchRound_decreases h)
    (motive := fun r => ∃ as, exec step ⟨r,.dispatching⟩ as = some ⟨r.dispatchLoop h,.idle⟩) ?_ ?_ r
  · intro r hround
    refine ⟨[.dispatch h],?_⟩
    rw [Reading.dispatchLoop, Loop.run_of_none hround]
    simp [exec, step, State.dispatch, hround]
  · rintro r u hround ⟨as,has⟩
    refine ⟨.dispatch h :: as,?_⟩
    rw [Reading.dispatchLoop, Loop.run_of_some (Reading.dispatchRound_decreases h) hround, exec_cons_eq_some]
    exact ⟨⟨u,.dispatching⟩,by simp [step, State.dispatch, hround],has⟩

theorem handleRead_detected {h : Handlers} {c : EpollConnection} {chunk : List UInt8} (hrun : c.running = true)
    (hne : chunk ≠ []) (hhttp : (State.detected c chunk).protocol = some .http ∨ (State.detected c chunk).httpHandler) :
    c.handleRead h chunk = Reading.handleHttp h { conn := State.detected c chunk } := by
  unfold handleRead
  rw [if_neg (by simp [hrun]), if_neg hne]
  change Reading.handleProtocol h { conn := State.detected c chunk } = _
  unfold Reading.handleProtocol
  rw [if_pos hhttp]

/-- `handle_read`, left to itself, is a run of the steps. -/
theorem handleRead_exec {s : State} (hidle : s.phase = .idle) (h : Handlers) (chunk : List UInt8) :
    ∃ as, exec step s as = some ⟨s.reading.conn.handleRead h chunk,.idle⟩ := by
  by_cases hhttp : s.reading.conn.running ∧ chunk ≠ [] ∧ ((State.detected s.reading.conn chunk).protocol = some .http ∨
      (State.detected s.reading.conn chunk).httpHandler)
  · obtain ⟨parses,hparses⟩ := parseLoop_exec { conn := State.detected s.reading.conn chunk }
    obtain ⟨calls,hcalls⟩ :=
      dispatchLoop_exec h ({ conn := State.detected s.reading.conn chunk } : Reading).parseLoop
    refine ⟨.read h chunk :: (parses ++ calls),?_⟩
    rw [exec_cons_eq_some, handleRead_detected hhttp.1 hhttp.2.1 hhttp.2.2]
    exact ⟨⟨{ conn := State.detected s.reading.conn chunk },.parsing⟩,
      by simp only [step, hidle, if_true, State.read, if_pos hhttp],exec_trans hparses hcalls⟩
  · exact ⟨[.read h chunk],by simp only [exec, step, hidle, if_true, State.read, if_neg hhttp]; rfl⟩

/-! ## The requests of one read -/

/-- Complete keep-alive requests in front of the rest of the input. -/
structure Delivers (input : List UInt8) (rs : List (List UInt8)) (tail : List UInt8) : Prop where
  request : ∀ r ∈ rs, Accepted r ∧ (requestOf r).keepAlive = true
  input_eq : input = rs.flatten ++ tail

instance (input : List UInt8) (rs : List (List UInt8)) (tail : List UInt8) : Decidable (Delivers input rs tail) :=
  decidable_of_iff ((∀ r ∈ rs, Accepted r ∧ (requestOf r).keepAlive = true) ∧ input = rs.flatten ++ tail)
    ⟨fun h => ⟨h.1,h.2⟩,fun h => ⟨h.1,h.2⟩⟩

/-- Nothing, or a request that is not complete yet. -/
def Incomplete (tail : List UInt8) : Prop :=
  (parse {} tail).2.hasError = false ∧ (parse {} tail).2.isComplete = false

instance : DecidablePred Incomplete := fun _ => inferInstanceAs (Decidable (_ ∧ _))

/-- A live connection between two reads, its parser as `reset` leaves it. -/
structure Fresh (s : State) : Prop where
  idle : s.phase = .idle
  running : s.reading.conn.running = true
  parser : s.reading.conn.httpParser = {}

section Reads
variable {h : Handlers} {r : Reading} {rs : List (List UInt8)} {tail : List UInt8}

/-- What the first loop leaves when only an incomplete request is behind the complete ones. -/
theorem parseLoop_delivers (hr : r.Parsing) (hin : Delivers r.conn.inputBuffer rs tail)
    (hdepth : r.conn.pipelineDepth + rs.length ≤ maxHttpPipeline) (htail : Incomplete tail) :
    r.parseLoop.status ≠ .returned ∧ r.parseLoop.conn.running = true ∧ r.parseLoop.shouldClose = r.shouldClose ∧
      r.parseLoop.effects = r.effects ∧ r.parseLoop.conn.httpHandler = r.conn.httpHandler ∧
      r.parseLoop.conn.pendingRequests = r.conn.pendingRequests ++ rs.map (fun q => (requestOf q,q)) := by
  rw [Reading.parseLoop_requests hr hin.request hin.input_eq hdepth]
  have hstatus : (r.queued rs tail).status = .looping := hr.status
  by_cases hnil : tail = []
  · rw [Reading.parseLoop_of_none (by simp [Reading.parseRound, Reading.queued, hnil]), hstatus]
    exact ⟨(fun hret => by cases hret),hr.running,rfl,rfl,rfl,rfl⟩
  · let u : Reading := { r.queued rs tail with
      conn := { (r.queued rs tail).conn with httpParser := (parse {} tail).1 } }
    have hround : (r.queued rs tail).parseRound = some (u.leave .broken) := by
      have hfresh : (r.queued rs tail).conn.httpParser = {} := hr.fresh
      unfold Reading.parseRound
      rw [if_neg (by simp [Reading.queued, hr.status, hr.running, hnil]), hfresh]
      change some (u.parsed (parse {} tail).2) = _
      simp only [Reading.parsed, htail.1, htail.2, Bool.false_eq_true, if_false]
    rw [Reading.parseLoop_of_some hround, Reading.parseLoop_of_none (by simp [Reading.parseRound, Reading.leave])]
    exact ⟨(fun hret => by cases hret),hr.running,rfl,rfl,rfl,rfl⟩

theorem parseRound_overrun {q rest : List UInt8} (hr : r.Parsing) (hq : Accepted q)
    (hin : r.conn.inputBuffer = q ++ rest) (hfull : r.conn.pipelineDepth = maxHttpPipeline) :
    ∃ v, r.parseRound = some v ∧ v.status = .returned ∧ v.effects = r.effects ++ [.shutdown .pipelineDepth] := by
  let s : Reading := { r with conn := { r.conn with httpParser := (parse {} q).1 } }
  have hround : r.parseRound = some (s.parsed (parse {} q).2) := by
    have hne : r.conn.inputBuffer ≠ [] := by
      rw [hin]
      exact List.append_ne_nil_of_left_ne_nil hq.ne_nil _
    unfold Reading.parseRound
    rw [if_neg (by simp [hr.status, hr.running, hne]), hr.fresh, hin, hq.parse_append]
  have hs : s.parsed (parse {} q).2 = s.queueRequest (parse {} q).2 := by
    simp only [Reading.parsed, hq.no_error, hq.complete, Bool.false_eq_true, if_false, if_true]
  have hlimit : maxHttpPipeline < s.conn.pipelineDepth + 1 := by
    rw [show s.conn.pipelineDepth = maxHttpPipeline from hfull]
    exact Nat.lt_succ_self _
  refine ⟨_,hround,?_,?_⟩
  · rw [hs]
    simp [Reading.queueRequest, hlimit, Reading.leave]
  · rw [hs]
    simp [Reading.queueRequest, hlimit, Reading.leave, Reading.shutdown, Reading.emit, s, hr.running]

theorem parseLoop_overrun (hr : r.Parsing) (hin : Delivers r.conn.inputBuffer rs tail)
    (hdepth : r.conn.pipelineDepth = 0) (hmany : maxHttpPipeline < rs.length) :
    r.parseLoop.status = .returned ∧ r.parseLoop.effects = r.effects ++ [.shutdown .pipelineDepth] := by
  obtain ⟨q,rest,hdrop⟩ := List.exists_cons_of_length_pos (l := rs.drop maxHttpPipeline)
    (by rw [List.length_drop]; omega)
  have hsplit : rs = rs.take maxHttpPipeline ++ q :: rest := by rw [← hdrop, List.take_append_drop]
  have hlength : (rs.take maxHttpPipeline).length = maxHttpPipeline := by
    rw [List.length_take]
    omega
  have hq := hin.request q (by rw [hsplit]; simp)
  have hinput : r.conn.inputBuffer = (rs.take maxHttpPipeline).flatten ++ (q ++ (rest.flatten ++ tail)) := by
    rw [hin.input_eq]
    nth_rewrite 1 [hsplit]
    simp
  have hfirst := Reading.parseLoop_requests hr (fun p hp => hin.request p (List.mem_of_mem_take hp)) hinput
    (by omega)
  obtain ⟨v,hround,hstatus,heffects⟩ := parseRound_overrun (hr.queued (rs.take maxHttpPipeline) (q ++ (rest.flatten ++ tail)))
    hq.1 rfl (by simp [Reading.queued, hdepth, hlength])
  rw [hfirst, Reading.parseLoop_of_some hround, Reading.parseLoop_of_none (by simp [Reading.parseRound, hstatus])]
  exact ⟨hstatus,heffects⟩

theorem parseLoop_malformed (hr : r.Parsing) (hin : Delivers r.conn.inputBuffer rs tail)
    (hdepth : r.conn.pipelineDepth + rs.length ≤ maxHttpPipeline) (htail : (parse {} tail).2.hasError = true) :
    r.parseLoop.status = .returned ∧ r.parseLoop.effects = r.effects ++ [.send badRequest,.shutdown .badRequest] := by
  have hnil : tail ≠ [] := by
    rintro rfl
    exact absurd htail (by decide)
  let u : Reading := { r.queued rs tail with
    conn := { (r.queued rs tail).conn with httpParser := (parse {} tail).1 } }
  have hrun : u.conn.running = true := hr.running
  have hround : (r.queued rs tail).parseRound = some (((u.send badRequest).shutdown .badRequest).leave .returned) := by
    have hfresh : (r.queued rs tail).conn.httpParser = {} := hr.fresh
    unfold Reading.parseRound
    rw [if_neg (by simp [Reading.queued, hr.status, hr.running, hnil]), hfresh]
    change some (u.parsed (parse {} tail).2) = _
    rw [Reading.parsed, if_pos htail]
  rw [Reading.parseLoop_requests hr hin.request hin.input_eq hdepth, Reading.parseLoop_of_some hround,
    Reading.parseLoop_of_none (by simp [Reading.parseRound, Reading.leave])]
  have hsent : u.send badRequest = u.emit (.send badRequest) := if_pos ⟨hrun,by decide⟩
  refine ⟨rfl,?_⟩
  rw [hsent]
  unfold Reading.shutdown
  rw [if_pos (show (u.emit (.send badRequest)).conn.running = true from hrun)]
  exact List.append_assoc r.effects [_] [_]

theorem detected_parsing {s : State} (hs : Fresh s) (hd : Disciplined s) (chunk : List UInt8) :
    Reading.Parsing { conn := State.detected s.reading.conn chunk } ∧
      (State.detected s.reading.conn chunk).inputBuffer = s.reading.conn.inputBuffer ++ chunk ∧
      (State.detected s.reading.conn chunk).pendingRequests = [] ∧
      (State.detected s.reading.conn chunk).pipelineDepth = 0 := by
  have hnil := hd.idle hs.idle hs.running
  have hzero : s.reading.conn.pipelineDepth = 0 := by rw [hd.depth, hnil, List.length_nil]
  unfold State.detected EpollConnection.protocolDetected
  split_ifs
  · exact ⟨⟨rfl,hs.running,hs.parser⟩,rfl,hnil,hzero⟩
  · exact ⟨⟨rfl,hs.running,hs.parser⟩,rfl,hnil,hzero⟩

variable {s : State} {chunk : List UInt8}

theorem handleRead_delivers (hs : Fresh s) (hd : Disciplined s) (hpool : h.workerPool = false) (hq : Quiet h)
    (hne : chunk ≠ []) (hhandler : (State.detected s.reading.conn chunk).httpHandler = true)
    (hin : Delivers (s.reading.conn.inputBuffer ++ chunk) rs tail) (hlen : rs.length ≤ maxHttpPipeline)
    (htail : Incomplete tail) :
    (s.reading.conn.handleRead h chunk).effects = rs.map (fun r => .handle (requestOf r)) := by
  obtain ⟨hparsing,hinput,hpending,hdepth⟩ := detected_parsing hs hd chunk
  obtain ⟨hstatus,hrun,hclose,heffects,hkept,hqueue⟩ := parseLoop_delivers hparsing (hinput ▸ hin)
    (by simp only [hdepth]; omega) htail
  rw [handleRead_detected hs.running hne (Or.inr hhandler), Reading.handleHttp,
    Reading.dispatchLoop_quiet hq hclose hstatus hrun]
  have hone : ∀ p, handOn h true p = [.handle p.1] := fun p => by simp [handOn, hpool]
  simp only [heffects, hqueue, hkept, hpending, hhandler, List.nil_append, List.flatMap_map, hone]
  exact List.map_eq_flatMap.symm

/-- Behind a `return` of the first loop no request is handed on. -/
theorem handleRead_of_returned (hs : Fresh s) (hne : chunk ≠ [])
    (hhandler : (State.detected s.reading.conn chunk).httpHandler = true)
    (hstatus : (Reading.parseLoop { conn := State.detected s.reading.conn chunk }).status = .returned) :
    (s.reading.conn.handleRead h chunk).effects =
      (Reading.parseLoop { conn := State.detected s.reading.conn chunk }).effects := by
  rw [handleRead_detected hs.running hne (Or.inr hhandler), Reading.handleHttp, Reading.dispatchLoop,
    Loop.run_of_none (by simp [Reading.dispatchRound, hstatus])]

theorem handleRead_overrun (hs : Fresh s) (hd : Disciplined s) (hne : chunk ≠ [])
    (hhandler : (State.detected s.reading.conn chunk).httpHandler = true)
    (hin : Delivers (s.reading.conn.inputBuffer ++ chunk) rs tail) (hmany : maxHttpPipeline < rs.length) :
    (s.reading.conn.handleRead h chunk).effects = [.shutdown .pipelineDepth] := by
  obtain ⟨hparsing,hinput,-,hdepth⟩ := detected_parsing hs hd chunk
  obtain ⟨hstatus,heffects⟩ := parseLoop_overrun hparsing (hinput ▸ hin) hdepth hmany
  rw [handleRead_of_returned hs hne hhandler hstatus, heffects]
  rfl

theorem handleRead_malformed (hs : Fresh s) (hd : Disciplined s) (hne : chunk ≠ [])
    (hhandler : (State.detected s.reading.conn chunk).httpHandler = true)
    (hin : Delivers (s.reading.conn.inputBuffer ++ chunk) rs tail) (hlen : rs.length ≤ maxHttpPipeline)
    (htail : (parse {} tail).2.hasError = true) :
    (s.reading.conn.handleRead h chunk).effects = [.send badRequest,.shutdown .badRequest] := by
  obtain ⟨hparsing,hinput,-,hdepth⟩ := detected_parsing hs hd chunk
  obtain ⟨hstatus,heffects⟩ := parseLoop_malformed hparsing (hinput ▸ hin) (by simp only [hdepth]; omega) htail
  rw [handleRead_of_returned hs hne hhandler hstatus, heffects]
  rfl

end Reads

/-- At every boundary of the loops the counter is the length of the queue and at most one above the
limit, and the queue is empty when a read leaves the connection alive. On the IO thread a read
hands on what it completes, each request once and in order, unless these are too many. The
handler is the one that `protocol_detected` has left in place. -/
theorem pipeline_queue_discipline :
    (∀ httpHandler as t, Visits step (initial httpHandler) as t →
      t.reading.conn.pipelineDepth = t.reading.conn.pendingRequests.length ∧
      t.reading.conn.pipelineDepth ≤ maxHttpPipeline + 1 ∧
      (t.phase = .idle → t.reading.conn.running = true → t.reading.conn.pendingRequests = [])) ∧
    (∀ s h chunk, s.phase = .idle → ∃ as, exec step s as = some ⟨s.reading.conn.handleRead h chunk,.idle⟩) ∧
    ∀ httpHandler as t h chunk rs tail, exec step (initial httpHandler) as = some t → Fresh t →
      h.workerPool = false → chunk ≠ [] → (State.detected t.reading.conn chunk).httpHandler = true →
      Delivers (t.reading.conn.inputBuffer ++ chunk) rs tail →
      (rs.length ≤ maxHttpPipeline → Incomplete tail → Quiet h →
        (t.reading.conn.handleRead h chunk).effects = rs.map (fun r => .handle (requestOf r))) ∧
      (maxHttpPipeline < rs.length → (t.reading.conn.handleRead h chunk).effects = [.shutdown .pipelineDepth]) := by
  refine ⟨?_,fun s h chunk hidle => handleRead_exec hidle h chunk,?_⟩
  · intro httpHandler as t hvisits
    have ht := visits_disciplined hvisits
    exact ⟨ht.depth,ht.limit,ht.idle⟩
  · intro httpHandler as t h chunk rs tail hexec ht hpool hne hhandler hin
    have hd : Disciplined t := visits_disciplined ⟨as,List.prefix_rfl,hexec⟩
    exact ⟨fun hlen htail hq => handleRead_delivers ht hd hpool hq hne hhandler hin hlen htail,
      fun hmany => handleRead_overrun ht hd hne hhandler hin hmany⟩

/-- Two requests and the start of a third one, read at once by a new connection; and a queue's worth
and one. -/
theorem pipeline_queue_discipline_reads :
    ((({} : EpollConnection).handleRead Handlers.silent
        (bytes "GET /a HTTP/1.1\r\n\r\nGET /b HTTP/1.1\r\n\r\nGET")).effects =
      [bytes "GET /a HTTP/1.1\r\n\r\n",bytes "GET /b HTTP/1.1\r\n\r\n"].map (fun r => .handle (requestOf r))) ∧
    (({} : EpollConnection).handleRead Handlers.silent
        (List.replicate (maxHttpPipeline + 1) (bytes "GET / HTTP/1.1\r\n\r\n")).flatten).effects =
      [.shutdown .pipelineDepth] := by
  refine ⟨?_,?_⟩
  · exact (pipeline_queue_discipline.2.2 true [] _ Handlers.silent _
      [bytes "GET /a HTTP/1.1\r\n\r\n",bytes "GET /b HTTP/1.1\r\n\r\n"] (bytes "GET") rfl ⟨rfl,rfl,rfl⟩ rfl (by decide)
      (by decide) (by decide +kernel)).1 (by decide) (by decide) (fun _ => ⟨rfl,rfl⟩)
  · have hone : Accepted (bytes "GET / HTTP/1.1\r\n\r\n") ∧
        (requestOf (bytes "GET / HTTP/1.1\r\n\r\n")).keepAlive = true := by decide
    have hrs : Delivers ([] ++ (List.replicate (maxHttpPipeline + 1) (bytes "GET / HTTP/1.1\r\n\r\n")).flatten)
        (List.replicate (maxHttpPipeline + 1) (bytes "GET / HTTP/1.1\r\n\r\n")) [] :=
      ⟨fun r hr => by rw [List.eq_of_mem_replicate hr]; exact hone,by rw [List.nil_append, List.append_nil]⟩
    refine (pipeline_queue_discipline.2.2 true [] _ Handlers.silent _ _ [] rfl ⟨rfl,rfl,rfl⟩ rfl ?_ ?_ hrs).2 ?_
    · decide +kernel
    · decide +kernel
    · rw [List.length_replicate]
      exact Nat.lt_succ_self _

/-- A complete keep-alive request that is not handed on: the bytes behind it are no request line. -/
theorem pipeline_queue_malformed : Fresh (initial true) ∧ Handlers.silent.workerPool = false ∧ Quiet Handlers.silent ∧
    Delivers (bytes "GET /a HTTP/1.1\r\n\r\nBAD\r\n") [bytes "GET /a HTTP/1.1\r\n\r\n"] (bytes "BAD\r\n") ∧
    ((initial true).reading.conn.handleRead Handlers.silent (bytes "GET /a HTTP/1.1\r\n\r\nBAD\r\n")).effects =
      [.send badRequest,.shutdown .badRequest] ∧
    ((initial true).reading.conn.handleRead Handlers.silent (bytes "GET /a HTTP/1.1\r\n\r\nBAD\r\n")).effects ≠
      [bytes "GET /a HTTP/1.1\r\n\r\n"].map (fun r => .handle (requestOf r)) := by
  have hfresh : Fresh (initial true) := ⟨rfl,rfl,rfl⟩
  have hin : Delivers (bytes "GET /a HTTP/1.1\r\n\r\nBAD\r\n") [bytes "GET /a HTTP/1.1\r\n\r\n"]
      (bytes "BAD\r\n") := ⟨by decide,by decide⟩
  have heffects := handleRead_malformed (h := Handlers.silent) hfresh (initial_disciplined true)
    (show bytes "GET /a HTTP/1.1\r\n\r\nBAD\r\n" ≠ [] by decide) (by decide) hin (by decide) (by decide)
  refine ⟨hfresh,rfl,fun _ => ⟨rfl,rfl⟩,hin,heffects,?_⟩
  rw [heffects]
  intro heq
  cases heq

end ModernTcp.PipelineQueue
