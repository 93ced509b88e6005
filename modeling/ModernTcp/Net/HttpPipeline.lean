import ModernTcp.Lib.Threads
import ModernTcp.Net.HttpDelivery

/-! # The requests of one connection, from the parser to the handler

`handle_read` queues what it parses in `pending_requests_` and empties the queue before it returns,
on the IO thread into the handler, with a worker pool into the tasks of the pool. A worker
looks at `running_`, calls the handler and closes the connection afterwards if the request says
so. Requests are known by their position in the stream. What a call of the handler does is
decided by the label of its step; responses are left out.
-/
namespace ModernTcp.HttpPipeline
open EpollConnection Execution

structure Task where
  index : ℕ
  closeAfter : Bool
deriving DecidableEq

/-- A worker with a task it has not looked at `running_` for, in the handler, and behind it; then
`closes` says that `shutdown` comes next. -/
inductive Pc
  | waiting
  | taken (task : Task)
  | handling (task : Task)
  | handled (task : Task) (closes : Bool)
deriving DecidableEq

inductive Phase
  | idle | parsing | dispatching
deriving DecidableEq

variable {k : ℕ}

/-- `popped` holds the requests that have left `pending_requests_`, `invoked` the positions of those
the handler was called for. -/
structure State (k : ℕ) where
  reading : Reading := { conn := {} }
  phase : Phase := .idle
  popped : List SimpleHttpRequest := []
  tasks : List Task := []
  pc : Fin k → Pc := fun _ => .waiting
  invoked : List ℕ := []

/-- `read` is an event with data or an end of stream, `drop` a close by the reactor. A round of the
second loop and a step of a worker come with what the handler does if it is called there. -/
inductive Act (k : ℕ)
  | read (chunk : List UInt8)
  | drop
  | parse
  | dispatch (run : HandlerRun)
  | worker (w : Fin k) (run : HandlerRun)

/-- The tasks among the effects of a round for the request at position `i`. -/
def submitted (i : ℕ) (effects : List Effect) : List Task :=
  effects.filterMap fun
    | .submit _ _ closeAfter => some ⟨i,closeAfter⟩
    | _ => none

def handledIn (i : ℕ) (effects : List Effect) : List ℕ :=
  effects.filterMap fun
    | .handle _ => some i
    | _ => none

namespace State

def goto (s : State k) (w : Fin k) (p : Pc) : State k := { s with pc := Function.update s.pc w p }

def shutdown (s : State k) (why : CloseReason) : State k := { s with reading := s.reading.shutdown why }

def running (s : State k) : Bool := s.reading.conn.running

def pending (s : State k) : List SimpleHttpRequest := s.reading.conn.pendingRequests.map Prod.fst

/-- All requests parsed so far, in the order of the stream. -/
def requests (s : State k) : List SimpleHttpRequest := s.popped ++ s.pending

def read (s : State k) (chunk : List UInt8) : Option (State k) :=
  let c := { s.reading.conn with inputBuffer := s.reading.conn.inputBuffer ++ chunk }.protocolDetected
  if s.running = false then some s
  else if chunk = [] then some (s.shutdown .endOfStream)
  else if c.protocol = some .http ∨ c.httpHandler then some { s with reading := { conn := c }, phase := .parsing }
  else none

def parse (s : State k) : State k :=
  match s.reading.parseRound with
  | some t => { s with reading := t }
  | none => { s with phase := .dispatching }

def dispatch (workerPool : Bool) (s : State k) (run : HandlerRun) : State k :=
  match s.pending, { s.reading with effects := [] }.dispatchRound ⟨workerPool,fun _ => run,none⟩ with
  | req :: _, some t =>
    { s with
      reading := t
      popped := s.popped ++ [req]
      tasks := s.tasks ++ submitted s.popped.length t.effects
      invoked := s.invoked ++ handledIn s.popped.length t.effects }
  | _, _ => { s with phase := .idle }

def advanceWorker (s : State k) (w : Fin k) (run : HandlerRun) : Option (State k) :=
  match s.pc w with
  | .waiting =>
    match s.tasks with
    | [] => none
    | task :: rest => some { s.goto w (.taken task) with tasks := rest }
  | .taken task =>
    some (if s.running then { s.goto w (.handling task) with invoked := s.invoked ++ [task.index] }
      else s.goto w .waiting)
  | .handling task =>
    some ((if run.closes then s.shutdown .handler else s).goto w (.handled task (run.throws || task.closeAfter)))
  | .handled _ closes => some ((if closes then s.shutdown .answered else s).goto w .waiting)

end State

def step (workerPool : Bool) (s : State k) : Act k → Option (State k)
  | .read chunk => if s.phase = .idle then s.read chunk else none
  | .drop => if s.phase = .idle then some (s.shutdown .reactor) else none
  | .parse => if s.phase = .parsing then some s.parse else none
  | .dispatch run => if s.phase = .dispatching then some (s.dispatch workerPool run) else none
  | .worker w run => s.advanceWorker w run

/-- What the parser will say of the input: the connection is refused for an error or for the depth of
its pipeline, a request is incomplete, or it is queued. -/
inductive Outcome
  | refused | incomplete | queued
deriving DecidableEq

def outcome (c : EpollConnection) : Outcome :=
  let result := (c.httpParser.parse c.inputBuffer).2
  if result.hasError then .refused
  else if result.isComplete = false then .incomplete
  else if c.pipelineDepth < maxHttpPipeline then .queued else .refused

section Rounds
variable {s t : Reading}

@[simp] theorem shutdown_running (why : CloseReason) : (s.shutdown why).conn.running = false := by
  unfold Reading.shutdown
  split_ifs with hrun
  · rfl
  · simpa using hrun

@[simp] theorem shutdown_pipelineDepth (why : CloseReason) :
    (s.shutdown why).conn.pipelineDepth = s.conn.pipelineDepth := by
  unfold Reading.shutdown
  split_ifs <;> rfl

@[simp] theorem shutdown_httpHandler (why : CloseReason) : (s.shutdown why).conn.httpHandler = s.conn.httpHandler := by
  unfold Reading.shutdown
  split_ifs <;> rfl

@[simp] theorem shutdown_shouldClose (why : CloseReason) : (s.shutdown why).shouldClose = s.shouldClose := by
  unfold Reading.shutdown
  split_ifs <;> rfl

/-- A round of the first loop, by what the parser says. -/
inductive Parsed (s t : Reading) : Prop
  | refused (ho : outcome s.conn = .refused) (hrun : t.conn.running = false)
      (more : List (SimpleHttpRequest × List UInt8)) (hone : more.length ≤ 1)
      (hmore : more ≠ [] → maxHttpPipeline ≤ s.conn.pipelineDepth)
      (hpending : t.conn.pendingRequests = s.conn.pendingRequests ++ more)
      (hdepth : t.conn.pipelineDepth = s.conn.pipelineDepth + more.length)
  | incomplete (ho : outcome s.conn = .incomplete) (hrun : t.conn.running = true) (hstatus : t.status = .broken)
      (hpending : t.conn.pendingRequests = s.conn.pendingRequests)
      (hdepth : t.conn.pipelineDepth = s.conn.pipelineDepth) (hclose : t.shouldClose = s.shouldClose)
  | queued (ho : outcome s.conn = .queued) (hrun : t.conn.running = true) (hstatus : t.status = .looping)
      (req : SimpleHttpRequest) (raw : List UInt8)
      (hpending : t.conn.pendingRequests = s.conn.pendingRequests ++ [(req,raw)])
      (hdepth : t.conn.pipelineDepth = s.conn.pipelineDepth + 1)
      (hclose : t.shouldClose = (s.shouldClose || !req.keepAlive))

theorem parseRound_parsed (h : s.parseRound = some t) :
    s.conn.running = true ∧ t.conn.httpHandler = s.conn.httpHandler ∧ Parsed s t := by
  unfold Reading.parseRound at h
  split at h
  · cases h
  rename_i hgo
  simp only [ne_eq, not_or, not_not, Bool.not_eq_false] at hgo
  obtain ⟨hstatus,-,hrun⟩ := hgo
  refine ⟨hrun,?_⟩
  cases h
  by_cases herr : (s.conn.httpParser.parse s.conn.inputBuffer).2.hasError = true
  · have ho : outcome s.conn = .refused := by simp [outcome, herr]
    simp only [Reading.parsed, herr, if_true]
    exact ⟨by simp [Reading.leave, Reading.send_conn],.refused ho (by simp [Reading.leave]) [] (Nat.zero_le 1) (absurd rfl)
      (by simp [Reading.leave, Reading.shutdown_pendingRequests, Reading.send_conn])
      (by simp [Reading.leave, Reading.send_conn])⟩
  by_cases hcomplete : (s.conn.httpParser.parse s.conn.inputBuffer).2.isComplete = true
  · by_cases hdepth : s.conn.pipelineDepth < maxHttpPipeline
    · have ho : outcome s.conn = .queued := by simp [outcome, herr, hcomplete, hdepth]
      have hlimit : ¬ maxHttpPipeline < s.conn.pipelineDepth + 1 := by omega
      simp only [Reading.parsed, herr, hcomplete, if_true, Reading.queueRequest, hlimit, if_false]
      exact ⟨rfl,.queued ho hrun hstatus _ _ rfl rfl rfl⟩
    · have ho : outcome s.conn = .refused := by simp [outcome, herr, hcomplete, hdepth]
      have hlimit : maxHttpPipeline < s.conn.pipelineDepth + 1 := by omega
      simp only [Reading.parsed, herr, hcomplete, Bool.false_eq_true, if_false, if_true, Reading.queueRequest, hlimit]
      exact ⟨by simp [Reading.leave],.refused ho (by simp [Reading.leave]) [_] le_rfl
        (fun _ => not_lt.mp hdepth) (Reading.shutdown_pendingRequests _ _) (by simp [Reading.leave])⟩
  · have ho : outcome s.conn = .incomplete := by simp [outcome, herr, hcomplete]
    simp only [Reading.parsed, herr, hcomplete]
    exact ⟨rfl,.incomplete ho hrun rfl rfl rfl rfl⟩

theorem dispatchRound_cases {h : Handlers} (ht : s.dispatchRound h = some t) : ∃ req raw rest,
    s.conn.pendingRequests = (req,raw) :: rest ∧ s.conn.running = true ∧ t = s.popRequest.dispatch h req raw := by
  unfold Reading.dispatchRound at ht
  split at ht
  · cases ht
  rename_i hgo
  simp only [not_or, Bool.not_eq_false] at hgo
  split at ht
  · cases ht
  · rename_i req raw rest hpending
    cases ht
    exact ⟨req,raw,rest,hpending,hgo.2,rfl⟩

theorem dispatchRound_eq_none {h : Handlers} : s.dispatchRound h = none ↔
    s.status = .returned ∨ s.conn.running = false ∨ s.conn.pendingRequests = [] := by
  unfold Reading.dispatchRound
  split
  · rename_i hend
    simp only [true_iff]
    exact hend.imp_right Or.inl
  · rename_i hgo
    simp only [not_or] at hgo
    cases hpending : s.conn.pendingRequests with
    | nil => simp
    | cons x rest => simp [hgo.1, hgo.2]

/-- What `shutdown` and `send` leave alone. -/
structure Keeps (s t : Reading) : Prop where
  pendingRequests : t.conn.pendingRequests = s.conn.pendingRequests
  pipelineDepth : t.conn.pipelineDepth = s.conn.pipelineDepth
  httpHandler : t.conn.httpHandler = s.conn.httpHandler
  status : t.status = s.status
  handled : ∀ i, handledIn i t.effects = handledIn i s.effects
  submitted : ∀ i, submitted i t.effects = submitted i s.effects

theorem Keeps.trans {u : Reading} (h : Keeps s t) (h' : Keeps t u) : Keeps s u :=
  ⟨h'.pendingRequests.trans h.pendingRequests,h'.pipelineDepth.trans h.pipelineDepth,
    h'.httpHandler.trans h.httpHandler,h'.status.trans h.status,fun i => (h'.handled i).trans (h.handled i),
    fun i => (h'.submitted i).trans (h.submitted i)⟩

theorem keeps_refl : Keeps s s := ⟨rfl,rfl,rfl,rfl,fun _ => rfl,fun _ => rfl⟩

theorem shutdown_keeps (why : CloseReason) : Keeps s (s.shutdown why) := by
  unfold Reading.shutdown
  split_ifs
  · exact ⟨rfl,rfl,rfl,rfl,fun i => by simp [Reading.emit, handledIn],fun i => by simp [Reading.emit, submitted]⟩
  · exact keeps_refl

theorem send_keeps (data : List UInt8) : Keeps s (s.send data) := by
  unfold Reading.send
  split_ifs
  · exact ⟨rfl,rfl,rfl,rfl,fun i => by simp [Reading.emit, handledIn],fun i => by simp [Reading.emit, submitted]⟩
  · exact keeps_refl

theorem callHandler_keeps (h : Handlers) (req : SimpleHttpRequest) :
    Keeps (s.emit (.handle req)) (s.callHandler h req) := by
  unfold Reading.callHandler
  have hclosed : Keeps (s.emit (.handle req))
      (if (h.http req).closes then (s.emit (.handle req)).shutdown .handler else s.emit (.handle req)) := by
    split_ifs
    · exact shutdown_keeps _
    · exact keeps_refl
  dsimp only
  split_ifs at hclosed ⊢
  all_goals first | exact hclosed | skip
  · obtain ⟨h1,h2,h3,h4,h5,h6⟩ := hclosed.trans (send_keeps serverError)
    exact ⟨h1,h2,h3,h4,h5,h6⟩
  · obtain ⟨h1,h2,h3,h4,h5,h6⟩ := hclosed.trans (send_keeps serverError)
    exact ⟨h1,h2,h3,h4,h5,h6⟩

theorem closeIfDone_keeps : Keeps s s.closeIfDone := by
  unfold Reading.closeIfDone
  split_ifs
  · exact shutdown_keeps _
  · exact keeps_refl

theorem callHandler_running (h : Handlers) (req : SimpleHttpRequest) :
    (s.callHandler h req).conn.running = (s.conn.running && !(h.http req).closes) := by
  unfold Reading.callHandler
  dsimp only
  split_ifs with hcloses hthrows hthrows <;> simp_all [Reading.send_conn, Reading.emit]

theorem callHandler_shouldClose (h : Handlers) (req : SimpleHttpRequest) :
    (s.callHandler h req).shouldClose = (s.shouldClose || (h.http req).throws) := by
  unfold Reading.callHandler
  dsimp only
  split_ifs with hcloses hthrows hthrows <;> simp_all [Reading.emit]

theorem closeIfDone_running : s.closeIfDone.conn.running = true ↔
    s.conn.running = true ∧ (s.shouldClose = true → s.conn.pendingRequests ≠ []) := by
  unfold Reading.closeIfDone
  split_ifs with hdone
  · simp [hdone.1, hdone.2]
  · refine ⟨fun hrun => ⟨hrun,fun hclose hnil => hdone ⟨hclose,hnil⟩⟩,And.left⟩

theorem closeIfDone_shouldClose : s.closeIfDone.shouldClose = s.shouldClose := by
  unfold Reading.closeIfDone
  split_ifs
  · exact shutdown_shouldClose _
  · rfl

end Rounds

/-- The first pending request leaves the queue. -/
structure Popped (s t : State k) (req : SimpleHttpRequest) : Prop where
  pending : s.pending = req :: t.pending
  popped : t.popped = s.popped ++ [req]
  running : s.running = true
  depth : t.reading.conn.pipelineDepth = s.reading.conn.pipelineDepth - 1
  handler : t.reading.conn.httpHandler = s.reading.conn.httpHandler
  status : t.reading.status = s.reading.status
  pc : t.pc = s.pc
  phase : t.phase = s.phase

/-- The second loop is left by its test, or was not reached. -/
def State.Over (s : State k) : Prop := s.reading.status = .returned ∨ s.running = false ∨ s.pending = []

section Dispatch
variable {s : State k} (run : HandlerRun)

/-- A round of the second loop, with the state `r` that it leaves the reading in. -/
theorem dispatch_cases (workerPool : Bool) :
    (s.Over ∧ s.dispatch workerPool run = { s with phase := .idle }) ∨
      ∃ req raw r, r = ({ s.reading with effects := [] } : Reading).popRequest ∧
        s.pending = req :: r.conn.pendingRequests.map Prod.fst ∧ s.running = true ∧
        s.dispatch workerPool run = { s with
          reading := r.dispatch ⟨workerPool,fun _ => run,none⟩ req raw
          popped := s.popped ++ [req]
          tasks := s.tasks ++ submitted s.popped.length (r.dispatch ⟨workerPool,fun _ => run,none⟩ req raw).effects
          invoked := s.invoked ++
            handledIn s.popped.length (r.dispatch ⟨workerPool,fun _ => run,none⟩ req raw).effects } := by
  cases hround : { s.reading with effects := [] }.dispatchRound ⟨workerPool,fun _ => run,none⟩ with
  | none =>
    left
    refine ⟨?_,by simp [State.dispatch, hround]⟩
    simpa [State.Over, State.pending, State.running] using dispatchRound_eq_none.mp hround
  | some t =>
    right
    obtain ⟨req,raw,rest,hpending,hrun,rfl⟩ := dispatchRound_cases hround
    have hreq : s.pending = req :: rest.map Prod.fst := by simpa [State.pending] using congrArg (List.map Prod.fst) hpending
    refine ⟨req,raw,_,rfl,?_,hrun,by simp only [State.dispatch, hround, hreq]⟩
    rw [hreq]
    simp [Reading.popRequest, show s.reading.conn.pendingRequests = (req,raw) :: rest from hpending]

theorem dispatch_pool (hhandler : s.reading.conn.httpHandler = true) :
    (s.Over ∧ s.dispatch true run = { s with phase := .idle }) ∨
      ∃ req, Popped s (s.dispatch true run) req ∧ (s.dispatch true run).running = true ∧
        (s.dispatch true run).tasks = s.tasks ++ [⟨s.popped.length,!req.keepAlive⟩] ∧
        (s.dispatch true run).invoked = s.invoked := by
  rcases dispatch_cases run true with hover | ⟨req,raw,r,hr,hpending,hrun,hdispatch⟩
  · exact Or.inl hover
  have hhandler' : r.conn.httpHandler = true := by rw [hr]; exact hhandler
  have hsubmit : r.dispatch ⟨true,fun _ => run,none⟩ req raw = r.emit (.submit req raw (!req.keepAlive)) := by
    simp [Reading.dispatch, hhandler']
  rw [hsubmit] at hdispatch
  rw [hdispatch]
  subst hr
  exact Or.inr ⟨req,⟨hpending,rfl,hrun,rfl,rfl,rfl,rfl,rfl⟩,hrun,rfl,List.append_nil _⟩

theorem dispatch_inline (hhandler : s.reading.conn.httpHandler = true) :
    (s.Over ∧ s.dispatch false run = { s with phase := .idle }) ∨
      ∃ req, Popped s (s.dispatch false run) req ∧ (s.dispatch false run).tasks = s.tasks ∧
        (s.dispatch false run).invoked = s.invoked ++ [s.popped.length] ∧
        (s.dispatch false run).reading.shouldClose = (s.reading.shouldClose || run.throws) ∧
        ((s.dispatch false run).running = true ↔ run.closes = false ∧
          ((s.reading.shouldClose || run.throws) = true → (s.dispatch false run).pending ≠ [])) := by
  rcases dispatch_cases run false with hover | ⟨req,raw,r,hr,hpending,hrun,hdispatch⟩
  · exact Or.inl hover
  have hhandler' : r.conn.httpHandler = true := by rw [hr]; exact hhandler
  have hrun' : r.conn.running = true := by rw [hr]; exact hrun
  have hcall : r.dispatch ⟨false,fun _ => run,none⟩ req raw =
      (r.callHandler ⟨false,fun _ => run,none⟩ req).closeIfDone := by
    simp [Reading.dispatch, hhandler']
  have hcalled := callHandler_keeps (s := r) ⟨false,fun _ => run,none⟩ req
  have hkeeps := hcalled.trans closeIfDone_keeps
  have hclose : (r.callHandler ⟨false,fun _ => run,none⟩ req).closeIfDone.shouldClose =
      (r.shouldClose || run.throws) := by
    rw [closeIfDone_shouldClose, callHandler_shouldClose]
  have hlive : (r.callHandler ⟨false,fun _ => run,none⟩ req).closeIfDone.conn.running = true ↔
      run.closes = false ∧ ((r.shouldClose || run.throws) = true → r.conn.pendingRequests ≠ []) := by
    rw [closeIfDone_running, callHandler_running, callHandler_shouldClose, hcalled.pendingRequests, hrun']
    simp [Reading.emit]
  have hrest : (r.callHandler ⟨false,fun _ => run,none⟩ req).closeIfDone.conn.pendingRequests =
      r.conn.pendingRequests := hkeeps.pendingRequests
  rw [hcall] at hdispatch
  right
  refine ⟨req,?_,?_,?_,?_,?_⟩
  · rw [hdispatch]
    refine ⟨?_,rfl,hrun,?_,?_,?_,rfl,rfl⟩
    · rw [hpending]
      simp [State.pending, hrest]
    · simpa [hr, Reading.popRequest, Reading.emit] using hkeeps.pipelineDepth
    · simpa [hr, Reading.popRequest, Reading.emit] using hkeeps.httpHandler
    · simpa [hr, Reading.popRequest, Reading.emit] using hkeeps.status
  · rw [hdispatch]
    simp only [hkeeps.submitted]
    simp [hr, Reading.popRequest, Reading.emit, submitted]
  · rw [hdispatch]
    simp only [hkeeps.handled]
    simp [hr, Reading.popRequest, Reading.emit, handledIn]
  · rw [hdispatch]
    dsimp only
    rw [hclose, hr]
    rfl
  · rw [hdispatch]
    simp only [State.running, State.pending, hrest, ne_eq, List.map_eq_nil_iff]
    rw [hlive, hr]
    rfl

end Dispatch

theorem sum_goto (f : Pc → ℕ) (s : State k) (w : Fin k) (p : Pc) :
    (∑ x, f ((s.goto w p).pc x)) + f (s.pc w) = (∑ x, f (s.pc x)) + f p := by
  have hsum := Threads.sum_exchange (f := fun x => f (s.pc x)) (g := fun x => f ((s.goto w p).pc x)) (i := w)
    (fun x hx => by simp [State.goto, Function.update_of_ne hx])
  simpa [State.goto] using hsum

/-- The counter counts the queue, a read that returned early has closed the connection, and between
two reads the queue of a live connection is empty. -/
structure Sound (s : State k) : Prop where
  handler : s.reading.conn.httpHandler = true
  depth : s.reading.conn.pipelineDepth = s.pending.length
  returned : s.reading.status = .returned → s.running = false
  idle : s.phase = .idle → s.running = true → s.pending = []

theorem initial_sound : Sound ({} : State k) := ⟨rfl,rfl,(fun hret => by cases hret),fun _ _ => rfl⟩

section Steps
variable {s t : State k} {workerPool : Bool}

theorem protocolDetected_fields (c : EpollConnection) :
    c.protocolDetected.running = c.running ∧ c.protocolDetected.pendingRequests = c.pendingRequests ∧
      c.protocolDetected.pipelineDepth = c.pipelineDepth := by
  unfold EpollConnection.protocolDetected
  split_ifs
  · exact ⟨rfl,rfl,rfl⟩
  · exact ⟨rfl,rfl,rfl⟩

/-- The handler is dropped only when the protocol is not HTTP. -/
theorem protocolDetected_httpHandler {c : EpollConnection} (hhandler : c.httpHandler = true)
    (h : c.protocolDetected.protocol = some .http ∨ c.protocolDetected.httpHandler = true) :
    c.protocolDetected.httpHandler = true := by
  unfold EpollConnection.protocolDetected at h ⊢
  split_ifs at h ⊢ with hnew
  · simpa [hhandler] using h
  · exact hhandler

@[simp] theorem State.shutdown_pending (why : CloseReason) : (s.shutdown why).pending = s.pending := by
  simp [State.shutdown, State.pending, Reading.shutdown_pendingRequests]

@[simp] theorem State.shutdown_not_running (why : CloseReason) : (s.shutdown why).running = false := by
  simp [State.shutdown, State.running]

theorem Sound.shutdown (hs : Sound s) (why : CloseReason) : Sound (s.shutdown why) where
  handler := by simpa [State.shutdown] using hs.handler
  depth := by simpa [State.shutdown, State.pending, Reading.shutdown_pendingRequests] using hs.depth
  returned _ := by simp
  idle _ hrun := by simp at hrun

theorem Sound.congr (hs : Sound s) (hreading : t.reading = s.reading) (hphase : t.phase = s.phase) : Sound t where
  handler := by rw [hreading]; exact hs.handler
  depth := by rw [State.pending, hreading]; exact hs.depth
  returned := by rw [State.running, hreading]; exact hs.returned
  idle := by rw [State.running, State.pending, hreading, hphase]; exact hs.idle

theorem Sound.read {chunk : List UInt8} (hs : Sound s) (h : s.read chunk = some t) : Sound t := by
  unfold State.read at h
  dsimp only at h
  split_ifs at h with hdead hnil hhttp
  · cases h
    exact hs
  · cases h
    exact hs.shutdown _
  · cases h
    obtain ⟨hrun,hpending,hdepth⟩ := protocolDetected_fields
      { s.reading.conn with inputBuffer := s.reading.conn.inputBuffer ++ chunk }
    refine ⟨protocolDetected_httpHandler hs.handler hhttp,?_,(fun hret => by cases hret),(fun hidle => by cases hidle)⟩
    simpa [State.pending, hpending, hdepth] using hs.depth

theorem Sound.parse (hs : Sound s) (hphase : s.phase = .parsing) : Sound s.parse := by
  unfold State.parse
  split
  · rename_i r hround
    obtain ⟨-,hhandler,hparsed⟩ := parseRound_parsed hround
    have hidle : s.phase = .idle → r.conn.running = true → r.conn.pendingRequests.map Prod.fst = [] := by
      rw [hphase]
      exact fun hidle => by cases hidle
    have hlength : s.reading.conn.pipelineDepth = s.reading.conn.pendingRequests.length := by
      simpa [State.pending] using hs.depth
    refine ⟨hhandler.trans hs.handler,?_,?_,hidle⟩
    · cases hparsed with
      | refused ho hrun more hone hmore hpending hdepth => simp [State.pending, hpending, hdepth, hlength]
      | incomplete ho hrun hstatus hpending hdepth hclose => simp [State.pending, hpending, hdepth, hlength]
      | queued ho hrun hstatus req raw hpending hdepth hclose => simp [State.pending, hpending, hdepth, hlength]
    · intro hret
      cases hparsed with
      | refused ho hrun more hone hmore hpending hdepth => exact hrun
      | incomplete ho hrun hstatus hpending hdepth hclose =>
        rw [hstatus] at hret
        cases hret
      | queued ho hrun hstatus req raw hpending hdepth hclose =>
        rw [hstatus] at hret
        cases hret
  · exact ⟨hs.handler,hs.depth,hs.returned,(fun hidle => by cases hidle)⟩

theorem Sound.over (hs : Sound s) (hover : s.Over) (hrun : s.running = true) : s.pending = [] := by
  rcases hover with hret | hdead | hnil
  · rw [hs.returned hret] at hrun
    cases hrun
  · rw [hdead] at hrun
    cases hrun
  · exact hnil

theorem Sound.popped {req : SimpleHttpRequest} (hs : Sound s) (hphase : s.phase = .dispatching) (h : Popped s t req) :
    Sound t where
  handler := h.handler.trans hs.handler
  depth := by simp [h.depth, hs.depth, h.pending]
  returned hret := by
    have hdead := hs.returned (h.status.symm.trans hret)
    rw [h.running] at hdead
    cases hdead
  idle hidle := by
    rw [h.phase, hphase] at hidle
    cases hidle

theorem Sound.dispatch (hs : Sound s) (hphase : s.phase = .dispatching) (run : HandlerRun) :
    Sound (s.dispatch workerPool run) := by
  have hend : s.Over → Sound { s with phase := .idle } := fun hover =>
    ⟨hs.handler,hs.depth,hs.returned,fun _ => hs.over hover⟩
  cases workerPool with
  | true =>
    rcases dispatch_pool run hs.handler with ⟨hover,heq⟩ | ⟨req,hpop,-⟩
    · rw [heq]
      exact hend hover
    · exact hs.popped hphase hpop
  | false =>
    rcases dispatch_inline run hs.handler with ⟨hover,heq⟩ | ⟨req,hpop,-⟩
    · rw [heq]
      exact hend hover
    · exact hs.popped hphase hpop

theorem Sound.worker {w : Fin k} {run : HandlerRun} (hs : Sound s) (h : s.advanceWorker w run = some t) : Sound t := by
  unfold State.advanceWorker at h
  split at h
  · split at h
    · cases h
    · cases h
      exact hs.congr rfl rfl
  · cases h
    split_ifs
    · exact hs.congr rfl rfl
    · exact hs.congr rfl rfl
  · cases h
    split_ifs
    · exact (hs.shutdown _).congr rfl rfl
    · exact hs.congr rfl rfl
  · cases h
    split_ifs
    · exact (hs.shutdown _).congr rfl rfl
    · exact hs.congr rfl rfl

theorem step_sound {a : Act k} (hs : Sound s) (h : step workerPool s a = some t) : Sound t := by
  cases a with
  | read chunk =>
    simp only [step] at h
    split_ifs at h
    exact hs.read h
  | drop =>
    simp only [step] at h
    split_ifs at h
    cases h
    exact hs.shutdown _
  | parse =>
    simp only [step] at h
    split_ifs at h with hphase
    cases h
    exact hs.parse hphase
  | dispatch run =>
    simp only [step] at h
    split_ifs at h with hphase
    cases h
    exact hs.dispatch hphase run
  | worker w run => exact hs.worker h

end Steps

end ModernTcp.HttpPipeline
