import ModernTcp.Http.LineLimit
import ModernTcp.Http.ResponseStream
import ModernTcp.Net.HttpPipeline
import ModernTcp.Net.ProtobufEcho
import ModernTcp.Server.ConnectionHeader
import ModernTcp.Server.SlowRoute

/-! # A connection served by the routes

The pipeline of a connection with what its handler is in `main.cpp`: `handle_http_request` runs the routes and sends
the response, on the IO thread or in a worker, and `handle_write` takes it from the output buffer. A client that
sends whole requests, and with more than one worker waits for the answer before the next one, gets the answers of the
routes, whatever else goes on in the process. What the input and the output buffer hold is a byte sequence, without
the append that writes past the vector of a `Buffer`.
-/
namespace ModernTcp.HttpSession
open EpollConnection Execution HttpParser ProtobufEcho

variable {ω : Type*} {k : ℕ}

/-- `world` is what the routes see of the process, `wire` all that has been written to the socket. -/
structure State (ω : Type*) (k : ℕ) where
  pipeline : HttpPipeline.State k := {}
  out : Output := {}
  world : ω
  wire : List UInt8 := []

/-- `read` is an event with the bytes of `requests`, `outside` anything that happens to the process elsewhere. -/
inductive Act (ω : Type*) (k : ℕ)
  | read (requests : List (List UInt8))
  | drop
  | parse
  | dispatch
  | worker (w : Fin k)
  | write (n : ℕ)
  | outside (world : ω)

/-- A call of `handle_http_request`. A response that does not fit into the output buffer closes the connection. -/
def State.call (router : HttpRouter ω) (s : State ω k) (req : SimpleHttpRequest) : ω × HandlerRun :=
  let ran := handleHttpRequest router req s.world
  (ran.1,{ ran.2 with closes := s.out.running && !(ran.2.sends.foldl Output.send s.out).running })

/-- All that is sent for a request. -/
def replies (run : HandlerRun) : List (List UInt8) := run.sends ++ if run.throws then [serverError] else []

/-- What a round of the first loop sends. -/
def refusals (s : HttpPipeline.State k) : List (List UInt8) :=
  (s.parse.reading.effects.drop s.reading.effects.length).filterMap fun
    | .send data => some data
    | _ => none

/-- The pipeline goes on to `t`, and `sent` goes to the output buffer. There is one flag `running_` for both. -/
def State.follow (s : State ω k) (t : HttpPipeline.State k) (sent : List (List UInt8)) : State ω k :=
  let out := sent.foldl Output.send s.out
  { s with
    pipeline := if out.running then t else t.shutdown .overflow
    out := if t.running then out else out.shutdown }

def State.dispatch (workerPool : Bool) (router : HttpRouter ω) (s : State ω k) : State ω k :=
  match s.pipeline.pending with
  | [] => s.follow (s.pipeline.dispatch workerPool {}) []
  | req :: _ =>
    if workerPool = false ∧ s.pipeline.running = true ∧ s.pipeline.reading.conn.httpHandler = true then
      let run := s.call router req
      { s with world := run.1 }.follow (s.pipeline.dispatch workerPool run.2) (replies run.2)
    else s.follow (s.pipeline.dispatch workerPool {}) []

def State.advanceWorker (router : HttpRouter ω) (s : State ω k) (w : Fin k) : Option (State ω k) :=
  match s.pipeline.pc w with
  | .handling task =>
    (s.pipeline.popped[task.index]?).bind fun req =>
      let run := s.call router req
      (s.pipeline.advanceWorker w run.2).map fun t => { s with world := run.1 }.follow t (replies run.2)
  | _ => (s.pipeline.advanceWorker w {}).map fun t => s.follow t []

def step (workerPool : Bool) (router : HttpRouter ω) (s : State ω k) : Act ω k → Option (State ω k)
  | .read requests => (HttpPipeline.step workerPool s.pipeline (.read requests.flatten)).map fun t => s.follow t []
  | .drop => (HttpPipeline.step workerPool s.pipeline .drop).map fun t => s.follow t []
  | .parse => (HttpPipeline.step workerPool s.pipeline .parse).map fun t => s.follow t (refusals s.pipeline)
  | .dispatch => if s.pipeline.phase = .dispatching then some (s.dispatch workerPool router) else none
  | .worker w => s.advanceWorker router w
  | .write n =>
    if s.pipeline.phase = .idle ∧ s.out.running = true ∧ n ≤ s.out.outputBuffer.length then
      some { s with
        out := { s.out with outputBuffer := s.out.outputBuffer.drop n }
        wire := s.wire ++ s.out.outputBuffer.take n }
    else none
  | .outside world => some { s with world }

/-- The requests that have been read, in the order of the stream. -/
def received (as : List (Act ω k)) : List SimpleHttpRequest :=
  as.flatMap fun
    | .read requests => requests.map requestOf
    | _ => []

theorem received_cons (a : Act ω k) (as : List (Act ω k)) : received (a :: as) = received [a] ++ received as := by
  simp [received]

/-- The task that a worker still has to answer. -/
def unanswered : HttpPipeline.Pc → Option HttpPipeline.Task
  | .taken task | .handling task => some task
  | _ => none

/-- No request waits for its answer. -/
def State.Answered (s : State ω k) : Prop :=
  s.pipeline.phase = .idle ∧ s.pipeline.tasks = [] ∧ ∀ w, unanswered (s.pipeline.pc w) = none

instance (s : State ω k) : Decidable s.Answered := inferInstanceAs (Decidable (_ ∧ _ ∧ _))

/-- The client sends whole requests, no more than the server takes at a time, and if there are several workers, one
at a time. -/
def Whole (workerPool : Bool) (s : State ω k) : Act ω k → Prop
  | .read requests => (∀ r ∈ requests, Accepted r) ∧ requests.length ≤ maxHttpPipeline ∧
      (workerPool = true → k ≤ 1 ∨ requests.length ≤ 1 ∧ s.Answered)
  | _ => True

instance (workerPool : Bool) (s : State ω k) : ∀ a, Decidable (Whole workerPool s a)
  | .read _ => inferInstanceAs (Decidable (_ ∧ _ ∧ _))
  | .drop | .parse | .dispatch | .worker _ | .write _ | .outside _ => inferInstanceAs (Decidable True)

/-- A response that the router gives to a request in some state of the process. -/
def Answers (router : HttpRouter ω) (req : SimpleHttpRequest) (resp : SimpleHttpResponse) : Prop :=
  ∃ world, resp = (router.handle req world).response

/-- The router throws nothing, and its responses can be decoded. -/
def Fits (router : HttpRouter ω) : Prop :=
  ∀ r, Accepted r → ∀ world, (router.handle (requestOf r) world).thrown = none ∧
    (router.handle (requestOf r) world).response.Encodable

section Output
variable {out : Output} {s : State ω k} {t : HttpPipeline.State k} {sent : List (List UInt8)}

def closed : Output := { running := false, outputBuffer := [] }

/-- A connection that is closed has nothing to send. -/
def Sane (out : Output) : Prop := out.running = true ∨ out = closed

theorem Sane.of_not_running (h : Sane out) (hdead : out.running = false) : out = closed := by
  rcases h with hrun | h
  · rw [hdead] at hrun
    cases hrun
  · exact h

theorem Sane.shutdown (h : Sane out) : out.shutdown = closed := by
  unfold Output.shutdown
  split_ifs with hrun
  · rfl
  · exact h.of_not_running (by simpa using hrun)

theorem Sane.send (h : Sane out) (data : List UInt8) : Sane (out.send data) := by
  unfold Output.send
  split_ifs with hstop
  · exact h
  · exact Or.inr h.shutdown
  · rcases h with hrun | rfl
    · exact Or.inl hrun
    · exact absurd (Or.inl rfl) hstop

theorem Sane.sends (h : Sane out) : Sane (sent.foldl Output.send out) := by
  induction sent generalizing out with
  | nil => exact h
  | cons data sent ih => exact ih (h.send data)

/-- What does not close the connection is appended. -/
theorem send_eq {data : List UInt8} (hne : data ≠ []) (hrun : (out.send data).running = true) :
    out.send data = { running := true, outputBuffer := out.outputBuffer ++ data } := by
  unfold Output.send at hrun ⊢
  split_ifs at hrun ⊢ with hstop hfull
  · exact absurd hrun (by simpa [hne] using hstop)
  · unfold Output.shutdown at hrun
    split_ifs at hrun with hlive
    exact absurd hrun hlive
  · obtain ⟨running,buffer⟩ := out
    cases hrun
    rfl

theorem follow_closed (hs : Sane s.out) (h : t.running = false ∨ (sent.foldl Output.send s.out).running = false) :
    (s.follow t sent).pipeline.running = false ∧ (s.follow t sent).out = closed := by
  have hsent : Sane (sent.foldl Output.send s.out) := hs.sends
  unfold State.follow
  dsimp only
  constructor
  · split_ifs with hout
    · exact h.resolve_right (by simp [hout])
    · exact HttpPipeline.State.shutdown_not_running _
  · split_ifs with hrun
    · exact hsent.of_not_running (h.resolve_left (by simp [hrun]))
    · exact hsent.shutdown

theorem follow_open (hrun : t.running = true) (hout : (sent.foldl Output.send s.out).running = true) :
    s.follow t sent = { s with pipeline := t, out := sent.foldl Output.send s.out } := by
  simp only [State.follow, hrun, hout, if_true]

end Output

/-- The requests are answered by these responses one after the other, and `R` holds of the number of those that came
before and of the process that a response comes from. -/
inductive Served (router : HttpRouter ω) (R : ℕ → ω → Prop) : List SimpleHttpRequest → List SimpleHttpResponse → Prop
  | nil : Served router R [] []
  | snoc {zs : List SimpleHttpRequest} {resps : List SimpleHttpResponse} {world : ω} (h : Served router R zs resps)
      (hworld : R resps.length world) (req : SimpleHttpRequest) :
      Served router R (zs ++ [req]) (resps ++ [(router.handle req world).response])

/-- `R` is kept when a request is handled. -/
def KeptBy (router : HttpRouter ω) (R : ℕ → ω → Prop) : Prop :=
  ∀ n world req, R n world → R (n + 1) (router.handle req world).world

/-- What happens elsewhere keeps `R` too. -/
def Lets (R : ℕ → ω → Prop) (s : State ω k) : Act ω k → Prop
  | .outside world => ∀ n, R n s.world → R n world
  | _ => True

theorem lets_all (s : State ω k) (a : Act ω k) : Lets (fun _ _ => True) s a := by
  cases a with
  | outside world => exact fun _ _ => trivial
  | _ => trivial

theorem Served.answers {router : HttpRouter ω} {R : ℕ → ω → Prop} {zs : List SimpleHttpRequest}
    {resps : List SimpleHttpResponse} (h : Served router R zs resps) : List.Forall₂ (Answers router) zs resps := by
  induction h with
  | nil => exact .nil
  | snoc h hworld req ih => exact List.rel_append ih (.cons ⟨_,rfl⟩ .nil)

theorem Served.length_eq {router : HttpRouter ω} {R : ℕ → ω → Prop} {zs : List SimpleHttpRequest}
    {resps : List SimpleHttpResponse} (h : Served router R zs resps) : zs.length = resps.length := h.answers.length_eq

theorem Served.get {router : HttpRouter ω} {R : ℕ → ω → Prop} {zs : List SimpleHttpRequest}
    {resps : List SimpleHttpResponse} (h : Served router R zs resps) {i : ℕ} {req : SimpleHttpRequest}
    {resp : SimpleHttpResponse} (hreq : zs[i]? = some req) (hresp : resps[i]? = some resp) :
    ∃ world, R i world ∧ resp = (router.handle req world).response := by
  induction h with
  | nil => cases hreq
  | @snoc zs resps world h hworld last ih =>
    have hlength := h.length_eq
    rcases Nat.lt_trichotomy i zs.length with hlt | rfl | hgt
    · rw [List.getElem?_append_left hlt] at hreq
      rw [List.getElem?_append_left (hlength ▸ hlt)] at hresp
      exact ih hreq hresp
    · rw [List.getElem?_concat_length] at hreq
      rw [hlength, List.getElem?_concat_length] at hresp
      cases hreq
      cases hresp
      exact ⟨world,hlength ▸ hworld,rfl⟩
    · rw [List.getElem?_eq_none (by simp; omega)] at hreq
      cases hreq

/-- The connection is closed, and what has been written answers a front part of the requests. -/
structure Closed (router : HttpRouter ω) (R : ℕ → ω → Prop) (xs : List SimpleHttpRequest) (s : State ω k) : Prop where
  running : s.pipeline.running = false
  out : s.out = closed
  written : ∃ zs resps, zs <+: xs ∧ Served router R zs resps ∧ (∀ resp ∈ resps, resp.Encodable) ∧
    s.wire <+: resps.flatMap SimpleHttpResponse.toString

/-- How a live connection has got on with the requests `xs`: `rs` is read and not parsed, the front part `zs` is
answered by `resps`, and `inWork` is the task that a worker has taken and not answered. -/
structure Open (workerPool : Bool) (router : HttpRouter ω) (R : ℕ → ω → Prop) (xs zs : List SimpleHttpRequest)
    (rs : List (List UInt8)) (resps : List SimpleHttpResponse) (inWork : Option (Fin k × HttpPipeline.Task))
    (s : State ω k) : Prop where
  running : s.pipeline.running = true
  sending : s.out.running = true
  sound : HttpPipeline.Sound s.pipeline
  accepted : ∀ r ∈ rs, Accepted r
  input : s.pipeline.reading.conn.inputBuffer = rs.flatten
  parser : s.pipeline.reading.conn.httpParser = {}
  room : s.pipeline.reading.conn.pipelineDepth + rs.length ≤ maxHttpPipeline
  parsing : s.pipeline.phase = .parsing → s.pipeline.reading.status = .looping
  parsed : s.pipeline.phase ≠ .parsing → rs = []
  known : ∀ x ∈ xs, ∃ r, Accepted r ∧ x = requestOf r
  requests : xs = s.pipeline.requests ++ rs.map requestOf
  answered : zs <+: s.pipeline.popped
  answers : Served router R zs resps
  world : R resps.length s.world
  encodable : ∀ resp ∈ resps, resp.Encodable
  stream : s.wire ++ s.out.outputBuffer = resps.flatMap SimpleHttpResponse.toString
  busy : ∀ w task, unanswered (s.pipeline.pc w) = some task ↔ inWork = some (w,task)
  line : (inWork.toList.map Prod.snd ++ s.pipeline.tasks).map HttpPipeline.Task.index =
    List.range' zs.length (s.pipeline.popped.length - zs.length)
  inline : workerPool = false → inWork = none ∧ s.pipeline.tasks = []
  alone : workerPool = true → k ≤ 1 ∨
    inWork.toList.length + s.pipeline.tasks.length + s.pipeline.pending.length + rs.length ≤ 1

/-- The run so far has gone well. -/
def Serving (workerPool : Bool) (router : HttpRouter ω) (R : ℕ → ω → Prop) (xs : List SimpleHttpRequest) (s : State ω k) : Prop :=
  Closed router R xs s ∨ ∃ zs rs resps inWork, Open workerPool router R xs zs rs resps inWork s

section Steps
variable {workerPool : Bool} {router : HttpRouter ω} {R : ℕ → ω → Prop} {xs ys zs : List SimpleHttpRequest} {rs : List (List UInt8)}
  {resps : List SimpleHttpResponse} {inWork : Option (Fin k × HttpPipeline.Task)} {s t : State ω k}
  {p : HttpPipeline.State k} {sent : List (List UInt8)}

theorem Open.sane (hs : Open workerPool router R xs zs rs resps inWork s) : Sane s.out := Or.inl hs.sending

theorem Open.close (hs : Open workerPool router R xs zs rs resps inWork s) (hdead : t.pipeline.running = false)
    (hout : t.out = closed) (hwire : t.wire = s.wire) : Closed router R xs t := by
  refine ⟨hdead,hout,zs,resps,?_,hs.answers,hs.encodable,?_⟩
  · have hpart : s.pipeline.popped <+: xs := by
      rw [hs.requests, HttpPipeline.State.requests, List.append_assoc]
      exact List.prefix_append _ _
    exact hs.answered.trans hpart
  · rw [hwire, ← hs.stream]
    exact List.prefix_append _ _

theorem Open.follow_close (hs : Open workerPool router R xs zs rs resps inWork s)
    (h : p.running = false ∨ (sent.foldl Output.send s.out).running = false) :
    Closed router R xs (s.follow p sent) := by
  obtain ⟨hdead,hout⟩ := follow_closed hs.sane h
  exact hs.close hdead hout rfl

theorem Closed.mono (hs : Closed router R xs s) (h : xs <+: ys) : Closed router R ys s := by
  obtain ⟨hdead,hout,zs,resps,hpart,hanswers⟩ := hs
  exact ⟨hdead,hout,zs,resps,hpart.trans h,hanswers⟩

theorem Closed.follow (hs : Closed router R xs s) (h : p.running = false) (world : ω) :
    Closed router R xs ({ s with world }.follow p sent) := by
  have hsane : Sane ({ s with world } : State ω k).out := Or.inr hs.out
  obtain ⟨hdead,hout⟩ : ({ s with world }.follow p sent).pipeline.running = false ∧
      ({ s with world }.follow p sent).out = closed := follow_closed hsane (Or.inl h)
  exact ⟨hdead,hout,hs.written⟩

theorem pipeline_dispatch {p : HttpPipeline.State k} (hphase : p.phase = .dispatching) (run : HandlerRun) :
    HttpPipeline.step workerPool p (.dispatch run) = some (p.dispatch workerPool run) := by
  rw [HttpPipeline.step, if_pos hphase]

theorem pipeline_dead {k : ℕ} {p q : HttpPipeline.State k} {a : HttpPipeline.Act k} (hdead : p.running = false)
    (h : HttpPipeline.step workerPool p a = some q) : q.running = false := by
  cases a with
  | read chunk =>
    simp only [HttpPipeline.step, HttpPipeline.State.read, hdead, if_true] at h
    split_ifs at h
    cases h
    exact hdead
  | drop =>
    simp only [HttpPipeline.step] at h
    split_ifs at h
    cases h
    exact HttpPipeline.State.shutdown_not_running _
  | parse =>
    have hround : p.reading.parseRound = none := by
      have hdead' : p.reading.conn.running = false := hdead
      rw [Reading.parseRound, if_pos (Or.inr (Or.inr hdead'))]
    simp only [HttpPipeline.step, HttpPipeline.State.parse, hround] at h
    split_ifs at h
    cases h
    exact hdead
  | dispatch run =>
    simp only [HttpPipeline.step] at h
    split_ifs at h
    cases h
    rcases HttpPipeline.dispatch_cases run workerPool (s := p) with ⟨-,heq⟩ | ⟨req,raw,r,-,-,hrun,-⟩
    · rw [heq]
      exact hdead
    · rw [hdead] at hrun
      cases hrun
  | worker w run =>
    simp only [HttpPipeline.step, HttpPipeline.State.advanceWorker] at h
    split at h
    · split at h
      · cases h
      · cases h
        exact hdead
    · cases h
      rw [if_neg (by simp [hdead])]
      exact hdead
    · cases h
      split_ifs
      · exact HttpPipeline.State.shutdown_not_running _
      · exact hdead
    · cases h
      split_ifs
      · exact HttpPipeline.State.shutdown_not_running _
      · exact hdead

theorem step_closed {a : Act ω k} (hs : Closed router R xs s) (h : step workerPool router s a = some t) :
    Closed router R xs t := by
  have hfollow : ∀ {b : HttpPipeline.Act k} {sent : List (List UInt8)},
      (HttpPipeline.step workerPool s.pipeline b).map (fun p => s.follow p sent) = some t → Closed router R xs t := by
    intro b sent h
    obtain ⟨p,hp,rfl⟩ := Option.map_eq_some_iff.mp h
    exact hs.follow (pipeline_dead hs.running hp) s.world
  cases a with
  | read requests => exact hfollow h
  | drop => exact hfollow h
  | parse => exact hfollow h
  | dispatch =>
    simp only [step] at h
    split_ifs at h with hphase
    cases h
    have hdead : ∀ run, (s.pipeline.dispatch workerPool run).running = false := fun run =>
      pipeline_dead hs.running (pipeline_dispatch hphase run)
    unfold State.dispatch
    split
    · exact hs.follow (hdead _) s.world
    · split_ifs
      · exact hs.follow (hdead _) _
      · exact hs.follow (hdead _) s.world
  | worker w =>
    simp only [step, State.advanceWorker] at h
    split at h
    · obtain ⟨req,-,h⟩ := Option.bind_eq_some_iff.mp h
      obtain ⟨p,hp,rfl⟩ := Option.map_eq_some_iff.mp h
      have hworker : HttpPipeline.step workerPool s.pipeline (.worker w (s.call router req).2) = some p := hp
      exact hs.follow (pipeline_dead hs.running hworker) _
    · exact hfollow (b := .worker w {}) h
  | write n =>
    simp only [step] at h
    split_ifs at h with hgo
    rw [hs.out] at hgo
    cases hgo.2.1
  | outside world =>
    cases h
    exact ⟨hs.running,hs.out,hs.written⟩

theorem call_fits (hfits : Fits router) {r : List UInt8} (hr : Accepted r) (s : State ω k) : ∃ resp,
    resp = (router.handle (requestOf r) s.world).response ∧ resp.Encodable ∧ resp.toString ≠ [] ∧
      (s.call router (requestOf r)).2 = {
        sends := [resp.toString]
        closes := s.out.running && !(s.out.send resp.toString).running } := by
  obtain ⟨hnone,hencodable⟩ := hfits r hr s.world
  refine ⟨_,rfl,hencodable,by simp [SimpleHttpResponse.toString, SimpleHttpResponse.head, bytes],?_⟩
  simp only [State.call, handleHttpRequest, hnone]
  rfl

theorem Open.answer (hs : Open workerPool router R xs zs rs resps inWork s) {data : List UInt8} (hne : data ≠ [])
    {run : HandlerRun} (hrun : run = { sends := [data], closes := s.out.running && !(s.out.send data).running })
    (world : ω) (hclose : run.closes = true → p.running = false) :
    Closed router R xs ({ s with world }.follow p (replies run)) ∨
      p.running = true ∧ run.closes = false ∧ { s with world }.follow p (replies run) =
        { s with pipeline := p, out := ⟨true,s.out.outputBuffer ++ data⟩, world } := by
  have hsent : (replies run).foldl Output.send s.out = s.out.send data := by simp [replies, hrun]
  have hcloses : run.closes = !(s.out.send data).running := by simp [hrun, hs.sending]
  by_cases hlive : p.running = true
  · by_cases hout : (s.out.send data).running = true
    · right
      have hopen : ((replies run).foldl Output.send ({ s with world } : State ω k).out).running = true :=
        (congrArg Output.running hsent).trans hout
      refine ⟨hlive,by simp [hcloses, hout],?_⟩
      rw [follow_open hlive hopen]
      exact congrArg (fun out => { s with pipeline := p, out, world }) (hsent.trans (send_eq hne hout))
    · rw [hclose (by simpa [hcloses] using hout)] at hlive
      cases hlive
  · obtain ⟨hdead,hout⟩ : ({ s with world }.follow p (replies run)).pipeline.running = false ∧
        ({ s with world }.follow p (replies run)).out = closed := follow_closed hs.sane (Or.inl (by simpa using hlive))
    exact Or.inl (hs.close hdead hout rfl)

theorem Open.quiet (hs : Open workerPool router R xs zs rs resps inWork s) (hrun : p.running = true) :
    s.follow p [] = { s with pipeline := p } := follow_open hrun hs.sending

/-- The requests that have left the queue are answered, or stand in the line of the workers. -/
theorem Open.popped_eq (hs : Open workerPool router R xs zs rs resps inWork s) (hnone : inWork = none)
    (htasks : s.pipeline.tasks = []) : zs = s.pipeline.popped := by
  have hline := congrArg List.length hs.line
  rw [hnone, htasks] at hline
  simp only [Option.toList_none, List.map_nil, List.append_nil, List.length_nil, List.length_range'] at hline
  exact hs.answered.eq_of_length_le (by omega)

theorem Open.inWork_free (hs : Open workerPool router R xs zs rs resps inWork s)
    (hfree : ∀ w, unanswered (s.pipeline.pc w) = none) : inWork = none := by
  cases hwork : inWork with
  | none => rfl
  | some x =>
    have hbusy := (hs.busy x.1 x.2).mpr hwork
    rw [hfree] at hbusy
    cases hbusy

theorem Open.inWork_eq_none (hs : Open workerPool router R xs zs rs resps inWork s) {w : Fin k}
    (hw : s.pipeline.pc w = .waiting) (htasks : s.pipeline.tasks ≠ []) : inWork = none := by
  have hpool : workerPool = true := by
    by_contra hpool
    exact htasks (hs.inline (by simpa using hpool)).2
  cases hwork : inWork with
  | none => rfl
  | some x =>
    obtain ⟨v,task⟩ := x
    exfalso
    have hpos : 0 < s.pipeline.tasks.length := List.length_pos_iff.mpr htasks
    rcases hs.alone hpool with hone | hone
    · -- the only worker waits
      have hbusy : unanswered (s.pipeline.pc v) = some task := (hs.busy v task).mpr hwork
      have heq : v = w := by
        have hv := v.isLt
        have hw' := w.isLt
        exact Fin.ext (by omega)
      rw [heq, hw] at hbusy
      cases hbusy
    · rw [hwork] at hone
      simp only [Option.toList_some, List.length_singleton] at hone
      omega

/-- A read with data only adds to the input, up to the detection of the protocol. -/
theorem pipeline_read {p q : HttpPipeline.State k} {chunk : List UInt8} (hrun : p.running = true) (hne : chunk ≠ [])
    (h : p.read chunk = some q) : ∃ c : EpollConnection, q = { p with reading := { conn := c }, phase := .parsing } ∧
      c.running = true ∧ c.inputBuffer = p.reading.conn.inputBuffer ++ chunk ∧
      c.httpParser = p.reading.conn.httpParser ∧ c.pendingRequests = p.reading.conn.pendingRequests ∧
      c.pipelineDepth = p.reading.conn.pipelineDepth := by
  simp only [HttpPipeline.State.read, hrun, hne, Bool.true_eq_false, if_false] at h
  split_ifs at h
  cases h
  refine ⟨_,rfl,?_⟩
  unfold EpollConnection.protocolDetected
  split_ifs
  · exact ⟨hrun,rfl,rfl,rfl,rfl⟩
  · exact ⟨hrun,rfl,rfl,rfl,rfl⟩

theorem Open.idle (hs : Open workerPool router R xs zs rs resps inWork s) (hphase : s.pipeline.phase = .idle) :
    rs = [] ∧ s.pipeline.pending = [] ∧ xs = s.pipeline.popped := by
  have hrs : rs = [] := hs.parsed (by rw [hphase]; decide)
  have hpending := hs.sound.idle hphase hs.running
  refine ⟨hrs,hpending,?_⟩
  rw [hs.requests, hrs, HttpPipeline.State.requests, hpending]
  simp

theorem Open.read (hs : Open workerPool router R xs zs rs resps inWork s) {requests : List (List UInt8)}
    (hwhole : Whole workerPool s (.read requests)) (h : step workerPool router s (.read requests) = some t) :
    Serving workerPool router R (xs ++ requests.map requestOf) t := by
  obtain ⟨p,hp,rfl⟩ := Option.map_eq_some_iff.mp h
  obtain ⟨haccepted,hlen,hone⟩ := hwhole
  have hsound : HttpPipeline.Sound p := HttpPipeline.step_sound hs.sound hp
  simp only [HttpPipeline.step] at hp
  split_ifs at hp with hphase
  obtain ⟨rfl,hpending,hxs⟩ := hs.idle hphase
  by_cases hnil : requests.flatten = []
  · simp only [HttpPipeline.State.read, hs.running, hnil, Bool.true_eq_false, if_false, if_true] at hp
    cases hp
    left
    refine (hs.follow_close (Or.inl ?_)).mono (List.prefix_append _ _)
    exact HttpPipeline.State.shutdown_not_running _
  obtain ⟨c,rfl,hlive,hinput,hparser,hsame,hdepth⟩ := pipeline_read hs.running hnil hp
  have hpending' : c.pendingRequests.map Prod.fst = [] := (congrArg (List.map Prod.fst) hsame).trans hpending
  right
  rw [hs.quiet (p := { s.pipeline with reading := { conn := c }, phase := .parsing }) hlive]
  refine ⟨zs,requests,resps,inWork,{
    running := hlive
    sending := hs.sending
    sound := hsound
    accepted := haccepted
    input := by rw [hinput, hs.input]; rfl
    parser := hparser.trans hs.parser
    room := ?_
    parsing := fun _ => rfl
    parsed := fun hphase => absurd rfl hphase
    known := ?_
    requests := ?_
    answered := hs.answered
    answers := hs.answers
    world := hs.world
    encodable := hs.encodable
    stream := hs.stream
    busy := hs.busy
    line := hs.line
    inline := hs.inline
    alone := fun hpool => ?_ }⟩
  · have hzero : s.pipeline.reading.conn.pipelineDepth = 0 := by rw [hs.sound.depth, hpending]; rfl
    simp only [hdepth, hzero]
    omega
  · intro x hx
    rcases List.mem_append.mp hx with hx | hx
    · exact hs.known x hx
    · obtain ⟨r,hr,rfl⟩ := List.mem_map.mp hx
      exact ⟨r,haccepted r hr,rfl⟩
  · simp only [HttpPipeline.State.requests, HttpPipeline.State.pending, hpending', hxs, List.append_nil]
  · refine (hone hpool).imp id ?_
    rintro ⟨hlen,-,htasks,hfree⟩
    simp only [HttpPipeline.State.pending, hpending', hs.inWork_free hfree, htasks, Option.toList_none, List.length_nil]
    omega

theorem Open.parse (hs : Open workerPool router R xs zs rs resps inWork s)
    (h : step workerPool router s .parse = some t) : ∃ rs, Open workerPool router R xs zs rs resps inWork t := by
  obtain ⟨p,hp,rfl⟩ := Option.map_eq_some_iff.mp h
  have hsound : HttpPipeline.Sound p := HttpPipeline.step_sound hs.sound hp
  simp only [HttpPipeline.step] at hp
  split_ifs at hp with hphase
  cases hp
  cases rs with
  | nil =>
    have hinput : s.pipeline.reading.conn.inputBuffer = [] := hs.input
    have hparse : s.pipeline.parse = { s.pipeline with phase := .dispatching } := by
      rw [HttpPipeline.State.parse, Reading.parseRound, if_pos (Or.inr (Or.inl hinput))]
    have hquiet : refusals s.pipeline = [] := by
      rw [refusals, hparse]
      simp
    rw [hquiet, hs.quiet (by rw [hparse]; exact hs.running)]
    rw [hparse] at hsound ⊢
    exact ⟨[],{ hs with
      sound := hsound
      parsing := fun hphase => by cases hphase
      parsed := fun _ => rfl }⟩
  | cons r rs =>
    obtain ⟨hr,hrs⟩ := List.forall_mem_cons.mp hs.accepted
    have hroom := hs.room
    rw [List.length_cons] at hroom
    have hready : s.pipeline.reading.Parsing := ⟨hs.parsing hphase,hs.running,hs.parser⟩
    have hinput : s.pipeline.reading.conn.inputBuffer = r ++ rs.flatten := by rw [hs.input, List.flatten_cons]
    have hround := Reading.parseRound_accepted hready hr hinput (by omega)
    have hparse : s.pipeline.parse = { s.pipeline with reading := { s.pipeline.reading.queued [r] rs.flatten with
        shouldClose := s.pipeline.reading.shouldClose || !(requestOf r).keepAlive } } := by
      rw [HttpPipeline.State.parse, hround]
    have hquiet : refusals s.pipeline = [] := by
      rw [refusals, hparse]
      simp [Reading.queued]
    rw [hquiet, hs.quiet (by rw [hparse]; exact hs.running)]
    rw [hparse] at hsound ⊢
    refine ⟨rs,{ hs with
      sound := hsound
      accepted := hrs
      input := rfl
      parser := hs.parser
      room := ?_
      parsing := hs.parsing
      parsed := fun hother => absurd hphase hother
      requests := ?_
      alone := fun hpool => (hs.alone hpool).imp id ?_ }⟩
    · simp only [Reading.queued, List.length_singleton]
      omega
    · rw [hs.requests]
      simp [HttpPipeline.State.requests, HttpPipeline.State.pending, Reading.queued]
    · intro hone
      simp only [HttpPipeline.State.pending, Reading.queued, List.map_append, List.length_append, List.length_map,
        List.length_cons, List.length_nil] at hone ⊢
      omega

theorem shutdown_rest {r : Reading} (hin : r.conn.inputBuffer = []) (why : CloseReason) :
    (r.shutdown why).conn.inputBuffer = [] ∧ (r.shutdown why).conn.httpParser = r.conn.httpParser := by
  unfold Reading.shutdown
  split_ifs
  · exact ⟨rfl,rfl⟩
  · exact ⟨hin,rfl⟩

/-- Handing a request on does not touch the parser, nor an input that has been parsed as a whole. -/
theorem dispatch_rest {r : Reading} (hin : r.conn.inputBuffer = []) (h : Handlers) (req : SimpleHttpRequest)
    (raw : List UInt8) :
    (r.dispatch h req raw).conn.inputBuffer = [] ∧ (r.dispatch h req raw).conn.httpParser = r.conn.httpParser := by
  have hcalled : (r.callHandler h req).conn.inputBuffer = [] ∧ (r.callHandler h req).conn.httpParser = r.conn.httpParser := by
    have hrest := shutdown_rest (r := r.emit (.handle req)) hin .handler
    unfold Reading.callHandler
    dsimp only
    split_ifs
    · simp only [Reading.send_conn]
      exact hrest
    · simp only [Reading.send_conn]
      exact ⟨hin,rfl⟩
    · exact hrest
    · exact ⟨hin,rfl⟩
  unfold Reading.dispatch
  split_ifs
  · exact ⟨hin,rfl⟩
  · unfold Reading.closeIfDone
    split_ifs
    · obtain ⟨hinput,hparser⟩ := shutdown_rest hcalled.1 .answered
      exact ⟨hinput,hparser.trans hcalled.2⟩
    · exact hcalled
  · exact ⟨hin,rfl⟩

/-- The pipeline behind a round of the second loop. -/
structure Handed (xs : List SimpleHttpRequest) (p q : HttpPipeline.State k) (req : SimpleHttpRequest) : Prop where
  sound : HttpPipeline.Sound q
  popped : q.popped = p.popped ++ [req]
  pending : p.pending = req :: q.pending
  pc : q.pc = p.pc
  phase : q.phase = .dispatching
  input : q.reading.conn.inputBuffer = []
  parser : q.reading.conn.httpParser = {}
  room : q.reading.conn.pipelineDepth ≤ maxHttpPipeline
  requests : xs = q.requests

theorem dispatch_nil (hpending : p.pending = []) (run : HandlerRun) :
    p.dispatch workerPool run = { p with phase := .idle } := by
  rcases HttpPipeline.dispatch_cases run workerPool (s := p) with ⟨-,heq⟩ | ⟨req,raw,r,-,hother,-⟩
  · exact heq
  · rw [hpending] at hother
    cases hother

theorem Open.known_pending (hs : Open workerPool router R xs zs rs resps inWork s) {req : SimpleHttpRequest}
    {rest : List SimpleHttpRequest} (hpending : s.pipeline.pending = req :: rest) :
    ∃ r, Accepted r ∧ req = requestOf r := by
  refine hs.known req ?_
  rw [hs.requests, HttpPipeline.State.requests, hpending]
  simp

theorem Open.known_popped (hs : Open workerPool router R xs zs rs resps inWork s) {req : SimpleHttpRequest} {i : ℕ}
    (hreq : s.pipeline.popped[i]? = some req) : ∃ r, Accepted r ∧ req = requestOf r := by
  refine hs.known req ?_
  rw [hs.requests, HttpPipeline.State.requests]
  exact List.mem_append_left _ (List.mem_append_left _ (List.mem_of_getElem? hreq))

theorem Open.over (hs : Open workerPool router R xs zs rs resps inWork s) (hover : s.pipeline.Over) :
    s.pipeline.pending = [] := hs.sound.over hover hs.running

theorem Open.handed (hs : Open workerPool router R xs zs rs resps inWork s) (hphase : s.pipeline.phase = .dispatching)
    {run : HandlerRun} {req : SimpleHttpRequest}
    (hpop : HttpPipeline.Popped s.pipeline (s.pipeline.dispatch workerPool run) req) :
    Handed xs s.pipeline (s.pipeline.dispatch workerPool run) req := by
  obtain rfl : rs = [] := hs.parsed (by rw [hphase]; decide)
  have hin : s.pipeline.reading.conn.inputBuffer = [] := hs.input
  have hrest : (s.pipeline.dispatch workerPool run).reading.conn.inputBuffer = [] ∧
      (s.pipeline.dispatch workerPool run).reading.conn.httpParser = s.pipeline.reading.conn.httpParser := by
    rcases HttpPipeline.dispatch_cases run workerPool (s := s.pipeline) with ⟨-,heq⟩ | ⟨req,raw,r,hr,-,-,heq⟩
    · rw [heq]
      exact ⟨hin,rfl⟩
    · rw [heq]
      subst hr
      exact dispatch_rest (r := ({ s.pipeline.reading with effects := [] } : Reading).popRequest) hin _ req raw
  have hroom := hs.room
  rw [List.length_nil] at hroom
  refine ⟨hs.sound.dispatch hphase run,hpop.popped,hpop.pending,hpop.pc,hpop.phase.trans hphase,hrest.1,
    hrest.2.trans hs.parser,?_,?_⟩
  · rw [hpop.depth]
    omega
  · rw [hs.requests, HttpPipeline.State.requests, HttpPipeline.State.requests, hpop.popped, hpop.pending]
    simp

theorem Open.dispatch_inline (hs : Open workerPool router R xs zs rs resps inWork s) (hfits : Fits router)
    (hkept : KeptBy router R)
    (hphase : s.pipeline.phase = .dispatching) (hpool : workerPool = false) {req : SimpleHttpRequest}
    {rest : List SimpleHttpRequest} (hpending : s.pipeline.pending = req :: rest) :
    Serving workerPool router R xs ({ s with world := (s.call router req).1 }.follow
      (s.pipeline.dispatch workerPool (s.call router req).2) (replies (s.call router req).2)) := by
  obtain ⟨hnone,htasks⟩ := hs.inline hpool
  obtain rfl : zs = s.pipeline.popped := hs.popped_eq hnone htasks
  obtain ⟨r,hr,rfl⟩ := hs.known_pending hpending
  obtain ⟨resp,hresp,hencodable,hne,hrun⟩ := call_fits hfits hr s
  subst hpool
  rcases HttpPipeline.dispatch_inline (s.call router (requestOf r)).2 hs.sound.handler with
    ⟨hover,-⟩ | ⟨req,hpop,htasks',-,-,hlive⟩
  · rw [hs.over hover] at hpending
    cases hpending
  have hq := hs.handed hphase hpop
  obtain ⟨rfl,-⟩ := List.cons.inj (hq.pending.symm.trans hpending)
  have hclose : (s.call router (requestOf r)).2.closes = true →
      (s.pipeline.dispatch false (s.call router (requestOf r)).2).running = false := by
    intro hcloses
    by_contra hrunning
    rw [(hlive.mp (by simpa using hrunning)).1] at hcloses
    cases hcloses
  rcases hs.answer hne hrun (s.call router (requestOf r)).1 hclose with hclosed | ⟨hrunning,-,heq⟩
  · exact Or.inl hclosed
  right
  rw [heq]
  generalize s.pipeline.dispatch false (s.call router (requestOf r)).2 = q at hq hrunning htasks'
  refine ⟨q.popped,[],resps ++ [resp],none,{
    running := hrunning
    sending := rfl
    sound := hq.sound
    accepted := fun r hr => by cases hr
    input := hq.input
    parser := hq.parser
    room := hq.room
    parsing := fun hother => by cases hq.phase.symm.trans hother
    parsed := fun _ => rfl
    known := hs.known
    requests := by rw [hq.requests]; simp
    answered := List.prefix_refl _
    answers := ?_
    world := ?_
    encodable := List.forall_mem_append.mpr ⟨hs.encodable,List.forall_mem_singleton.mpr hencodable⟩
    stream := ?_
    busy := ?_
    line := ?_
    inline := fun _ => ⟨rfl,htasks'.trans htasks⟩
    alone := fun hpool => by cases hpool }⟩
  · rw [hq.popped, hresp]
    exact hs.answers.snoc hs.world (requestOf r)
  · rw [List.length_append, List.length_singleton]
    exact hkept _ _ _ hs.world
  · rw [← List.append_assoc, hs.stream, List.flatMap_append]
    simp
  · rw [hq.pc, ← hnone]
    exact hs.busy
  · simp [htasks', htasks]

/-- The first pending request leaves the queue, and gets into the line of the workers. -/
theorem Open.dispatch_pool (hs : Open workerPool router R xs zs rs resps inWork s)
    (hphase : s.pipeline.phase = .dispatching) (hpool : workerPool = true) {req : SimpleHttpRequest}
    {rest : List SimpleHttpRequest} (hpending : s.pipeline.pending = req :: rest) :
    Serving workerPool router R xs (s.follow (s.pipeline.dispatch workerPool {}) []) := by
  subst hpool
  obtain rfl : rs = [] := hs.parsed (by rw [hphase]; decide)
  rcases HttpPipeline.dispatch_pool {} hs.sound.handler with ⟨hover,-⟩ | ⟨req,hpop,hrunning,htasks,-⟩
  · rw [hs.over hover] at hpending
    cases hpending
  have hq := hs.handed hphase hpop
  right
  rw [hs.quiet hrunning]
  generalize s.pipeline.dispatch true {} = q at hq hrunning htasks
  have hlen := hs.answered.length_le
  refine ⟨zs,[],resps,inWork,{
    running := hrunning
    sending := hs.sending
    sound := hq.sound
    accepted := hs.accepted
    input := hq.input
    parser := hq.parser
    room := hq.room
    parsing := fun hother => by cases hq.phase.symm.trans hother
    parsed := fun _ => rfl
    known := hs.known
    requests := by rw [hq.requests]; simp
    answered := by rw [hq.popped]; exact hs.answered.trans (List.prefix_append _ _)
    answers := hs.answers
    world := hs.world
    encodable := hs.encodable
    stream := hs.stream
    busy := by rw [hq.pc]; exact hs.busy
    line := ?_
    inline := fun hpool => by cases hpool
    alone := fun hpool => (hs.alone hpool).imp id fun hone => ?_ }⟩
  · have hsplit : s.pipeline.popped.length + 1 - zs.length = (s.pipeline.popped.length - zs.length) + 1 := by omega
    rw [htasks, hq.popped, List.length_append, List.length_singleton, hsplit, List.range'_concat, ← hs.line]
    simp only [← List.append_assoc, List.map_append, List.map_cons, List.map_nil]
    congr 2
    omega
  · rw [hq.pending] at hone
    rw [htasks]
    simp only [List.length_append, List.length_cons, List.length_nil] at hone ⊢
    omega

theorem Open.dispatch (hs : Open workerPool router R xs zs rs resps inWork s) (hfits : Fits router) (hkept : KeptBy router R)
    (h : step workerPool router s .dispatch = some t) : Serving workerPool router R xs t := by
  simp only [step] at h
  split_ifs at h with hphase
  cases h
  cases hpending : s.pipeline.pending with
  | nil =>
    have hidle := @dispatch_nil _ workerPool _ hpending
    have hsound : HttpPipeline.Sound (s.pipeline.dispatch workerPool {}) := hs.sound.dispatch hphase {}
    right
    simp only [State.dispatch, hpending]
    rw [hs.quiet (by rw [hidle]; exact hs.running)]
    rw [hidle] at hsound ⊢
    have hrs : rs = [] := hs.parsed (by rw [hphase]; decide)
    exact ⟨zs,rs,resps,inWork,{ hs with
      sound := hsound
      parsing := fun hother => by cases hother
      parsed := fun _ => hrs }⟩
  | cons req rest =>
    have hhandler := hs.sound.handler
    simp only [State.dispatch, hpending]
    by_cases hpool : workerPool = false
    · rw [if_pos ⟨hpool,hs.running,hhandler⟩]
      exact hs.dispatch_inline hfits hkept hphase hpool hpending
    · rw [if_neg (fun hinline => hpool hinline.1)]
      exact hs.dispatch_pool hphase (by simpa using hpool) hpending

theorem goto_pc (p : HttpPipeline.State k) (w v : Fin k) (pc : HttpPipeline.Pc) :
    (p.goto w pc).pc v = if v = w then pc else p.pc v := by
  unfold HttpPipeline.State.goto
  exact Function.update_apply _ _ _ _

theorem Open.goes (hs : Open workerPool router R xs zs rs resps inWork s) {w : Fin k} {pc : HttpPipeline.Pc}
    (hsame : unanswered pc = unanswered (s.pipeline.pc w)) (invoked : List ℕ) :
    Open workerPool router R xs zs rs resps inWork
      { s with pipeline := { s.pipeline.goto w pc with invoked } } := by
  refine { hs with sound := hs.sound.congr rfl rfl, busy := fun v task => ?_ }
  have hpc : unanswered (({ s.pipeline.goto w pc with invoked } : HttpPipeline.State k).pc v) =
      unanswered (s.pipeline.pc v) := by
    change unanswered ((s.pipeline.goto w pc).pc v) = _
    rw [goto_pc]
    split_ifs with hv
    · rw [hv, hsame]
    · rfl
  rw [hpc]
  exact hs.busy v task

theorem Open.take (hs : Open workerPool router R xs zs rs resps inWork s) {w : Fin k} (hw : s.pipeline.pc w = .waiting)
    {task : HttpPipeline.Task} {rest : List HttpPipeline.Task} (htasks : s.pipeline.tasks = task :: rest) :
    Open workerPool router R xs zs rs resps (some (w,task))
      { s with pipeline := { s.pipeline.goto w (.taken task) with tasks := rest } } := by
  obtain rfl := hs.inWork_eq_none hw (by simp [htasks])
  refine { hs with sound := hs.sound.congr rfl rfl, busy := fun v other => ?_, line := ?_, inline := ?_, alone := ?_ }
  · change unanswered ((s.pipeline.goto w (.taken task)).pc v) = some other ↔ _
    rw [goto_pc]
    split_ifs with hv
    · simp [unanswered, hv]
    · have hfree : unanswered (s.pipeline.pc v) ≠ some other := fun hbusy => by cases (hs.busy v other).mp hbusy
      simp [hfree, Ne.symm hv]
  · have hline := hs.line
    rw [htasks] at hline
    exact hline
  · intro hpool
    have hnil := (hs.inline hpool).2
    rw [htasks] at hnil
    cases hnil
  · intro hpool
    refine (hs.alone hpool).imp id fun hone => ?_
    rw [htasks] at hone
    simp only [Option.toList_none, Option.toList_some, List.length_nil, List.length_cons] at hone ⊢
    change 0 + 1 + rest.length + s.pipeline.pending.length + rs.length ≤ 1
    omega

/-- The worker has the first request without an answer, and the ones behind it wait in their order. -/
theorem Open.line_cons {w : Fin k} {task : HttpPipeline.Task}
    (hs : Open workerPool router R xs zs rs resps (some (w,task)) s) :
    task.index = zs.length ∧ zs.length < s.pipeline.popped.length ∧
      s.pipeline.tasks.map HttpPipeline.Task.index =
        List.range' (zs.length + 1) (s.pipeline.popped.length - (zs.length + 1)) := by
  have hline := hs.line
  obtain ⟨n,hn⟩ : ∃ n, s.pipeline.popped.length - zs.length = n + 1 := by
    have hsame := congrArg List.length hline
    simp only [Option.toList_some, List.map_cons, List.map_nil, List.singleton_append, List.length_cons,
      List.length_range'] at hsame
    exact ⟨_,hsame.symm⟩
  rw [hn, List.range'_succ] at hline
  obtain ⟨hindex,hrest⟩ := List.cons.inj hline
  have hlater : s.pipeline.popped.length - (zs.length + 1) = n := by omega
  exact ⟨hindex,by omega,hlater ▸ hrest⟩

theorem Open.serve (hs : Open workerPool router R xs zs rs resps inWork s) (hfits : Fits router)
    (hkept : KeptBy router R) {w : Fin k}
    {task : HttpPipeline.Task} (hw : s.pipeline.pc w = .handling task) {req : SimpleHttpRequest}
    (hreq : s.pipeline.popped[task.index]? = some req)
    (hp : s.pipeline.advanceWorker w (s.call router req).2 = some p) :
    Serving workerPool router R xs ({ s with world := (s.call router req).1 }.follow p (replies (s.call router req).2)) := by
  obtain rfl : inWork = some (w,task) := (hs.busy w task).mp (by rw [hw]; rfl)
  obtain ⟨hindex,-,hrest⟩ := hs.line_cons
  obtain ⟨r,hr,rfl⟩ := hs.known_popped hreq
  obtain ⟨resp,hresp,hencodable,hne,hrun⟩ := call_fits hfits hr s
  have hadvance : p = (if (s.call router (requestOf r)).2.closes then s.pipeline.shutdown .handler else s.pipeline).goto w
      (.handled task ((s.call router (requestOf r)).2.throws || task.closeAfter)) := by
    simpa [HttpPipeline.State.advanceWorker, hw] using hp.symm
  have hclose : (s.call router (requestOf r)).2.closes = true → p.running = false := by
    intro hcloses
    rw [hadvance, if_pos hcloses]
    exact HttpPipeline.State.shutdown_not_running _
  rcases hs.answer hne hrun (s.call router (requestOf r)).1 hclose with hclosed | ⟨hrunning,hcloses,heq⟩
  · exact Or.inl hclosed
  right
  rw [heq]
  rw [hcloses] at hadvance
  subst hadvance
  -- the answered requests are a front part, and the next one of all of them is this one
  have hzs : zs ++ [requestOf r] <+: s.pipeline.popped := by
    obtain ⟨more,hmore⟩ := hs.answered
    have hnext : more[0]? = some (requestOf r) := by
      rw [← hmore, show task.index = zs.length from hindex, List.getElem?_append_right le_rfl, Nat.sub_self] at hreq
      exact hreq
    obtain ⟨rest,rfl⟩ : ∃ rest, more = requestOf r :: rest := by
      cases more with
      | nil => cases hnext
      | cons x rest =>
        cases hnext
        exact ⟨rest,rfl⟩
    exact ⟨rest,by rw [← hmore]; simp⟩
  refine ⟨zs ++ [requestOf r],rs,resps ++ [resp],none,{ hs with
    running := hrunning
    sending := rfl
    sound := hs.sound.congr rfl rfl
    answered := hzs
    answers := hresp ▸ hs.answers.snoc hs.world (requestOf r)
    world := ?_
    encodable := List.forall_mem_append.mpr ⟨hs.encodable,List.forall_mem_singleton.mpr hencodable⟩
    stream := ?_
    busy := fun v other => ?_
    line := ?_
    inline := fun hpool => by cases (hs.inline hpool).1
    alone := fun hpool => (hs.alone hpool).imp id fun hone => ?_ }⟩
  · rw [List.length_append, List.length_singleton]
    exact hkept _ _ _ hs.world
  · rw [← List.append_assoc, hs.stream, List.flatMap_append]
    simp
  · change unanswered ((s.pipeline.goto w _).pc v) = some other ↔ _
    rw [goto_pc]
    split_ifs with hv
    · simp [unanswered]
    · have hfree : unanswered (s.pipeline.pc v) ≠ some other := by
        intro hbusy
        have hsame := (hs.busy v other).mp hbusy
        simp only [Option.some.injEq, Prod.mk.injEq] at hsame
        exact hv hsame.1.symm
      simp [hfree]
  · change (s.pipeline.tasks).map HttpPipeline.Task.index =
      List.range' (zs ++ [requestOf r]).length (s.pipeline.popped.length - (zs ++ [requestOf r]).length)
    rw [List.length_append, List.length_singleton]
    exact hrest
  · simp only [Option.toList_some, Option.toList_none, List.length_cons, List.length_nil] at hone ⊢
    change 0 + s.pipeline.tasks.length + s.pipeline.pending.length + rs.length ≤ 1
    omega

theorem Open.worker (hs : Open workerPool router R xs zs rs resps inWork s) (hfits : Fits router)
    (hkept : KeptBy router R) {w : Fin k}
    (h : step workerPool router s (.worker w) = some t) : Serving workerPool router R xs t := by
  simp only [step, State.advanceWorker] at h
  split at h
  · rename_i task hw
    obtain ⟨req,hreq,h⟩ := Option.bind_eq_some_iff.mp h
    obtain ⟨p,hp,rfl⟩ := Option.map_eq_some_iff.mp h
    exact hs.serve hfits hkept hw hreq hp
  · rename_i hother
    obtain ⟨p,hp,rfl⟩ := Option.map_eq_some_iff.mp h
    unfold HttpPipeline.State.advanceWorker at hp
    have hlive := hs.running
    split at hp
    · rename_i hw
      split at hp
      · cases hp
      · rename_i task rest htasks
        cases hp
        right
        rw [hs.quiet (by exact hlive)]
        exact ⟨zs,rs,resps,_,hs.take hw htasks⟩
    · rename_i task hw
      rw [if_pos hlive] at hp
      cases hp
      right
      rw [hs.quiet (by exact hlive)]
      exact ⟨zs,rs,resps,inWork,hs.goes (by rw [hw]; rfl) _⟩
    · rename_i task hw
      exact (hother task hw).elim
    · rename_i task closes hw
      cases hp
      split_ifs
      · exact Or.inl (hs.follow_close (Or.inl (HttpPipeline.State.shutdown_not_running _)))
      · right
        rw [hs.quiet (by exact hlive)]
        exact ⟨zs,rs,resps,inWork,hs.goes (by rw [hw]; rfl) _⟩

theorem step_serving {a : Act ω k} (hfits : Fits router) (hkept : KeptBy router R)
    (hs : Serving workerPool router R xs s) (hwhole : Whole workerPool s a) (hlets : Lets R s a) (h : step workerPool router s a = some t) :
    Serving workerPool router R (xs ++ received [a]) t := by
  rcases hs with hs | ⟨zs,rs,resps,inWork,hs⟩
  · exact Or.inl ((step_closed hs h).mono (List.prefix_append _ _))
  have hsame : (∀ requests, a ≠ .read requests) → xs ++ received [a] = xs := by
    intro ha
    cases a with
    | read requests => exact absurd rfl (ha requests)
    | _ => exact List.append_nil xs
  cases a with
  | read requests =>
    have hread := hs.read hwhole h
    rwa [show received [.read requests] = requests.map requestOf from List.append_nil _]
  | drop =>
    obtain ⟨p,hp,rfl⟩ := Option.map_eq_some_iff.mp h
    simp only [HttpPipeline.step] at hp
    split_ifs at hp
    cases hp
    rw [hsame (by simp)]
    exact Or.inl (hs.follow_close (Or.inl (HttpPipeline.State.shutdown_not_running _)))
  | parse =>
    rw [hsame (by simp)]
    obtain ⟨rs,hs⟩ := hs.parse h
    exact Or.inr ⟨zs,rs,resps,inWork,hs⟩
  | dispatch =>
    rw [hsame (by simp)]
    exact hs.dispatch hfits hkept h
  | worker w =>
    rw [hsame (by simp)]
    exact hs.worker hfits hkept h
  | write n =>
    rw [hsame (by simp)]
    simp only [step] at h
    split_ifs at h with hgo
    cases h
    refine Or.inr ⟨zs,rs,resps,inWork,{ hs with stream := ?_ }⟩
    rw [List.append_assoc, List.take_append_drop]
    exact hs.stream
  | outside world =>
    rw [hsame (by simp)]
    cases h
    exact Or.inr ⟨zs,rs,resps,inWork,{ hs with world := hlets _ hs.world }⟩

theorem start_open {world : ω} (hworld : R 0 world) :
    Open workerPool router R [] [] [] [] none ({ world } : State ω k) where
  running := rfl
  sending := rfl
  sound := HttpPipeline.initial_sound
  accepted _ hr := by cases hr
  input := rfl
  parser := rfl
  room := Nat.zero_le _
  parsing hphase := by cases hphase
  parsed _ := rfl
  known _ hx := by cases hx
  requests := rfl
  answered := List.nil_prefix
  answers := .nil
  world := hworld
  encodable _ hresp := by cases hresp
  stream := rfl
  busy w task := by simp [unanswered]
  line := rfl
  inline _ := ⟨rfl,rfl⟩
  alone _ := Or.inr (Nat.zero_le 1)

theorem serving_start {world : ω} (hworld : R 0 world) : Serving workerPool router R [] ({ world } : State ω k) :=
  Or.inr ⟨[],[],[],none,start_open hworld⟩

theorem run_serving {as : List (Act ω k)} (hfits : Fits router) (hkept : KeptBy router R)
    (hs : Serving workerPool router R xs s) (hwhole : Along (step workerPool router) (Whole workerPool) s as)
    (hlets : Along (step workerPool router) (Lets R) s as)
    (h : exec (step workerPool router) s as = some t) : Serving workerPool router R (xs ++ received as) t := by
  induction as generalizing xs s with
  | nil =>
    cases h
    rwa [show received ([] : List (Act ω k)) = [] from rfl, List.append_nil]
  | cons a as ih =>
    obtain ⟨u,hu,h⟩ := exec_cons_eq_some.mp h
    have hlater := ih (step_serving hfits hkept hs hwhole.1 hlets.1 hu) (hwhole.2 u hu) (hlets.2 u hu) h
    rwa [received_cons, ← List.append_assoc]

end Steps

/-- Everything has been answered and written. -/
def State.Idle (s : State ω k) : Prop := s.Answered ∧ s.pipeline.running = true ∧ s.out.outputBuffer = []

instance (s : State ω k) : Decidable s.Idle := inferInstanceAs (Decidable (_ ∧ _ ∧ _))

theorem items_part {resps : List SimpleHttpResponse} (h : ∀ resp ∈ resps, resp.Encodable) {wire : List UInt8}
    (hwire : wire <+: resps.flatMap SimpleHttpResponse.toString) :
    Frames.items DecodedResponse.next wire <+: resps.map SimpleHttpResponse.seen := by
  obtain ⟨n,-,hitems,-⟩ := Frames.items_of_prefix SimpleHttpResponse.toString_reads h hwire
  rw [hitems]
  exact (List.take_prefix n resps).map _

theorem Open.answered_all {workerPool : Bool} {router : HttpRouter ω} {R : ℕ → ω → Prop} {xs zs : List SimpleHttpRequest}
    {rs : List (List UInt8)} {resps : List SimpleHttpResponse} {inWork : Option (Fin k × HttpPipeline.Task)}
    {s : State ω k} (hs : Open workerPool router R xs zs rs resps inWork s) (hidle : s.Idle) :
    zs = xs ∧ Frames.items DecodedResponse.next s.wire = resps.map SimpleHttpResponse.seen := by
  obtain ⟨⟨hphase,htasks,hfree⟩,-,hempty⟩ := hidle
  have hwire := hs.stream
  rw [hempty, List.append_nil] at hwire
  rw [hwire, Frames.items_encode SimpleHttpResponse.toString_reads hs.encodable]
  exact ⟨(hs.popped_eq (hs.inWork_free hfree) htasks).trans (hs.idle hphase).2.2.symm,rfl⟩

/-- With any router that fits: what the client can decode at any time are the answers to its requests, from the first
one on and in their order. -/
theorem run_served {workerPool : Bool} {router : HttpRouter ω} {R : ℕ → ω → Prop} {as : List (Act ω k)} {world : ω}
    {s : State ω k} (hfits : Fits router) (hkept : KeptBy router R) (hworld : R 0 world)
    (hwhole : Along (step workerPool router) (Whole workerPool) { world } as)
    (hlets : Along (step workerPool router) (Lets R) { world } as)
    (h : exec (step workerPool router) { world } as = some s) :
    ∃ zs resps, zs <+: received as ∧ Served router R zs resps ∧
      Frames.items DecodedResponse.next s.wire <+: resps.map SimpleHttpResponse.seen ∧
      (s.Idle → zs = received as ∧
        Frames.items DecodedResponse.next s.wire = resps.map SimpleHttpResponse.seen) := by
  rcases run_serving hfits hkept (serving_start hworld) hwhole hlets h with hs | ⟨zs,rs,resps,inWork,hs⟩
  · obtain ⟨zs,resps,hpart,hanswers,hencodable,hwire⟩ := hs.written
    refine ⟨zs,resps,hpart,hanswers,items_part hencodable hwire,fun hidle => ?_⟩
    have hdead := hidle.2.1
    rw [hs.running] at hdead
    cases hdead
  · have hpart : s.wire <+: resps.flatMap SimpleHttpResponse.toString := hs.stream ▸ List.prefix_append _ _
    have hpopped : zs <+: received as := by
      have hmore : s.pipeline.popped <+: received as := by
        have hall : received as = s.pipeline.requests ++ rs.map requestOf := hs.requests
        rw [hall, HttpPipeline.State.requests, List.append_assoc]
        exact List.prefix_append _ _
      exact hs.answered.trans hmore
    exact ⟨zs,resps,hpopped,hs.answers,items_part hs.encodable hpart,hs.answered_all⟩

theorem run_answers {workerPool : Bool} {router : HttpRouter ω} {as : List (Act ω k)} {world : ω} {s : State ω k}
    (hfits : Fits router) (hwhole : Along (step workerPool router) (Whole workerPool) { world } as)
    (h : exec (step workerPool router) { world } as = some s) :
    ∃ zs resps, zs <+: received as ∧ List.Forall₂ (Answers router) zs resps ∧
      Frames.items DecodedResponse.next s.wire <+: resps.map SimpleHttpResponse.seen ∧
      (s.Idle → zs = received as ∧
        Frames.items DecodedResponse.next s.wire = resps.map SimpleHttpResponse.seen) := by
  have hlets : Along (step workerPool router) (Lets (fun _ _ => True)) ({ world } : State ω k) as :=
    along_of_forall fun u a _ => lets_all u a
  obtain ⟨zs,resps,hpart,hserved,hitems⟩ := run_served hfits (fun _ _ _ _ => trivial) trivial hwhole hlets h
  exact ⟨zs,resps,hpart,hserved.answers,hitems⟩

section Routes
variable {process : Routes.Process ω}

theorem findCrlf_contentType {r : List UInt8} (hr : Accepted r) : findCrlf (requestOf r).contentType = none := by
  have hfed : feedAll (reset {}) [r] = (parse {} r).1 := if_pos hr.consumed
  have hdone : (feedAll (reset {}) [r]).state = .complete := hfed ▸ hr.state
  have hvalue := complete_contentType hdone
  rw [hfed] at hvalue
  change findCrlf (parse {} r).1.currentReq.contentType = none
  rw [hvalue]
  cases hline : contentTypeLine [r] with
  | none => rfl
  | some line => exact Routes.cleanContentType_of_cutsNoCrlf (cutsNoCrlf_single r) line hline

theorem encodable_plain {resp : SimpleHttpResponse} (hstatus : resp.statusText = bytes "OK" ∨ resp.statusText = bytes "Not Found")
    (hheaders : resp.headers = []) (htype : findCrlf resp.contentType = none) : resp.Encodable := by
  refine ⟨?_,htype,fun h hmem => ?_⟩
  · rcases hstatus with h | h <;> rw [h] <;> decide
  · rw [hheaders] at hmem
    cases hmem

/-- What a handler makes of a new response. -/
def FitsHandler (handler : RouterHandler ω) : Prop :=
  ∀ req, findCrlf req.contentType = none → ∀ world, (handler req world {}).thrown = none ∧
    (handler req world {}).response.Encodable

theorem forall_addRoute {router : HttpRouter ω} {P : List UInt8 × RouterHandler ω → Prop} (h : ∀ e ∈ router.routes, P e)
    (method path : List UInt8) {handler : RouterHandler ω} (hhandler : P (HttpRouter.routeKey method path,handler)) :
    ∀ e ∈ (router.addRoute method path handler).routes, P e := by
  intro e he
  rcases List.mem_cons.mp he with rfl | he
  · exact hhandler
  · exact h e (List.mem_of_mem_filter he)

theorem setRoutes_forall {P : List UInt8 × RouterHandler ω → Prop} (hroot : P (bytes "GET:/",Routes.root))
    (hhello : P (bytes "GET:/hello",Routes.hello)) (hjson : P (bytes "GET:/json",Routes.json))
    (hecho : P (bytes "POST:/echo",Routes.echo)) (hinfo : P (bytes "GET:/info",Routes.info))
    (hhealth : P (bytes "GET:/health",Routes.health)) (hmetrics : P (bytes "GET:/metrics",Routes.metrics process))
    (hslow : P (bytes "GET:/slow",Routes.slow process)) : ∀ e ∈ (Routes.setRoutes process {}).routes, P e := by
  have hnew : ∀ e ∈ (({} : HttpRouter ω).use (Routes.countRequests process)).routes, P e := fun e he => by cases he
  refine forall_addRoute (forall_addRoute (forall_addRoute (forall_addRoute (forall_addRoute (forall_addRoute
    (forall_addRoute (forall_addRoute hnew _ _ ?_) _ _ ?_) _ _ ?_) _ _ ?_) _ _ ?_) _ _ ?_) _ _ ?_) _ _ ?_
  · exact hroot
  · exact hhello
  · exact hjson
  · exact hecho
  · exact hinfo
  · exact hhealth
  · exact hmetrics
  · exact hslow

theorem setRoutes_handlers (process : Routes.Process ω) : ∀ e ∈ (Routes.setRoutes process {}).routes, FitsHandler e.2 := by
  have hplain : findCrlf Routes.textPlain = none := by decide
  have hjson : findCrlf Routes.applicationJson = none := by decide
  have htext : ∀ body, FitsHandler (Routes.answer (ω := ω) Routes.textPlain body) :=
    fun _ _ _ _ => ⟨rfl,encodable_plain (Or.inl rfl) rfl hplain⟩
  have hdata : ∀ body, FitsHandler (Routes.answer (ω := ω) Routes.applicationJson body) :=
    fun _ _ _ _ => ⟨rfl,encodable_plain (Or.inl rfl) rfl hjson⟩
  have hecho : FitsHandler (Routes.echo : RouterHandler ω) := by
    intro req hreq world
    refine ⟨rfl,encodable_plain (Or.inl rfl) rfl ?_⟩
    change findCrlf (if req.contentType = [] then Routes.textPlain else req.contentType) = none
    split_ifs
    · exact hplain
    · exact hreq
  have hslow : FitsHandler (Routes.slow process) := fun _ _ _ => ⟨rfl,encodable_plain (Or.inl rfl) rfl hjson⟩
  exact setRoutes_forall (P := fun e => FitsHandler e.2) (htext _) (htext _) (hdata _) hecho (htext _) (hdata _) (hdata _)
    hslow

theorem setRoutes_hit (process : Routes.Process ω) {req : SimpleHttpRequest} (world : ω) {handler : RouterHandler ω}
    (h : (Routes.setRoutes process {}).route req = some handler) (hnone : (handler req world {}).thrown = none) :
    (Routes.setRoutes process {}).handle req world =
      { handler req world {} with world := process.countRequest (handler req world {}).world } := by
  have hterminal : (Routes.setRoutes process {}).terminal req world {} = handler req world {} := by
    unfold HttpRouter.terminal
    rw [h]
    dsimp only
    rw [hnone]
  have hchain : (Routes.setRoutes process {}).handle req world =
      Routes.countRequests process req ((Routes.setRoutes process {}).terminal req) world {} := rfl
  rw [hchain]
  unfold Routes.countRequests
  dsimp only
  rw [hterminal, hnone]

theorem setRoutes_fits (process : Routes.Process ω) : Fits (Routes.setRoutes process {}) := by
  intro r hr world
  cases hroute : (Routes.setRoutes process {}).route (requestOf r) with
  | none =>
    have htype : findCrlf (bytes "text/plain") = none := by decide
    rw [Routes.setRoutes_miss process world hroute]
    exact ⟨rfl,encodable_plain (Or.inr rfl) rfl htype⟩
  | some handler =>
    obtain ⟨e,hfind,rfl⟩ := Option.map_eq_some_iff.mp hroute
    obtain ⟨hnone,hencodable⟩ := setRoutes_handlers process e (List.mem_of_find?_eq_some hfind) (requestOf r)
      (findCrlf_contentType hr) world
    rw [setRoutes_hit process world hroute hnone]
    exact ⟨hnone,hencodable⟩

/-- A client of the server that sends whole requests, and with more than one worker one at a time, gets the answers of
the routes to its requests in their order: what it can decode at any time is a front part of them, whatever the
scheduling, and when nothing is under way and the connection is open it is all of them. -/
theorem http_session {workerPool : Bool} {as : List (Act ω k)} {world : ω} {s : State ω k}
    (hwhole : Along (step workerPool (Routes.setRoutes process {})) (Whole workerPool) { world } as)
    (h : exec (step workerPool (Routes.setRoutes process {})) { world } as = some s) :
    ∃ zs resps, zs <+: received as ∧ List.Forall₂ (Answers (Routes.setRoutes process {})) zs resps ∧
      Frames.items DecodedResponse.next s.wire <+: resps.map SimpleHttpResponse.seen ∧
      (s.Idle → zs = received as ∧
        Frames.items DecodedResponse.next s.wire = resps.map SimpleHttpResponse.seen) :=
  run_answers (setRoutes_fits process) hwhole h

def helloRequest : List UInt8 := bytes "GET /hello HTTP/1.1\r\n\r\n"

def echoRequest : List UInt8 := bytes "POST /echo HTTP/1.1\r\nContent-Length: 2\r\n\r\nhi"

/-- One request after the other, each by another worker, and the first answer is written in two parts. -/
def twoRequests : List (Act ℕ 2) :=
  [.read [helloRequest],.parse,.parse,.dispatch,.dispatch,.worker 1,.worker 1,.worker 1,.write 20,.write 83,
    .read [echoRequest],.parse,.parse,.outside 7,.dispatch,.worker 1,.dispatch,.worker 0,.worker 0,.worker 0,.write 90]

theorem http_session_two : ∃ s resps, exec (step true (Routes.setRoutes Routes.counting {})) { world := 0 } twoRequests = some s ∧
    List.Forall₂ (Answers (Routes.setRoutes Routes.counting {})) [requestOf helloRequest,requestOf echoRequest] resps ∧
    Frames.items DecodedResponse.next s.wire = resps.map SimpleHttpResponse.seen := by
  have hrun : (exec (step true (Routes.setRoutes Routes.counting {})) { world := 0 } twoRequests).map
      (fun s => decide s.Idle) = some true := by
    decide +kernel
  obtain ⟨s,hs,hidle⟩ := Option.map_eq_some_iff.mp hrun
  obtain ⟨zs,resps,-,hanswers,-,hall⟩ := @http_session _ _ Routes.counting _ _ _ _ (by decide +kernel) hs
  obtain ⟨rfl,hitems⟩ := hall (of_decide_eq_true hidle)
  exact ⟨s,resps,hs,hanswers,hitems⟩

end Routes

end ModernTcp.HttpSession
