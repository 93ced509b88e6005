import Mathlib.Data.Prod.Lex
import ModernTcp.Net.PipelineClose
import ModernTcp.Server.HttpSession

/-! # Every request is answered

The parser, the loop that empties the queue, the workers and the event loop that writes need nothing but their turn.
Each of their steps takes from the work of the pipeline, or from the bytes that are not written. So when a client has
sent its requests, the server comes to rest with them, and while the connection is open it does not rest before all
of them are answered. As in the session itself the requests come in whole and the buffers are byte sequences.
-/
namespace ModernTcp.HttpSession
open EpollConnection Execution HttpParser ProtobufEcho

variable {ω : Type*} {k : ℕ}

/-- A step that waits neither for the client nor for the rest of the process. -/
def Act.Internal : Act ω k → Prop
  | .parse | .dispatch | .worker _ => True
  | .write n => 0 < n
  | .read _ | .drop | .outside _ => False

def Act.Reads : Act ω k → Prop
  | .read _ => True
  | .drop | .parse | .dispatch | .worker _ | .write _ | .outside _ => False

/-- What is left to do: the work of the pipeline, which makes responses, and the bytes of the responses. -/
def State.work (s : State ω k) : ℕ ×ₗ ℕ := toLex (s.pipeline.work, s.out.outputBuffer.length)

section Steps
variable {workerPool : Bool} {router : HttpRouter ω} {R : ℕ → ω → Prop} {xs zs : List SimpleHttpRequest}
  {rs : List (List UInt8)} {resps : List SimpleHttpResponse} {s t : State ω k} {p : HttpPipeline.State k}
  {sent : List (List UInt8)}

theorem follow_work : (s.follow p sent).pipeline.work ≤ p.work := by
  unfold State.follow
  dsimp only
  split_ifs
  · exact le_rfl
  · exact HttpPipeline.shutdown_work _

theorem follow_sound (hp : HttpPipeline.Sound p) : HttpPipeline.Sound (s.follow p sent).pipeline := by
  unfold State.follow
  dsimp only
  split_ifs
  · exact hp
  · exact hp.shutdown _

/-- A step is a step of the pipeline with what the handler sends, a write, or it happens elsewhere. -/
theorem step_cases {a : Act ω k} (h : step workerPool router s a = some t) :
    (∃ b p world sent, HttpPipeline.step workerPool s.pipeline b = some p ∧ t = { s with world }.follow p sent ∧
      (a.Internal → b.internal = true) ∧ (¬ a.Reads → ¬ a.Internal → b = .drop ∧ sent = [])) ∨
    (∃ n, a = .write n ∧ n ≤ s.out.outputBuffer.length ∧ t.pipeline = s.pipeline ∧
      t.out.outputBuffer = s.out.outputBuffer.drop n) ∨
    ∃ world, a = .outside world ∧ t = { s with world } := by
  have hfollow : ∀ {b : HttpPipeline.Act k} {sent : List (List UInt8)},
      (HttpPipeline.step workerPool s.pipeline b).map (fun p => s.follow p sent) = some t →
      ∃ p, HttpPipeline.step workerPool s.pipeline b = some p ∧ t = { s with world := s.world }.follow p sent := by
    intro b sent h
    obtain ⟨p,hp,rfl⟩ := Option.map_eq_some_iff.mp h
    exact ⟨p,hp,rfl⟩
  cases a with
  | read requests =>
    obtain ⟨p,hp,ht⟩ := hfollow h
    exact Or.inl ⟨_,p,s.world,[],hp,ht,False.elim,fun hreads => absurd trivial hreads⟩
  | drop =>
    obtain ⟨p,hp,ht⟩ := hfollow h
    exact Or.inl ⟨_,p,s.world,[],hp,ht,False.elim,fun _ _ => ⟨rfl,rfl⟩⟩
  | parse =>
    obtain ⟨p,hp,ht⟩ := hfollow h
    exact Or.inl ⟨_,p,s.world,_,hp,ht,fun _ => rfl,fun _ hint => absurd trivial hint⟩
  | dispatch =>
    simp only [step] at h
    split_ifs at h with hphase
    cases h
    have hround := @pipeline_dispatch _ workerPool _ hphase
    unfold State.dispatch
    left
    split
    · exact ⟨_,_,s.world,[],hround {},rfl,fun _ => rfl,fun _ hint => absurd trivial hint⟩
    · split_ifs
      · exact ⟨_,_,_,_,hround _,rfl,fun _ => rfl,fun _ hint => absurd trivial hint⟩
      · exact ⟨_,_,s.world,[],hround {},rfl,fun _ => rfl,fun _ hint => absurd trivial hint⟩
  | worker w =>
    simp only [step, State.advanceWorker] at h
    left
    split at h
    · obtain ⟨req,-,h⟩ := Option.bind_eq_some_iff.mp h
      obtain ⟨p,hp,rfl⟩ := Option.map_eq_some_iff.mp h
      exact ⟨.worker w (s.call router req).2,p,_,_,hp,rfl,fun _ => rfl,fun _ hint => absurd trivial hint⟩
    · obtain ⟨p,hp,ht⟩ := hfollow (b := .worker w {}) h
      exact ⟨_,p,s.world,[],hp,ht,fun _ => rfl,fun _ hint => absurd trivial hint⟩
  | write n =>
    simp only [step] at h
    split_ifs at h with hgo
    cases h
    exact Or.inr (Or.inl ⟨n,rfl,hgo.2.2,rfl,rfl⟩)
  | outside world =>
    cases h
    exact Or.inr (Or.inr ⟨world,rfl,rfl⟩)

theorem step_sound {a : Act ω k} (hs : HttpPipeline.Sound s.pipeline) (h : step workerPool router s a = some t) :
    HttpPipeline.Sound t.pipeline := by
  rcases step_cases h with ⟨b,p,world,sent,hp,rfl,-⟩ | ⟨n,-,-,hsame,-⟩ | ⟨world,-,rfl⟩
  · exact follow_sound (HttpPipeline.step_sound hs hp)
  · rw [hsame]
    exact hs
  · exact hs

theorem internal_work {a : Act ω k} (hs : HttpPipeline.Sound s.pipeline) (ha : a.Internal)
    (h : step workerPool router s a = some t) : t.work < s.work := by
  rw [State.work, State.work, Prod.Lex.toLex_lt_toLex]
  rcases step_cases h with ⟨b,p,world,sent,hp,rfl,hint,-⟩ | ⟨n,rfl,hn,hsame,hdrop⟩ | ⟨world,rfl,-⟩
  · exact Or.inl (follow_work.trans_lt (HttpPipeline.step_work hs (hint ha) hp))
  · have hpos : 0 < n := ha
    have hlength : t.out.outputBuffer.length = s.out.outputBuffer.length - n := by rw [hdrop, List.length_drop]
    refine Or.inr ⟨by rw [hsame],?_⟩
    dsimp only
    omega
  · exact ha.elim

theorem step_le {a : Act ω k} (hs : HttpPipeline.Sound s.pipeline) (ha : ¬ a.Reads)
    (h : step workerPool router s a = some t) : t.work ≤ s.work := by
  by_cases hint : a.Internal
  · exact (internal_work hs hint h).le
  rw [State.work, State.work, Prod.Lex.toLex_le_toLex']
  rcases step_cases h with ⟨b,p,world,sent,hp,rfl,-,hother⟩ | ⟨n,rfl,-,hsame,hdrop⟩ | ⟨world,rfl,rfl⟩
  · obtain ⟨rfl,rfl⟩ := hother ha hint
    simp only [HttpPipeline.step] at hp
    split_ifs at hp
    cases hp
    refine ⟨follow_work.trans (HttpPipeline.shutdown_work _),fun _ => ?_⟩
    simp only [State.follow, HttpPipeline.State.shutdown_not_running, List.foldl_nil, Bool.false_eq_true, if_false]
    unfold Output.shutdown
    split_ifs
    · exact Nat.zero_le _
    · exact le_rfl
  · refine ⟨by rw [hsame],fun _ => ?_⟩
    dsimp only
    rw [hdrop, List.length_drop]
    exact Nat.sub_le _ _
  · exact ⟨le_rfl,fun _ => le_rfl⟩

/-- The connection is at rest: nothing of its own can go on. -/
def Stuck (workerPool : Bool) (router : HttpRouter ω) (s : State ω k) : Prop :=
  ∀ a : Act ω k, a.Internal → step workerPool router s a = none

theorem Stuck.waiting {inWork : Option (Fin k × HttpPipeline.Task)} (h : Stuck workerPool router s)
    (hs : Open workerPool router R xs zs rs resps inWork s) (w : Fin k) : s.pipeline.pc w = .waiting := by
  have hstep := h (.worker w) trivial
  simp only [step, State.advanceWorker] at hstep
  cases hw : s.pipeline.pc w with
  | waiting => rfl
  | taken task => simp [hw, HttpPipeline.State.advanceWorker] at hstep
  | handled task closes => simp [hw, HttpPipeline.State.advanceWorker] at hstep
  | handling task =>
    obtain rfl : inWork = some (w,task) := (hs.busy w task).mp (by rw [hw]; rfl)
    obtain ⟨hindex,hlt,-⟩ := hs.line_cons
    have hreq : s.pipeline.popped[task.index]? = some (s.pipeline.popped[zs.length]) := by
      rw [hindex]
      exact List.getElem?_eq_getElem hlt
    simp [hw, hreq, HttpPipeline.State.advanceWorker] at hstep

end Steps

/-- An open connection is at rest only when everything has been answered and written. -/
theorem Stuck.idle {workerPool : Bool} {router : HttpRouter ω} {R : ℕ → ω → Prop} {xs zs : List SimpleHttpRequest}
    {rs : List (List UInt8)} {resps : List SimpleHttpResponse} {s : State ω (k + 1)}
    {inWork : Option (Fin (k + 1) × HttpPipeline.Task)} (h : Stuck workerPool router s)
    (hs : Open workerPool router R xs zs rs resps inWork s) : s.Idle := by
  have hwaiting := h.waiting hs
  have hphase : s.pipeline.phase = .idle := by
    have hparse := h .parse trivial
    have hdispatch := h .dispatch trivial
    cases hphase : s.pipeline.phase with
    | idle => rfl
    | parsing => simp [step, HttpPipeline.step, hphase] at hparse
    | dispatching => simp [step, hphase] at hdispatch
  have htasks : s.pipeline.tasks = [] := by
    have hworker := h (.worker 0) trivial
    cases htasks : s.pipeline.tasks with
    | nil => rfl
    | cons task rest => simp [step, State.advanceWorker, HttpPipeline.State.advanceWorker, hwaiting, htasks] at hworker
  have hempty : s.out.outputBuffer = [] := by
    by_contra hne
    have hpos : 0 < s.out.outputBuffer.length := List.length_pos_iff.mpr hne
    have hwrite := h (.write s.out.outputBuffer.length) hpos
    simp [step, hphase, hs.sending] at hwrite
  refine ⟨⟨hphase,htasks,fun w => ?_⟩,hs.running,hempty⟩
  rw [hwaiting w]
  rfl

/-- When no more requests come, a fair run of the process brings the connection to rest. -/
theorem comes_to_rest {workerPool : Bool} {router : HttpRouter ω} {f : ℕ → State ω k} {a : ℕ → Act ω k}
    (hf : Endless (step workerPool router) f a) (hs : HttpPipeline.Sound (f 0).pipeline) (hreads : ∀ n, ¬ (a n).Reads)
    (hfair : Fair (step workerPool router) Act.Internal f a) : ∃ N, ∀ n, N ≤ n → Stuck workerPool router (f n) := by
  have hsound : ∀ n, HttpPipeline.Sound (f n).pipeline :=
    hf.invariant (Q := fun _ _ => True) (I := fun s => HttpPipeline.Sound s.pipeline) (fun _ => trivial)
      (fun s b t hs _ h => step_sound hs h) hs
  exact hf.stuck State.work hsound hreads (fun s b t hs hb h => step_le hs hb h)
    (fun s b t hs hb h => internal_work hs hb h) hfair

theorem whole_rest {workerPool : Bool} {s : State ω k} {a : Act ω k} (ha : ¬ a.Reads) : Whole workerPool s a := by
  cases a with
  | read requests => exact absurd trivial ha
  | _ => trivial

theorem step_serving_rest {workerPool : Bool} {router : HttpRouter ω} {xs : List SimpleHttpRequest} {s t : State ω k}
    {a : Act ω k} (hfits : Fits router) (hs : Serving workerPool router (fun _ _ => True) xs s) (ha : ¬ a.Reads)
    (h : step workerPool router s a = some t) : Serving workerPool router (fun _ _ => True) xs t := by
  have hnone : received [a] = [] := by
    cases a with
    | read requests => exact absurd trivial ha
    | _ => rfl
  have hnext := step_serving hfits (fun _ _ _ _ => trivial) hs (whole_rest ha) (lets_all s a) h
  rwa [hnone, List.append_nil] at hnext

section Answered
variable {workerPool : Bool} {as : List (Act ω (k + 1))} {world : ω} {f : ℕ → State ω (k + 1)} {a : ℕ → Act ω (k + 1)}

/-- The connection is open with everything answered. -/
def AllAnswered (router : HttpRouter ω) (xs : List SimpleHttpRequest) (s : State ω k) : Prop :=
  s.Idle ∧ ∃ resps, List.Forall₂ (Answers router) xs resps ∧
    Frames.items DecodedResponse.next s.wire = resps.map SimpleHttpResponse.seen

theorem serving_at {router : HttpRouter ω} (hfits : Fits router)
    (hwhole : Along (step workerPool router) (Whole workerPool) { world } as)
    (h : exec (step workerPool router) { world } as = some (f 0)) (hf : Endless (step workerPool router) f a)
    (hreads : ∀ n, ¬ (a n).Reads) (n : ℕ) : Serving workerPool router (fun _ _ => True) (received as) (f n) := by
  have hfirst := run_serving hfits (fun _ _ _ _ => trivial) (serving_start trivial) hwhole
    (along_of_forall fun u b _ => lets_all u b) h
  exact hf.invariant (Q := fun _ b => ¬ b.Reads) hreads (fun s b t hs hb h => step_serving_rest hfits hs hb h) hfirst n

theorem answered_at_last {router : HttpRouter ω} (hfits : Fits router)
    (hwhole : Along (step workerPool router) (Whole workerPool) { world } as)
    (h : exec (step workerPool router) { world } as = some (f 0)) (hf : Endless (step workerPool router) f a)
    (hreads : ∀ n, ¬ (a n).Reads) (hfair : Fair (step workerPool router) Act.Internal f a) :
    ∃ N, ∀ n, N ≤ n → (f n).pipeline.running = false ∨ AllAnswered router (received as) (f n) := by
  have hsound : HttpPipeline.Sound (f 0).pipeline :=
    exec_of_steps (I := fun s => HttpPipeline.Sound s.pipeline) (fun s b t hs h => step_sound hs h)
      HttpPipeline.initial_sound h
  obtain ⟨N,hN⟩ := comes_to_rest hf hsound hreads hfair
  refine ⟨N,fun n hn => ?_⟩
  rcases serving_at hfits hwhole h hf hreads n with hs | ⟨zs,rs,resps,inWork,hs⟩
  · exact Or.inl hs.running
  · have hidle : (f n).Idle := (hN n hn).idle hs
    obtain ⟨rfl,hitems⟩ := hs.answered_all hidle
    exact Or.inr ⟨hidle,resps,hs.answers.answers,hitems⟩

end Answered

/-- The response to the request fits into the output buffer. -/
def State.Room (router : HttpRouter ω) (s : State ω k) (req : SimpleHttpRequest) : Prop :=
  s.out.outputBuffer.length + (router.handle req s.world).response.toString.length ≤ maxBufferSize

/-- The request that a worker has called the handler for. -/
def State.handled (s : State ω k) (w : Fin k) : Option SimpleHttpRequest :=
  match s.pipeline.pc w with
  | .handling task => s.pipeline.popped[task.index]?
  | _ => none

/-- The client keeps the connection alive and does not end its stream, nobody closes it, and there is room for what is
sent. -/
def Lasts (workerPool : Bool) (router : HttpRouter ω) (s : State ω k) : Act ω k → Prop
  | .read requests => requests ≠ [] ∧ ∀ r ∈ requests, (requestOf r).keepAlive = true
  | .drop => False
  | .dispatch => workerPool = false → ∀ req ∈ s.pipeline.pending.head?, s.Room router req
  | .worker w => ∀ req ∈ s.handled w, s.Room router req
  | .parse | .write _ | .outside _ => True

instance (router : HttpRouter ω) (s : State ω k) (req : SimpleHttpRequest) : Decidable (s.Room router req) :=
  Nat.decLe _ _

instance (workerPool : Bool) (router : HttpRouter ω) (s : State ω k) : ∀ a, Decidable (Lasts workerPool router s a)
  | .read _ => inferInstanceAs (Decidable (_ ∧ _))
  | .drop => inferInstanceAs (Decidable False)
  | .dispatch => inferInstanceAs (Decidable (_ → ∀ req ∈ s.pipeline.pending.head?, s.Room router req))
  | .worker w => inferInstanceAs (Decidable (∀ req ∈ s.handled w, s.Room router req))
  | .parse | .write _ | .outside _ => inferInstanceAs (Decidable True)

/-- Neither the IO thread nor a worker means to close the connection. -/
structure Unclosing (p : HttpPipeline.State k) : Prop where
  shouldClose : p.reading.shouldClose = false
  tasks : ∀ task ∈ p.tasks, task.closeAfter = false
  held : ∀ w task, (p.pc w).held = some task → task.closeAfter = false
  handled : ∀ w task closes, p.pc w = .handled task closes → closes = false

section Lasts
variable {workerPool : Bool} {router : HttpRouter ω} {R : ℕ → ω → Prop} {xs zs : List SimpleHttpRequest}
  {rs : List (List UInt8)} {resps : List SimpleHttpResponse} {inWork : Option (Fin k × HttpPipeline.Task)}
  {s t : State ω k} {p : HttpPipeline.State k} {sent : List (List UInt8)} {run : HandlerRun}

theorem follow_pipeline (h : (s.follow p sent).pipeline.running = true) : (s.follow p sent).pipeline = p := by
  unfold State.follow at h ⊢
  dsimp only at h ⊢
  split_ifs at h ⊢
  · rfl
  · rw [HttpPipeline.State.shutdown_not_running] at h
    cases h

theorem Unclosing.goto (hu : Unclosing p) {w : Fin k} {pc : HttpPipeline.Pc}
    (hheld : ∀ task, pc.held = some task → task.closeAfter = false)
    (hhandled : ∀ task closes, pc = .handled task closes → closes = false) : Unclosing (p.goto w pc) := by
  refine ⟨hu.shouldClose,hu.tasks,?_,?_⟩
  · intro v task hv
    rw [goto_pc] at hv
    split_ifs at hv
    · exact hheld task hv
    · exact hu.held v task hv
  · intro v task closes hv
    rw [goto_pc] at hv
    split_ifs at hv
    · exact hhandled task closes hv
    · exact hu.handled v task closes hv

theorem Unclosing.parse (hu : Unclosing p) (hrun : p.parse.running = true)
    (hkeep : ∀ req ∈ p.parse.pending, req.keepAlive = true) : Unclosing p.parse := by
  cases hround : p.reading.parseRound with
  | none =>
    have hparse : p.parse = { p with phase := .dispatching } := by rw [HttpPipeline.State.parse, hround]
    rw [hparse]
    exact ⟨hu.shouldClose,hu.tasks,hu.held,hu.handled⟩
  | some r =>
    have hparse : p.parse = { p with reading := r } := by rw [HttpPipeline.State.parse, hround]
    rw [hparse] at hrun hkeep ⊢
    refine ⟨?_,hu.tasks,hu.held,hu.handled⟩
    obtain ⟨-,-,hparsed⟩ := HttpPipeline.parseRound_parsed hround
    cases hparsed with
    | refused ho hdead more hone hmore hpending hdepth =>
      have hlive : r.conn.running = true := hrun
      rw [hdead] at hlive
      cases hlive
    | incomplete ho hlive hstatus hpending hdepth hclose => exact hclose.trans hu.shouldClose
    | queued ho hlive hstatus req raw hpending hdepth hclose =>
      have halive : req.keepAlive = true := hkeep req (by simp [HttpPipeline.State.pending, hpending])
      exact hclose.trans (by simp [hu.shouldClose, halive])

theorem dispatch_pool_shouldClose (hhandler : p.reading.conn.httpHandler = true) :
    (p.dispatch true run).reading.shouldClose = p.reading.shouldClose := by
  rcases HttpPipeline.dispatch_cases run true (s := p) with ⟨-,heq⟩ | ⟨req,raw,r,rfl,-,-,heq⟩
  · rw [heq]
  · rw [heq]
    simp [Reading.dispatch, Reading.popRequest, Reading.emit, hhandler]

theorem Unclosing.dispatch (hu : Unclosing p) (hhandler : p.reading.conn.httpHandler = true)
    (hkeep : ∀ req ∈ p.pending, req.keepAlive = true) (hthrows : run.throws = false) :
    Unclosing (p.dispatch workerPool run) := by
  have hend : Unclosing { p with phase := .idle } := ⟨hu.shouldClose,hu.tasks,hu.held,hu.handled⟩
  cases workerPool with
  | true =>
    rcases HttpPipeline.dispatch_pool run hhandler with ⟨-,heq⟩ | ⟨req,hpop,-,htasks,-⟩
    · rw [heq]
      exact hend
    · have halive : req.keepAlive = true := hkeep req (by rw [hpop.pending]; exact List.mem_cons_self)
      refine ⟨(dispatch_pool_shouldClose hhandler).trans hu.shouldClose,?_,hpop.pc ▸ hu.held,hpop.pc ▸ hu.handled⟩
      rw [htasks, halive]
      exact List.forall_mem_append.mpr ⟨hu.tasks,List.forall_mem_singleton.mpr rfl⟩
  | false =>
    rcases HttpPipeline.dispatch_inline run hhandler with ⟨-,heq⟩ | ⟨req,hpop,htasks,-,hclose,-⟩
    · rw [heq]
      exact hend
    · refine ⟨?_,htasks ▸ hu.tasks,hpop.pc ▸ hu.held,hpop.pc ▸ hu.handled⟩
      rw [hclose, hu.shouldClose, hthrows]
      rfl

theorem call_room (hfits : Fits router) (hsend : s.out.running = true) {r : List UInt8} (hr : Accepted r)
    (hroom : s.Room router (requestOf r)) :
    (s.call router (requestOf r)).2.closes = false ∧ (s.call router (requestOf r)).2.throws = false ∧
      ((replies (s.call router (requestOf r)).2).foldl Output.send s.out).running = true := by
  obtain ⟨resp,rfl,-,hne,hrun⟩ := call_fits hfits hr s
  have hfit : ¬ maxBufferSize < s.out.outputBuffer.length +
      (router.handle (requestOf r) s.world).response.toString.length := not_lt.mpr hroom
  have hsent : (s.out.send (router.handle (requestOf r) s.world).response.toString).running = true := by
    simp only [Output.send, hsend, hne, hfit, Bool.true_eq_false, or_self, if_false]
  rw [hrun]
  simp [replies, hsent]

/-- The connection is open and stays open. -/
def State.Lasting (s : State ω k) : Prop := s.pipeline.running = true ∧ Unclosing s.pipeline

theorem follow_lasting (hu : Unclosing p) (hrun : p.running = true)
    (hout : (sent.foldl Output.send s.out).running = true) : (s.follow p sent).Lasting := by
  rw [State.Lasting, follow_open hrun hout]
  exact ⟨hrun,hu⟩

theorem Open.pending_alive (hs : Open workerPool router R xs zs rs resps inWork s)
    (halive : ∀ x ∈ xs, x.keepAlive = true) : ∀ req ∈ s.pipeline.pending, req.keepAlive = true := by
  intro req hreq
  refine halive req ?_
  rw [hs.requests, HttpPipeline.State.requests]
  exact List.mem_append_left _ (List.mem_append_right _ hreq)

theorem Open.lasts_read (hs : Open workerPool router R xs zs rs resps inWork s) (hu : Unclosing s.pipeline)
    {requests : List (List UInt8)} (haccepted : ∀ r ∈ requests, Accepted r) (hne : requests ≠ [])
    (h : step workerPool router s (.read requests) = some t) : t.Lasting := by
  obtain ⟨p,hp,rfl⟩ := Option.map_eq_some_iff.mp h
  simp only [HttpPipeline.step] at hp
  split_ifs at hp
  have hdata : requests.flatten ≠ [] := by
    obtain ⟨r,rest,rfl⟩ := List.exists_cons_of_ne_nil hne
    have hr := (haccepted r List.mem_cons_self).ne_nil
    simp [hr]
  obtain ⟨c,rfl,hlive,-⟩ := pipeline_read hs.running hdata hp
  exact follow_lasting ⟨rfl,hu.tasks,hu.held,hu.handled⟩ hlive hs.sending

theorem Open.lasts_parse (hs : Open workerPool router R xs zs rs resps inWork s) (hu : Unclosing s.pipeline)
    (halive : ∀ x ∈ xs, x.keepAlive = true) (h : step workerPool router s .parse = some t) : t.Lasting := by
  obtain ⟨rs,ht⟩ := hs.parse h
  have hrun := ht.running
  have hpending := ht.pending_alive halive
  obtain ⟨p,hp,rfl⟩ := Option.map_eq_some_iff.mp h
  simp only [HttpPipeline.step] at hp
  split_ifs at hp
  cases hp
  have hsame := follow_pipeline hrun
  refine ⟨hrun,?_⟩
  rw [hsame] at hrun hpending ⊢
  exact hu.parse hrun hpending

theorem Open.lasts_dispatch (hs : Open workerPool router R xs zs rs resps inWork s) (hu : Unclosing s.pipeline)
    (hfits : Fits router) (halive : ∀ x ∈ xs, x.keepAlive = true) (hlasts : Lasts workerPool router s .dispatch)
    (h : step workerPool router s .dispatch = some t) : t.Lasting := by
  simp only [step] at h
  split_ifs at h
  cases h
  have hkeep := hs.pending_alive halive
  have hquiet : (s.pipeline.dispatch workerPool {}).running = true →
      (s.follow (s.pipeline.dispatch workerPool {}) []).Lasting := fun hrun =>
    follow_lasting (hu.dispatch hs.sound.handler hkeep rfl) hrun hs.sending
  unfold State.dispatch
  cases hpending : s.pipeline.pending with
  | nil =>
    refine hquiet ?_
    rw [dispatch_nil hpending]
    exact hs.running
  | cons req rest =>
    dsimp only
    cases workerPool with
    | true =>
      rw [if_neg (by simp)]
      refine hquiet ?_
      rcases HttpPipeline.dispatch_pool {} hs.sound.handler with ⟨hover,-⟩ | ⟨req,-,hrun,-⟩
      · rw [hs.over hover] at hpending
        cases hpending
      · exact hrun
    | false =>
      rw [if_pos ⟨rfl,hs.running,hs.sound.handler⟩]
      obtain ⟨r,hr,rfl⟩ := hs.known_pending hpending
      have hroom : s.Room router (requestOf r) := hlasts rfl _ (by rw [hpending]; rfl)
      obtain ⟨hcloses,hthrows,hsent⟩ := call_room hfits hs.sending hr hroom
      refine follow_lasting (hu.dispatch hs.sound.handler hkeep hthrows) ?_ hsent
      rcases HttpPipeline.dispatch_inline (s.call router (requestOf r)).2 hs.sound.handler with
        ⟨hover,-⟩ | ⟨req,-,-,-,-,hlive⟩
      · rw [hs.over hover] at hpending
        cases hpending
      · refine hlive.mpr ⟨hcloses,fun hclose => ?_⟩
        rw [hu.shouldClose, hthrows] at hclose
        cases hclose

theorem Open.lasts_worker (hs : Open workerPool router R xs zs rs resps inWork s) (hu : Unclosing s.pipeline)
    (hfits : Fits router) {w : Fin k} (hlasts : Lasts workerPool router s (.worker w))
    (h : step workerPool router s (.worker w) = some t) : t.Lasting := by
  have hlive := hs.running
  simp only [step, State.advanceWorker] at h
  split at h
  · rename_i task hw
    obtain ⟨req,hreq,h⟩ := Option.bind_eq_some_iff.mp h
    obtain ⟨p,hp,rfl⟩ := Option.map_eq_some_iff.mp h
    have hroom : s.Room router req := hlasts req (by rw [State.handled, hw]; exact hreq)
    obtain ⟨r,hr,rfl⟩ := hs.known_popped hreq
    obtain ⟨hcloses,hthrows,hsent⟩ := call_room hfits hs.sending hr hroom
    have htask : task.closeAfter = false := hu.held w task (by rw [hw]; rfl)
    simp only [HttpPipeline.State.advanceWorker, hw, hcloses, hthrows, htask, Bool.false_eq_true, if_false,
      Bool.or_false, Option.some.injEq] at hp
    subst hp
    refine follow_lasting (hu.goto ?_ ?_) hlive hsent
    · rintro _ ⟨⟩
      exact htask
    · rintro _ _ ⟨⟩
      rfl
  · rename_i hother
    obtain ⟨p,hp,rfl⟩ := Option.map_eq_some_iff.mp h
    unfold HttpPipeline.State.advanceWorker at hp
    split at hp
    · split at hp
      · cases hp
      · rename_i task rest htasks
        cases hp
        have htask : ∀ other ∈ task :: rest, other.closeAfter = false := htasks ▸ hu.tasks
        have hgoto : Unclosing (s.pipeline.goto w (.taken task)) := by
          refine hu.goto ?_ (fun _ _ hother => by cases hother)
          rintro _ ⟨⟩
          exact htask task List.mem_cons_self
        have hrest := (List.forall_mem_cons.mp htask).2
        exact follow_lasting ⟨hgoto.shouldClose,hrest,hgoto.held,hgoto.handled⟩ hlive hs.sending
    · rename_i task hw
      rw [if_pos hlive] at hp
      cases hp
      have hgoto : Unclosing (s.pipeline.goto w (.handling task)) := by
        refine hu.goto ?_ (fun _ _ hother => by cases hother)
        rintro _ ⟨⟩
        exact hu.held w task (by rw [hw]; rfl)
      exact follow_lasting ⟨hgoto.shouldClose,hgoto.tasks,hgoto.held,hgoto.handled⟩ hlive hs.sending
    · rename_i task hw
      exact (hother task hw).elim
    · rename_i task closes hw
      obtain rfl : closes = false := hu.handled w task closes hw
      cases hp
      have hgoto : Unclosing (s.pipeline.goto w .waiting) :=
        hu.goto (fun _ hother => by cases hother) (fun _ _ hother => by cases hother)
      exact follow_lasting hgoto hlive hs.sending

theorem step_lasts {a : Act ω k} (hfits : Fits router) (hs : Open workerPool router R xs zs rs resps inWork s)
    (hu : Unclosing s.pipeline) (halive : ∀ x ∈ xs, x.keepAlive = true) (hwhole : Whole workerPool s a)
    (hlasts : Lasts workerPool router s a) (h : step workerPool router s a = some t) : t.Lasting := by
  cases a with
  | read requests => exact hs.lasts_read hu hwhole.1 hlasts.1 h
  | drop => exact hlasts.elim
  | parse => exact hs.lasts_parse hu halive h
  | dispatch => exact hs.lasts_dispatch hu hfits halive hlasts h
  | worker w => exact hs.lasts_worker hu hfits hlasts h
  | write n =>
    simp only [step] at h
    split_ifs at h
    cases h
    exact ⟨hs.running,hu⟩
  | outside world =>
    cases h
    exact ⟨hs.running,hu⟩

theorem step_lasting {a : Act ω k} (hfits : Fits router) (hs : Serving workerPool router R xs s) (hlast : s.Lasting)
    (halive : ∀ x ∈ xs, x.keepAlive = true) (hwhole : Whole workerPool s a) (hlasts : Lasts workerPool router s a)
    (h : step workerPool router s a = some t) : t.Lasting := by
  rcases hs with hs | ⟨zs,rs,resps,inWork,hs⟩
  · rw [State.Lasting, hs.running] at hlast
    cases hlast.1
  · exact step_lasts hfits hs hlast.2 halive hwhole hlasts h

theorem received_alive {a : Act ω k} (hlasts : Lasts workerPool router s a) :
    ∀ x ∈ received [a], x.keepAlive = true := by
  cases a with
  | read requests =>
    intro x hx
    rw [show received [(.read requests : Act ω k)] = requests.map requestOf from List.append_nil _] at hx
    obtain ⟨r,hr,rfl⟩ := List.mem_map.mp hx
    exact hlasts.2 r hr
  | _ =>
    intro x hx
    cases hx

theorem run_lasts {as : List (Act ω k)} (hfits : Fits router) (hkept : KeptBy router R)
    (hs : Serving workerPool router R xs s) (hlast : s.Lasting) (halive : ∀ x ∈ xs, x.keepAlive = true)
    (hwhole : Along (step workerPool router) (Whole workerPool) s as)
    (hlets : Along (step workerPool router) (Lets R) s as)
    (hlasts : Along (step workerPool router) (Lasts workerPool router) s as)
    (h : exec (step workerPool router) s as = some t) : t.Lasting ∧ ∀ x ∈ xs ++ received as, x.keepAlive = true := by
  induction as generalizing xs s with
  | nil =>
    cases h
    exact ⟨hlast,by simpa [received] using halive⟩
  | cons a as ih =>
    obtain ⟨u,hu,h⟩ := exec_cons_eq_some.mp h
    have hnext := step_serving hfits hkept hs hwhole.1 hlets.1 hu
    have hstep : u.Lasting := step_lasting hfits hs hlast halive hwhole.1 hlasts.1 hu
    have hmore := List.forall_mem_append.mpr ⟨halive,received_alive hlasts.1⟩
    rw [received_cons, ← List.append_assoc]
    exact ih hnext hstep hmore (hwhole.2 u hu) (hlets.2 u hu) (hlasts.2 u hu) h

end Lasts

theorem unclosing_start : Unclosing ({} : HttpPipeline.State k) where
  shouldClose := rfl
  tasks _ htask := by cases htask
  held _ _ hheld := by cases hheld
  handled _ _ _ hhandled := by cases hhandled

section Routes
variable {process : Routes.Process ω} {workerPool : Bool} {as : List (Act ω (k + 1))} {world : ω}
  {f : ℕ → State ω (k + 1)} {a : ℕ → Act ω (k + 1)}

/-- A worker goes once more, and then nothing happens here. -/
def lastStates (s t : State ℕ 2) : ℕ → State ℕ 2
  | 0 => s
  | _ + 1 => t

def lastActs (t : State ℕ 2) : ℕ → Act ℕ 2
  | 0 => .worker 0
  | _ + 1 => .outside t.world

theorem lastStates_endless {router : HttpRouter ℕ} {s t : State ℕ 2}
    (h : step workerPool router s (.worker 0) = some t) : Endless (step workerPool router) (lastStates s t) (lastActs t)
  | 0 => h
  | _ + 1 => rfl

theorem lastActs_reads (t : State ℕ 2) : ∀ n, ¬ (lastActs t n).Reads
  | 0 => id
  | _ + 1 => id

theorem stuck_of_atRest {router : HttpRouter ω} {s : State ω k} (hrest : s.pipeline.AtRest)
    (hempty : s.out.outputBuffer = []) : Stuck workerPool router s := by
  obtain ⟨hphase,htasks,hwaiting⟩ := hrest
  intro b hb
  cases b with
  | read requests => exact hb.elim
  | drop => exact hb.elim
  | outside world => exact hb.elim
  | parse => simp [step, HttpPipeline.step, hphase]
  | dispatch => simp [step, hphase]
  | worker w => simp [step, State.advanceWorker, HttpPipeline.State.advanceWorker, hwaiting w, htasks]
  | write n =>
    have hpos : 0 < n := hb
    simp only [step, hempty, List.length_nil]
    rw [if_neg (fun hgo => by omega)]

theorem lastStates_fair {router : HttpRouter ℕ} {s t : State ℕ 2} (h : Stuck workerPool router t) :
    Fair (step workerPool router) Act.Internal (lastStates s t) (lastActs t)
  | 0, _, _, _ => ⟨0,le_rfl,trivial⟩
  | n + 1, b, hb, henabled => by
    rw [show step workerPool router (lastStates s t (n + 1)) b = none from h b hb] at henabled
    cases henabled

instance (p : HttpPipeline.State k) : Decidable p.AtRest := inferInstanceAs (Decidable (_ ∧ _ ∧ _))

theorem twoRequests_last : ∃ s t,
    exec (step true (Routes.setRoutes Routes.counting {})) { world := 0 } twoRequests = some s ∧
    step true (Routes.setRoutes Routes.counting {}) s (.worker 0) = some t ∧
    Stuck true (Routes.setRoutes Routes.counting {}) t ∧ t.pipeline.running = true := by
  have hrun : (exec (step true (Routes.setRoutes Routes.counting {})) { world := 0 } (twoRequests ++ [.worker 0])).map
      (fun t => decide (t.pipeline.AtRest ∧ t.out.outputBuffer = [] ∧ t.pipeline.running = true)) = some true := by
    decide +kernel
  obtain ⟨t,ht,hrest⟩ := Option.map_eq_some_iff.mp hrun
  obtain ⟨hrest,hempty,hlive⟩ := of_decide_eq_true hrest
  rw [exec_append, Option.bind_eq_some_iff] at ht
  obtain ⟨s,hs,ht⟩ := ht
  obtain ⟨u,hu,ht⟩ := exec_cons_eq_some.mp ht
  cases ht
  exact ⟨s,t,hs,hu,stuck_of_atRest hrest hempty,hlive⟩

/-- When a client of the server has sent its requests, then in every fair run of the process, whatever the scheduling
and the rest of the process, the connection is closed at last, or all the requests are answered and the answers
written. -/
theorem requests_answered
    (hwhole : Along (step workerPool (Routes.setRoutes process {})) (Whole workerPool) { world } as)
    (h : exec (step workerPool (Routes.setRoutes process {})) { world } as = some (f 0))
    (hf : Endless (step workerPool (Routes.setRoutes process {})) f a) (hreads : ∀ n, ¬ (a n).Reads)
    (hfair : Fair (step workerPool (Routes.setRoutes process {})) Act.Internal f a) :
    ∃ N, ∀ n, N ≤ n → (f n).pipeline.running = false ∨
      AllAnswered (Routes.setRoutes process {}) (received as) (f n) :=
  answered_at_last (setRoutes_fits process) hwhole h hf hreads hfair

theorem requests_answered_two : ∃ s t,
    exec (step true (Routes.setRoutes Routes.counting {})) { world := 0 } twoRequests = some s ∧
    step true (Routes.setRoutes Routes.counting {}) s (.worker 0) = some t ∧
    AllAnswered (Routes.setRoutes Routes.counting {}) [requestOf helloRequest,requestOf echoRequest] t := by
  obtain ⟨s,t,hs,ht,hstuck,hlive⟩ := twoRequests_last
  obtain ⟨N,hN⟩ := @requests_answered _ _ Routes.counting _ _ _ (lastStates s t) (lastActs t) (by decide +kernel) hs
    (lastStates_endless ht) (lastActs_reads t) (lastStates_fair hstuck)
  refine ⟨s,t,hs,ht,(hN (N + 1) (Nat.le_succ N)).resolve_left ?_⟩
  change ¬ t.pipeline.running = false
  rw [hlive]
  decide

/-- A client that keeps its connection alive and leaves room for the answers gets them all: nothing in the server closes
the connection at any time. -/
theorem live_requests_answered
    (hwhole : Along (step workerPool (Routes.setRoutes process {})) (Whole workerPool) { world } as)
    (hlasts : Along (step workerPool (Routes.setRoutes process {})) (Lasts workerPool (Routes.setRoutes process {}))
      { world } as)
    (h : exec (step workerPool (Routes.setRoutes process {})) { world } as = some (f 0))
    (hf : Endless (step workerPool (Routes.setRoutes process {})) f a) (hreads : ∀ n, ¬ (a n).Reads)
    (hmore : ∀ n, Lasts workerPool (Routes.setRoutes process {}) (f n) (a n))
    (hfair : Fair (step workerPool (Routes.setRoutes process {})) Act.Internal f a) :
    (∀ n, (f n).pipeline.running = true) ∧
      ∃ N, ∀ n, N ≤ n → AllAnswered (Routes.setRoutes process {}) (received as) (f n) := by
  have hfits : Fits (Routes.setRoutes process {}) := setRoutes_fits process
  obtain ⟨hlast,halive⟩ := run_lasts hfits (fun _ _ _ _ => trivial) (serving_start trivial) ⟨rfl,unclosing_start⟩
    (fun x hx => by cases hx) hwhole (along_of_forall fun u b _ => lets_all u b) hlasts h
  have hserving := serving_at hfits hwhole h hf hreads
  have hopen : ∀ n, (f n).Lasting := by
    intro n
    induction n with
    | zero => exact hlast
    | succ n ih => exact step_lasting hfits (hserving n) ih halive (whole_rest (hreads n)) (hmore n) (hf n)
  refine ⟨fun n => (hopen n).1,?_⟩
  obtain ⟨N,hN⟩ := answered_at_last hfits hwhole h hf hreads hfair
  refine ⟨N,fun n hn => (hN n hn).resolve_left ?_⟩
  rw [(hopen n).1]
  decide

theorem live_requests_answered_two : ∃ s t,
    exec (step true (Routes.setRoutes Routes.counting {})) { world := 0 } twoRequests = some s ∧
    step true (Routes.setRoutes Routes.counting {}) s (.worker 0) = some t ∧
    AllAnswered (Routes.setRoutes Routes.counting {}) [requestOf helloRequest,requestOf echoRequest] t := by
  obtain ⟨s,t,hs,ht,hstuck,-⟩ := twoRequests_last
  have hlasts : Along (step true (Routes.setRoutes Routes.counting {}))
      (Lasts true (Routes.setRoutes Routes.counting {})) { world := 0 } (twoRequests ++ [.worker 0]) := by
    decide +kernel
  obtain ⟨hfirst,hlast⟩ := along_append.mp hlasts
  have hmore : ∀ n, Lasts true (Routes.setRoutes Routes.counting {}) (lastStates s t n) (lastActs t n)
    | 0 => (hlast s hs).1
    | _ + 1 => trivial
  obtain ⟨-,N,hN⟩ := @live_requests_answered _ _ Routes.counting _ _ _ (lastStates s t) (lastActs t) (by decide +kernel)
    hfirst hs (lastStates_endless ht) (lastActs_reads t) hmore (lastStates_fair hstuck)
  exact ⟨s,t,hs,ht,hN (N + 1) (Nat.le_succ N)⟩

end Routes

end ModernTcp.HttpSession
