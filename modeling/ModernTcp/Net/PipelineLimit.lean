import ModernTcp.Net.HttpPipeline

/-! # The pipelining limit

`pipeline_depth_` counts `pending_requests_` only: it goes down when a request is submitted to the
pool, not when its handler is done. What bounds the requests of a connection that are parsed and
not finished is the order in which reads and workers come.
-/
namespace ModernTcp.HttpPipeline
open EpollConnection Execution

variable {k : ℕ}

/-- A worker whose handler is still to finish. -/
def Pc.unfinished : Pc → ℕ
  | .taken _ | .handling _ => 1
  | .waiting | .handled _ _ => 0

namespace State

def busy (s : State k) : ℕ := ∑ w, (s.pc w).unfinished

/-- The requests submitted to the pool whose handler has not finished. -/
def inPool (s : State k) : ℕ := s.tasks.length + s.busy

/-- The requests that are parsed and whose handler has not finished. -/
def outstanding (s : State k) : ℕ := s.pending.length + s.inPool

def WithinLimit (s : State k) : Prop := s.running = true → s.outstanding ≤ maxHttpPipeline

/-- The next round of the first loop puts a request into `pending_requests_`. -/
def Queues (s : State k) : Prop :=
  s.phase = .parsing ∧ s.reading.parseRound.isSome = true ∧ outcome s.reading.conn = .queued

instance (s : State k) : Decidable s.Queues := inferInstanceAs (Decidable (_ ∧ _ ∧ _))

end State

/-- A request is queued only when the pool and the counter leave room for it. -/
def RoomLeft (s : State k) : Act k → Prop
  | .parse => s.Queues → s.inPool + s.reading.conn.pipelineDepth < maxHttpPipeline
  | .read _ | .drop | .dispatch _ | .worker _ _ => True

section Steps
variable {s t : State k}

theorem goto_outstanding {w : Fin k} {p : Pc} (hp : p.unfinished ≤ (s.pc w).unfinished) :
    (s.goto w p).outstanding ≤ s.outstanding := by
  have hbusy : (s.goto w p).busy + (s.pc w).unfinished = s.busy + p.unfinished := sum_goto Pc.unfinished s w p
  change s.pending.length + (s.tasks.length + (s.goto w p).busy) ≤ s.pending.length + (s.tasks.length + s.busy)
  omega

theorem outstanding_congr (hreading : t.reading = s.reading) (htasks : t.tasks = s.tasks) (hpc : t.pc = s.pc) :
    t.outstanding = s.outstanding := by
  simp only [State.outstanding, State.inPool, State.busy, State.pending, hreading, htasks, hpc]

theorem State.WithinLimit.of_le (hs : s.WithinLimit) (hrun : t.running = true → s.running = true)
    (hle : t.outstanding ≤ s.outstanding) : t.WithinLimit :=
  fun h => hle.trans (hs (hrun h))

theorem shutdown_withinLimit (why : CloseReason) : (s.shutdown why).WithinLimit := by
  intro hrun
  simp at hrun

theorem worker_withinLimit {w : Fin k} {run : HandlerRun} (hs : s.WithinLimit) (h : s.advanceWorker w run = some t) :
    t.WithinLimit := by
  unfold State.advanceWorker at h
  split at h
  · rename_i hpc
    split at h
    · cases h
    · rename_i task rest htasks
      cases h
      have hbusy : (s.goto w (.taken task)).busy + (s.pc w).unfinished = s.busy + 1 :=
        sum_goto Pc.unfinished s w (.taken task)
      rw [hpc] at hbusy
      refine hs.of_le id ?_
      change s.pending.length + (rest.length + (s.goto w (.taken task)).busy) ≤
        s.pending.length + (s.tasks.length + s.busy)
      simp only [htasks, List.length_cons]
      simp only [Pc.unfinished] at hbusy
      omega
  · rename_i task hpc
    cases h
    split_ifs
    · have hle : (s.goto w (.handling task)).outstanding ≤ s.outstanding :=
        goto_outstanding (by rw [hpc]; exact le_rfl)
      exact hs.of_le (fun hrun => hrun) ((outstanding_congr rfl rfl rfl).trans_le hle)
    · exact hs.of_le (fun hrun => hrun) (goto_outstanding (by rw [hpc]; exact Nat.zero_le _))
  · cases h
    split_ifs
    · exact (shutdown_withinLimit .handler).of_le (fun hrun => hrun) (goto_outstanding (Nat.zero_le _))
    · exact hs.of_le (fun hrun => hrun) (goto_outstanding (Nat.zero_le _))
  · cases h
    split_ifs
    · exact (shutdown_withinLimit .answered).of_le (fun hrun => hrun) (goto_outstanding (Nat.zero_le _))
    · exact hs.of_le (fun hrun => hrun) (goto_outstanding (Nat.zero_le _))

theorem read_withinLimit {chunk : List UInt8} (hs : s.WithinLimit) (h : s.read chunk = some t) : t.WithinLimit := by
  unfold State.read at h
  dsimp only at h
  split_ifs at h
  · cases h
    exact hs
  · cases h
    exact shutdown_withinLimit _
  · cases h
    obtain ⟨hrun,hpending,-⟩ := protocolDetected_fields
      { s.reading.conn with inputBuffer := s.reading.conn.inputBuffer ++ chunk }
    refine hs.of_le ?_ (le_of_eq ?_)
    · simp [State.running, hrun]
    · simp [State.outstanding, State.inPool, State.busy, State.pending, hpending]

theorem dispatch_withinLimit (run : HandlerRun) (hsound : Sound s) (hs : s.WithinLimit) :
    (s.dispatch true run).WithinLimit := by
  rcases dispatch_pool run hsound.handler with ⟨-,heq⟩ | ⟨req,hpop,-,htasks,-⟩
  · rw [heq]
    exact hs
  · refine hs.of_le (fun _ => hpop.running) (le_of_eq ?_)
    simp only [State.outstanding, State.inPool, State.busy, htasks, hpop.pc, hpop.pending, List.length_append,
      List.length_cons, List.length_nil]
    omega

theorem parse_withinLimit (hsound : Sound s) (hs : s.WithinLimit) (hphase : s.phase = .parsing) :
    s.parse.WithinLimit ↔ RoomLeft s .parse := by
  cases hround : s.reading.parseRound with
  | none =>
    have hparse : s.parse = { s with phase := .dispatching } := by simp [State.parse, hround]
    have hquiet : ¬ s.Queues := by simp [State.Queues, hround]
    rw [hparse]
    exact ⟨fun _ hq => absurd hq hquiet,fun _ => hs⟩
  | some r =>
    have hparse : s.parse = { s with reading := r } := by simp [State.parse, hround]
    obtain ⟨hrun,-,hparsed⟩ := parseRound_parsed hround
    rw [hparse]
    cases hparsed with
    | refused ho hdead more hone hmore hpending hdepth =>
      have hquiet : ¬ s.Queues := by simp [State.Queues, ho]
      refine ⟨fun _ hq => absurd hq hquiet,fun _ hlive => ?_⟩
      rw [State.running, hdead] at hlive
      cases hlive
    | incomplete ho hlive hstatus hpending hdepth hclose =>
      have hquiet : ¬ s.Queues := by simp [State.Queues, ho]
      refine ⟨fun _ hq => absurd hq hquiet,fun _ => hs.of_le (fun _ => hrun) (le_of_eq ?_)⟩
      simp [State.outstanding, State.inPool, State.busy, State.pending, hpending]
    | queued ho hlive hstatus req raw hpending hdepth hclose =>
      have hqueues : s.Queues := ⟨hphase,by simp [hround],ho⟩
      have hmore : State.outstanding { s with reading := r } = s.inPool + s.reading.conn.pipelineDepth + 1 := by
        simp [State.outstanding, State.inPool, State.busy, State.pending, hpending, hsound.depth]
        omega
      constructor
      · intro hwithin _
        have hle := hwithin hlive
        omega
      · intro hroom _
        have hlt := hroom hqueues
        omega

theorem step_withinLimit {a : Act k} (hsound : Sound s) (hs : s.WithinLimit) (h : step true s a = some t) :
    t.WithinLimit ↔ RoomLeft s a := by
  cases a with
  | read chunk =>
    simp only [step] at h
    split_ifs at h
    exact iff_of_true (read_withinLimit hs h) trivial
  | drop =>
    simp only [step] at h
    split_ifs at h
    cases h
    exact iff_of_true (shutdown_withinLimit _) trivial
  | parse =>
    simp only [step] at h
    split_ifs at h with hphase
    cases h
    exact parse_withinLimit hsound hs hphase
  | dispatch run =>
    simp only [step] at h
    split_ifs at h
    cases h
    exact iff_of_true (dispatch_withinLimit run hsound hs) trivial
  | worker w run => exact iff_of_true (worker_withinLimit hs h) trivial

theorem roomLeft_of_stuck {a : Act k} (h : step true s a = none) : RoomLeft s a := by
  cases a with
  | parse =>
    rintro ⟨hphase,-⟩
    simp [step, hphase] at h
  | read chunk | drop | dispatch run | worker w run => trivial

end Steps

/-- The limit holds along a run exactly when every request is queued with room left for it. -/
theorem pipeline_limit_iff (as : List (Act k)) :
    (∀ s, Visits (step true) ({} : State k) as s → s.WithinLimit) ↔ Along (step true) RoomLeft {} as := by
  refine visits_iff_along (I := Sound) (fun _ _ _ hs h => step_sound hs h)
    (fun _ _ _ hsound hs h => step_withinLimit hsound hs h) (fun _ _ _ h => roomLeft_of_stuck h) initial_sound ?_
  intro _
  simp [State.outstanding, State.inPool, State.busy, State.pending, Pc.unfinished]

/-- `handle_read` for a chunk with one request in it. -/
def readOne (r : List UInt8) : List (Act k) := [.read r,.parse,.parse,.dispatch {},.dispatch {}]

/-- Between two reads. -/
structure State.Between (s : State k) : Prop where
  phase : s.phase = .idle
  boundary : s.reading.conn.AtBoundary
  handler : s.reading.conn.httpHandler = true

theorem readOne_adds {s : State k} (hs : s.Between) {r : List UInt8} (hr : HttpParser.Accepted r)
    (hkeep : (HttpParser.requestOf r).keepAlive = true) (hsel : s.reading.conn.SelectsHttp r) :
    ∃ t, exec (step true) s (readOne r) = some t ∧ t.Between ∧ t.reading.conn.protocol = some .http ∧
      t.tasks.length = s.tasks.length + 1 := by
  let reading : Reading := { conn := { s.reading.conn with inputBuffer := r, protocol := some .http } }
  have hread : step true s (.read r) = some { s with reading, phase := .parsing } := by
    simp only [step, hs.phase, if_true, State.read, protocolDetected_http hs.boundary.input hr.ne_nil hsel]
    simp [State.running, hs.boundary.running, hr.ne_nil, reading]
  have hround : reading.parseRound = some (reading.queued [r] []) :=
    Reading.parseRound_request (s := reading) ⟨rfl,hs.boundary.running,hs.boundary.parser⟩ hr hkeep
      (List.append_nil r).symm (by simp [reading, hs.boundary.depth, maxHttpPipeline])
  have hparse : step true { s with reading, phase := .parsing } .parse =
      some { s with reading := reading.queued [r] [], phase := .parsing } := by
    simp [step, State.parse, hround]
  have hparsed : step true { s with reading := reading.queued [r] [], phase := .parsing } .parse =
      some { s with reading := reading.queued [r] [], phase := .dispatching } := by
    simp [step, State.parse, Reading.parseRound, Reading.queued]
  let popped : Reading := (reading.queued [r] []).popRequest
  let task : Task := ⟨s.popped.length,false⟩
  let submitting : State k := { s with
    reading := popped.emit (.submit (HttpParser.requestOf r) r false)
    phase := .dispatching
    popped := s.popped ++ [HttpParser.requestOf r]
    tasks := s.tasks ++ [task] }
  have hdispatch : step true { s with reading := reading.queued [r] [], phase := .dispatching } (.dispatch {}) =
      some submitting := by
    simp [step, State.dispatch, State.pending, Reading.queued, reading, hs.boundary.pending, Reading.dispatchRound,
      hs.boundary.running, Reading.dispatch, Reading.popRequest, hs.handler, Reading.emit, hkeep, submitted, handledIn,
      submitting, popped, task]
  have hdispatched : step true submitting (.dispatch {}) = some { submitting with phase := .idle } := by
    simp [step, State.dispatch, State.pending, submitting, popped, Reading.queued, reading, hs.boundary.pending,
      Reading.popRequest, Reading.emit]
  refine ⟨{ submitting with phase := .idle },?_,⟨rfl,?_,?_⟩,?_,?_⟩
  · simp only [readOne, exec, hread, hparse, hparsed, hdispatch, hdispatched, Option.bind_some]
  · refine ⟨hs.boundary.running,rfl,hs.boundary.parser,?_,?_⟩
    · simp [submitting, popped, Reading.popRequest, Reading.emit, Reading.queued, reading, hs.boundary.pending]
    · simp [submitting, popped, Reading.popRequest, Reading.emit, Reading.queued, reading, hs.boundary.depth]
  · exact hs.handler
  · rfl
  · simp [submitting]

theorem readOne_repeated {r : List UInt8} (hr : HttpParser.Accepted r)
    (hkeep : (HttpParser.requestOf r).keepAlive = true) (hhttp : looksLikeHttp r = true) (n : ℕ) :
    ∃ t : State k, exec (step true) {} (List.replicate n (readOne r)).flatten = some t ∧ t.Between ∧
      t.reading.conn.SelectsHttp r ∧ t.tasks.length = n := by
  induction n with
  | zero => exact ⟨{},rfl,⟨rfl,new_atBoundary,rfl⟩,Or.inr ⟨rfl,hhttp⟩,rfl⟩
  | succ n ih =>
    obtain ⟨s,hs,hbetween,hsel,hlen⟩ := ih
    obtain ⟨t,ht,hbetween',hproto,hlen'⟩ := readOne_adds hbetween hr hkeep hsel
    refine ⟨t,?_,hbetween',Or.inl hproto,by omega⟩
    have hrun := exec_trans hs ht
    rw [List.replicate_succ', List.flatten_append]
    simpa using hrun

/-- The worker rests while one request is read after the other. -/
theorem pipeline_limit_exceeded : ∃ (as : List (Act 1)) (s : State 1), exec (step true) {} as = some s ∧
    s.running = true ∧ maxHttpPipeline < s.outstanding := by
  obtain ⟨s,hs,hbetween,-,hlen⟩ := readOne_repeated (k := 1) (r := bytes "GET / HTTP/1.1\r\n\r\n") (by decide) (by decide)
    (by decide) (maxHttpPipeline + 1)
  refine ⟨_,s,hs,hbetween.boundary.running,?_⟩
  simp only [State.outstanding, State.inPool, hlen]
  omega

end ModernTcp.HttpPipeline
