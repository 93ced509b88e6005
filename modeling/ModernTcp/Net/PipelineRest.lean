import ModernTcp.Net.HttpPipeline

/-! # The pipeline comes to rest

Without further input the loops of `handle_read` end and the workers run out of tasks: every step
but a read or a close by the reactor takes from the work that is left, and there is such a step
until the reactor waits for the next event and the pool for the next task.
-/
namespace ModernTcp.HttpPipeline
open EpollConnection Execution

variable {k : ℕ}

/-- A step that needs no event. -/
def Act.internal : Act k → Bool
  | .read _ | .drop => false
  | .parse | .dispatch _ | .worker _ _ => true

/-- The steps a worker has left for its task. -/
def Pc.work : Pc → ℕ
  | .waiting => 0
  | .taken _ => 3
  | .handling _ => 2
  | .handled _ _ => 1

namespace State

/-- The reactor is between two reads and the pool has nothing left to do. -/
def AtRest (s : State k) : Prop := s.phase = .idle ∧ s.tasks = [] ∧ ∀ w, s.pc w = .waiting

def phaseWork (s : State k) : ℕ :=
  match s.phase with
  | .idle => 0
  | .dispatching => 1
  | .parsing => 2 + 7 * s.reading.parseMeasure

def poolWork (s : State k) : ℕ := 4 * s.tasks.length + ∑ w, (s.pc w).work

/-- A bound on the steps that are left. -/
def work (s : State k) : ℕ := s.phaseWork + 6 * s.pending.length + s.poolWork

end State

section Steps
variable {workerPool : Bool} {s t : State k}

theorem shutdown_phaseWork (why : CloseReason) : (s.shutdown why).phaseWork ≤ s.phaseWork := by
  have hmeasure : (s.reading.shutdown why).parseMeasure ≤ s.reading.parseMeasure := by
    unfold Reading.shutdown
    split_ifs
    · by_cases hstatus : s.reading.status = .looping
      · simp only [Reading.parseMeasure, Reading.emit, hstatus, if_true, List.length_nil]
        omega
      · simp [Reading.parseMeasure, Reading.emit, hstatus]
    · exact le_rfl
  simp only [State.phaseWork, State.shutdown]
  split <;> omega

theorem goto_work (w : Fin k) (p : Pc) : (s.goto w p).work + (s.pc w).work = s.work + p.work := by
  have hsum := sum_goto Pc.work s w p
  change s.phaseWork + 6 * s.pending.length + (4 * s.tasks.length + ∑ x, ((s.goto w p).pc x).work) + (s.pc w).work =
    s.phaseWork + 6 * s.pending.length + (4 * s.tasks.length + ∑ x, (s.pc x).work) + p.work
  omega

theorem invoked_work (l : List ℕ) : State.work { s with invoked := l } = s.work := rfl

theorem shutdown_work (why : CloseReason) : (s.shutdown why).work ≤ s.work := by
  have hphase := shutdown_phaseWork (s := s) why
  have hpending : (s.shutdown why).pending = s.pending := State.shutdown_pending why
  change (s.shutdown why).phaseWork + 6 * (s.shutdown why).pending.length + s.poolWork ≤ s.work
  rw [hpending]
  simp only [State.work]
  omega

theorem parse_work (hphase : s.phase = .parsing) : s.parse.work < s.work := by
  cases hround : s.reading.parseRound with
  | none =>
    simp [State.parse, hround, State.work, State.phaseWork, hphase, State.pending, State.poolWork]
    omega
  | some r =>
    obtain ⟨-,-,hparsed⟩ := parseRound_parsed hround
    have hmeasure := Reading.parseRound_decreases _ _ hround
    have hpending : r.conn.pendingRequests.length ≤ s.reading.conn.pendingRequests.length + 1 := by
      cases hparsed with
      | refused ho hdead more hone hmore hpending hdepth =>
        rw [hpending, List.length_append]
        omega
      | incomplete ho hlive hstatus hpending hdepth hclose =>
        rw [hpending]
        omega
      | queued ho hlive hstatus req raw hpending hdepth hclose => simp [hpending]
    simp only [State.parse, hround, State.work, State.phaseWork, hphase, State.pending, State.poolWork, List.length_map]
    omega

theorem popped_work {req : SimpleHttpRequest} (hpop : Popped s t req) (hphase : s.phase = .dispatching)
    (htasks : t.tasks.length ≤ s.tasks.length + 1) : t.work < s.work := by
  have hphase' : t.phase = .dispatching := hpop.phase.trans hphase
  simp only [State.work, State.phaseWork, hphase, hphase', State.poolWork, hpop.pc, hpop.pending, List.length_cons]
  omega

theorem dispatch_work (hs : Sound s) (hphase : s.phase = .dispatching) (run : HandlerRun) :
    (s.dispatch workerPool run).work < s.work := by
  have hend : State.work { s with phase := .idle } < s.work := by
    simp only [State.work, State.phaseWork, hphase, State.pending, State.poolWork]
    omega
  cases workerPool with
  | true =>
    rcases dispatch_pool run hs.handler with ⟨-,heq⟩ | ⟨req,hpop,-,htasks,-⟩
    · rw [heq]
      exact hend
    · exact popped_work hpop hphase (by simp [htasks])
  | false =>
    rcases dispatch_inline run hs.handler with ⟨-,heq⟩ | ⟨req,hpop,htasks,-⟩
    · rw [heq]
      exact hend
    · exact popped_work hpop hphase (by simp [htasks])

theorem worker_work {w : Fin k} {run : HandlerRun} (h : s.advanceWorker w run = some t) : t.work < s.work := by
  unfold State.advanceWorker at h
  split at h
  · rename_i hpc
    split at h
    · cases h
    · rename_i task rest htasks
      cases h
      have hsum := sum_goto Pc.work s w (.taken task)
      rw [hpc] at hsum
      change s.phaseWork + 6 * s.pending.length + (4 * rest.length + ∑ x, ((s.goto w (.taken task)).pc x).work) <
        s.phaseWork + 6 * s.pending.length + (4 * s.tasks.length + ∑ x, (s.pc x).work)
      simp only [htasks, List.length_cons]
      simp only [Pc.work] at hsum ⊢
      omega
  · rename_i task hpc
    cases h
    have hcall := goto_work (s := s) w (.handling task)
    have hskip := goto_work (s := s) w .waiting
    rw [hpc] at hcall hskip
    simp only [Pc.work] at hcall hskip
    split_ifs
    · rw [invoked_work]
      omega
    · omega
  · rename_i task hpc
    cases h
    have hgoto := fun u : State k => goto_work (s := u) w (.handled task (run.throws || task.closeAfter))
    split_ifs
    · have hclosed := shutdown_work (s := s) .handler
      have hdone := hgoto (s.shutdown .handler)
      rw [show (s.shutdown .handler).pc w = .handling task from hpc] at hdone
      simp only [Pc.work] at hdone
      omega
    · have hdone := hgoto s
      rw [hpc] at hdone
      simp only [Pc.work] at hdone
      omega
  · rename_i task closes hpc
    cases h
    split_ifs
    · have hclosed := shutdown_work (s := s) .answered
      have hdone := goto_work (s := s.shutdown .answered) w .waiting
      rw [show (s.shutdown .answered).pc w = .handled task closes from hpc] at hdone
      simp only [Pc.work] at hdone
      omega
    · have hdone := goto_work (s := s) w .waiting
      rw [hpc] at hdone
      simp only [Pc.work] at hdone
      omega

theorem step_work {a : Act k} (hs : Sound s) (ha : a.internal = true) (h : step workerPool s a = some t) :
    t.work < s.work := by
  cases a with
  | read chunk => cases ha
  | drop => cases ha
  | parse =>
    simp only [step] at h
    split_ifs at h with hphase
    cases h
    exact parse_work hphase
  | dispatch run =>
    simp only [step] at h
    split_ifs at h with hphase
    cases h
    exact dispatch_work hs hphase run
  | worker w run => exact worker_work h

/-- Without events there are at most as many steps as there is work. -/
theorem exec_work {as : List (Act k)} (hs : Sound s) (ha : ∀ a ∈ as, a.internal = true)
    (h : exec (step workerPool) s as = some t) : as.length + t.work ≤ s.work := by
  induction as generalizing s with
  | nil =>
    cases h
    exact (Nat.zero_add _).le
  | cons a as ih =>
    obtain ⟨u,hu,hrest⟩ := exec_cons_eq_some.mp h
    have hstep := step_work hs (ha a List.mem_cons_self) hu
    have hle := ih (step_sound hs hu) (fun b hb => ha b (List.mem_cons_of_mem a hb)) hrest
    rw [List.length_cons]
    omega

theorem worker_enabled {w : Fin k} (run : HandlerRun) (hbusy : s.pc w ≠ .waiting) :
    (s.advanceWorker w run).isSome = true := by
  unfold State.advanceWorker
  cases hpc : s.pc w with
  | waiting => exact absurd hpc hbusy
  | taken task | handling task | handled task closes => rfl

end Steps

/-- A pool with a worker is at rest, or something goes on without an event. -/
theorem atRest_or_internal (workerPool : Bool) (s : State (k + 1)) :
    s.AtRest ∨ ∃ a : Act (k + 1), a.internal = true ∧ (step workerPool s a).isSome = true := by
  by_cases hbusy : ∃ w, s.pc w ≠ .waiting
  · obtain ⟨w,hw⟩ := hbusy
    exact Or.inr ⟨.worker w {},rfl,worker_enabled {} hw⟩
  have hfree : ∀ w, s.pc w = .waiting := fun w => not_not.mp (fun hw => hbusy ⟨w,hw⟩)
  cases hphase : s.phase with
  | parsing => exact Or.inr ⟨.parse,rfl,by simp [step, hphase]⟩
  | dispatching => exact Or.inr ⟨.dispatch {},rfl,by simp [step, hphase]⟩
  | idle =>
    cases htasks : s.tasks with
    | nil => exact Or.inl ⟨hphase,htasks,hfree⟩
    | cons task rest => exact Or.inr ⟨.worker 0 {},rfl,by simp [step, State.advanceWorker, hfree, htasks]⟩

end ModernTcp.HttpPipeline
