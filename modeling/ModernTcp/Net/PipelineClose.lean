import ModernTcp.Net.PipelineRest

/-! # Requests around one that closes

Without a pool `should_close` is one flag for the whole read, and the connection is closed when
the queue is empty: what was parsed behind the closing request is handled first. With a pool each task
closes for itself, in a race with the tasks before and behind it. The requests before a closing
one are handled and those behind it are not, if the tasks keep out of each other's way.
-/
namespace ModernTcp.HttpPipeline
open EpollConnection Execution

variable {k : ℕ}

/-- The request at position `i` is known, and not keep-alive. -/
def Closing (rs : List SimpleHttpRequest) (i : ℕ) : Prop := ∃ req, rs[i]? = some req ∧ req.keepAlive = false

def FirstClosing (rs : List SimpleHttpRequest) (i : ℕ) : Prop := Closing rs i ∧ ∀ j < i, ¬ Closing rs j

/-- The task of a worker, finished or not with the handler. -/
def Pc.held : Pc → Option Task
  | .waiting => none
  | .taken task | .handling task | .handled task _ => some task

namespace State

/-- A request is parsed, and its handler is neither called nor given up. -/
def Waits (s : State k) : Prop := s.pending ≠ [] ∨ s.tasks ≠ [] ∨ ∃ w task, s.pc w = .taken task

/-- Some worker has a closing request in hand that comes before the one at position `i`. -/
def CloserAhead (s : State k) (i : ℕ) : Prop :=
  ∃ w task, (s.pc w).held = some task ∧ task.closeAfter = true ∧ task.index < i

/-- Some worker has taken a request before position `i`, and not looked at `running_` yet. -/
def TakenAhead (s : State k) (i : ℕ) : Prop := ∃ w task, s.pc w = .taken task ∧ task.index < i

end State

/-- What a worker does with its task comes in time: it looks at `running_` when no closing request
before its own is in hand, closes for a closing request when the ones before it are all under way,
and closes for another reason only when nothing waits. -/
def InTurn (s : State k) (run : HandlerRun) : Pc → Prop
  | .waiting => True
  | .taken task => s.running = true → ¬ s.CloserAhead task.index
  | .handling _ => run.closes = true → ¬ s.Waits
  | .handled task closes =>
    closes = true → if task.closeAfter then ¬ s.TakenAhead task.index else ¬ s.Waits

/-- Nothing is parsed behind a closing request on the IO thread, the workers take turns, and a close
that has nothing to do with a request comes when nothing waits. -/
def Orderly (workerPool : Bool) (s : State k) : Act k → Prop
  | .read chunk => chunk = [] → ¬ s.Waits
  | .drop => ¬ s.Waits
  | .parse => s.reading.parseRound.isSome = true →
    (outcome s.reading.conn = .refused → ¬ s.Waits) ∧
      (outcome s.reading.conn = .queued → workerPool = false → s.reading.shouldClose = false)
  | .dispatch run => workerPool = false → run.closes = true → s.pending.tail = []
  | .worker w run => InTurn s run (s.pc w)

section Decidable
variable (s : State k)

def Pc.isTaken : Pc → Bool
  | .taken _ => true
  | .waiting | .handling _ | .handled _ _ => false

instance : Decidable s.Waits :=
  decidable_of_iff (s.pending ≠ [] ∨ s.tasks ≠ [] ∨ ∃ w, (s.pc w).isTaken = true) (by
    refine or_congr_right (or_congr_right (exists_congr fun w => ?_))
    cases s.pc w <;> simp [Pc.isTaken])

instance (i : ℕ) : Decidable (s.CloserAhead i) :=
  decidable_of_iff (∃ w, ((s.pc w).held.any fun task => task.closeAfter && decide (task.index < i)) = true) (by
    refine exists_congr fun w => ?_
    cases (s.pc w).held <;> simp)

instance (i : ℕ) : Decidable (s.TakenAhead i) :=
  decidable_of_iff (∃ w, (s.pc w).isTaken = true ∧ ((s.pc w).held.any fun task => decide (task.index < i)) = true) (by
    refine exists_congr fun w => ?_
    cases s.pc w <;> simp [Pc.isTaken, Pc.held])

instance (run : HandlerRun) : ∀ p, Decidable (InTurn s run p)
  | .waiting => inferInstanceAs (Decidable True)
  | .taken _ => inferInstanceAs (Decidable (_ → ¬ _))
  | .handling _ => inferInstanceAs (Decidable (_ → ¬ _))
  | .handled task closes =>
    inferInstanceAs (Decidable (closes = true → if task.closeAfter then ¬ s.TakenAhead task.index else ¬ s.Waits))

instance (workerPool : Bool) : ∀ a, Decidable (Orderly workerPool s a)
  | .read _ => inferInstanceAs (Decidable (_ → ¬ _))
  | .drop => inferInstanceAs (Decidable (¬ _))
  | .parse => inferInstanceAs (Decidable (_ → (_ → ¬ _) ∧ (_ → _ → _)))
  | .dispatch _ => inferInstanceAs (Decidable (_ → _ → _))
  | .worker w run => inferInstanceAs (Decidable (InTurn s run (s.pc w)))

end Decidable

/-- A task that is queued or in a worker's hands. -/
def State.Unfinished (s : State k) (task : Task) : Prop := task ∈ s.tasks ∨ ∃ w, (s.pc w).held = some task

/-- Tasks stand for popped requests, in their order; what a worker holds is older than the queue. -/
structure Line (workerPool : Bool) (s : State k) : Prop where
  named : ∀ task, s.Unfinished task → ∃ req, s.popped[task.index]? = some req ∧ task.closeAfter = !req.keepAlive
  fifo : s.tasks.Pairwise (fun a b => a.index < b.index)
  ahead : ∀ w task, (s.pc w).held = some task → ∀ q ∈ s.tasks, task.index < q.index
  closes : ∀ w task closes, s.pc w = .handled task closes → task.closeAfter = true → closes = true
  called : ∀ w task, (s.pc w).held = some task → task.index ∈ s.invoked ∨ s.pc w = .taken task
  bounded : ∀ j ∈ s.invoked, j < s.popped.length
  inline : workerPool = false → s.tasks = [] ∧ ∀ w, s.pc w = .waiting

namespace Line
variable {workerPool : Bool} {s t : State k} {w : Fin k} {p : Pc} {task : Task}

theorem initial : Line workerPool ({} : State k) where
  named task h := by
    rcases h with h | ⟨w,h⟩
    · cases h
    · cases h
  fifo := List.Pairwise.nil
  ahead w task h := by cases h
  closes w task closes h := by cases h
  called w task h := by cases h
  bounded j h := by cases h
  inline _ := ⟨rfl,fun _ => rfl⟩

theorem congr (hs : Line workerPool s) (hpopped : t.popped = s.popped) (htasks : t.tasks = s.tasks) (hpc : t.pc = s.pc)
    (hinvoked : t.invoked = s.invoked) : Line workerPool t := by
  obtain ⟨reading,phase,popped,tasks,pc,invoked⟩ := t
  subst hpopped htasks hpc hinvoked
  exact ⟨hs.named,hs.fifo,hs.ahead,hs.closes,hs.called,hs.bounded,hs.inline⟩

theorem index_lt (hs : Line workerPool s) (h : s.Unfinished task) : task.index < s.popped.length := by
  obtain ⟨req,hreq,-⟩ := hs.named task h
  exact (List.getElem?_eq_some_iff.mp hreq).1

/-- A worker that has looked at `running_` has called the handler. -/
theorem invoked_of_held (hs : Line workerPool s) (hheld : (s.pc w).held = some task) (hpc : s.pc w ≠ .taken task) :
    task.index ∈ s.invoked :=
  (hs.called w task hheld).resolve_right hpc

theorem pc_goto (s : State k) (w : Fin k) (p : Pc) (x : Fin k) :
    x = w ∧ (s.goto w p).pc x = p ∨ x ≠ w ∧ (s.goto w p).pc x = s.pc x := by
  by_cases hx : x = w
  · left
    exact ⟨hx,by simp [State.goto, hx]⟩
  · right
    exact ⟨hx,by simp [State.goto, Function.update_of_ne hx]⟩

theorem goto (hs : Line workerPool s) (hp : ∀ q, p.held = some q → (s.pc w).held = some q ∧ q.index ∈ s.invoked)
    (hcloses : ∀ q closes, p = .handled q closes → q.closeAfter = true → closes = true)
    (hbusy : s.pc w ≠ .waiting) : Line workerPool (s.goto w p) := by
  have hheld : ∀ x q, ((s.goto w p).pc x).held = some q → (s.pc x).held = some q := by
    intro x q hq
    rcases pc_goto s w p x with ⟨rfl,hx⟩ | ⟨-,hx⟩
    · rw [hx] at hq
      exact (hp q hq).1
    · rwa [hx] at hq
  refine ⟨?_,hs.fifo,?_,?_,?_,hs.bounded,?_⟩
  · intro q hq
    refine hs.named q ?_
    rcases hq with hq | ⟨x,hq⟩
    · exact Or.inl hq
    · exact Or.inr ⟨x,hheld x q hq⟩
  · intro x q hq
    exact hs.ahead x q (hheld x q hq)
  · intro x q closes hq
    rcases pc_goto s w p x with ⟨rfl,hx⟩ | ⟨-,hx⟩
    · exact hcloses q closes (hx.symm.trans hq)
    · exact hs.closes x q closes (hx.symm.trans hq)
  · intro x q hq
    rcases pc_goto s w p x with ⟨rfl,hx⟩ | ⟨-,hx⟩
    · rw [hx] at hq
      exact Or.inl (hp q hq).2
    · rw [hx] at hq ⊢
      exact hs.called x q hq
  · intro hpool
    exact absurd ((hs.inline hpool).2 w) hbusy

theorem invoke {i : ℕ} (hs : Line workerPool s) (hi : i < s.popped.length) :
    Line workerPool { s with invoked := s.invoked ++ [i] } := by
  refine ⟨hs.named,hs.fifo,hs.ahead,hs.closes,?_,?_,hs.inline⟩
  · intro x q hq
    exact (hs.called x q hq).imp_left (List.mem_append_left _)
  · intro j hj
    rcases List.mem_append.mp hj with hj | hj
    · exact hs.bounded j hj
    · rw [List.mem_singleton.mp hj]
      exact hi

theorem take {rest : List Task} (hs : Line workerPool s) (htasks : s.tasks = task :: rest) :
    Line workerPool { s.goto w (.taken task) with tasks := rest } := by
  have hfifo := hs.fifo
  rw [htasks, List.pairwise_cons] at hfifo
  have hmem : task ∈ s.tasks := by rw [htasks]; exact List.mem_cons_self
  have hrest : ∀ q ∈ rest, q ∈ s.tasks := by
    intro q hq
    rw [htasks]
    exact List.mem_cons_of_mem task hq
  refine ⟨?_,hfifo.2,?_,?_,?_,hs.bounded,?_⟩
  · intro q hq
    refine hs.named q ?_
    rcases hq with hq | ⟨x,hq⟩
    · exact Or.inl (hrest q hq)
    · rcases pc_goto s w (.taken task) x with ⟨rfl,hx⟩ | ⟨-,hx⟩
      · dsimp only at hq
        rw [hx] at hq
        cases hq
        exact Or.inl hmem
      · dsimp only at hq
        rw [hx] at hq
        exact Or.inr ⟨x,hq⟩
  · intro x q hq r hr
    rcases pc_goto s w (.taken task) x with ⟨rfl,hx⟩ | ⟨-,hx⟩
    · dsimp only at hq
      rw [hx] at hq
      cases hq
      exact hfifo.1 r hr
    · dsimp only at hq
      rw [hx] at hq
      exact hs.ahead x q hq r (hrest r hr)
  · intro x q closes hq
    dsimp only at hq
    rcases pc_goto s w (.taken task) x with ⟨rfl,hx⟩ | ⟨-,hx⟩
    · rw [hx] at hq
      cases hq
    · exact hs.closes x q closes (hx.symm.trans hq)
  · intro x q hq
    dsimp only at hq ⊢
    rcases pc_goto s w (.taken task) x with ⟨rfl,hx⟩ | ⟨-,hx⟩
    · rw [hx] at hq
      cases hq
      exact Or.inr hx
    · rw [hx] at hq ⊢
      exact hs.called x q hq
  · intro hpool
    rw [(hs.inline hpool).1] at htasks
    cases htasks

/-- `handle_read` submits the next request. -/
theorem submit {req : SimpleHttpRequest} (hs : Line true s) (hpopped : t.popped = s.popped ++ [req])
    (htasks : t.tasks = s.tasks ++ [⟨s.popped.length,!req.keepAlive⟩]) (hpc : t.pc = s.pc)
    (hinvoked : t.invoked = s.invoked) : Line true t := by
  have hold : ∀ q, s.Unfinished q → ∃ r, t.popped[q.index]? = some r ∧ q.closeAfter = !r.keepAlive := by
    intro q hq
    rw [hpopped, List.getElem?_append_left (hs.index_lt hq)]
    exact hs.named q hq
  refine ⟨?_,?_,?_,?_,?_,?_,fun h => by cases h⟩
  · intro q hq
    rw [State.Unfinished, htasks, hpc] at hq
    rcases hq with hq | hq
    · rcases List.mem_append.mp hq with hq | hq
      · exact hold q (Or.inl hq)
      · rw [List.mem_singleton.mp hq]
        exact ⟨req,by simp [hpopped],rfl⟩
    · exact hold q (Or.inr hq)
  · rw [htasks, List.pairwise_append]
    refine ⟨hs.fifo,List.pairwise_singleton _ _,?_⟩
    intro q hq r hr
    rw [List.mem_singleton.mp hr]
    exact hs.index_lt (Or.inl hq)
  · intro x q hq r hr
    rw [hpc] at hq
    rw [htasks] at hr
    rcases List.mem_append.mp hr with hr | hr
    · exact hs.ahead x q hq r hr
    · rw [List.mem_singleton.mp hr]
      exact hs.index_lt (Or.inr ⟨x,hq⟩)
  · rw [hpc]
    exact hs.closes
  · rw [hpc, hinvoked]
    exact hs.called
  · intro j hj
    rw [hinvoked] at hj
    have hlt := hs.bounded j hj
    rw [hpopped, List.length_append]
    omega

theorem handle {req : SimpleHttpRequest} (hs : Line false s) (hpopped : t.popped = s.popped ++ [req])
    (htasks : t.tasks = s.tasks) (hpc : t.pc = s.pc) (hinvoked : t.invoked = s.invoked ++ [s.popped.length]) :
    Line false t := by
  obtain ⟨hnil,hfree⟩ := hs.inline rfl
  have hidle : ∀ x q, (t.pc x).held ≠ some q := by
    intro x q hq
    rw [hpc, hfree x] at hq
    cases hq
  refine ⟨?_,?_,?_,?_,?_,?_,?_⟩
  · rintro q (hq | ⟨x,hq⟩)
    · rw [htasks, hnil] at hq
      cases hq
    · exact absurd hq (hidle x q)
  · rw [htasks]
    exact hs.fifo
  · intro x q hq
    exact absurd hq (hidle x q)
  · rw [hpc]
    exact hs.closes
  · intro x q hq
    exact absurd hq (hidle x q)
  · intro j hj
    rw [hinvoked] at hj
    rw [hpopped, List.length_append, List.length_singleton]
    rcases List.mem_append.mp hj with hj | hj
    · exact Nat.lt_succ_of_lt (hs.bounded j hj)
    · rw [List.mem_singleton.mp hj]
      exact Nat.lt_succ_self _
  · rw [htasks, hpc]
    exact hs.inline

end Line

/-- As long as the connection is alive, a popped request is handled or waits, and a closing one is not
finished; afterwards every request is handled or comes behind a closing one. -/
structure Served (workerPool : Bool) (s : State k) : Prop where
  sound : Sound s
  line : Line workerPool s
  nothingAfter : ∀ j ∈ s.invoked, ∀ i < j, ¬ Closing s.popped i
  lastCloses : s.running = true → workerPool = false → ∀ l req rest, s.pending = l ++ req :: rest →
    req.keepAlive = false → rest = [] ∧ s.reading.shouldClose = true
  covered : s.running = true → ∀ j < s.popped.length,
    j ∈ s.invoked ∨ (∃ q ∈ s.tasks, q.index = j) ∨ ∃ w q, s.pc w = .taken q ∧ q.index = j
  closers : s.running = true → ∀ i, Closing s.popped i → ∃ q, s.Unfinished q ∧ q.index = i
  after : s.running = false → ∀ j < s.requests.length, j ∈ s.invoked ∨ ∃ i < j, Closing s.requests i

theorem closing_append {rs : List SimpleHttpRequest} (qs : List SimpleHttpRequest) {i : ℕ} (hi : i < rs.length) :
    Closing (rs ++ qs) i ↔ Closing rs i := by
  simp only [Closing, List.getElem?_append_left hi]

theorem Closing.lt {rs : List SimpleHttpRequest} {i : ℕ} (h : Closing rs i) : i < rs.length := by
  obtain ⟨req,hreq,-⟩ := h
  exact (List.getElem?_eq_some_iff.mp hreq).1

namespace Served
variable {workerPool : Bool} {s t : State k} {w : Fin k}

theorem of_dead (hsound : Sound t) (hline : Line workerPool t)
    (hnothing : ∀ j ∈ t.invoked, ∀ i < j, ¬ Closing t.popped i) (hdead : t.running = false)
    (hafter : ∀ j < t.requests.length, j ∈ t.invoked ∨ ∃ i < j, Closing t.requests i) : Served workerPool t where
  sound := hsound
  line := hline
  nothingAfter := hnothing
  lastCloses hrun := by
    rw [hdead] at hrun
    cases hrun
  covered hrun := by
    rw [hdead] at hrun
    cases hrun
  closers hrun := by
    rw [hdead] at hrun
    cases hrun
  after _ := hafter

theorem all_invoked (hs : Served workerPool s) (hrun : s.running = true) (hquiet : ¬ s.Waits) :
    ∀ j < s.requests.length, j ∈ s.invoked := by
  simp only [State.Waits, not_or, ne_eq, not_not, not_exists] at hquiet
  obtain ⟨hpending,htasks,htaken⟩ := hquiet
  intro j hj
  rw [State.requests, hpending, List.append_nil] at hj
  rcases hs.covered hrun j hj with hinvoked | ⟨q,hq,-⟩ | ⟨w,q,hq,-⟩
  · exact hinvoked
  · rw [htasks] at hq
    cases hq
  · exact absurd hq (htaken w q)

theorem close (hs : Served workerPool s) (why : CloseReason)
    (hafter : s.running = true → ∀ j < s.requests.length, j ∈ s.invoked ∨ ∃ i < j, Closing s.requests i) :
    Served workerPool (s.shutdown why) := by
  have hrequests : (s.shutdown why).requests = s.requests := by
    rw [State.requests, State.shutdown_pending]
    rfl
  refine of_dead (hs.sound.shutdown why) (hs.line.congr rfl rfl rfl rfl) hs.nothingAfter (by simp) ?_
  rw [hrequests]
  cases hrun : s.running with
  | true => exact hafter hrun
  | false => exact hs.after hrun

theorem close_quiet (hs : Served workerPool s) (why : CloseReason) (hquiet : ¬ s.Waits) :
    Served workerPool (s.shutdown why) :=
  hs.close why (fun hrun j hj => Or.inl (hs.all_invoked hrun hquiet j hj))

theorem initial : Served workerPool ({} : State k) where
  sound := initial_sound
  line := Line.initial
  nothingAfter j hj := by cases hj
  lastCloses _ _ l req rest hpending := by simp [State.pending] at hpending
  covered _ j hj := by cases hj
  closers _ i hi := by cases hi.lt
  after hdead := by cases hdead

theorem read {chunk : List UInt8} (hs : Served workerPool s) (hphase : s.phase = .idle)
    (horderly : chunk = [] → ¬ s.Waits) (h : s.read chunk = some t) : Served workerPool t := by
  have hsound := hs.sound.read h
  unfold State.read at h
  dsimp only at h
  split_ifs at h with hdead hnil
  · cases h
    exact hs
  · cases h
    exact hs.close_quiet _ (horderly hnil)
  · cases h
    have hrun : s.running = true := by simpa using hdead
    obtain ⟨hrun',hpending,-⟩ := protocolDetected_fields
      { s.reading.conn with inputBuffer := s.reading.conn.inputBuffer ++ chunk }
    refine ⟨hsound,hs.line.congr rfl rfl rfl rfl,hs.nothingAfter,?_,fun _ => hs.covered hrun,fun _ => hs.closers hrun,?_⟩
    · intro _ _ l req rest hl
      have hempty := hs.sound.idle hphase hrun
      simp only [State.pending, hpending] at hl hempty
      rw [hempty] at hl
      simp at hl
    · intro hdead'
      rw [State.running, hrun'] at hdead'
      exact absurd hdead' hdead

theorem queue {r : Reading} {req : SimpleHttpRequest} (hs : Served workerPool s)
    (hsound : Sound { s with reading := r }) (hrun : s.running = true) (hlive : r.conn.running = true)
    (hpending : r.conn.pendingRequests.map Prod.fst = s.pending ++ [req])
    (hclose : r.shouldClose = (s.reading.shouldClose || !req.keepAlive))
    (horderly : workerPool = false → s.reading.shouldClose = false) : Served workerPool { s with reading := r } := by
  refine ⟨hsound,hs.line.congr rfl rfl rfl rfl,hs.nothingAfter,?_,fun _ => hs.covered hrun,fun _ => hs.closers hrun,?_⟩
  · intro _ hinline l q rest hl hq
    have hl' : s.pending ++ [req] = l ++ q :: rest := hpending.symm.trans hl
    have hold := hs.lastCloses hrun hinline
    rcases List.eq_nil_or_concat rest with rfl | ⟨rest,x,rfl⟩
    · obtain ⟨-,hlast⟩ := List.append_inj' hl' rfl
      cases hlast
      exact ⟨rfl,by simp [hclose, hq]⟩
    · -- a request with another behind it was there before
      have hsplit : s.pending = l ++ q :: rest := by
        have hconcat : s.pending ++ [req] = (l ++ q :: rest) ++ [x] := by simpa using hl'
        exact (List.append_inj' hconcat rfl).1
      rw [horderly hinline] at hold
      cases (hold l q rest hsplit hq).2
  · intro hdead
    rw [State.running, hlive] at hdead
    cases hdead

theorem parse (hs : Served workerPool s) (hphase : s.phase = .parsing) (horderly : Orderly workerPool s .parse) :
    Served workerPool s.parse := by
  have hsound := hs.sound.parse hphase
  unfold State.parse at hsound ⊢
  split at hsound
  · rename_i r hround
    obtain ⟨hrefused,hqueued⟩ := horderly (by rw [hround]; rfl)
    obtain ⟨hrun,-,hparsed⟩ := parseRound_parsed hround
    cases hparsed with
    | refused ho hdead more hone hmore hpending hdepth =>
      have hquiet := hrefused ho
      have hnil : s.pending = [] := not_not.mp (fun hne => hquiet (Or.inl hne))
      -- with an empty queue it is not the depth that the parser refuses
      have hsame : r.conn.pendingRequests = s.reading.conn.pendingRequests := by
        have hmore' : more = [] := by
          by_contra hne
          have hle := hmore hne
          rw [hs.sound.depth, hnil] at hle
          exact absurd hle (by decide)
        rw [hpending, hmore', List.append_nil]
      refine of_dead hsound (hs.line.congr rfl rfl rfl rfl) hs.nothingAfter hdead ?_
      intro j hj
      left
      refine hs.all_invoked hrun hquiet j ?_
      simpa [State.requests, State.pending, hsame] using hj
    | incomplete ho hlive hstatus hpending hdepth hclose =>
      refine ⟨hsound,hs.line.congr rfl rfl rfl rfl,hs.nothingAfter,?_,fun _ => hs.covered hrun,
        fun _ => hs.closers hrun,?_⟩
      · intro _ hinline
        have hold := hs.lastCloses hrun hinline
        simpa only [State.pending, hpending, hclose] using hold
      · intro hdead
        rw [State.running, hlive] at hdead
        cases hdead
    | queued ho hlive hstatus req raw hpending hdepth hclose =>
      exact hs.queue hsound hrun hlive (by simp [State.pending, hpending]) hclose (hqueued ho)
  · exact ⟨hsound,hs.line.congr rfl rfl rfl rfl,hs.nothingAfter,hs.lastCloses,hs.covered,hs.closers,hs.after⟩

theorem nothingAfter_popped {req : SimpleHttpRequest} (hs : Served workerPool s) {j : ℕ} (hj : j ∈ s.invoked) :
    ∀ i < j, ¬ Closing (s.popped ++ [req]) i := by
  intro i hi
  rw [closing_append [req] (hi.trans (hs.line.bounded j hj))]
  exact hs.nothingAfter j hj i hi

theorem closing_popped {rs : List SimpleHttpRequest} {req : SimpleHttpRequest} {i : ℕ} (h : Closing (rs ++ [req]) i) :
    Closing rs i ∨ i = rs.length ∧ req.keepAlive = false := by
  have hlt := h.lt
  rw [List.length_append, List.length_singleton] at hlt
  rcases Nat.lt_succ_iff_lt_or_eq.mp hlt with hi | rfl
  · exact Or.inl ((closing_append [req] hi).mp h)
  · obtain ⟨q,hq,hclose⟩ := h
    rw [List.getElem?_concat_length] at hq
    cases hq
    exact Or.inr ⟨rfl,hclose⟩

theorem ended (hs : Served workerPool s) (hover : s.Over) : Served workerPool { s with phase := .idle } :=
  ⟨⟨hs.sound.handler,hs.sound.depth,hs.sound.returned,fun _ => hs.sound.over hover⟩,hs.line.congr rfl rfl rfl rfl,
    hs.nothingAfter,hs.lastCloses,hs.covered,hs.closers,hs.after⟩

theorem submit {req : SimpleHttpRequest} (hs : Served true s) (hsound : Sound t) (hpop : Popped s t req)
    (hlive : t.running = true) (htasks : t.tasks = s.tasks ++ [⟨s.popped.length,!req.keepAlive⟩])
    (hinvoked : t.invoked = s.invoked) : Served true t := by
  have hnew : (⟨s.popped.length,!req.keepAlive⟩ : Task) ∈ t.tasks := by
    rw [htasks]
    exact List.mem_append_right _ List.mem_cons_self
  have hold : ∀ q ∈ s.tasks, q ∈ t.tasks := by
    intro q hq
    rw [htasks]
    exact List.mem_append_left _ hq
  refine ⟨hsound,hs.line.submit hpop.popped htasks hpop.pc hinvoked,?_,(fun _ hpool => by cases hpool),?_,?_,?_⟩
  · intro j hj
    rw [hpop.popped]
    exact hs.nothingAfter_popped (hinvoked ▸ hj)
  · intro _ j hj
    rw [hpop.popped, List.length_append, List.length_singleton] at hj
    rw [hinvoked, hpop.pc]
    rcases Nat.lt_succ_iff_lt_or_eq.mp hj with hj | rfl
    · rcases hs.covered hpop.running j hj with hinvoked | ⟨q,hq,hindex⟩ | htaken
      · exact Or.inl hinvoked
      · exact Or.inr (Or.inl ⟨q,hold q hq,hindex⟩)
      · exact Or.inr (Or.inr htaken)
    · exact Or.inr (Or.inl ⟨_,hnew,rfl⟩)
  · intro _ i hi
    rw [hpop.popped] at hi
    rcases closing_popped hi with hi | ⟨rfl,-⟩
    · obtain ⟨q,hq,hindex⟩ := hs.closers hpop.running i hi
      refine ⟨q,?_,hindex⟩
      rw [State.Unfinished, hpop.pc]
      exact hq.imp_left (hold q)
    · exact ⟨_,Or.inl hnew,rfl⟩
  · intro hdead
    rw [hlive] at hdead
    cases hdead

/-- On the IO thread all popped requests are handled, and none of them closes while the connection
is alive. -/
theorem inline_popped (hs : Served false s) (hrun : s.running = true) :
    (∀ j < s.popped.length, j ∈ s.invoked) ∧ ∀ i, ¬ Closing s.popped i := by
  obtain ⟨htasks,hfree⟩ := hs.line.inline rfl
  constructor
  · intro j hj
    rcases hs.covered hrun j hj with hinvoked | ⟨q,hq,-⟩ | ⟨w,q,hq,-⟩
    · exact hinvoked
    · rw [htasks] at hq
      cases hq
    · rw [hfree w] at hq
      cases hq
  · intro i hi
    obtain ⟨q,hq | ⟨w,hq⟩,-⟩ := hs.closers hrun i hi
    · rw [htasks] at hq
      cases hq
    · rw [hfree w] at hq
      cases hq

theorem handle {req : SimpleHttpRequest} {run : HandlerRun} (hs : Served false s) (hsound : Sound t)
    (hpop : Popped s t req) (htasks : t.tasks = s.tasks) (hinvoked : t.invoked = s.invoked ++ [s.popped.length])
    (hclose : t.reading.shouldClose = (s.reading.shouldClose || run.throws))
    (hlive : t.running = true ↔ run.closes = false ∧
      ((s.reading.shouldClose || run.throws) = true → t.pending ≠ []))
    (horderly : run.closes = true → s.pending.tail = []) : Served false t := by
  obtain ⟨hdone,hopen⟩ := hs.inline_popped hpop.running
  have hline := hs.line.handle hpop.popped htasks hpop.pc hinvoked
  have hall : ∀ j < t.popped.length, j ∈ t.invoked := by
    intro j hj
    rw [hpop.popped, List.length_append, List.length_singleton] at hj
    rw [hinvoked]
    rcases Nat.lt_succ_iff_lt_or_eq.mp hj with hj | rfl
    · exact List.mem_append_left _ (hdone j hj)
    · exact List.mem_append_right _ List.mem_cons_self
  have hnothing : ∀ j ∈ t.invoked, ∀ i < j, ¬ Closing t.popped i := by
    intro j hj i hi
    have hlt := hline.bounded j hj
    rw [hpop.popped, List.length_append, List.length_singleton] at hlt
    rw [hpop.popped, closing_append [req] (by omega)]
    exact hopen i
  cases hrun : t.running with
  | true =>
    obtain ⟨-,hmore⟩ := hlive.mp hrun
    refine ⟨hsound,hline,hnothing,?_,fun _ j hj => Or.inl (hall j hj),?_,?_⟩
    · intro _ _ l q rest hl hq
      have hold := hs.lastCloses hpop.running rfl (req :: l) q rest (by rw [hpop.pending, hl]; rfl) hq
      exact ⟨hold.1,by rw [hclose, hold.2]; rfl⟩
    · intro _ i hi
      rw [hpop.popped] at hi
      rcases closing_popped hi with hi | ⟨-,hreq⟩
      · exact absurd hi (hopen i)
      · -- a closing request is the last one, and then the connection is closed
        obtain ⟨hlast,hset⟩ := hs.lastCloses hpop.running rfl [] req t.pending hpop.pending hreq
        exact absurd hlast (hmore (by rw [hset]; rfl))
    · intro hdead
      rw [hrun] at hdead
      cases hdead
  | false =>
    have hempty : t.pending = [] := by
      by_contra hne
      have hcloses : run.closes ≠ false := by
        intro hopen
        have hlive' := hlive.mpr ⟨hopen,fun _ => hne⟩
        rw [hrun] at hlive'
        cases hlive'
      refine hne ?_
      simpa [hpop.pending] using horderly (by simpa using hcloses)
    refine of_dead hsound hline hnothing hrun ?_
    intro j hj
    rw [State.requests, hempty, List.append_nil] at hj
    exact Or.inl (hall j hj)

theorem dispatch (hs : Served workerPool s) (hphase : s.phase = .dispatching) {run : HandlerRun}
    (horderly : Orderly workerPool s (.dispatch run)) : Served workerPool (s.dispatch workerPool run) := by
  have hsound : Sound (s.dispatch workerPool run) := hs.sound.dispatch hphase run
  cases workerPool with
  | true =>
    rcases dispatch_pool run hs.sound.handler with ⟨hover,heq⟩ | ⟨req,hpop,hlive,htasks,hinvoked⟩
    · rw [heq]
      exact hs.ended hover
    · exact hs.submit hsound hpop hlive htasks hinvoked
  | false =>
    rcases dispatch_inline run hs.sound.handler with ⟨hover,heq⟩ | ⟨req,hpop,htasks,hinvoked,hclose,hlive⟩
    · rw [heq]
      exact hs.ended hover
    · exact hs.handle hsound hpop htasks hinvoked hclose hlive (horderly rfl)

theorem take {task : Task} {rest : List Task} (hs : Served workerPool s) (hfree : s.pc w = .waiting)
    (htasks : s.tasks = task :: rest) : Served workerPool { s.goto w (.taken task) with tasks := rest } := by
  have hself : (s.goto w (.taken task)).pc w = .taken task := by simp [State.goto]
  have hother : ∀ x, s.pc x ≠ .waiting → (s.goto w (.taken task)).pc x = s.pc x := by
    intro x hx
    rcases Line.pc_goto s w (.taken task) x with ⟨rfl,-⟩ | ⟨-,hpc⟩
    · exact absurd hfree hx
    · exact hpc
  refine ⟨hs.sound.congr rfl rfl,hs.line.take htasks,hs.nothingAfter,hs.lastCloses,?_,?_,hs.after⟩
  · intro hrun j hj
    rcases hs.covered hrun j hj with hinvoked | ⟨q,hq,hindex⟩ | ⟨x,q,hq,hindex⟩
    · exact Or.inl hinvoked
    · rw [htasks] at hq
      rcases List.mem_cons.mp hq with rfl | hq
      · exact Or.inr (Or.inr ⟨w,q,hself,hindex⟩)
      · exact Or.inr (Or.inl ⟨q,hq,hindex⟩)
    · exact Or.inr (Or.inr ⟨x,q,(hother x (by rw [hq]; simp)).trans hq,hindex⟩)
  · intro hrun i hi
    obtain ⟨q,hq | ⟨x,hq⟩,hindex⟩ := hs.closers hrun i hi
    · rw [htasks] at hq
      rcases List.mem_cons.mp hq with rfl | hq
      · exact ⟨q,Or.inr ⟨w,by dsimp only; rw [hself]; rfl⟩,hindex⟩
      · exact ⟨q,Or.inl hq,hindex⟩
    · refine ⟨q,Or.inr ⟨x,?_⟩,hindex⟩
      have hbusy : s.pc x ≠ .waiting := by
        intro hx
        rw [hx] at hq
        cases hq
      dsimp only
      rw [hother x hbusy]
      exact hq

theorem closing_task (hs : Served workerPool s) {task : Task} (htask : s.Unfinished task) :
    task.closeAfter = true ↔ Closing s.popped task.index := by
  obtain ⟨req,hreq,hclose⟩ := hs.line.named task htask
  rw [hclose, Closing, hreq]
  simp

/-- The worker looks at `running_` and calls the handler. -/
theorem call {task : Task} (hs : Served workerPool s) (hpc : s.pc w = .taken task) (hrun : s.running = true)
    (hturn : ¬ s.CloserAhead task.index) :
    Served workerPool { s.goto w (.handling task) with invoked := s.invoked ++ [task.index] } := by
  have hmine : s.Unfinished task := Or.inr ⟨w,by rw [hpc]; rfl⟩
  have hline : Line workerPool { s.goto w (.handling task) with invoked := s.invoked ++ [task.index] } := by
    refine (hs.line.invoke (hs.line.index_lt hmine)).goto (w := w) (p := .handling task) ?_ ?_ ?_
    · rintro q ⟨⟩
      exact ⟨by dsimp only; rw [hpc]; rfl,List.mem_append_right _ List.mem_cons_self⟩
    · intro q closes hq
      cases hq
    · dsimp only
      rw [hpc]
      simp
  refine ⟨hs.sound.congr rfl rfl,hline,?_,hs.lastCloses,?_,?_,?_⟩
  · intro j hj i hi hclosing
    rcases List.mem_append.mp hj with hj | hj
    · exact hs.nothingAfter j hj i hi hclosing
    · rw [List.mem_singleton.mp hj] at hi
      obtain ⟨q,hq,rfl⟩ := hs.closers hrun i hclosing
      have hcloses := (hs.closing_task hq).mpr hclosing
      rcases hq with hq | ⟨x,hq⟩
      · have hlater := hs.line.ahead w task (by rw [hpc]; rfl) q hq
        omega
      · exact hturn ⟨x,q,hq,hcloses,hi⟩
  · intro _ j hj
    rcases hs.covered hrun j hj with hinvoked | hqueued | ⟨x,q,hq,hindex⟩
    · exact Or.inl (List.mem_append_left _ hinvoked)
    · exact Or.inr (Or.inl hqueued)
    · rcases Line.pc_goto s w (.handling task) x with ⟨rfl,-⟩ | ⟨-,hx⟩
      · rw [hpc] at hq
        cases hq
        exact Or.inl (List.mem_append_right _ (List.mem_singleton.mpr hindex.symm))
      · exact Or.inr (Or.inr ⟨x,q,hx.trans hq,hindex⟩)
  · intro _ i hi
    obtain ⟨q,hq | ⟨x,hq⟩,hindex⟩ := hs.closers hrun i hi
    · exact ⟨q,Or.inl hq,hindex⟩
    · refine ⟨q,Or.inr ⟨x,?_⟩,hindex⟩
      rcases Line.pc_goto s w (.handling task) x with ⟨rfl,hx⟩ | ⟨-,hx⟩
      · rw [hpc] at hq
        dsimp only
        rw [hx]
        exact hq
      · dsimp only
        rw [hx]
        exact hq
  · intro hdead
    exact absurd (hrun.symm.trans hdead) (by decide)

/-- A worker goes on behind its look at `running_`; what it puts away does not close. -/
theorem goto {p : Pc} (hs : Served workerPool s) (hline : Line workerPool (s.goto w p))
    (htaken : s.running = true → ∀ q, s.pc w ≠ .taken q)
    (hkeep : s.running = true → ∀ q, (s.pc w).held = some q → p.held = some q ∨ q.closeAfter = false) :
    Served workerPool (s.goto w p) := by
  refine ⟨hs.sound.congr rfl rfl,hline,hs.nothingAfter,hs.lastCloses,?_,?_,hs.after⟩
  · intro hrun j hj
    rcases hs.covered hrun j hj with hinvoked | hqueued | ⟨x,q,hq,hindex⟩
    · exact Or.inl hinvoked
    · exact Or.inr (Or.inl hqueued)
    · rcases Line.pc_goto s w p x with ⟨rfl,-⟩ | ⟨-,hx⟩
      · exact absurd hq (htaken hrun q)
      · exact Or.inr (Or.inr ⟨x,q,hx.trans hq,hindex⟩)
  · intro hrun i hi
    obtain ⟨q,hq,hindex⟩ := hs.closers hrun i hi
    have hcloses : q.closeAfter = true := (hs.closing_task hq).mpr (by rw [hindex]; exact hi)
    rcases hq with hq | ⟨x,hq⟩
    · exact ⟨q,Or.inl hq,hindex⟩
    · refine ⟨q,Or.inr ⟨x,?_⟩,hindex⟩
      rcases Line.pc_goto s w p x with ⟨rfl,hx⟩ | ⟨-,hx⟩
      · rw [hx]
        refine (hkeep hrun q hq).resolve_right ?_
        rw [hcloses]
        simp
      · rw [hx]
        exact hq

theorem close_after {task : Task} {closes : Bool} (hs : Served workerPool s) (hpc : s.pc w = .handled task closes)
    (hclose : task.closeAfter = true) (hturn : ¬ s.TakenAhead task.index) (why : CloseReason) :
    Served workerPool (s.shutdown why) := by
  have hheld : (s.pc w).held = some task := by rw [hpc]; rfl
  have hclosing : Closing s.requests task.index := by
    have hpopped := (hs.closing_task (Or.inr ⟨w,hheld⟩)).mp hclose
    exact (closing_append s.pending hpopped.lt).mpr hpopped
  refine hs.close why ?_
  intro hrun j hj
  rcases lt_or_ge task.index j with hlt | hge
  · exact Or.inr ⟨task.index,hlt,hclosing⟩
  · left
    have hmine : task.index ∈ s.invoked := hs.line.invoked_of_held hheld (by rw [hpc]; simp)
    rcases hs.covered hrun j (hge.trans_lt (hs.line.bounded _ hmine)) with hinvoked | ⟨q,hq,hindex⟩ | ⟨x,q,hq,hindex⟩
    · exact hinvoked
    · have hlater := hs.line.ahead w task hheld q hq
      omega
    · rcases hge.lt_or_eq with hlt | heq
      · exact absurd ⟨x,q,hq,by omega⟩ hturn
      · rw [heq]
        exact hmine

theorem finish {task : Task} {closes : Bool} (hs : Served workerPool s) (hpc : s.pc w = .handling task)
    (hflag : task.closeAfter = true → closes = true) : Served workerPool (s.goto w (.handled task closes)) := by
  have hheld : (s.pc w).held = some task := by rw [hpc]; rfl
  have hcalled : task.index ∈ s.invoked := hs.line.invoked_of_held hheld (by rw [hpc]; simp)
  refine hs.goto (hs.line.goto ?_ ?_ (by rw [hpc]; simp)) ?_ ?_
  · rintro q ⟨⟩
    exact ⟨hheld,hcalled⟩
  · rintro q flag ⟨⟩
    exact hflag
  · intro _ q hq
    rw [hpc] at hq
    cases hq
  · intro _ q hq
    rw [hheld] at hq
    exact Or.inl hq

theorem putAway {task : Task} {closes : Bool} (hs : Served workerPool s) (hpc : s.pc w = .handled task closes)
    (hopen : s.running = true → task.closeAfter = false) : Served workerPool (s.goto w .waiting) := by
  refine hs.goto (hs.line.goto ?_ ?_ (by rw [hpc]; simp)) ?_ ?_
  · intro q hq
    cases hq
  · intro q flag hq
    cases hq
  · intro _ q hq
    rw [hpc] at hq
    cases hq
  · intro hrun q hq
    rw [hpc] at hq
    cases hq
    exact Or.inr (hopen hrun)

theorem worker {run : HandlerRun} (hs : Served workerPool s) (hturn : InTurn s run (s.pc w))
    (h : s.advanceWorker w run = some t) : Served workerPool t := by
  unfold State.advanceWorker at h
  cases hpc : s.pc w with
  | waiting =>
    rw [hpc] at h
    dsimp only at h
    split at h
    · cases h
    · rename_i task rest htasks
      cases h
      exact hs.take hpc htasks
  | taken task =>
    rw [hpc] at h hturn
    cases h
    cases hrun : s.running with
    | true => exact hs.call hpc hrun (hturn hrun)
    | false =>
      refine hs.goto (hs.line.goto ?_ ?_ (by rw [hpc]; simp)) ?_ ?_
      · intro q hq
        cases hq
      · intro q closes hq
        cases hq
      · intro hlive
        exact absurd (hlive.symm.trans hrun) (by decide)
      · intro hlive
        exact absurd (hlive.symm.trans hrun) (by decide)
  | handling task =>
    rw [hpc] at h hturn
    cases h
    have hflag : task.closeAfter = true → (run.throws || task.closeAfter) = true := by
      intro hclose
      rw [hclose, Bool.or_true]
    split_ifs with hcloses
    · exact (hs.close_quiet .handler (hturn hcloses)).finish hpc hflag
    · exact hs.finish hpc hflag
  | handled task closes =>
    rw [hpc] at h hturn
    cases h
    split_ifs with hcloses
    · have hclosed : Served workerPool (s.shutdown .answered) := by
        have hturn' := hturn hcloses
        split_ifs at hturn' with hclose
        · exact hs.close_after hpc hclose hturn' .answered
        · exact hs.close_quiet .answered hturn'
      refine hclosed.putAway hpc ?_
      intro hlive
      simp at hlive
    · refine hs.putAway hpc ?_
      intro _
      by_contra hclose
      exact hcloses (hs.line.closes w task closes hpc (by simpa using hclose))

end Served

theorem step_served {workerPool : Bool} {s t : State k} {a : Act k} (hs : Served workerPool s)
    (horderly : Orderly workerPool s a) (h : step workerPool s a = some t) : Served workerPool t := by
  cases a with
  | read chunk =>
    simp only [step] at h
    split_ifs at h with hphase
    exact hs.read hphase horderly h
  | drop =>
    simp only [step] at h
    split_ifs at h
    cases h
    exact hs.close_quiet _ horderly
  | parse =>
    simp only [step] at h
    split_ifs at h with hphase
    cases h
    exact hs.parse hphase horderly
  | dispatch run =>
    simp only [step] at h
    split_ifs at h with hphase
    cases h
    exact hs.dispatch hphase horderly
  | worker w run => exact hs.worker horderly h

/-- In an orderly run no request behind a closing one is handled. When the run comes to rest, all
requests before the first closing one have been; and left to itself it comes to rest. -/
theorem nothing_after_close {workerPool : Bool} {as : List (Act (k + 1))}
    (horderly : Along (step workerPool) (Orderly workerPool) {} as) {s : State (k + 1)}
    (hs : Visits (step workerPool) {} as s) :
    (∀ j ∈ s.invoked, ∀ i < j, ¬ Closing s.requests i) ∧
      (s.AtRest → ∀ i, FirstClosing s.requests i → ∀ j < i, j ∈ s.invoked) ∧
      ∀ bs u, (∀ a ∈ bs, a.internal = true) → exec (step workerPool) s bs = some u →
        bs.length ≤ s.work ∧ (u.AtRest ∨ ∃ a, a.internal = true ∧ (step workerPool u a).isSome = true) := by
  have hserved : Served workerPool s :=
    visits_invariant (fun _ _ _ hI hP hstep => step_served hI hP hstep) Served.initial horderly hs
  refine ⟨?_,?_,?_⟩
  · intro j hj i hi
    rw [State.requests, closing_append s.pending (hi.trans (hserved.line.bounded j hj))]
    exact hserved.nothingAfter j hj i hi
  · rintro ⟨hphase,htasks,hfree⟩ i ⟨hclosing,hfirst⟩ j hj
    have hlt := hj.trans hclosing.lt
    cases hrun : s.running with
    | true =>
      refine hserved.all_invoked hrun ?_ j hlt
      rintro (hpending | hqueued | ⟨w,task,htaken⟩)
      · exact hpending (hserved.sound.idle hphase hrun)
      · exact hqueued htasks
      · rw [hfree w] at htaken
        cases htaken
    | false =>
      refine (hserved.after hrun j hlt).resolve_right ?_
      rintro ⟨i',hi',hclosing'⟩
      exact hfirst i' (hi'.trans hj) hclosing'
  · intro bs u hinternal hexec
    have hle := exec_work hserved.sound hinternal hexec
    exact ⟨by omega,atRest_or_internal workerPool u⟩

/-- Three requests in one read, the second of them closing, and one worker. -/
def closingSecond : List (Act 1) :=
  [.read (bytes "GET / HTTP/1.1\r\n\r\nGET / HTTP/1.0\r\n\r\nGET / HTTP/1.1\r\n\r\n"),.parse,.parse,.parse,.parse,
    .dispatch {},.dispatch {},.dispatch {},.dispatch {},.worker 0 {},.worker 0 {},.worker 0 {},.worker 0 {},.worker 0 {},
    .worker 0 {},.worker 0 {},.worker 0 {},.worker 0 {},.worker 0 {}]

theorem nothing_after_close_second : ∃ s : State 1, exec (step true) {} closingSecond = some s ∧
    s.requests.map SimpleHttpRequest.keepAlive = [true,false,true] ∧ s.invoked = [0,1] ∧
    ∀ j ∈ s.invoked, ∀ i < j, ¬ Closing s.requests i := by
  have hrun : (exec (step true) {} closingSecond).map
      (fun s : State 1 => (s.requests.map SimpleHttpRequest.keepAlive,s.invoked)) =
      some ([true,false,true],[0,1]) := by decide +kernel
  obtain ⟨s,hs,hend⟩ := Option.map_eq_some_iff.mp hrun
  refine ⟨s,hs,congrArg Prod.fst hend,congrArg Prod.snd hend,?_⟩
  exact (nothing_after_close (show Along (step true) (Orderly true) {} closingSecond by decide +kernel)
    ⟨_,List.prefix_refl _,hs⟩).1

theorem closing_of_map {rs : List SimpleHttpRequest} {i : ℕ}
    (h : (rs.map SimpleHttpRequest.keepAlive)[i]? = some false) : Closing rs i := by
  rw [List.getElem?_map] at h
  exact Option.map_eq_some_iff.mp h

/-- On the IO thread the request behind a closing one is handled; and a worker closes for its
request while another has yet to look at the one before it. -/
theorem handled_after_close :
    (∃ s : State 1, exec (step false) {} [.read (bytes "GET / HTTP/1.0\r\n\r\nGET / HTTP/1.1\r\n\r\n"),.parse,.parse,
        .parse,.dispatch {},.dispatch {}] = some s ∧ 1 ∈ s.invoked ∧ Closing s.requests 0) ∧
      ∃ s : State 2, exec (step true) {} [.read (bytes "GET / HTTP/1.1\r\n\r\nGET / HTTP/1.0\r\n\r\n"),.parse,.parse,
        .parse,.dispatch {},.dispatch {},.dispatch {},.worker 0 {},.worker 1 {},.worker 1 {},.worker 1 {},.worker 1 {},
        .worker 0 {}] = some s ∧ s.AtRest ∧ FirstClosing s.requests 1 ∧ 0 ∉ s.invoked := by
  constructor
  · have hrun : (exec (step false) {} [.read (bytes "GET / HTTP/1.0\r\n\r\nGET / HTTP/1.1\r\n\r\n"),.parse,.parse,
        .parse,.dispatch {},.dispatch {}]).map
        (fun s : State 1 => (s.requests.map SimpleHttpRequest.keepAlive,s.invoked)) = some ([false,true],[0,1]) := by
      decide +kernel
    obtain ⟨s,hs,hend⟩ := Option.map_eq_some_iff.mp hrun
    obtain ⟨hkeep,hinvoked⟩ := Prod.mk.inj hend
    exact ⟨s,hs,by rw [hinvoked]; decide,closing_of_map (by rw [hkeep]; rfl)⟩
  · have hrun : (exec (step true) {} [.read (bytes "GET / HTTP/1.1\r\n\r\nGET / HTTP/1.0\r\n\r\n"),.parse,.parse,
        .parse,.dispatch {},.dispatch {},.dispatch {},.worker 0 {},.worker 1 {},.worker 1 {},.worker 1 {},.worker 1 {},
        .worker 0 {}]).map (fun s : State 2 => ((s.requests.map SimpleHttpRequest.keepAlive,s.invoked),
        (s.phase,s.tasks,List.ofFn s.pc))) = some (([true,false],[1]),(.idle,[],[.waiting,.waiting])) := by
      decide +kernel
    obtain ⟨s,hs,hend⟩ := Option.map_eq_some_iff.mp hrun
    obtain ⟨hrequests,hrest⟩ := Prod.mk.inj hend
    obtain ⟨hkeep,hinvoked⟩ := Prod.mk.inj hrequests
    obtain ⟨hphase,hpool⟩ := Prod.mk.inj hrest
    obtain ⟨htasks,hpc⟩ := Prod.mk.inj hpool
    refine ⟨s,hs,⟨hphase,htasks,?_⟩,⟨closing_of_map (by rw [hkeep]; rfl),?_⟩,by rw [hinvoked]; decide⟩
    · intro w
      have hw : s.pc w ∈ List.ofFn s.pc := List.mem_ofFn.mpr ⟨w,rfl⟩
      rw [hpc] at hw
      simpa using hw
    · rintro j hj ⟨req,hreq,hopen⟩
      have hj0 : j = 0 := by omega
      subst hj0
      have hfirst : (s.requests.map SimpleHttpRequest.keepAlive)[0]? = some req.keepAlive := by
        rw [List.getElem?_map, hreq]
        rfl
      rw [hkeep, hopen] at hfirst
      cases hfirst

end ModernTcp.HttpPipeline
