import ModernTcp.Net.FunctorQueue

/-! # Stopping a reactor

`SubReactor::shutdown` writes the eventfd, requests the stop and joins the thread of `run`. The loop
may answer the write before the request is there: it reads the eventfd to zero, finds no request
and blocks again. Then only the timer, or an event of a connection, brings it back to the test.
-/
namespace ModernTcp.ReactorStop
open Execution FunctorQueue

variable {P F : Type*}

structure State (P F : Type*) where
  queue : FunctorQueue.State P F := {}
  ready : List ℕ := []

/-- A step of the loop, a poster or `shutdown`; `TcpServer::wakeup`; an event of a connection, and
its loss when another thread closes the socket. -/
inductive Act (P F : Type*)
  | loop (a : FunctorQueue.Act P F)
  | wakeup
  | arrive (fd : ℕ)
  | vanish (fd : ℕ)
deriving DecidableEq

/-- An event of a connection is reported only when it is pending. -/
def reportable (ready : List ℕ) : Event → Bool
  | .connection fd => decide (fd ∈ ready)
  | .wake | .timer => true

/-- Connections are watched edge-triggered: what has been reported is pending no longer. -/
def report (s : State P F) (events : List Event) (queue : FunctorQueue.State P F) : Option (State P F) :=
  if events.all (reportable s.ready) then
    some { queue, ready := s.ready.filter (fun fd => .connection fd ∉ events) }
  else none

def step [DecidableEq P] (s : State P F) : Act P F → Option (State P F)
  | .loop (.epollWait events) => (FunctorQueue.step s.queue (.epollWait events)).bind (report s events)
  | .loop a => (FunctorQueue.step s.queue a).map (fun queue => { s with queue })
  -- `TcpServer::shutdown` wakes the reactors before it shuts them down
  | .wakeup =>
    if s.queue.stopping = .running then
      some { s with queue := { s.queue with counter := writeEventfd s.queue.counter } }
    else none
  | .arrive fd => some { s with ready := fd :: s.ready }
  | .vanish fd => some { s with ready := s.ready.filter (· ≠ fd) }

/-- The stop is requested and joined, and nothing but the timer will end the wait of the loop. -/
def Missed (s : State P F) : Prop :=
  s.queue.stopping = .requested ∧ s.queue.pc.waits = true ∧ s.queue.counter = 0 ∧ s.ready = []

/-- The request does not come when the loop has read the eventfd and waits again. -/
def InTime (s : State P F) : Act P F → Prop
  | .loop .requestStop => ¬ (s.queue.pc.waits = true ∧ s.queue.counter = 0)
  | _ => True

instance (s : State P F) : ∀ a, Decidable (InTime s a)
  | .loop .requestStop => inferInstanceAs (Decidable (¬ (_ ∧ _)))
  | .loop (.push _ _) | .loop (.write _) | .loop .shutdownWake | .loop (.epollWait _) | .loop .interrupted
  | .loop .failed | .loop .go | .wakeup | .arrive _ | .vanish _ => inferInstanceAs (Decidable True)

/-- A loop that waits after the request has a write to read. -/
def Woken (q : FunctorQueue.State P F) : Prop :=
  q.stopping = .requested → q.pc.waits = true → 0 < q.counter

theorem advanceLoop_woken {q u : FunctorQueue.State P F} (h : advanceLoop q = some u) : Woken u := by
  intro hrequested hwaits
  unfold advanceLoop at h
  split at h
  · cases h
    dsimp only at hrequested hwaits
    rw [if_pos hrequested] at hwaits
    cases hwaits
  · cases h
    cases hwaits
  · cases h
    cases hwaits
  · cases h
    cases hwaits
  · cases h
    cases hwaits
  · rename_i rest hpc
    split_ifs at h
    · cases h
      cases hwaits
    · cases h
      dsimp only at hwaits
      rw [hpc] at hwaits
      cases hwaits
  · cases h
    cases hwaits
  · cases h
    cases hwaits
  · cases h
  · cases h

variable [DecidableEq P]

theorem queue_woken {q u : FunctorQueue.State P F} {a : FunctorQueue.Act P F} (hq : Woken q)
    (hin : a = .requestStop → ¬ (q.pc.waits = true ∧ q.counter = 0)) (h : FunctorQueue.step q a = some u) :
    Woken u := by
  cases a with
  | push p f =>
    simp only [FunctorQueue.step] at h
    split_ifs at h
    cases h
    exact hq
  | write p =>
    simp only [FunctorQueue.step] at h
    split_ifs at h
    cases h
    exact fun _ _ => writeEventfd_pos _
  | shutdownWake =>
    simp only [FunctorQueue.step] at h
    split_ifs at h
    cases h
    intro hrequested
    cases hrequested
  | requestStop =>
    simp only [FunctorQueue.step] at h
    split_ifs at h
    cases h
    intro _ hwaits
    exact Nat.pos_of_ne_zero (fun hzero => hin rfl ⟨hwaits,hzero⟩)
  | epollWait events =>
    simp only [FunctorQueue.step] at h
    split_ifs at h
    cases h
    intro _ hwaits
    cases hwaits
  | interrupted | failed =>
    simp only [FunctorQueue.step] at h
    split_ifs at h
    cases h
    intro _ hwaits
    cases hwaits
  | go => exact advanceLoop_woken h

theorem step_woken {s t : State P F} {a : Act P F} (hs : Woken s.queue) (hin : InTime s a)
    (h : step s a = some t) : Woken t.queue := by
  cases a with
  | loop a =>
    by_cases hwait : ∃ events, a = .epollWait events
    · obtain ⟨events,rfl⟩ := hwait
      obtain ⟨queue,hqueue,hreport⟩ := Option.bind_eq_some_iff.mp h
      unfold report at hreport
      split_ifs at hreport
      cases hreport
      exact queue_woken hs (fun hstop => by cases hstop) hqueue
    · have hmap : step s (.loop a) = (FunctorQueue.step s.queue a).map (fun queue => { s with queue }) := by
        cases a with
        | epollWait events => exact absurd ⟨events,rfl⟩ hwait
        | push | write | shutdownWake | requestStop | interrupted | failed | go => rfl
      rw [hmap] at h
      obtain ⟨queue,hqueue,rfl⟩ := Option.map_eq_some_iff.mp h
      refine queue_woken hs ?_ hqueue
      rintro rfl
      exact hin
  | wakeup =>
    simp only [step] at h
    split_ifs at h
    cases h
    exact fun _ _ => writeEventfd_pos _
  | arrive fd | vanish fd =>
    cases h
    exact hs

/-- The stop is not missed in a run whose request comes in time. -/
theorem stop_not_missed {as : List (Act P F)} (hin : Along step InTime ({} : State P F) as) {s : State P F}
    (hs : Visits step {} as s) : ¬ Missed s := by
  have hwoken : Woken s.queue := by
    refine visits_invariant (I := fun t : State P F => Woken t.queue)
      (fun _ _ _ ht ha hstep => step_woken ht ha hstep) ?_ hin hs
    intro hrequested
    cases hrequested
  rintro ⟨hrequested,hwaits,hzero,-⟩
  have hpos := hwoken hrequested hwaits
  omega

def stopInTime : List (Act Unit Unit) :=
  [.loop .go,.loop .shutdownWake,.loop (.epollWait [.wake]),.loop .go,.loop .requestStop,.loop .go,.loop .go,
    .loop .go,.loop .go]

theorem stop_not_missed_busy : ∃ s : State Unit Unit, exec step {} stopInTime = some s ∧
    s.queue.stopping = .requested ∧ ¬ Missed s := by
  have hrun : (exec step {} stopInTime).map (fun s : State Unit Unit => s.queue.stopping) = some .requested := by decide
  obtain ⟨s,hs,hrequested⟩ := Option.map_eq_some_iff.mp hrun
  exact ⟨s,hs,hrequested,stop_not_missed (show Along step InTime {} stopInTime by decide) ⟨_,List.prefix_refl _,hs⟩⟩

/-- The loop has answered the write and waits again. -/
theorem stop_missed : ∃ s : State Unit Unit, exec step {} [.loop .go,.loop .shutdownWake,.loop (.epollWait [.wake]),
    .loop .go,.loop .go,.loop .go,.loop .go,.loop .go,.loop .go,.loop .requestStop] = some s ∧ Missed s := by
  refine ⟨_,rfl,?_⟩
  exact ⟨rfl,rfl,rfl,rfl⟩

end ModernTcp.ReactorStop
