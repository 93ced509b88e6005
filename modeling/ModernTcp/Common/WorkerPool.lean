import Mathlib.Tactic
import ModernTcp.Lib.Threads

/-! # The life of a worker pool

`WorkerPool` from its constructor to the end of its destructor. The body of the destructor
only sets `stopped_` and notifies; the members are destroyed after it in the reverse order of
their declaration, `stopped_`, `cond_`, `mutex_` and `tasks_`, and the workers are joined last
of all, by the destructor of `workers_`. What a critical section does is one step, taking the
lock is another. A step of a worker that uses a member after its destruction has no meaning;
here it leaves a mark and nothing else.
-/
namespace ModernTcp.PoolLife
open Execution

/-- How far the destruction has come: the body of the destructor, then one member after the other. -/
inductive Life
  | alive
  | stopped
  | notified
  | stoppedGone
  | condGone
  | mutexGone
  | tasksGone
  | joined
deriving DecidableEq

def Life.noCond : Life → Bool
  | .condGone | .mutexGone | .tasksGone | .joined => true
  | _ => false

def Life.noMutex : Life → Bool
  | .mutexGone | .tasksGone | .joined => true
  | _ => false

def Life.noTasks : Life → Bool
  | .tasksGone | .joined => true
  | _ => false

/-- Where a worker stands in `worker_loop`: before the lock, inside it, blocked in `cond_.wait`,
on its way out of the wait, in a task, or returned. -/
inductive Pc (τ : Type*)
  | top
  | holding
  | asleep
  | woken
  | running (task : τ)
  | exited
deriving DecidableEq

variable {τ : Type*} {k : ℕ}

def Pc.isExited : Pc τ → Bool
  | .exited => true
  | _ => false

def Pc.isAsleep : Pc τ → Bool
  | .asleep => true
  | _ => false

/-- A notification of a worker that may be waiting. -/
def Pc.wake : Pc τ → Pc τ
  | .asleep => .woken
  | p => p

/-- `notifies` counts the calls of `submit` between their push and `notify_one`. `accepted`,
`started` and `executed` remember the tasks in the order in which they were pushed, taken from
the queue and finished, `touched` that a worker used a destroyed member. -/
structure State (τ : Type*) (k : ℕ) where
  tasks : List τ := []
  locked : Bool := false
  notifies : ℕ := 0
  life : Life := .alive
  pc : Fin k → Pc τ := fun _ => .top
  accepted : List τ := []
  started : List τ := []
  executed : List τ := []
  touched : Bool := false

inductive Act (τ : Type*) (k : ℕ)
  | submit (task : Option τ)
  | notifyOne (i : Option (Fin k))
  | worker (i : Fin k)
  | spurious (i : Fin k)
  | destructor
deriving DecidableEq

namespace State

def goto (s : State τ k) (i : Fin k) (p : Pc τ) : State τ k := { s with pc := Function.update s.pc i p }

/-- The lock is taken by a worker; `gone` says that a member it needs for that is destroyed. -/
def lock (s : State τ k) (i : Fin k) (gone : Bool) : Option (State τ k) :=
  if gone then some { s with touched := true }
  else if s.locked then none
  else some { s.goto i .holding with locked := true }

/-- The critical section of `worker_loop`, from the predicate of the wait to its end. -/
def take (s : State τ k) (i : Fin k) : State τ k :=
  match s.tasks with
  | t :: rest => { s.goto i (.running t) with tasks := rest, started := s.started ++ [t], locked := false }
  | [] => { s.goto i (if s.life = .alive then .asleep else .exited) with locked := false }

def advanceWorker (s : State τ k) (i : Fin k) : Option (State τ k) :=
  match s.pc i with
  | .top => s.lock i s.life.noMutex
  | .woken => s.lock i (s.life.noCond || s.life.noMutex)
  | .holding =>
    if s.life.noCond || s.life.noMutex || s.life.noTasks then some { s with touched := true }
    else some (s.take i)
  | .running t => some { s.goto i .top with executed := s.executed ++ [t] }
  | .asleep | .exited => none

/-- The destructor, one member at a time. -/
def advanceDestructor (s : State τ k) : Option (State τ k) :=
  match s.life with
  | .alive => if s.locked then none else some { s with life := .stopped }
  | .stopped => some { s with life := .notified, pc := fun i => (s.pc i).wake }
  | .notified => some { s with life := .stoppedGone }
  | .stoppedGone => some { s with life := .condGone }
  | .condGone => some { s with life := .mutexGone }
  | .mutexGone => some { s with life := .tasksGone, tasks := [] }
  | .tasksGone => if ∀ i, (s.pc i).isExited = true then some { s with life := .joined } else none
  | .joined => none

end State

def step (s : State τ k) : Act τ k → Option (State τ k)
  | .submit none => some s
  | .submit (some t) =>
    if s.life.noMutex ∨ s.locked then none
    else if s.life ≠ .alive then some s
    else some { s with tasks := s.tasks ++ [t], accepted := s.accepted ++ [t], notifies := s.notifies + 1 }
  | .notifyOne i =>
    if s.notifies = 0 ∨ s.life.noCond then none
    else match i with
      | some i => if (s.pc i).isAsleep then some { s.goto i .woken with notifies := s.notifies - 1 } else none
      | none => if ∀ j, (s.pc j).isAsleep = false then some { s with notifies := s.notifies - 1 } else none
  | .worker i => s.advanceWorker i
  | .spurious i => if (s.pc i).isAsleep then some (s.goto i .woken) else none
  | .destructor => s.advanceDestructor

/-- The destructor destroys `cond_`, `mutex_` or `tasks_` only after every worker has returned. -/
def Orderly (s : State τ k) : Act τ k → Prop
  | .destructor =>
    s.life = .stoppedGone ∨ s.life = .condGone ∨ s.life = .mutexGone → ∀ i, (s.pc i).isExited = true
  | _ => True

instance (s : State τ k) (a : Act τ k) : Decidable (Orderly s a) :=
  match a with
  | .destructor => inferInstanceAs (Decidable (_ ∨ _ ∨ _ → _))
  | .submit _ | .notifyOne _ | .worker _ | .spurious _ => isTrue trivial

/-- The task a worker is executing. -/
def Pc.work : Pc τ → Multiset τ
  | .running t => {t}
  | _ => 0

/-- A worker that is going to look at the queue without being notified. -/
def Pc.isAwake (p : Pc τ) : Bool := !p.isAsleep && !p.isExited

/-- What the pool promises: tasks are taken in the order of their submission, each is executed
once, all of them by the time the workers are joined; no worker uses a destroyed member; and a
task in the queue has a worker that will see it, or is about to be announced. -/
structure Serves (s : State τ k) : Prop where
  order : s.started <+: s.accepted
  once : (s.executed : Multiset τ) + ∑ i, (s.pc i).work = s.started
  all : s.life = .joined → s.executed.Perm s.accepted
  untouched : s.touched = false
  seen : s.tasks ≠ [] → 0 < s.notifies ∨ ∃ i, (s.pc i).isAwake = true

/-- What one step can do, when it is `orderly` or not. -/
inductive Move (s : State τ k) (orderly : Prop) : State τ k → Prop
  | drop : Move s orderly s
  | push (t) (hl : s.life = .alive) : Move s orderly
      { s with tasks := s.tasks ++ [t], accepted := s.accepted ++ [t], notifies := s.notifies + 1 }
  | notifyNobody (h : ∀ j, (s.pc j).isAsleep = false) : Move s orderly { s with notifies := s.notifies - 1 }
  | wake (i n) (hp : s.pc i = .asleep) : Move s orderly { s.goto i .woken with notifies := n }
  | touch (i) (hp : (s.pc i).isExited = false) (hl : s.life.noCond = true) : Move s orderly { s with touched := true }
  | lock (i) (hp : s.pc i = .top ∨ s.pc i = .woken) : Move s orderly { s.goto i .holding with locked := true }
  | start (i t rest) (hp : s.pc i = .holding) (ht : s.tasks = t :: rest) : Move s orderly
      { s.goto i (.running t) with tasks := rest, started := s.started ++ [t], locked := false }
  | sleep (i) (hp : s.pc i = .holding) (ht : s.tasks = []) (hl : s.life = .alive) :
      Move s orderly { s.goto i .asleep with locked := false }
  | exit (i) (hp : s.pc i = .holding) (ht : s.tasks = []) (hl : s.life ≠ .alive) :
      Move s orderly { s.goto i .exited with locked := false }
  | finish (i t) (hp : s.pc i = .running t) : Move s orderly { s.goto i .top with executed := s.executed ++ [t] }
  | stop (hl : s.life = .alive) : Move s orderly { s with life := .stopped }
  | notifyAll (hl : s.life = .stopped) : Move s orderly { s with life := .notified, pc := fun i => (s.pc i).wake }
  | destroyStopped (hl : s.life = .notified) : Move s orderly { s with life := .stoppedGone }
  | destroy (l ts) (hl : s.life = .stoppedGone ∨ s.life = .condGone ∨ s.life = .mutexGone)
      (hgone : l.noCond = true ∧ l ≠ .joined) (hts : ts = s.tasks ∨ ts = [])
      (hall : orderly → ∀ i, (s.pc i).isExited = true) : Move s orderly { s with life := l, tasks := ts }
  | join (hl : s.life = .tasksGone) (h : ∀ i, (s.pc i).isExited = true) : Move s orderly { s with life := .joined }

section Steps
variable {s u : State τ k} {a : Act τ k} {orderly : Prop}

theorem noCond_of_noMutex {l : Life} (h : l.noMutex = true) : l.noCond = true := by
  cases l <;> first | rfl | cases h

theorem noCond_of_noTasks {l : Life} (h : l.noTasks = true) : l.noCond = true := by
  cases l <;> first | rfl | cases h

theorem eq_asleep {p : Pc τ} (h : p.isAsleep = true) : p = .asleep := by
  cases p <;> first | rfl | cases h

theorem eq_exited {p : Pc τ} (h : p.isExited = true) : p = .exited := by
  cases p <;> first | rfl | cases h

theorem lock_move {i : Fin k} {gone : Bool} (hp : s.pc i = .top ∨ s.pc i = .woken)
    (hgone : gone = true → s.life.noCond = true) (h : s.lock i gone = some u) : Move s orderly u := by
  unfold State.lock at h
  split at h
  · rename_i hg
    cases h
    refine Move.touch i ?_ (hgone hg)
    rcases hp with hp | hp <;> rw [hp] <;> rfl
  · split at h <;> cases h
    exact Move.lock i hp

theorem take_move {i : Fin k} (hp : s.pc i = .holding) : Move s orderly (s.take i) := by
  unfold State.take
  split
  · rename_i t rest ht
    exact Move.start i t rest hp ht
  · rename_i ht
    split
    · rename_i hl
      exact Move.sleep i hp ht hl
    · rename_i hl
      exact Move.exit i hp ht hl

theorem advanceWorker_move {i : Fin k} (h : s.advanceWorker i = some u) : Move s orderly u := by
  unfold State.advanceWorker at h
  cases hp : s.pc i with
  | top =>
    rw [hp] at h
    exact lock_move (Or.inl hp) noCond_of_noMutex h
  | woken =>
    rw [hp] at h
    refine lock_move (Or.inr hp) ?_ h
    intro hg
    rcases Bool.or_eq_true_iff.mp hg with hg | hg
    · exact hg
    · exact noCond_of_noMutex hg
  | holding =>
    rw [hp] at h
    dsimp only at h
    split at h
    · rename_i hg
      cases h
      refine Move.touch i (by rw [hp]; rfl) ?_
      simp only [Bool.or_eq_true] at hg
      rcases hg with (hg | hg) | hg
      · exact hg
      · exact noCond_of_noMutex hg
      · exact noCond_of_noTasks hg
    · cases h
      exact take_move hp
  | running t =>
    rw [hp] at h
    cases h
    exact Move.finish i t hp
  | asleep | exited =>
    rw [hp] at h
    cases h

theorem advanceDestructor_move (h : s.advanceDestructor = some u) : Move s (Orderly s .destructor) u := by
  unfold State.advanceDestructor at h
  cases hl : s.life with
  | alive =>
    rw [hl] at h
    dsimp only at h
    split at h <;> cases h
    exact Move.stop hl
  | stopped =>
    rw [hl] at h
    cases h
    exact Move.notifyAll hl
  | notified =>
    rw [hl] at h
    cases h
    exact Move.destroyStopped hl
  | stoppedGone | condGone | mutexGone =>
    rw [hl] at h
    cases h
    exact Move.destroy _ _ (by simp [hl]) ⟨rfl,by simp⟩ (by simp) (fun ho => ho (by simp [hl]))
  | tasksGone =>
    rw [hl] at h
    dsimp only at h
    split at h
    · rename_i hall
      cases h
      exact Move.join hl hall
    · cases h
  | joined =>
    rw [hl] at h
    cases h

theorem step_move (h : step s a = some u) : Move s (Orderly s a) u := by
  cases a with
  | submit task =>
    cases task with
    | none =>
      cases h
      exact Move.drop
    | some t =>
      simp only [step] at h
      split at h
      · cases h
      · split at h
        · cases h
          exact Move.drop
        · rename_i hl
          cases h
          exact Move.push t (by simpa using hl)
  | notifyOne i =>
    simp only [step] at h
    split at h
    · cases h
    · cases i with
      | some i =>
        dsimp only at h
        split at h
        · rename_i hp
          cases h
          exact Move.wake i _ (eq_asleep hp)
        · cases h
      | none =>
        dsimp only at h
        split at h
        · rename_i hall
          cases h
          exact Move.notifyNobody hall
        · cases h
  | worker i => exact advanceWorker_move h
  | spurious i =>
    simp only [step] at h
    split at h
    · rename_i hp
      cases h
      exact Move.wake i s.notifies (eq_asleep hp)
    · cases h
  | destructor => exact advanceDestructor_move h

/-- What every run keeps, orderly or not. -/
structure Base (s : State τ k) : Prop where
  held : s.locked = true → ∃ i, s.pc i = .holding
  asleep : ∀ i, s.pc i = .asleep → s.life = .alive ∨ s.life = .stopped
  exited : ∀ i, s.pc i = .exited → s.life ≠ .alive ∧ s.tasks = []
  once : (s.executed : Multiset τ) + ∑ i, (s.pc i).work = s.started
  seen : s.tasks ≠ [] → 0 < s.notifies ∨ ∃ i, (s.pc i).isAwake = true

/-- What every orderly run keeps. -/
structure Inv (s : State τ k) : Prop where
  base : Base s
  gone : s.life.noCond = true → ∀ i, (s.pc i).isExited = true
  order : s.started ++ s.tasks = s.accepted
  untouched : s.touched = false

@[simp] theorem wake_eq_iff {p q : Pc τ} : p.wake = q ↔ (p = .asleep ∧ q = .woken) ∨ (p ≠ .asleep ∧ p = q) := by
  cases p <;> simp [Pc.wake, eq_comm]

@[simp] theorem wake_work (p : Pc τ) : p.wake.work = p.work := by
  cases p <;> rfl

theorem wake_isAwake {p : Pc τ} (h : p.isAwake = true) : p.wake.isAwake = true := by
  cases p <;> first | rfl | cases h

/-- What another worker was doing it still does after a step of worker `i`. -/
theorem exists_goto {q p : Pc τ} {i : Fin k} (hi : s.pc i ≠ q) (h : ∃ j, s.pc j = q) :
    ∃ j, (s.goto i p).pc j = q := by
  obtain ⟨j,hj⟩ := h
  refine ⟨j,?_⟩
  have hne : j ≠ i := by
    rintro rfl
    exact hi hj
  simpa [State.goto, Function.update_of_ne hne] using hj

theorem forall_goto {K : Pc τ → Prop} {p : Pc τ} {i : Fin k} (hi : K p) (h : ∀ j, K (s.pc j)) :
    ∀ j, K ((s.goto i p).pc j) :=
  (Function.forall_update_iff s.pc (fun _ q => K q)).mpr ⟨hi,fun j _ => h j⟩

theorem awake_goto {i : Fin k} {p : Pc τ} (hp : p.isAwake = true) : ∃ j, ((s.goto i p).pc j).isAwake = true :=
  ⟨i,by simpa [State.goto] using hp⟩

theorem work_goto {i : Fin k} {p : Pc τ} : (∑ j, ((s.goto i p).pc j).work) + (s.pc i).work =
    (∑ j, (s.pc j).work) + p.work := by
  have h := Threads.sum_exchange (f := fun j => (s.pc j).work) (g := fun j => ((s.goto i p).pc j).work) (i := i)
    (fun j hj => by simp [State.goto, Function.update_of_ne hj])
  simpa [State.goto] using h

/-- A step between two points without a task leaves the tasks that are being executed. -/
theorem work_goto_of_zero {i : Fin k} {p q : Pc τ} (hi : s.pc i = q) (hq : q.work = 0) (hp : p.work = 0) :
    ∑ j, ((s.goto i p).pc j).work = ∑ j, (s.pc j).work := by
  have h := work_goto (s := s) (i := i) (p := p)
  rwa [hi, hq, hp, add_zero, add_zero] at h

namespace Move

theorem keeps_held (h : Move s orderly u) (hs : s.locked = true → ∃ i, s.pc i = .holding) :
    u.locked = true → ∃ i, u.pc i = .holding := by
  cases h with
  | wake i n hp => exact fun hl => exists_goto (by simp [hp]) (hs hl)
  | finish i t hp => exact fun hl => exists_goto (by simp [hp]) (hs hl)
  | lock i hp => exact fun _ => ⟨i,by simp [State.goto]⟩
  | start | sleep | exit => exact fun hl => by cases hl
  | notifyAll hl =>
    intro hlock
    obtain ⟨i,hi⟩ := hs hlock
    exact ⟨i,by simp [hi]⟩
  | drop | push | notifyNobody | touch | stop | destroyStopped | destroy | join => exact hs

theorem keeps_asleep (h : Move s orderly u)
    (hs : ∀ i, s.pc i = .asleep → s.life = .alive ∨ s.life = .stopped) :
    ∀ i, u.pc i = .asleep → u.life = .alive ∨ u.life = .stopped := by
  have hgoto : ∀ i {p : Pc τ}, (p = .asleep → s.life = .alive) →
      ∀ j, (s.goto i p).pc j = .asleep → s.life = .alive ∨ s.life = .stopped :=
    fun i p hp => forall_goto (K := fun q => q = .asleep → s.life = .alive ∨ s.life = .stopped)
      (fun hq => Or.inl (hp hq)) hs
  cases h with
  | drop | push | notifyNobody | touch => exact hs
  | wake i | lock i | start i | exit i | finish i => exact hgoto i (by simp)
  | sleep i hp ht hl => exact hgoto i (fun _ => hl)
  | stop hl => exact fun _ _ => Or.inr rfl
  | notifyAll hl => simp
  | destroyStopped hl | join hl =>
    intro i hi
    simpa [hl] using hs i hi
  | destroy l ts hl =>
    intro i hi
    rcases hl with hl | hl | hl <;> simpa [hl] using hs i hi

theorem keeps_exited (h : Move s orderly u) (hs : ∀ i, s.pc i = .exited → s.life ≠ .alive ∧ s.tasks = []) :
    ∀ i, u.pc i = .exited → u.life ≠ .alive ∧ u.tasks = [] := by
  have hgoto : ∀ i {p : Pc τ}, (p = .exited → s.life ≠ .alive ∧ s.tasks = []) →
      ∀ j, (s.goto i p).pc j = .exited → s.life ≠ .alive ∧ s.tasks = [] :=
    fun i p hp => forall_goto (K := fun q => q = .exited → s.life ≠ .alive ∧ s.tasks = []) hp hs
  cases h with
  | drop | notifyNobody | touch => exact hs
  | push t hl => exact fun i hi => absurd hl (hs i hi).1
  | wake i | lock i | finish i => exact hgoto i (by simp)
  | sleep i => exact hgoto i (by simp)
  | exit i hp ht hl => exact hgoto i (fun _ => ⟨hl,ht⟩)
  | start i t rest hp ht =>
    -- a worker that has returned would have left the queue empty
    intro j hj
    have hempty := (hgoto i (by simp) j hj).2
    rw [ht] at hempty
    cases hempty
  | stop | destroyStopped | join => exact fun i hi => ⟨by simp,(hs i hi).2⟩
  | notifyAll hl =>
    intro i hi
    simp only [wake_eq_iff, reduceCtorEq, and_false, false_or] at hi
    exact ⟨by simp,(hs i hi.2).2⟩
  | destroy l ts hl hg hts =>
    intro i hi
    refine ⟨?_,?_⟩
    · rintro rfl
      cases hg.1
    · rcases hts with rfl | rfl
      · exact (hs i hi).2
      · rfl

theorem keeps_once (h : Move s orderly u)
    (hs : (s.executed : Multiset τ) + ∑ i, (s.pc i).work = s.started) :
    (u.executed : Multiset τ) + ∑ i, (u.pc i).work = u.started := by
  cases h with
  | drop | push | notifyNobody | touch | stop | destroyStopped | destroy | join => exact hs
  | wake i n hp => exact (work_goto_of_zero (p := .woken) hp rfl rfl) ▸ hs
  | lock i hp =>
    rcases hp with hp | hp
    · exact (work_goto_of_zero (p := .holding) hp rfl rfl) ▸ hs
    · exact (work_goto_of_zero (p := .holding) hp rfl rfl) ▸ hs
  | sleep i hp => exact (work_goto_of_zero (p := .asleep) hp rfl rfl) ▸ hs
  | exit i hp => exact (work_goto_of_zero (p := .exited) hp rfl rfl) ▸ hs
  | start i t rest hp =>
    have hsum : ∑ j, ((s.goto i (.running t)).pc j).work = ∑ j, (s.pc j).work + {t} := by
      simpa [hp, Pc.work] using work_goto (s := s) (i := i) (p := .running t)
    calc (s.executed : Multiset τ) + ∑ j, ((s.goto i (.running t)).pc j).work
        = (s.executed : Multiset τ) + ∑ j, (s.pc j).work + {t} := by rw [hsum, add_assoc]
      _ = ((s.started ++ [t] : List τ) : Multiset τ) := by rw [hs]; rfl
  | finish i t hp =>
    have hsum : ∑ j, ((s.goto i .top).pc j).work + {t} = ∑ j, (s.pc j).work := by
      simpa [hp, Pc.work] using work_goto (s := s) (i := i) (p := .top)
    calc ((s.executed ++ [t] : List τ) : Multiset τ) + ∑ j, ((s.goto i .top).pc j).work
        = (s.executed : Multiset τ) + (∑ j, ((s.goto i .top).pc j).work + {t}) := by
          rw [← Multiset.coe_add, add_assoc, add_comm (([t] : List τ) : Multiset τ)]
          rfl
      _ = s.started := by rw [hsum, hs]
  | notifyAll hl => simpa using hs

theorem keeps_seen (hk : 0 < k) (h : Move s orderly u) (hs : Base s) :
    u.tasks ≠ [] → 0 < u.notifies ∨ ∃ i, (u.pc i).isAwake = true := by
  cases h with
  | drop | touch | stop | destroyStopped | join => exact hs.seen
  | push => exact fun _ => Or.inl (Nat.succ_pos _)
  | wake | lock | start | finish => exact fun _ => Or.inr (awake_goto rfl)
  | sleep i hp ht | exit i hp ht => exact fun hne => absurd ht hne
  | notifyNobody hall =>
    intro hne
    have hnot : (s.pc ⟨0,hk⟩).isExited = false := by
      by_contra hx
      exact hne (hs.exited _ (eq_exited (by simpa using hx))).2
    exact Or.inr ⟨⟨0,hk⟩,by simp [Pc.isAwake, hall, hnot]⟩
  | notifyAll hl =>
    intro hne
    rcases hs.seen hne with h | ⟨i,hi⟩
    · exact Or.inl h
    · exact Or.inr ⟨i,wake_isAwake hi⟩
  | destroy l ts hl hg hts =>
    rcases hts with rfl | rfl
    · exact hs.seen
    · exact fun hne => absurd rfl hne

theorem keeps_base (hk : 0 < k) (h : Move s orderly u) (hs : Base s) : Base u :=
  ⟨h.keeps_held hs.held,h.keeps_asleep hs.asleep,h.keeps_exited hs.exited,h.keeps_once hs.once,h.keeps_seen hk hs⟩

theorem keeps_inv (hk : 0 < k) (h : Move s orderly u) (ho : orderly) (hs : Inv s) : Inv u := by
  have hbase := h.keeps_base hk hs.base
  obtain ⟨hs,hgone,horder,htouch⟩ := hs
  -- while a worker has not returned, `cond_` exists
  have hstays : ∀ i {p : Pc τ}, (s.pc i).isExited = false →
      s.life.noCond = true → ∀ j, ((s.goto i p).pc j).isExited = true := by
    intro i p hi hl
    rw [hgone hl i] at hi
    cases hi
  cases h with
  | drop | notifyNobody => exact ⟨hbase,hgone,horder,htouch⟩
  | push t hl =>
    refine ⟨hbase,hgone,?_,htouch⟩
    dsimp only
    rw [← horder, List.append_assoc]
  | wake i n hp => exact ⟨hbase,hstays i (by rw [hp]; rfl),horder,htouch⟩
  | touch i hp hl =>
    rw [hgone hl i] at hp
    cases hp
  | lock i hp => exact ⟨hbase,hstays i (by rcases hp with hp | hp <;> rw [hp] <;> rfl),horder,htouch⟩
  | start i t rest hp ht =>
    refine ⟨hbase,hstays i (by rw [hp]; rfl),?_,htouch⟩
    change s.started ++ [t] ++ rest = s.accepted
    rw [← horder, ht, List.append_assoc]
    rfl
  | sleep i hp | exit i hp => exact ⟨hbase,hstays i (by rw [hp]; rfl),horder,htouch⟩
  | finish i t hp => exact ⟨hbase,hstays i (by rw [hp]; rfl),horder,htouch⟩
  | stop | notifyAll | destroyStopped => exact ⟨hbase,by simp [Life.noCond],horder,htouch⟩
  | destroy l ts hl hg hts hall =>
    -- the workers have returned, so there is nothing left to destroy in the queue
    have hempty : s.tasks = [] := (hs.exited ⟨0,hk⟩ (eq_exited (hall ho _))).2
    refine ⟨hbase,fun _ => hall ho,?_,htouch⟩
    rcases hts with rfl | rfl
    · exact horder
    · rwa [hempty] at horder
  | join hl hall => exact ⟨hbase,fun _ => hall,horder,htouch⟩

end Move

theorem initial_base : Base ({} : State τ k) :=
  ⟨by simp,by simp,by simp,by simp [Pc.work],by simp⟩

theorem initial_inv : Inv ({} : State τ k) := ⟨initial_base,by simp [Life.noCond],rfl,rfl⟩

theorem Inv.serves (hk : 0 < k) (hs : Inv s) : Serves s where
  order := ⟨s.tasks,hs.order⟩
  once := hs.base.once
  untouched := hs.untouched
  seen := hs.base.seen
  all := by
    intro hl
    have hall : ∀ i, s.pc i = .exited := fun i => eq_exited (hs.gone (by rw [hl]; rfl) i)
    have hstarted : s.started = s.accepted := by
      have horder := hs.order
      rwa [(hs.base.exited ⟨0,hk⟩ (hall _)).2, List.append_nil] at horder
    have honce := hs.base.once
    simp only [hall, Pc.work, Finset.sum_const_zero, add_zero, hstarted] at honce
    exact Multiset.coe_eq_coe.mp honce

/-- A worker inside the lock goes on to use `cond_`. -/
theorem touch_of_holding {i : Fin k} (hl : s.life.noCond = true) (hi : s.pc i = .holding) :
    ∃ more v, exec step s more = some v ∧ v.touched = true :=
  ⟨[.worker i],{ s with touched := true },by simp [exec, step, State.advanceWorker, hi, hl],rfl⟩

/-- A worker at the top of its loop, or the one that holds the lock, gets to `cond_`. -/
theorem touch_of_top {i : Fin k} (hs : Base s) (hl : s.life.noCond = true) (hi : s.pc i = .top) :
    ∃ more v, exec step s more = some v ∧ v.touched = true := by
  by_cases hlock : s.locked = true
  · obtain ⟨j,hj⟩ := hs.held hlock
    exact touch_of_holding hl hj
  · cases hm : s.life.noMutex with
    | true =>
      exact ⟨[.worker i],{ s with touched := true },
        by simp [exec, step, State.advanceWorker, State.lock, hi, hm],rfl⟩
    | false =>
      have hstep : step s (.worker i) = some { s.goto i .holding with locked := true } := by
        simp [step, State.advanceWorker, State.lock, hi, hm, hlock]
      obtain ⟨more,v,hv,ht⟩ := touch_of_holding (s := { s.goto i .holding with locked := true }) (i := i) hl
        (by simp [State.goto])
      exact ⟨.worker i :: more,v,exec_cons_eq_some.mpr ⟨_,hstep,hv⟩,ht⟩

/-- Once `cond_` is gone every worker that has not returned is a danger. -/
theorem touch_of_gone {i : Fin k} (hk : 0 < k) (hs : Base s) (hl : s.life.noCond = true)
    (hi : (s.pc i).isExited = false) : ∃ more v, exec step s more = some v ∧ v.touched = true := by
  cases hp : s.pc i with
  | top => exact touch_of_top hs hl hp
  | holding => exact touch_of_holding hl hp
  | asleep =>
    rcases hs.asleep i hp with h | h <;> rw [h] at hl <;> cases hl
  | woken =>
    exact ⟨[.worker i],{ s with touched := true },
      by simp [exec, step, State.advanceWorker, State.lock, hp, hl],rfl⟩
  | running t =>
    have hstep : step s (.worker i) = some { s.goto i .top with executed := s.executed ++ [t] } := by
      simp [step, State.advanceWorker, hp]
    have hbase := (step_move hstep).keeps_base hk hs
    obtain ⟨more,v,hv,ht⟩ := touch_of_top (i := i) hbase hl (by simp [State.goto])
    exact ⟨.worker i :: more,v,exec_cons_eq_some.mpr ⟨_,hstep,hv⟩,ht⟩
  | exited =>
    rw [hp] at hi
    cases hi

theorem touch_after (hk : 0 < k) (hs : Base s) (hbad : ¬ Orderly s a) (hu : step s a = some u) :
    ∃ more v, exec step u more = some v ∧ v.touched = true := by
  have hbase := (step_move hu).keeps_base hk hs
  cases a with
  | destructor =>
    simp only [Orderly, Classical.not_imp, not_forall, Bool.not_eq_true] at hbad
    obtain ⟨hl,i,hi⟩ := hbad
    change s.advanceDestructor = some u at hu
    unfold State.advanceDestructor at hu
    rcases hl with hl | hl | hl <;> rw [hl] at hu <;> cases hu <;> exact touch_of_gone hk hbase rfl hi
  | submit | notifyOne | worker | spurious => exact absurd trivial hbad

end Steps

/-- A pool whose members are destroyed only after its workers have returned does what it
promises in every state of its life. Where a member is destroyed too early, the run can go on
to a worker that uses it. -/
theorem tasks_executed_once (hk : 0 < k) (as : List (Act τ k)) :
    (Along step Orderly {} as → ∀ s, Visits step {} as s → Serves s) ∧
    ∀ s u a, exec step {} as = some s → ¬ Orderly s a → step s a = some u →
      ∃ more v, exec step u more = some v ∧ v.touched = true := by
  refine ⟨?_,?_⟩
  · intro hgood s hv
    have hinv : Inv s := visits_invariant
      (fun s a u hs ho hu => (step_move hu).keeps_inv hk ho hs) initial_inv hgood hv
    exact hinv.serves hk
  · intro s u a hs hbad hu
    have hbase : Base s :=
      exec_of_steps (fun s a u hs hu => (step_move hu).keeps_base hk hs) initial_base hs
    exact touch_after hk hbase hbad hu

/-- Two workers, two tasks, and a destructor that comes late. -/
def drainedPool : List (Act ℕ 2) :=
  [.submit (some 5),.notifyOne none,.worker 0,.submit none,.worker 0,.submit (some 6),.worker 1,.worker 1,
    .destructor,.submit (some 7),.worker 1,.worker 0,.worker 0,.worker 0,.worker 1,.worker 1,.destructor,
    .destructor,.destructor,.destructor,.destructor,.destructor]

theorem tasks_executed_once_drained :
    ∃ s, exec step ({} : State ℕ 2) drainedPool = some s ∧ s.life = .joined ∧ s.executed.Perm [5,6] := by
  have hrun : ∃ s, exec step ({} : State ℕ 2) drainedPool = some s ∧ s.life = .joined ∧ s.accepted = [5,6] :=
    ⟨_,rfl,rfl,rfl⟩
  obtain ⟨s,hs,hl,hacc⟩ := hrun
  have hgood : Along step Orderly ({} : State ℕ 2) drainedPool := by decide
  have hserves := (tasks_executed_once (by decide) drainedPool).1 hgood s ⟨_,List.prefix_refl _,hs⟩
  exact ⟨s,hs,hl,hacc ▸ hserves.all hl⟩

/-- The members go while the only worker has not come to its first task. -/
def destroyedEarly : List (Act ℕ 1) :=
  [.submit (some 5),.destructor,.destructor,.destructor,.destructor,.destructor,.destructor,.worker 0]

theorem tasks_lost_and_member_touched :
    ∃ s, exec step ({} : State ℕ 1) destroyedEarly = some s ∧ s.accepted = [5] ∧ s.started = [] ∧ s.tasks = [] ∧
      s.touched = true ∧ ¬ Serves s := by
  have hrun : ∃ s, exec step ({} : State ℕ 1) destroyedEarly = some s ∧ s.accepted = [5] ∧ s.started = [] ∧
      s.tasks = [] ∧ s.touched = true := ⟨_,rfl,rfl,rfl,rfl,rfl⟩
  obtain ⟨s,hs,hacc,hstart,htasks,htouch⟩ := hrun
  refine ⟨s,hs,hacc,hstart,htasks,htouch,?_⟩
  intro hserves
  rw [hserves.untouched] at htouch
  cases htouch

end ModernTcp.PoolLife
