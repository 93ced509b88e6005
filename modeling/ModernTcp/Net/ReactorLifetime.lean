import Mathlib.Tactic
import ModernTcp.Lib.Execution

/-! # The life of the reactors at shutdown

`TcpServer::shutdown` shuts the reactors down, destroys them with `sub_reactors_.clear()` and resets
the worker pool only then. A task keeps its connection alive by a `shared_ptr`, but the connection
knows its reactor by a plain pointer. `BaseConnection::send` looks at `running_` first, appends under
the lock and then calls the reactor. A worker between the look and the call may find the reactor gone.
-/
namespace ModernTcp.ReactorLifetime
open Execution

/-- `stopping` is after `request_stop`, `cleaning` behind the loop of `run`; a reactor whose thread
has returned is `exited`. -/
inductive Life
  | running | stopping | cleaning | exited | destroyed
deriving DecidableEq

def Life.over : Life → Bool
  | .exited | .destroyed => true
  | .running | .stopping | .cleaning => false

inductive Status
  | fresh | alive | dead
deriving DecidableEq

/-- Where `TcpServer::shutdown` stands, with the reactors it has yet to shut down or destroy. -/
inductive Main (R : Type*)
  | serving
  | shutting (left : List R)
  | clearing (left : List R)
  | resetting
  | done
deriving DecidableEq

/-- A task up to its own look at `running_`, in the handler, and in `send`: behind the look of `send`
and behind the append that made the output non-empty. The flag is `close_after`. A `send` that
overflows calls `shutdown` with the lock that `shutdown` takes. Here it is `stuck`; where the lock reports the
deadlock instead, `send` logs the exception and the worker goes on without a method of the reactor. -/
inductive Pc (C : Type*)
  | idle
  | taken (c : C) (closeAfter : Bool)
  | handling (c : C) (closeAfter : Bool)
  | sending (c : C) (closeAfter : Bool)
  | notifying (c : C) (closeAfter : Bool)
  | stuck
deriving DecidableEq

variable {R C : Type*} {k : ℕ}

/-- `pending` says that `output_buffer_` is not empty, `touched` that a method of a destroyed reactor
was called. -/
structure State (R C : Type*) (k : ℕ) where
  life : R → Life := fun _ => .running
  connections : R → List C := fun _ => []
  status : C → Status := fun _ => .fresh
  pending : C → Bool := fun _ => false
  tasks : List (C × Bool) := []
  main : Main R := .serving
  pc : Fin k → Pc C := fun _ => .idle
  touched : Bool := false

/-- In the handler a worker may send, shut the connection down, throw, or return with `go`. -/
inductive WorkerAct
  | go | send | shutdown | throws | overflow
deriving DecidableEq

inductive Act (R C : Type*) (k : ℕ)
  | addConnection (c : C)
  | handleRead (c : C) (closeAfter : Bool)
  | handleWrite (c : C)
  | closeConnection (c : C)
  | clearBuffers (c : C)
  | leaveLoop (r : R)
  | threadReturns (r : R)
  | shutdown
  | worker (w : Fin k) (a : WorkerAct)
deriving DecidableEq

section Model
variable [DecidableEq R] [DecidableEq C] (owner : C → R)

namespace State

def goto (s : State R C k) (w : Fin k) (p : Pc C) : State R C k := { s with pc := Function.update s.pc w p }

def setStatus (s : State R C k) (c : C) (v : Status) : State R C k := { s with status := Function.update s.status c v }

def setLife (s : State R C k) (r : R) (v : Life) : State R C k := { s with life := Function.update s.life r v }

/-- The reactor of `c` is in the loop of `run`, and holds `c`. -/
def Serves (s : State R C k) (c : C) : Prop :=
  (s.life (owner c) = .running ∨ s.life (owner c) = .stopping) ∧ c ∈ s.connections (owner c)

instance (s : State R C k) (c : C) : Decidable (s.Serves owner c) := inferInstanceAs (Decidable (_ ∧ _))

def advanceWorker (s : State R C k) (w : Fin k) (a : WorkerAct) : Option (State R C k) :=
  match s.pc w, a with
  | .idle, .go =>
    match s.tasks with
    | [] => none
    | (c,closeAfter) :: rest => some { s.goto w (.taken c closeAfter) with tasks := rest }
  | .taken c closeAfter, .go => some (s.goto w (if s.status c = .alive then .handling c closeAfter else .idle))
  | .handling c closeAfter, .send =>
    some (if s.status c = .alive then s.goto w (.sending c closeAfter) else s)
  | .handling c _, .shutdown => some (s.setStatus c .dead)
  -- what comes after an exception, a `send` and `shutdown`, is what a handler does that closes
  | .handling c _, .throws => some (s.goto w (.handling c true))
  | .handling c closeAfter, .go => some ((if closeAfter then s.setStatus c .dead else s).goto w .idle)
  | .sending c closeAfter, .go =>
    some (if s.pending c then s.goto w (.handling c closeAfter)
      else { s.goto w (.notifying c closeAfter) with pending := Function.update s.pending c true })
  | .sending c _, .overflow => some ((s.setStatus c .dead).goto w .stuck)
  | .notifying c closeAfter, .go =>
    some { s.goto w (.handling c closeAfter) with touched := s.touched || s.life (owner c) = .destroyed }
  | _, _ => none

/-- `TcpServer::shutdown` behind the join of the accept thread. `SubReactor::shutdown` requests the stop
and joins; by then the thread has closed all connections. The destructor finds `shutdown_done_` set. -/
def advanceMain (reactors : List R) (s : State R C k) : Option (State R C k) :=
  match s.main with
  | .serving => some { s with main := .shutting reactors }
  | .shutting (r :: rest) =>
    match s.life r with
    | .running => some (s.setLife r .stopping)
    | .exited => some { s with main := .shutting rest }
    | .stopping | .cleaning | .destroyed => none
  | .shutting [] => some { s with main := .clearing reactors }
  | .clearing (r :: rest) => some { s.setLife r .destroyed with main := .clearing rest }
  | .clearing [] => some { s with main := .resetting }
  | .resetting => if s.tasks = [] ∧ ∀ w, s.pc w = .idle then some { s with main := .done } else none
  | .done => none

end State

/-- The steps of a reactor need its thread. Buffers of a connection are cleared at some point after
`running_` was reset. -/
def step (reactors : List R) (s : State R C k) : Act R C k → Option (State R C k)
  | .addConnection c =>
    if s.status c = .fresh ∧ (s.life (owner c) = .running ∨ s.life (owner c) = .stopping) then
      some { s.setStatus c .alive with
        connections := Function.update s.connections (owner c) (c :: s.connections (owner c)) }
    else none
  | .handleRead c closeAfter =>
    if s.Serves owner c ∧ s.status c = .alive then some { s with tasks := s.tasks ++ [(c,closeAfter)] } else none
  | .handleWrite c =>
    if s.Serves owner c ∧ s.status c = .alive then some { s with pending := Function.update s.pending c false }
    else none
  | .closeConnection c =>
    if (s.life (owner c)).over = false ∧ c ∈ s.connections (owner c) then
      some { s.setStatus c .dead with
        connections := Function.update s.connections (owner c) ((s.connections (owner c)).filter (· ≠ c)) }
    else none
  | .clearBuffers c =>
    if s.status c = .dead then some { s with pending := Function.update s.pending c false } else none
  -- the loop is left by its test, and early when `epoll_wait` fails
  | .leaveLoop r =>
    if s.life r = .running ∨ s.life r = .stopping then some (s.setLife r .cleaning) else none
  | .threadReturns r =>
    if s.life r = .cleaning ∧ s.connections r = [] then some (s.setLife r .exited) else none
  | .shutdown => s.advanceMain reactors
  | .worker w a => s.advanceWorker owner w a

/-- The worker is about to call the reactor, if it appends to an empty buffer. -/
def Pc.calls (r : R) : Pc C → Prop
  | .sending c _ | .notifying c _ => owner c = r
  | .idle | .taken _ _ | .handling _ _ | .stuck => False

instance (r : R) : ∀ p : Pc C, Decidable (p.calls owner r)
  | .sending c _ | .notifying c _ => inferInstanceAs (Decidable (owner c = r))
  | .idle | .taken _ _ | .handling _ _ | .stuck => inferInstanceAs (Decidable False)

/-- The reactor that the next step of `clear()` destroys. -/
def Main.destroys : Main R → Option R
  | .clearing (r :: _) => some r
  | _ => none

/-- No worker is in the middle of a `send` to a connection of the reactor that is destroyed next. -/
def DestroysUnused (s : State R C k) (a : Act R C k) : Prop :=
  a = .shutdown → ∀ r ∈ s.main.destroys, ∀ w, ¬ (s.pc w).calls owner r

instance (s : State R C k) (a : Act R C k) : Decidable (DestroysUnused owner s a) :=
  inferInstanceAs (Decidable (_ → ∀ r ∈ s.main.destroys, ∀ w, ¬ (s.pc w).calls owner r))

/-- A connection that may still send is held by its reactor, a reactor that has returned holds none,
and nobody is about to call a reactor that is gone. -/
structure Inv (reactors : List R) (s : State R C k) : Prop where
  held : ∀ c, s.status c = .alive → c ∈ s.connections (owner c)
  empty : ∀ r, (s.life r).over = true → s.connections r = []
  shut : ∀ left, s.main = .shutting left → ∀ r ∈ reactors, r ∈ left ∨ (s.life r).over = true
  cleared : ∀ left, s.main = .clearing left → ∀ r ∈ left, (s.life r).over = true
  unused : ∀ r, s.life r = .destroyed → ∀ w, ¬ (s.pc w).calls owner r
  untouched : s.touched = false

end Model

namespace Inv
variable {owner : C → R} {reactors : List R} {s t : State R C k} {w : Fin k} {c : C} {p : Pc C}

theorem goto (hs : Inv owner reactors s) (hp : ∀ r, s.life r = .destroyed → ¬ p.calls owner r) :
    Inv owner reactors (s.goto w p) := by
  refine ⟨hs.held,hs.empty,hs.shut,hs.cleared,?_,hs.untouched⟩
  intro r hr
  exact (Function.forall_update_iff s.pc (fun _ q => ¬ q.calls owner r)).mpr
    ⟨hp r hr,fun x _ => hs.unused r hr x⟩

theorem quiet (hs : Inv owner reactors s) (hp : ∀ r, ¬ p.calls owner r) : Inv owner reactors (s.goto w p) :=
  hs.goto (fun r _ => hp r)

theorem setPending {f : C → Bool} (hs : Inv owner reactors s) : Inv owner reactors { s with pending := f } :=
  ⟨hs.held,hs.empty,hs.shut,hs.cleared,hs.unused,hs.untouched⟩

theorem setTasks {ts : List (C × Bool)} (hs : Inv owner reactors s) : Inv owner reactors { s with tasks := ts } :=
  ⟨hs.held,hs.empty,hs.shut,hs.cleared,hs.unused,hs.untouched⟩

/-- A connection that passes the look of `send` belongs to a reactor that is there. -/
theorem not_destroyed (hs : Inv owner reactors s) (hc : s.status c = .alive) : s.life (owner c) ≠ .destroyed := by
  intro hdestroyed
  have hheld := hs.held c hc
  rw [hs.empty (owner c) (by rw [hdestroyed]; rfl)] at hheld
  cases hheld

variable [DecidableEq C]

theorem kill (hs : Inv owner reactors s) : Inv owner reactors (s.setStatus c .dead) := by
  refine ⟨?_,hs.empty,hs.shut,hs.cleared,hs.unused,hs.untouched⟩
  intro x hx
  have hxc : x ≠ c := by
    rintro rfl
    simp [State.setStatus] at hx
  exact hs.held x (by simpa [State.setStatus, Function.update_of_ne hxc] using hx)

theorem worker {a : WorkerAct} (hs : Inv owner reactors s) (h : s.advanceWorker owner w a = some t) :
    Inv owner reactors t := by
  unfold State.advanceWorker at h
  split at h
  · split at h
    · cases h
    · rename_i c closeAfter rest htasks
      cases h
      exact (hs.quiet (w := w) (p := .taken c closeAfter) (fun _ hcalls => hcalls)).setTasks
  · cases h
    refine hs.quiet ?_
    intro r hcalls
    split_ifs at hcalls
    · exact hcalls
    · exact hcalls
  · cases h
    split_ifs with halive
    · refine hs.goto ?_
      rintro r hr rfl
      exact hs.not_destroyed halive hr
    · exact hs
  · cases h
    exact hs.kill
  · cases h
    exact hs.quiet (fun _ hcalls => hcalls)
  · cases h
    split_ifs
    · exact hs.kill.quiet (fun _ hcalls => hcalls)
    · exact hs.quiet (fun _ hcalls => hcalls)
  · rename_i c closeAfter hpc
    cases h
    split_ifs
    · exact hs.quiet (fun _ hcalls => hcalls)
    · refine (hs.goto (w := w) (p := .notifying c closeAfter) ?_).setPending
      intro r hr hcalls
      refine hs.unused r hr w ?_
      rw [hpc]
      exact hcalls
  · cases h
    exact hs.kill.quiet (fun _ hcalls => hcalls)
  · rename_i c closeAfter hpc
    cases h
    -- the worker has been about to call since its append
    have hthere : s.life (owner c) ≠ .destroyed := by
      intro hdestroyed
      refine hs.unused (owner c) hdestroyed w ?_
      rw [hpc]
      rfl
    have hquiet := hs.quiet (w := w) (p := .handling c closeAfter) (fun _ hcalls => hcalls)
    exact ⟨hquiet.held,hquiet.empty,hquiet.shut,hquiet.cleared,hquiet.unused,by simp [hs.untouched, hthere]⟩
  · cases h

theorem setConnections {l : List C} (hs : Inv owner reactors s) [DecidableEq R]
    (hover : (s.life (owner c)).over = false) {v : Status} (hc : v = .alive → c ∈ l)
    (hl : ∀ x, x ≠ c → x ∈ s.connections (owner c) → x ∈ l) :
    Inv owner reactors { s.setStatus c v with connections := Function.update s.connections (owner c) l } := by
  refine ⟨?_,?_,hs.shut,hs.cleared,hs.unused,hs.untouched⟩
  · intro x hx
    by_cases hxc : x = c
    · subst hxc
      simpa using hc (by simpa [State.setStatus] using hx)
    · have hheld := hs.held x (by simpa [State.setStatus, Function.update_of_ne hxc] using hx)
      by_cases ho : owner x = owner c
      · rw [ho] at hheld ⊢
        simpa using hl x hxc hheld
      · simpa [Function.update_of_ne ho] using hheld
  · intro r hr
    have hne : r ≠ owner c := by
      rintro rfl
      exact absurd (show (s.life (owner c)).over = true from hr) (by simp [hover])
    simpa [Function.update_of_ne hne] using hs.empty r hr

omit [DecidableEq C] in
/-- A reactor that is over stays over, and is over only with its connections closed. -/
theorem setLife [DecidableEq R] {r : R} {v : Life} (hs : Inv owner reactors s)
    (hover : (s.life r).over = true → v.over = true) (hempty : v.over = true → s.connections r = [])
    (hunused : v = .destroyed → ∀ w, ¬ (s.pc w).calls owner r) : Inv owner reactors (s.setLife r v) := by
  have hkeep : ∀ x, (s.life x).over = true → ((s.setLife r v).life x).over = true :=
    (Function.forall_update_iff s.life (fun x l => (s.life x).over = true → l.over = true)).mpr
      ⟨hover,fun x _ hx => hx⟩
  refine ⟨hs.held,?_,?_,?_,?_,hs.untouched⟩
  · exact (Function.forall_update_iff s.life (fun x l => l.over = true → s.connections x = [])).mpr
      ⟨hempty,fun x _ => hs.empty x⟩
  · intro left hmain x hx
    exact (hs.shut left hmain x hx).imp_right (hkeep x)
  · intro left hmain x hx
    exact hkeep x (hs.cleared left hmain x hx)
  · exact (Function.forall_update_iff s.life (fun x l => l = .destroyed → ∀ w, ¬ (s.pc w).calls owner x)).mpr
      ⟨hunused,fun x _ => hs.unused x⟩

omit [DecidableEq C] in
theorem setMain {m : Main R} (hs : Inv owner reactors s)
    (hshut : ∀ left, m = .shutting left → ∀ r ∈ reactors, r ∈ left ∨ (s.life r).over = true)
    (hcleared : ∀ left, m = .clearing left → ∀ r ∈ left, (s.life r).over = true) :
    Inv owner reactors { s with main := m } :=
  ⟨hs.held,hs.empty,hshut,hcleared,hs.unused,hs.untouched⟩

theorem main [DecidableEq R] (hs : Inv owner reactors s)
    (hunused : ∀ r ∈ s.main.destroys, ∀ w, ¬ (s.pc w).calls owner r)
    (h : s.advanceMain reactors = some t) : Inv owner reactors t := by
  unfold State.advanceMain at h
  split at h
  · cases h
    refine hs.setMain ?_ (fun _ hm => by cases hm)
    rintro left ⟨⟩ r hr
    exact Or.inl hr
  · rename_i r rest hmain
    split at h
    · rename_i hlife
      cases h
      refine hs.setLife ?_ (fun hv => by cases hv) (fun hv => by cases hv)
      rw [hlife]
      exact id
    · rename_i hlife
      cases h
      refine hs.setMain ?_ (fun _ hm => by cases hm)
      rintro left ⟨⟩ x hx
      rcases hs.shut _ hmain x hx with hleft | hover
      · rcases List.mem_cons.mp hleft with rfl | hrest
        · exact Or.inr (by rw [hlife]; rfl)
        · exact Or.inl hrest
      · exact Or.inr hover
    · cases h
    · cases h
    · cases h
  · rename_i hmain
    cases h
    refine hs.setMain (fun _ hm => by cases hm) ?_
    rintro left ⟨⟩ r hr
    exact (hs.shut _ hmain r hr).resolve_left List.not_mem_nil
  · rename_i r rest hmain
    cases h
    have hover := hs.cleared _ hmain r List.mem_cons_self
    have hgone := hs.setLife (r := r) (v := .destroyed) (fun _ => rfl) (fun _ => hs.empty r hover)
      (fun _ => hunused r (by rw [hmain]; rfl))
    refine hgone.setMain (fun _ hm => by cases hm) ?_
    rintro left ⟨⟩ x hx
    exact hgone.cleared _ hmain x (List.mem_cons_of_mem r hx)
  · cases h
    exact hs.setMain (fun _ hm => by cases hm) (fun _ hm => by cases hm)
  · split_ifs at h
    cases h
    exact hs.setMain (fun _ hm => by cases hm) (fun _ hm => by cases hm)
  · cases h

end Inv

variable {owner : C → R} {reactors : List R}

theorem initial_inv : Inv owner reactors ({} : State R C k) where
  held c hc := by cases hc
  empty r hr := by cases hr
  shut left hmain := by cases hmain
  cleared left hmain := by cases hmain
  unused r hr := by cases hr
  untouched := rfl

variable [DecidableEq R] [DecidableEq C]

theorem step_inv {s t : State R C k} {a : Act R C k} (hs : Inv owner reactors s)
    (hunused : DestroysUnused owner s a) (h : step owner reactors s a = some t) : Inv owner reactors t := by
  cases a with
  | addConnection c =>
    simp only [step] at h
    split_ifs at h with hc
    cases h
    refine hs.setConnections ?_ (fun _ => List.mem_cons_self) (fun x _ hx => List.mem_cons_of_mem c hx)
    rcases hc.2 with hlife | hlife
    · rw [hlife]
      rfl
    · rw [hlife]
      rfl
  | handleRead c closeAfter =>
    simp only [step] at h
    split_ifs at h
    cases h
    exact hs.setTasks
  | handleWrite c | clearBuffers c =>
    simp only [step] at h
    split_ifs at h
    cases h
    exact hs.setPending
  | closeConnection c =>
    simp only [step] at h
    split_ifs at h with hc
    cases h
    refine hs.setConnections hc.1 (fun hv => by cases hv) ?_
    intro x hxc hx
    simpa using ⟨hx,hxc⟩
  | leaveLoop r =>
    simp only [step] at h
    split_ifs at h with hlife
    cases h
    refine hs.setLife ?_ (fun hv => by cases hv) (fun hv => by cases hv)
    rcases hlife with hlife | hlife
    · rw [hlife]
      exact id
    · rw [hlife]
      exact id
  | threadReturns r =>
    simp only [step] at h
    split_ifs at h with hr
    cases h
    exact hs.setLife (fun _ => rfl) (fun _ => hr.2) (fun hv => by cases hv)
  | shutdown => exact hs.main (hunused rfl) h
  | worker w a => exact hs.worker h

/-- No worker calls a reactor that is gone, when each is destroyed with no `send` to its connections
under way. -/
theorem reactors_outlive_users {as : List (Act R C k)}
    (hunused : Along (step owner reactors) (DestroysUnused owner) {} as) {s : State R C k}
    (hs : Visits (step owner reactors) {} as s) : s.touched = false :=
  (visits_invariant (fun _ _ _ hI hP hstep => step_inv hI hP hstep) initial_inv hunused hs).untouched

/-- The task of a connection that closes has sent its answer when the reactor goes, and a task still
queued then finds its connection dead. -/
def drained : List (Act Unit (Fin 2) 1) :=
  [.addConnection 0,.addConnection 1,.handleRead 0 true,.handleRead 1 false,.worker 0 .go,.worker 0 .go,.worker 0 .send,
    .worker 0 .go,.worker 0 .go,.shutdown,.shutdown,.leaveLoop (),.closeConnection 0,.closeConnection 1,
    .threadReturns (),.shutdown,.shutdown,.shutdown,.worker 0 .send,.worker 0 .go,.worker 0 .go,.worker 0 .go,
    .shutdown,.shutdown]

theorem reactors_outlive_users_drained : ∃ s : State Unit (Fin 2) 1,
    exec (step (fun _ => ()) [()]) {} drained = some s ∧ s.life () = .destroyed ∧ s.main = .done ∧
      s.touched = false := by
  have hrun : (exec (step (fun _ => ()) [()]) {} drained).map
      (fun s : State Unit (Fin 2) 1 => (s.life (),s.main)) = some (.destroyed,.done) := by decide
  obtain ⟨s,hs,hend⟩ := Option.map_eq_some_iff.mp hrun
  refine ⟨s,hs,congrArg Prod.fst hend,congrArg Prod.snd hend,?_⟩
  exact reactors_outlive_users (show Along _ (DestroysUnused (fun _ => ())) {} drained by decide)
    ⟨_,List.prefix_refl _,hs⟩

/-- The worker looked at `running_` before the reactor closed the connection, and appends after the
reactor is gone. -/
theorem destroyed_reactor_called : ∃ s : State Unit Unit 1, exec (step (fun _ => ()) [()]) {}
    [.addConnection (),.handleRead () false,.worker 0 .go,.worker 0 .go,.worker 0 .send,.shutdown,.shutdown,
      .leaveLoop (),.closeConnection (),.clearBuffers (),.threadReturns (),.shutdown,.shutdown,.shutdown,
      .worker 0 .go,.worker 0 .go] = some s ∧ s.touched = true := by
  refine ⟨_,rfl,?_⟩
  rfl

end ModernTcp.ReactorLifetime
