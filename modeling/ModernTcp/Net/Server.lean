import ModernTcp.Lib.Threads
import ModernTcp.Net.Descriptors

/-! # The accept loop and its reactors

`TcpServer` and its `SubReactor`s: the accept loop hands every new connection to a reactor as
a functor and wakes it through its eventfd; a reactor works through the events of one
`epoll_wait` and then through its functors. `connections_` belongs to the thread of its
reactor; the descriptor table, the functor queues, the eventfds and the counter of active
connections are shared. Workers, timers of other threads and late system calls of a teardown
are steps of a thread of their own.
-/
namespace ModernTcp.Server
open Descriptors (Fate)

inductive Event
  | wake | timer | ready (fd : ℕ)
deriving DecidableEq

inductive Functor
  | add (fd id : ℕ) | enableWriting (fd : ℕ)
deriving DecidableEq

/-- Who has the connection: the accept loop, a functor of a reactor, a reactor, or nobody who
would still register it. -/
inductive Stage (R : ℕ)
  | accepted | queued (r : Fin R) | registered (r : Fin R) | released
deriving DecidableEq

structure Shared (R : ℕ) where
  desc : Descriptors.State := {}
  stage : ℕ → Stage R := fun _ => .released
  active : ℤ := 0
  nextReactorIndex : ℕ := 0
  queue : Fin R → List Functor := fun _ => []
  wake : Fin R → ℕ := fun _ => 0

/-- Where the accept loop stands: a descriptor is to be checked against the limit, its functor
is to be queued, or the reactor is to be woken. -/
inductive Acceptor (R : ℕ)
  | idle | accepted (id : ℕ) (fate : Fate) | adding (id : ℕ) | pushed (r : Fin R)
deriving DecidableEq

/-- Where the loop of `SubReactor::run` stands. `loop` has the connections that `check_timeouts`
found expired and the rest of the batch; `handled` comes back from the handlers of a
connection; `erased` and `closing` are inside `close_connection`; `inserted` is between the two
effects of an add functor. -/
inductive Pc
  | waiting
  | loop (expired : List ℕ) (batch : List Event) (needPending : Bool)
  | handled (fd id : ℕ) (batch : List Event) (needPending : Bool)
  | erased (fd id : ℕ) (expired : List ℕ) (batch : List Event) (needPending : Bool)
  | closing (expired : List ℕ) (batch : List Event) (needPending : Bool)
  | functors (fs : List Functor)
  | inserted (fs : List Functor)
deriving DecidableEq

/-- What only the thread of a reactor touches, and the sockets in its epoll instance. -/
structure Reactor where
  connections : List (ℕ × ℕ) := []
  interest : List ℕ := []
  pc : Pc := .waiting
deriving DecidableEq

inductive Thread (R : ℕ)
  | acceptor | reactor (r : Fin R) | outside
deriving DecidableEq

inductive Control (R : ℕ)
  | acceptor (p : Acceptor R) | reactor (l : Reactor) | outside

inductive Act (R : ℕ)
  | accept (fd : ℕ) (fate : Fate)
  | harvest (batch : List Event)
  | go
  | expire (fds : List ℕ)
  | handle (dies linger : Bool)
  | linger (ok : Bool)
  | worker (id : ℕ) (linger : Bool)
  | post (r : Fin R) (fd : ℕ)
  | syscall (id : ℕ)
  | release (id : ℕ) (linger : Bool)
deriving DecidableEq

section Model
variable {R : ℕ}

def Shared.running (m : Shared R) (id : ℕ) : Bool := (m.desc.conn id).running

/-- `shutdown` of a connection, by whichever thread. -/
def Shared.shutdown (m : Shared R) (id : ℕ) (linger : Bool) : Shared R :=
  match Descriptors.step m.desc (.shutdown id linger) with
  | some d => { m with desc := d }
  | none => m

def Shared.setStage (m : Shared R) (id : ℕ) (stage : Stage R) : Shared R :=
  { m with stage := Function.update m.stage id stage }

@[simp] theorem shutdown_stage (m : Shared R) (id : ℕ) (linger : Bool) :
    (m.shutdown id linger).stage = m.stage := by
  unfold Shared.shutdown
  split <;> rfl

@[simp] theorem shutdown_queue (m : Shared R) (id : ℕ) (linger : Bool) :
    (m.shutdown id linger).queue = m.queue := by
  unfold Shared.shutdown
  split <;> rfl

@[simp] theorem shutdown_active (m : Shared R) (id : ℕ) (linger : Bool) :
    (m.shutdown id linger).active = m.active := by
  unfold Shared.shutdown
  split <;> rfl

/-- The comparison of `check_connection_limit` is one of unsigned 64-bit numbers. -/
def Shared.limitAllows (m : Shared R) (maxConnections : ℕ) : Prop :=
  maxConnections = 0 ∨ m.active % 2 ^ 64 < maxConnections

instance (m : Shared R) (maxConnections : ℕ) : Decidable (m.limitAllows maxConnections) :=
  inferInstanceAs (Decidable (_ ∨ _))

/-- Push a functor under `pending_mutex_`. -/
def Shared.push (m : Shared R) (r : Fin R) (f : Functor) : Shared R :=
  { m with queue := Function.update m.queue r (m.queue r ++ [f]) }

def Shared.notify (m : Shared R) (r : Fin R) : Shared R :=
  { m with wake := Function.update m.wake r (m.wake r + 1) }

def advanceAcceptor (maxConnections : ℕ) (m : Shared R) : Acceptor R → Act R → Option (Shared R × Acceptor R)
  | .idle, .accept fd fate =>
    match Descriptors.step m.desc (.accept fd fate) with
    | some d => some ({ m with desc := d }.setStage m.desc.count .accepted,.accepted m.desc.count fate)
    | none => none
  | .accepted id fate, .go =>
    if fate ≠ .refused ∧ ¬ m.limitAllows maxConnections then none
    else if fate = .connection then some (m,.adding id)
    -- `add_connection` is called for it with the next index, but does not take it over
    else if fate = .notAdded then
      some ({ m.setStage id .released with nextReactorIndex := m.nextReactorIndex + 1 },.idle)
    else some (m.setStage id .released,.idle)
  | .adding id, .go =>
    if h : 0 < R then
      let r : Fin R := ⟨m.nextReactorIndex % R,Nat.mod_lt _ h⟩
      let queued := (m.push r (.add (m.desc.conn id).fd id)).setStage id (.queued r)
      some ({ queued with nextReactorIndex := m.nextReactorIndex + 1 },.pushed r)
    else none
  | .pushed r, .go => some (m.notify r,.idle)
  | _, _ => none

def Reactor.find (l : Reactor) (fd : ℕ) : Option ℕ := (l.connections.find? (fun e => e.1 = fd)).map Prod.snd

def Reactor.goto (l : Reactor) (pc : Pc) : Reactor := { l with pc }

/-- The start of `close_connection`: the entry leaves the map. -/
def Reactor.closeConnection (m : Shared R) (l : Reactor) (fd : ℕ) (expired : List ℕ) (batch : List Event)
    (needPending : Bool) : Shared R × Reactor :=
  match l.find fd with
  | none => (m,l.goto (.loop expired batch needPending))
  | some id => (m.setStage id .released,
      { l with
        connections := l.connections.filter (fun e => e.1 ≠ fd)
        pc := .erased fd id expired batch needPending })

/-- `epoll_ctl` finds its target through the descriptor table. -/
def Reactor.epollDel (m : Shared R) (l : Reactor) (fd : ℕ) : Reactor :=
  { l with interest := l.interest.filter (fun j => m.desc.table fd ≠ some j) }

/-- The add functor. `epoll_add` throws for a closed or an already registered socket. -/
def Reactor.runAdd (r : Fin R) (m : Shared R) (l : Reactor) (fd id : ℕ) (linger : Bool) (fs : List Functor) :
    Shared R × Reactor :=
  if m.running id = false then (m.setStage id .released,l.goto (.functors fs))
  else match m.desc.table fd with
    | none => ((m.shutdown id linger).setStage id .released,l.goto (.functors fs))
    | some j =>
      if j ∈ l.interest then ((m.shutdown id linger).setStage id .released,l.goto (.functors fs))
      else if (l.find fd).isSome then
        (m.setStage id .released,{ l with interest := j :: l.interest, pc := .functors fs })
      else (m.setStage id (.registered r),
        { l with
          interest := j :: l.interest
          connections := l.connections ++ [(fd,id)]
          pc := .inserted fs })

def advanceReactor (r : Fin R) (m : Shared R) (l : Reactor) : Act R → Option (Shared R × Reactor)
  | .harvest batch =>
    if l.pc = .waiting ∧ (.wake ∈ batch → 0 < m.wake r) then some (m,l.goto (.loop [] batch false)) else none
  | .expire fds =>
    match l.pc with
    | .loop [] (.timer :: batch) needPending => some (m,l.goto (.loop fds batch needPending))
    | _ => none
  | .handle dies linger =>
    match l.pc with
    | .loop [] (.ready fd :: batch) needPending =>
      match l.find fd with
      | none => some (m,l.goto (.loop [] batch needPending))
      | some id =>
        if m.running id then
          some (if dies then m.shutdown id linger else m,l.goto (.handled fd id batch needPending))
        else some (l.closeConnection m fd [] batch needPending)
    | _ => none
  | .linger ok =>
    match l.pc with
    | .erased fd id expired batch needPending =>
      some (m.shutdown id ok,(l.epollDel m fd).goto (.closing expired batch needPending))
    | .functors (.add fd id :: fs) => some (l.runAdd r m fd id ok fs)
    | _ => none
  | .go =>
    match l.pc with
    | .loop (fd :: expired) batch needPending => some (l.closeConnection m fd expired batch needPending)
    | .loop [] (.wake :: batch) _ =>
      some ({ m with wake := Function.update m.wake r 0 },l.goto (.loop [] batch true))
    | .loop [] [] true =>
      some ({ m with queue := Function.update m.queue r [] },l.goto (.functors (m.queue r)))
    | .loop [] [] false => some (m,l.goto .waiting)
    | .handled fd id batch needPending =>
      if m.running id then some (m,l.goto (.loop [] batch needPending))
      else some (l.closeConnection m fd [] batch needPending)
    | .closing expired batch needPending =>
      some ({ m with active := m.active - 1 },l.goto (.loop expired batch needPending))
    | .functors (.enableWriting _ :: fs) => some (m,l.goto (.functors fs))
    | .functors [] => some (m,l.goto .waiting)
    | .inserted fs => some ({ m with active := m.active + 1 },l.goto (.functors fs))
    | _ => none
  | _ => none

/-- Everything a step of a reactor can be. -/
inductive ReactorStep (r : Fin R) (m : Shared R) (l : Reactor) : Shared R → Reactor → Prop
  | harvest {batch : List Event} (hpc : l.pc = .waiting) (hwake : .wake ∈ batch → 0 < m.wake r) :
    ReactorStep r m l m (l.goto (.loop [] batch false))
  | expire {batch : List Event} {needPending : Bool} (fds : List ℕ)
    (hpc : l.pc = .loop [] (.timer :: batch) needPending) : ReactorStep r m l m (l.goto (.loop fds batch needPending))
  | skip {fd : ℕ} {batch : List Event} {needPending : Bool} (hpc : l.pc = .loop [] (.ready fd :: batch) needPending)
    (hfind : l.find fd = none) : ReactorStep r m l m (l.goto (.loop [] batch needPending))
  | handle {fd id : ℕ} {batch : List Event} {needPending : Bool} (dies linger : Bool)
    (hpc : l.pc = .loop [] (.ready fd :: batch) needPending) (hfind : l.find fd = some id)
    (hrun : m.running id = true) :
    ReactorStep r m l (if dies then m.shutdown id linger else m) (l.goto (.handled fd id batch needPending))
  | closeDead {fd : ℕ} {batch : List Event} {needPending : Bool}
    (hpc : l.pc = .loop [] (.ready fd :: batch) needPending) :
    ReactorStep r m l (l.closeConnection m fd [] batch needPending).1 (l.closeConnection m fd [] batch needPending).2
  | closeExpired {fd : ℕ} {expired : List ℕ} {batch : List Event} {needPending : Bool}
    (hpc : l.pc = .loop (fd :: expired) batch needPending) :
    ReactorStep r m l (l.closeConnection m fd expired batch needPending).1
      (l.closeConnection m fd expired batch needPending).2
  | closeHandled {fd id : ℕ} {batch : List Event} {needPending : Bool}
    (hpc : l.pc = .handled fd id batch needPending) (hrun : m.running id = false) :
    ReactorStep r m l (l.closeConnection m fd [] batch needPending).1 (l.closeConnection m fd [] batch needPending).2
  | proceed {fd id : ℕ} {batch : List Event} {needPending : Bool} (hpc : l.pc = .handled fd id batch needPending)
    (hrun : m.running id = true) : ReactorStep r m l m (l.goto (.loop [] batch needPending))
  | leave {fd id : ℕ} {expired : List ℕ} {batch : List Event} {needPending : Bool} (ok : Bool)
    (hpc : l.pc = .erased fd id expired batch needPending) :
    ReactorStep r m l (m.shutdown id ok) ((l.epollDel m fd).goto (.closing expired batch needPending))
  | uncount {expired : List ℕ} {batch : List Event} {needPending : Bool}
    (hpc : l.pc = .closing expired batch needPending) :
    ReactorStep r m l { m with active := m.active - 1 } (l.goto (.loop expired batch needPending))
  | wake {batch : List Event} {needPending : Bool} (hpc : l.pc = .loop [] (.wake :: batch) needPending) :
    ReactorStep r m l { m with wake := Function.update m.wake r 0 } (l.goto (.loop [] batch true))
  | swap (hpc : l.pc = .loop [] [] true) :
    ReactorStep r m l { m with queue := Function.update m.queue r [] } (l.goto (.functors (m.queue r)))
  | wait (hpc : l.pc = .loop [] [] false ∨ l.pc = .functors []) : ReactorStep r m l m (l.goto .waiting)
  | add {fd id : ℕ} {fs : List Functor} (linger : Bool) (hpc : l.pc = .functors (.add fd id :: fs)) :
    ReactorStep r m l (l.runAdd r m fd id linger fs).1 (l.runAdd r m fd id linger fs).2
  | enableWriting {fd : ℕ} {fs : List Functor} (hpc : l.pc = .functors (.enableWriting fd :: fs)) :
    ReactorStep r m l m (l.goto (.functors fs))
  | count {fs : List Functor} (hpc : l.pc = .inserted fs) :
    ReactorStep r m l { m with active := m.active + 1 } (l.goto (.functors fs))

theorem reactorStep_of_advance {r : Fin R} {m m' : Shared R} {l l' : Reactor} {a : Act R}
    (ha : advanceReactor r m l a = some (m',l')) : ReactorStep r m l m' l' := by
  have hpair : ∀ {x : Shared R × Reactor}, some x = some (m',l') → ReactorStep r m l x.1 x.2 →
      ReactorStep r m l m' l' := by
    rintro x ⟨⟩ hx
    exact hx
  cases a <;> simp only [advanceReactor, reduceCtorEq] at ha
  case harvest batch =>
    split at ha
    · rename_i hgo
      exact hpair ha (.harvest hgo.1 hgo.2)
    · cases ha
  case expire fds =>
    split at ha
    · rename_i hpc
      exact hpair ha (.expire fds hpc)
    · cases ha
  case handle dies linger =>
    split at ha
    · rename_i hpc
      split at ha
      · rename_i hfind
        exact hpair ha (.skip hpc hfind)
      · rename_i hfind
        split at ha
        · rename_i hrun
          exact hpair ha (.handle dies linger hpc hfind hrun)
        · exact hpair ha (.closeDead hpc)
    · cases ha
  case linger ok =>
    split at ha
    · rename_i hpc
      exact hpair ha (.leave ok hpc)
    · rename_i hpc
      exact hpair ha (.add ok hpc)
    · cases ha
  case go =>
    split at ha
    · rename_i hpc
      exact hpair ha (.closeExpired hpc)
    · rename_i hpc
      exact hpair ha (.wake hpc)
    · rename_i hpc
      exact hpair ha (.swap hpc)
    · rename_i hpc
      exact hpair ha (.wait (Or.inl hpc))
    · rename_i hpc
      split at ha
      · rename_i hrun
        exact hpair ha (.proceed hpc hrun)
      · rename_i hrun
        exact hpair ha (.closeHandled hpc (by simpa using hrun))
    · rename_i hpc
      exact hpair ha (.uncount hpc)
    · rename_i hpc
      exact hpair ha (.enableWriting hpc)
    · rename_i hpc
      exact hpair ha (.wait (Or.inr hpc))
    · rename_i hpc
      exact hpair ha (.count hpc)
    · cases ha

/-- Workers that close a connection or ask for `EPOLLOUT`, the system calls of a teardown, and
the destruction of a connection that nobody registers. -/
def advanceOutside (m : Shared R) : Act R → Option (Shared R)
  | .worker id linger => some (m.shutdown id linger)
  | .post r fd => some ((m.push r (.enableWriting fd)).notify r)
  | .syscall id =>
    if m.stage id = .accepted then none
    else (Descriptors.step m.desc (.syscall id)).map (fun d => { m with desc := d })
  | .release id linger =>
    if m.stage id = .released then
      (Descriptors.step m.desc (.destroy id linger)).map (fun d => { m with desc := d })
    else none
  | _ => none

def advance (maxConnections : ℕ) : Thread R → Shared R → Control R → Act R → Option (Shared R × Control R)
  | .acceptor, m, .acceptor p, a => (advanceAcceptor maxConnections m p a).map (Prod.map id .acceptor)
  | .reactor r, m, .reactor l, a => (advanceReactor r m l a).map (Prod.map id .reactor)
  | .outside, m, .outside, a => (advanceOutside m a).map (fun m' => (m',.outside))
  | _, _, _, _ => none

abbrev State (R : ℕ) := Threads.System (Thread R) (Shared R) (Control R)

def initial (R : ℕ) : State R where
  shared := {}
  pc := fun t => match t with
    | .acceptor => .acceptor .idle
    | .reactor _ => .reactor {}
    | .outside => .outside

def step (maxConnections : ℕ) : State R → Thread R × Act R → Option (State R) :=
  Threads.step (advance maxConnections)

theorem step_by_thread {M : ℕ} {s t : State R} {a : Thread R × Act R} (h : step M s a = some t) :
    (∃ p m' p', a.1 = .acceptor ∧ s.pc .acceptor = .acceptor p ∧ advanceAcceptor M s.shared p a.2 = some (m',p') ∧
      t = { shared := m', pc := Function.update s.pc .acceptor (.acceptor p') }) ∨
    (∃ r l m' l', a.1 = .reactor r ∧ s.pc (.reactor r) = .reactor l ∧
      advanceReactor r s.shared l a.2 = some (m',l') ∧
      t = { shared := m', pc := Function.update s.pc (.reactor r) (.reactor l') }) ∨
    ∃ m', a.1 = .outside ∧ advanceOutside s.shared a.2 = some m' ∧
      t = { shared := m', pc := Function.update s.pc .outside .outside } := by
  obtain ⟨x,a⟩ := a
  obtain ⟨m',c',ha,rfl⟩ := Threads.step_eq_some.mp h
  cases x with
  | acceptor =>
    cases hc : s.pc .acceptor with
    | acceptor p =>
      rw [hc] at ha
      obtain ⟨⟨m,p'⟩,hp,heq⟩ := Option.map_eq_some_iff.mp ha
      cases heq
      exact Or.inl ⟨p,m,p',rfl,rfl,hp,rfl⟩
    | reactor l => simp [hc, advance] at ha
    | outside => simp [hc, advance] at ha
  | reactor r =>
    cases hc : s.pc (.reactor r) with
    | reactor l =>
      rw [hc] at ha
      obtain ⟨⟨m,l'⟩,hl,heq⟩ := Option.map_eq_some_iff.mp ha
      cases heq
      exact Or.inr (Or.inl ⟨r,l,m,l',rfl,hc,hl,rfl⟩)
    | acceptor p => simp [hc, advance] at ha
    | outside => simp [hc, advance] at ha
  | outside =>
    cases hc : s.pc .outside with
    | outside =>
      rw [hc] at ha
      obtain ⟨m,hm,heq⟩ := Option.map_eq_some_iff.mp ha
      cases heq
      exact Or.inr (Or.inr ⟨_,rfl,hm,rfl⟩)
    | acceptor p => simp [hc, advance] at ha
    | reactor l => simp [hc, advance] at ha

end Model

/-- The add functors among functors, by their connection. -/
def adds : List Functor → List ℕ
  | [] => []
  | .add _ id :: fs => id :: adds fs
  | .enableWriting _ :: fs => adds fs

@[simp] theorem adds_append (fs gs : List Functor) : adds (fs ++ gs) = adds fs ++ adds gs := by
  induction fs with
  | nil => rfl
  | cons f fs ih => cases f <;> simp [adds, ih]

def Pc.functorList : Pc → List Functor
  | .functors fs | .inserted fs => fs
  | _ => []

end ModernTcp.Server
