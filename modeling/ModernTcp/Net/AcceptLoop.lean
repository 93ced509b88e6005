import Mathlib.Data.Nat.Count
import Mathlib.Data.Int.CardIntervalMod
import ModernTcp.Common.Config
import ModernTcp.Lib.Execution

/-! # The accept thread

`start_single_epoll` with `handle_accept`, and `start_multi_epoll`, beside the threads that call
`TcpServer::shutdown`. The listening socket is a blocking one, so `accept4` waits as long as no client is there, and
it fails as soon as the deleter of `server_fd_` has shut the socket down. `server_fd_.reset()` makes the pointer null
before it calls the deleter. What the reactors do is seen in the counter of active connections only.
-/
namespace ModernTcp.AcceptLoop
open Execution

/-- The server is started with one reactor, which the accept thread builds, or with many, which `start` builds. -/
structure Config where
  numReactors : ℕ
  maxConnections : ℕ
  metrics : Bool
deriving DecidableEq

def Config.multi (cfg : Config) : Bool := decide (1 < cfg.numReactors)

/-- The reactors that connections are handed to. -/
def Config.reactors (cfg : Config) : ℕ := if cfg.multi then cfg.numReactors else 1

inductive Event
  | wakeup | server
deriving DecidableEq

/-- Where the accept thread stands, in the inner loop with `accept_count` and the events that are left. It is
`calling` when the test of the inner loop has passed and `server_fd_->get()` is due, and in `accept4` behind that. -/
inductive Pc
  | building | creating | registering | registeringEvent
  | testing | waiting
  | events (left : List Event)
  | accepting (count : ℕ) (left : List Event)
  | calling (count : ℕ) (left : List Event)
  | accept4 (count : ℕ) (left : List Event)
  | checking (count : ℕ) (left : List Event)
  | counting (count : ℕ) (left : List Event)
  | adding (count : ℕ) (left : List Event)
  | added (count : ℕ) (left : List Event)
  | exited
  | crashed
deriving DecidableEq

/-- Where a call of `shutdown` stands. -/
inductive Caller
  | outside | requesting | resetting | deleting | waking | joining | stopping | clearing | closing | returned
deriving DecidableEq

/-- `handed`, `refused`, `failed` and `accepted` only keep count of what happened to the connections. The two counters
of the metrics are unbounded here; in the source they have 64 bits and are told apart up to a multiple of 2^64. -/
structure State (T : Type*) where
  running : Bool := true
  stopRequested : Bool := false
  serverFd : Bool := true
  listening : Bool := true
  backlog : ℕ := 0
  eventFd : Bool := true
  eventCounter : ℕ := 0
  subReactors : ℕ
  nextReactorIndex : ℕ := 0
  active : ℕ := 0
  totalConnections : ℕ := 0
  rejectedConnections : ℕ := 0
  pc : Pc
  callers : T → Caller := fun _ => .outside
  accepted : ℕ := 0
  handed : List ℕ := []
  refused : ℕ := 0
  failed : ℕ := 0

/-- What the system calls of the accept thread do, and whether an allocation fails. -/
inductive AcceptAct
  | go
  | ready (events : List Event)
  | interrupted
  | failed
deriving DecidableEq

inductive Act (T : Type*)
  | acceptor (a : AcceptAct)
  | caller (t : T)
  | connect
  | setActive (n : ℕ)
deriving DecidableEq

section Model
variable {T : Type*} (cfg : Config)

def started : State T where
  subReactors := if cfg.multi then cfg.numReactors else 0
  pc := if cfg.multi then .creating else .building

namespace State

def goto (s : State T) (pc : Pc) : State T := { s with pc }

/-- The condition of the loops. -/
def goes (s : State T) : Bool := !s.stopRequested && s.running

/-- `server_fd_->get()` on a null pointer ends the process. -/
def deref (s : State T) (pc : Pc) : State T := s.goto (if s.serverFd then pc else .crashed)

def Ready (s : State T) : Event → Prop
  | .wakeup => s.eventFd = true ∧ 0 < s.eventCounter
  | .server => s.listening = true ∧ 0 < s.backlog

instance (s : State T) : DecidablePred s.Ready
  | .wakeup => inferInstanceAs (Decidable (_ ∧ _))
  | .server => inferInstanceAs (Decidable (_ ∧ _))

/-- `check_connection_limit`, which sees no active connections without metrics. -/
def limitAllows (s : State T) : Prop :=
  cfg.maxConnections = 0 ∨ (if cfg.metrics then s.active else 0) < cfg.maxConnections

instance (s : State T) : Decidable (s.limitAllows cfg) := inferInstanceAs (Decidable (_ ∨ _))

/-- The inner loop is left: in multi-reactor mode the events behind it are left alone. -/
def leaveLoop (s : State T) (left : List Event) : State T := s.goto (if cfg.multi then .testing else .events left)

def refuse (s : State T) : State T :=
  { s with refused := s.refused + 1, rejectedConnections := s.rejectedConnections + cfg.metrics.toNat }

def count (s : State T) : State T := { s with totalConnections := s.totalConnections + cfg.metrics.toNat }

/-- `add_connection` of the reactor whose turn it is. -/
def handOver (s : State T) (n : ℕ) (left : List Event) : State T :=
  if cfg.multi then
    if s.subReactors = 0 then { s with failed := s.failed + 1 }.leaveLoop cfg left
    else
      let index := s.nextReactorIndex % cfg.numReactors
      let next := { s with nextReactorIndex := (s.nextReactorIndex + 1) % 2 ^ 64 }
      if index < s.subReactors then { next with handed := s.handed ++ [index] }.goto (.added n left)
      else next.goto .crashed
  else if 0 < s.subReactors then { s with handed := s.handed ++ [0] }.goto (.added n left)
  else s.goto .crashed

/-- A step of the accept thread. -/
def advance (s : State T) : Pc → AcceptAct → Option (State T)
  | .building, .go => some ({ s with subReactors := s.subReactors + 1 }.goto .creating)
  | .building, .failed => some (s.goto .exited)
  | .creating, .go => some (s.goto .registering)
  | .creating, .failed => some (s.goto .exited)
  | .registering, .go => some (s.deref .registeringEvent)
  | .registering, .failed => some (s.deref .exited)
  | .registeringEvent, .go => some (s.goto .testing)
  | .registeringEvent, .failed => some (s.goto .exited)
  | .testing, .go => some (s.goto (if s.goes then .waiting else .exited))
  | .waiting, .ready events =>
    -- only in multi-reactor mode the wait has a time limit
    if events.Nodup ∧ (∀ e ∈ events, s.Ready e) ∧ (events = [] → cfg.multi = true) then some (s.goto (.events events))
    else none
  | .waiting, .interrupted => some (s.goto .testing)
  | .waiting, .failed => some (s.goto .exited)
  | .events [], .go => some (s.goto .testing)
  | .events (.wakeup :: left), .go => some ({ s with eventCounter := 0 }.goto (.events left))
  | .events (.server :: left), .go => some (s.deref (.accepting 0 left))
  | .accepting n left, .go =>
    some (if s.goes ∧ n < maxAcceptPerLoop then s.goto (.calling n left) else s.leaveLoop cfg left)
  | .calling n left, .go => some (s.deref (.accept4 n left))
  | .accept4 n left, .go =>
    if s.listening = false then some (s.leaveLoop cfg left)
    else if 0 < s.backlog then
      some ({ s with backlog := s.backlog - 1, accepted := s.accepted + 1 }.goto (.checking n left))
    else none
  | .accept4 n left, .interrupted => some (if cfg.multi then s.goto (.accepting n left) else s.leaveLoop cfg left)
  | .accept4 _ left, .failed => some (s.leaveLoop cfg left)
  | .checking n left, .go =>
    some (if s.limitAllows cfg then s.goto (.counting n left) else (s.refuse cfg).goto (.accepting (n + 1) left))
  -- in single-reactor mode a connection is counted before it is handed over, else behind it
  | .counting n left, .go => some ((if cfg.multi then s else s.count cfg).goto (.adding n left))
  | .adding n left, .go => some (s.handOver cfg n left)
  | .adding n left, .failed =>
    some (if cfg.multi then { s with failed := s.failed + 1 }.goto (.accepting n left)
      else { s with failed := s.failed + 1 }.leaveLoop cfg left)
  | .added n left, .go => some ((if cfg.multi then s.count cfg else s).goto (.accepting (n + 1) left))
  | _, _ => none

variable [DecidableEq T]

def callerAt (s : State T) (t : T) (c : Caller) : State T := { s with callers := Function.update s.callers t c }

/-- A step of `shutdown`. -/
def advanceCaller (s : State T) (t : T) : Option (State T) :=
  match s.callers t with
  | .outside => some (if s.running then { s with running := false }.callerAt t .requesting else s.callerAt t .returned)
  | .requesting => some ({ s with stopRequested := true }.callerAt t .resetting)
  | .resetting => some ({ s with serverFd := false }.callerAt t .deleting)
  | .deleting => some ({ s with listening := false, backlog := 0 }.callerAt t .waking)
  | .waking => some ({ s with eventCounter := s.eventCounter + 1 }.callerAt t .joining)
  | .joining => if s.pc = .exited then some (s.callerAt t .stopping) else none
  | .stopping => some (s.callerAt t .clearing)
  | .clearing => some ({ s with subReactors := 0 }.callerAt t .closing)
  | .closing => some ({ s with eventFd := false }.callerAt t .returned)
  | .returned => none

end State

def step [DecidableEq T] (s : State T) : Act T → Option (State T)
  | .acceptor a => s.advance cfg s.pc a
  | .caller t => if s.pc = .crashed then none else s.advanceCaller t
  | .connect => if s.listening = true then some { s with backlog := s.backlog + 1 } else none
  | .setActive n => some { s with active := n }

end Model

section Steps
variable {T : Type*} {cfg : Config} {s t u : State T}

/-- What the accept thread leaves alone. -/
structure Frame (s t : State T) : Prop where
  running : t.running = s.running
  stopRequested : t.stopRequested = s.stopRequested
  serverFd : t.serverFd = s.serverFd
  listening : t.listening = s.listening
  eventFd : t.eventFd = s.eventFd
  callers : t.callers = s.callers

theorem Frame.refl (s : State T) : Frame s s := ⟨rfl,rfl,rfl,rfl,rfl,rfl⟩

theorem Frame.goes (h : Frame s t) : t.goes = s.goes := by rw [State.goes, State.goes, h.running, h.stopRequested]

theorem frame_ite {p : Prop} [Decidable p] (ht : Frame s t) (hu : Frame s u) : Frame s (if p then t else u) := by
  split
  · exact ht
  · exact hu

theorem frame_handOver (n : ℕ) (left : List Event) : Frame s (s.handOver cfg n left) := by
  unfold State.handOver
  split
  · split
    · exact ⟨rfl,rfl,rfl,rfl,rfl,rfl⟩
    · exact frame_ite ⟨rfl,rfl,rfl,rfl,rfl,rfl⟩ ⟨rfl,rfl,rfl,rfl,rfl,rfl⟩
  · exact frame_ite ⟨rfl,rfl,rfl,rfl,rfl,rfl⟩ ⟨rfl,rfl,rfl,rfl,rfl,rfl⟩

theorem advance_frame {a : AcceptAct} (h : s.advance cfg s.pc a = some t) : Frame s t := by
  unfold State.advance at h
  split at h <;> (try split_ifs at h) <;> cases h
  all_goals first
    | exact ⟨rfl,rfl,rfl,rfl,rfl,rfl⟩
    | exact frame_handOver _ _

/-- The thread is over when it has left its loop, and when the process has ended. -/
def Pc.over (pc : Pc) : Bool := decide (pc = .exited ∨ pc = .crashed)

/-- A connection is in the hands of the thread. -/
@[simp] def Pc.inHand : Pc → ℕ
  | .checking _ _ | .counting _ _ | .adding _ _ => 1
  | _ => 0

/-- A connection is handed over and not counted yet, in multi-reactor mode. -/
@[simp] def Pc.uncounted : Pc → ℕ
  | .added _ _ => 1
  | _ => 0

/-- A connection is counted and not handed over yet, in single-reactor mode. -/
@[simp] def Pc.early : Pc → ℕ
  | .adding _ _ => 1
  | _ => 0

/-- `accept_fd` watches two descriptors, and an event of the listening socket is dealt with once. -/
@[simp] def Pc.Watched : Pc → Prop
  | .events left => left.Nodup
  | .accepting _ left | .calling _ left | .accept4 _ left | .checking _ left | .counting _ left | .adding _ left
  | .added _ left => (Event.server :: left).Nodup
  | _ => True

/-- The thread will not come to `server_fd_->get()` any more when its loops do not go on and the socket is gone. In
`epoll_wait` it may still be told of a client. -/
@[simp] def Pc.Safe : Pc → Prop
  | .building | .creating | .registering | .waiting | .calling _ _ | .crashed => False
  | .events left => Event.server ∉ left
  | _ => True

instance : DecidablePred Pc.Safe
  | .building | .creating | .registering | .waiting | .calling _ _ | .crashed => inferInstanceAs (Decidable False)
  | .events _ => inferInstanceAs (Decidable (_ ∉ _))
  | .registeringEvent | .testing | .accepting _ _ | .accept4 _ _ | .checking _ _ | .counting _ _ | .adding _ _
  | .added _ _ | .exited => inferInstanceAs (Decidable True)

/-- How many steps the thread makes at most when its loops do not go on. -/
@[simp] def Pc.steps : Pc → ℕ
  | .building => 5
  | .creating => 4
  | .registering => 3
  | .registeringEvent => 2
  | .testing => 1
  | .waiting => 7
  | .events left => 2 * left.length + 2
  | .accepting _ left => 2 * left.length + 3
  | .calling _ left => 2 * left.length + 9
  | .accept4 _ left => 2 * left.length + 8
  | .checking _ left => 2 * left.length + 7
  | .counting _ left => 2 * left.length + 6
  | .adding _ left => 2 * left.length + 5
  | .added _ left => 2 * left.length + 4
  | .exited | .crashed => 0

/-- A step that does nothing but to go on. -/
structure Moves (s : State T) (pc : Pc) : Prop where
  building : pc ≠ .building
  built : s.pc = .building → pc = .exited
  waits : pc = .waiting → s.goes = true
  crashed : pc = .crashed → s.serverFd = false
  inHand : pc.inHand = s.pc.inHand
  uncounted : pc.uncounted = s.pc.uncounted
  early : pc.early = s.pc.early
  watched : s.pc.Watched → pc.Watched
  safe : s.goes = false → s.pc.Watched → s.pc.Safe → pc.Safe
  steps : s.goes = false → pc.steps < s.pc.steps

/-- What a step of the accept thread does. -/
inductive Effect (cfg : Config) (s : State T) : State T → Prop
  | moved {pc : Pc} (h : Moves s pc) : Effect cfg s (s.goto pc)
  | built (h : s.pc = .building) : Effect cfg s ({ s with subReactors := s.subReactors + 1 }.goto .creating)
  | drained {left : List Event} (h : s.pc = .events (.wakeup :: left)) :
    Effect cfg s ({ s with eventCounter := 0 }.goto (.events left))
  | took {n : ℕ} {left : List Event} (h : s.pc = .accept4 n left) (hopen : s.listening = true) (hpos : 0 < s.backlog) :
    Effect cfg s ({ s with backlog := s.backlog - 1, accepted := s.accepted + 1 }.goto (.checking n left))
  | refused {n : ℕ} {left : List Event} (h : s.pc = .checking n left) (hfull : ¬ s.limitAllows cfg) :
    Effect cfg s ((s.refuse cfg).goto (.accepting (n + 1) left))
  | counted {n : ℕ} {left : List Event} (h : s.pc = .counting n left) :
    Effect cfg s ((if cfg.multi then s else s.count cfg).goto (.adding n left))
  | handed {n : ℕ} {left : List Event} (h : s.pc = .adding n left) : Effect cfg s (s.handOver cfg n left)
  | failed {n : ℕ} {left : List Event} (h : s.pc = .adding n left) : Effect cfg s
      ({ s with failed := s.failed + 1 }.goto (if cfg.multi then .accepting n left else .events left))
  | added {n : ℕ} {left : List Event} (h : s.pc = .added n left) :
    Effect cfg s ((if cfg.multi then s.count cfg else s).goto (.accepting (n + 1) left))

theorem nodup_events {events : List Event} (h : events.Nodup) : events.length ≤ 2 := by
  have hsub : events ⊆ [.wakeup,.server] := by
    intro e _
    cases e <;> simp
  exact (h.subperm hsub).length_le

/-- No connection is under way in the thread. -/
def Pc.Free (pc : Pc) : Prop := pc.inHand = 0 ∧ pc.uncounted = 0 ∧ pc.early = 0

theorem leaveLoop_effect {left : List Event} (hfree : s.pc.Free) (hbuilding : s.pc ≠ .building)
    (hsteps : 2 * left.length + 2 < s.pc.steps) (hwatched : s.pc.Watched → (Event.server :: left).Nodup) :
    Effect cfg s (s.leaveLoop cfg left) := by
  obtain ⟨hhand,huncounted,hearly⟩ := hfree
  unfold State.leaveLoop
  refine .moved ?_
  split_ifs
  · refine ⟨by simp,by simp [hbuilding],by simp,by simp,hhand.symm,huncounted.symm,hearly.symm,fun _ => trivial,
      fun _ _ _ => trivial,fun _ => ?_⟩
    change 1 < s.pc.steps
    omega
  · exact ⟨by simp,by simp [hbuilding],by simp,by simp,hhand.symm,huncounted.symm,hearly.symm,
      fun hs => (List.nodup_cons.mp (hwatched hs)).2,fun _ hs _ => (List.nodup_cons.mp (hwatched hs)).1,fun _ => hsteps⟩

theorem deref_effect {pc : Pc} (hgo : Moves s pc) (hfree : s.pc.Free) (hbuilding : s.pc ≠ .building)
    (hsteps : 0 < s.pc.steps) (hsafe : ¬ s.pc.Safe) : Effect cfg s (s.deref pc) := by
  obtain ⟨hhand,huncounted,hearly⟩ := hfree
  unfold State.deref
  refine .moved ?_
  split_ifs with hopen
  · exact hgo
  · exact ⟨by simp,by simp [hbuilding],by simp,fun _ => by simpa using hopen,hhand.symm,huncounted.symm,hearly.symm,
      fun _ => trivial,fun _ _ h => absurd h hsafe,fun _ => hsteps⟩

theorem advance_effect {a : AcceptAct} (h : s.advance cfg s.pc a = some t) : Effect cfg s t := by
  unfold State.advance at h
  split at h
  all_goals rename_i hpc
  -- the branches that do something to a connection, or to the reactors, and those that go on in one way
  all_goals first
    | (cases h; exact .built hpc)
    | (cases h; exact .drained hpc)
    | (cases h; exact .counted hpc)
    | (cases h; exact .handed hpc)
    | (cases h; exact .added hpc)
    | (cases h; refine .moved ?_; constructor <;> simp [hpc])
    | skip
  case h_5 | h_6 =>
    cases h
    refine deref_effect ?_ (by simp [hpc, Pc.Free]) (by simp [hpc])
      (by simp [hpc]) (by simp [hpc])
    constructor <;> simp [hpc]
  case h_9 =>
    cases h
    refine .moved ?_
    split_ifs with hgo
    · constructor <;> simp [hpc, hgo]
    · constructor <;> simp [hpc]
  case h_10 events =>
    split_ifs at h with hready
    cases h
    have hlen := nodup_events hready.1
    refine .moved ?_
    constructor <;> simp [hpc]
    · exact hready.1
    · omega
  case h_15 left =>
    cases h
    refine deref_effect ?_ (by simp [hpc, Pc.Free]) (by simp [hpc])
      (by simp [hpc]) (by simp [hpc])
    constructor <;> simp [hpc]
    omega
  case h_16 n left =>
    cases h
    split_ifs with hgo
    · refine .moved ?_
      constructor <;> simp [hpc, hgo]
    · exact leaveLoop_effect (by simp [hpc, Pc.Free]) (by simp [hpc])
        (by simp [hpc]) (by simp [hpc])
  case h_17 n left =>
    cases h
    refine deref_effect ?_ (by simp [hpc, Pc.Free]) (by simp [hpc])
      (by simp [hpc]) (by simp [hpc])
    constructor <;> simp [hpc]
  case h_18 n left =>
    split_ifs at h with hclosed hpos
    · cases h
      exact leaveLoop_effect (by simp [hpc, Pc.Free]) (by simp [hpc])
        (by simp [hpc]) (by simp [hpc])
    · cases h
      exact .took hpc (by simpa using hclosed) hpos
  case h_19 n left =>
    cases h
    split_ifs
    · refine .moved ?_
      constructor <;> simp [hpc]
    · exact leaveLoop_effect (by simp [hpc, Pc.Free]) (by simp [hpc])
        (by simp [hpc]) (by simp [hpc])
  case h_20 n left =>
    cases h
    exact leaveLoop_effect (by simp [hpc, Pc.Free]) (by simp [hpc])
      (by simp [hpc]) (by simp [hpc])
  case h_21 n left =>
    cases h
    split_ifs with hlimit
    · refine .moved ?_
      constructor <;> simp [hpc]
    · exact .refused hpc hlimit
  case h_24 n left =>
    have hfailed : Effect cfg s _ := Effect.failed hpc
    cases h
    unfold State.leaveLoop
    split_ifs at hfailed ⊢ with hmulti
    · exact hfailed
    · simpa using hfailed
  case h_26 => cases h

/-- The reactors are there while the thread uses them. -/
structure Built (cfg : Config) (s : State T) : Prop where
  building : s.pc = .building → cfg.multi = false ∧ s.subReactors = 0
  reactors : s.pc ≠ .building → s.pc.over = false → s.subReactors = cfg.reactors

theorem reactors_pos (cfg : Config) : 0 < cfg.reactors := by
  unfold Config.reactors Config.multi
  split_ifs with h
  · have hmany := of_decide_eq_true h
    omega
  · exact Nat.one_pos

theorem handOver_eq (hs : s.subReactors = cfg.reactors) (n : ℕ) (left : List Event) : s.handOver cfg n left =
    if cfg.multi then
      { s with nextReactorIndex := (s.nextReactorIndex + 1) % 2 ^ 64
               handed := s.handed ++ [s.nextReactorIndex % cfg.reactors]
               pc := .added n left }
    else { s with handed := s.handed ++ [0], pc := .added n left } := by
  have hpos := reactors_pos cfg
  unfold State.handOver
  rw [hs]
  by_cases hmulti : cfg.multi = true
  · have hreactors : cfg.reactors = cfg.numReactors := if_pos hmulti
    rw [if_pos hmulti, if_pos hmulti, if_neg hpos.ne', hreactors]
    dsimp only
    rw [if_pos (Nat.mod_lt _ (hreactors ▸ hpos))]
    rfl
  · rw [if_neg hmulti, if_neg hmulti, if_pos hpos]
    rfl

theorem Built.of_pc (hs : Built cfg s) (hreactors : t.subReactors = s.subReactors) (hbuilding : s.pc ≠ .building)
    (hover : s.pc.over = false) (hpc : t.pc ≠ .building) : Built cfg t :=
  ⟨fun h => absurd h hpc,fun _ _ => hreactors.trans (hs.reactors hbuilding hover)⟩

theorem effect_built (hs : Built cfg s) (hover : s.pc.over = false) (h : Effect cfg s t) :
    Built cfg t ∧ (t.pc = .crashed → s.serverFd = false) := by
  cases h with
  | moved hm =>
    refine ⟨⟨fun h => absurd h hm.building,fun _ hover' => ?_⟩,hm.crashed⟩
    by_cases hbuilding : s.pc = .building
    · rw [State.goto, hm.built hbuilding] at hover'
      cases hover'
    · exact hs.reactors hbuilding hover
  | built h =>
    obtain ⟨hsingle,hnone⟩ := hs.building h
    refine ⟨⟨fun h => (by cases h),fun _ _ => ?_⟩,fun h => (by cases h)⟩
    change s.subReactors + 1 = cfg.reactors
    simp [hnone, Config.reactors, hsingle]
  | handed h =>
    have hreactors : s.subReactors = cfg.reactors := hs.reactors (by simp [h]) hover
    rw [handOver_eq hreactors]
    split_ifs
    · exact ⟨⟨fun h => (by cases h),fun _ _ => hreactors⟩,fun h => (by cases h)⟩
    · exact ⟨⟨fun h => (by cases h),fun _ _ => hreactors⟩,fun h => (by cases h)⟩
  | failed h =>
    refine ⟨hs.of_pc rfl (by simp [h]) hover ?_,fun hcrash => ?_⟩
    · simp only [State.goto]
      split_ifs <;> simp
    · simp only [State.goto] at hcrash
      split_ifs at hcrash
  | counted h | added h =>
    refine ⟨hs.of_pc ?_ (by simp [h]) hover (by simp [State.goto]),fun hcrash => (by cases hcrash)⟩
    split_ifs <;> rfl
  | drained h | took h | refused h => exact ⟨hs.of_pc rfl (by simp [h]) hover (by simp [State.goto]),fun h => (by cases h)⟩

theorem effect_watched (hb : Built cfg s) (hover : s.pc.over = false) (hs : s.pc.Watched) (h : Effect cfg s t) :
    t.pc.Watched := by
  cases h with
  | moved hm => exact hm.watched hs
  | built h => trivial
  | drained h =>
    rw [h] at hs
    exact (List.nodup_cons.mp hs).2
  | handed h =>
    rw [handOver_eq (hb.reactors (by simp [h]) hover)]
    rw [h] at hs
    split_ifs <;> exact hs
  | failed h =>
    rw [h] at hs
    simp only [State.goto]
    split_ifs
    · exact hs
    · exact (List.nodup_cons.mp hs).2
  | took h | refused h | counted h | added h =>
    rw [h] at hs
    exact hs

theorem effect_waits (hb : Built cfg s) (hover : s.pc.over = false) (h : Effect cfg s t) (hwaits : t.pc = .waiting) :
    s.goes = true := by
  cases h with
  | moved hm => exact hm.waits hwaits
  | handed h =>
    rw [handOver_eq (hb.reactors (by simp [h]) hover)] at hwaits
    split_ifs at hwaits
  | failed h =>
    simp only [State.goto] at hwaits
    split_ifs at hwaits
  | built h | drained h | took h | refused h | counted h | added h => cases hwaits

theorem advance_over {a : AcceptAct} (h : s.advance cfg s.pc a = some t) : s.pc.over = false := by
  by_contra hover
  have hpc : s.pc = .exited ∨ s.pc = .crashed := of_decide_eq_true (Bool.not_eq_false _ ▸ hover)
  rcases hpc with hpc | hpc <;> rw [hpc] at h <;> cases h

theorem effect_safe (hb : Built cfg s) (hover : s.pc.over = false) (hgoes : s.goes = false) (hwatched : s.pc.Watched)
    (hs : s.pc.Safe) (h : Effect cfg s t) : t.pc.Safe := by
  cases h with
  | moved hm => exact hm.safe hgoes hwatched hs
  | built h =>
    rw [h] at hs
    exact hs.elim
  | drained h =>
    rw [h] at hs
    exact fun hmem => hs (List.mem_cons_of_mem _ hmem)
  | handed h =>
    rw [handOver_eq (hb.reactors (by simp [h]) hover)]
    split_ifs <;> trivial
  | failed h =>
    rw [h] at hwatched
    simp only [State.goto]
    split_ifs
    · trivial
    · exact (List.nodup_cons.mp hwatched).1
  | took h | refused h | counted h | added h => trivial

/-- A thread whose loops do not go on comes to its end. -/
theorem effect_steps (hb : Built cfg s) (hover : s.pc.over = false) (hgoes : s.goes = false) (h : Effect cfg s t) :
    t.pc.steps < s.pc.steps := by
  cases h with
  | moved hm => exact hm.steps hgoes
  | handed h =>
    rw [handOver_eq (hb.reactors (by simp [h]) hover), h]
    split_ifs <;> simp
  | failed h =>
    rw [h]
    simp only [State.goto]
    split_ifs <;> simp
  | built h | took h | refused h | counted h | added h =>
    rw [h]
    simp [State.goto]
  | drained h =>
    rw [h]
    simp only [State.goto, Pc.steps, List.length_cons]
    omega

end Steps
end ModernTcp.AcceptLoop
