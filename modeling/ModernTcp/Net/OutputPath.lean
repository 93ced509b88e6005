import Mathlib.Tactic
import ModernTcp.Common.Config
import ModernTcp.Lib.Threads

/-! # The output path of one connection

`send` on any thread appends to `output_buffer_` under `buffer_mutex_` and asks the reactor
for `EPOLLOUT` after the lock is released; `handle_write` on the reactor thread writes under
the lock and takes the interest back when nothing is left. From any other thread the request
is a functor in `pending_functors_`. A critical section is one step. The connection is
attached to its reactor and registered when a run begins, and may be closed in the course of it.
-/
namespace ModernTcp.OutputPath
open Execution

inductive Thread (W : Type*)
  | reactor
  | worker (w : W)
deriving DecidableEq

inductive Functor
  | enableWriting (fd : ℕ)
  | addConnection (fd : ℕ)
deriving DecidableEq

/-- `interest` is the entry of the descriptor in the epoll set, with its `EPOLLOUT` bit, and
`registered` its entry in `connections_`. `mutexHeld` says that a thread closed the connection
inside a critical section and waits there for the lock it holds. `written` and `accepted`
remember the bytes on the socket and the messages in the order of their appends. -/
structure Shared where
  fd : ℕ
  running : Bool := true
  socket : Bool := true
  registered : Bool := true
  mutexHeld : Bool := false
  output : List UInt8 := []
  interest : Option Bool := some false
  pending : List Functor := []
  written : List UInt8 := []
  accepted : List (List UInt8) := []
deriving DecidableEq

/-- `notify` is the point between an append that found the buffer empty and `buffer_output()`;
`functors` holds what `do_pending_functors` took from the queue and has not run. -/
inductive Pc
  | idle
  | sendLock (msg : List UInt8)
  | notify
  | writeLock
  | shutdown
  | closing (inside : Bool)
  | clearing
  | erased
  | functors (rest : List Functor)
deriving DecidableEq

/-- The call an idle thread makes, or how the code and the kernel answer at a point. -/
inductive Act
  | send (data : Option (List UInt8))
  | shutdown
  | post (f : Functor)
  | handleWrite
  | closeConnection
  | doPendingFunctors
  | go
  | throws
  | wrote (n : ℕ)
  | wouldBlock
  | error
deriving DecidableEq

/-- `Buffer::retrieve` on the unread bytes. -/
def retrieve (q : List UInt8) (len : ℕ) : List UInt8 := if len < q.length then q.drop len else []

namespace Shared

/-- `EPOLL_CTL_MOD`, which fails for a descriptor that is not in the set. -/
def modify (m : Shared) (out : Bool) : Shared := { m with interest := m.interest.map (fun _ => out) }

def post (m : Shared) (f : Functor) : Shared := { m with pending := m.pending ++ [f] }

def append (m : Shared) (msg : List UInt8) : Shared :=
  { m with output := m.output ++ msg, accepted := m.accepted ++ [msg] }

/-- The end of `handle_write` after `write` took `n` bytes. -/
def wrote (m : Shared) (n : ℕ) : Shared :=
  let m' := { m with written := m.written ++ m.output.take n, output := retrieve m.output n }
  if m'.output = [] then m'.modify false else m'

/-- `buffer_output`; after `shutdown` has taken the socket `get_fd()` is -1. -/
def bufferOutput {W : Type*} (m : Shared) : Thread W → Shared
  | .reactor => if m.socket then m.modify true else m
  | .worker _ => if m.socket then m.post (.enableWriting m.fd) else m

/-- The functor of `enable_writing` looks its descriptor up in `connections_` first. -/
def runFunctor (m : Shared) : Functor → Shared
  | .enableWriting fd => if fd = m.fd ∧ m.registered = true then m.modify true else m
  | .addConnection _ => m

/-- The exchange on `running_` with which `shutdown` begins, outside or inside a critical section. -/
def shutdown (m : Shared) (inside : Bool) : Shared × Pc :=
  if m.running then ({ m with running := false, mutexHeld := m.mutexHeld || inside },.closing inside) else (m,.idle)

end Shared

variable {W : Type*}

/-- `send` and `shutdown`, which every thread may call. -/
def advanceAny (t : Thread W) (m : Shared) : Pc → Act → Option (Shared × Pc)
  | .idle, .send none => some (m,.idle)
  | .idle, .send (some msg) => some (m,if m.running = false ∨ msg = [] then .idle else .sendLock msg)
  | .idle, .shutdown => some (m,.shutdown)
  | .idle, .post f => some (m.post f,.idle)
  | .sendLock msg, .go =>
    if m.mutexHeld then none
    else if maxBufferSize < m.output.length + msg.length then some (m.shutdown true)
    else some (m.append msg,if m.output = [] ∧ (m.append msg).output ≠ [] then .notify else .idle)
  | .sendLock msg, .throws =>
    if m.mutexHeld ∨ maxBufferSize < m.output.length + msg.length then none else some (m,.shutdown)
  | .notify, .go => some (m.bufferOutput t,.idle)
  | .shutdown, .go => some (m.shutdown false)
  | .closing _, .go => some ({ m with socket := false, interest := none },.clearing)
  -- `setsockopt` fails: `shutdown` returns without taking the lock, and a section around it ends
  | .closing inside, .throws => some ({ m with mutexHeld := m.mutexHeld && !inside },.idle)
  | .clearing, .go => if m.mutexHeld then none else some ({ m with output := [] },.idle)
  | _, _ => none

def advanceReactor (m : Shared) : Pc → Act → Option (Shared × Pc)
  | .idle, .handleWrite => some (m,if m.running ∧ m.socket then .writeLock else .idle)
  | .writeLock, .go => if m.mutexHeld ∨ m.output ≠ [] then none else some (m.modify false,.idle)
  | .writeLock, .wrote n =>
    if m.mutexHeld ∨ m.output = [] ∨ m.output.length < n then none else some (m.wrote n,.idle)
  | .writeLock, .wouldBlock => if m.mutexHeld ∨ m.output = [] then none else some (m,.idle)
  | .writeLock, .error => if m.mutexHeld ∨ m.output = [] then none else some (m.shutdown true)
  | .writeLock, .throws => if m.mutexHeld then none else some (m,.shutdown)
  | .idle, .closeConnection =>
    if m.registered then some ({ m with registered := false },.erased) else some (m,.idle)
  | .erased, .go => some ({ m with interest := none },.shutdown)
  | .idle, .doPendingFunctors => some ({ m with pending := [] },.functors m.pending)
  | .functors [], .go => some (m,.idle)
  | .functors (f :: rest), .go => some (m.runFunctor f,.functors rest)
  | _, _ => none

def advance : Thread W → Shared → Pc → Act → Option (Shared × Pc)
  | .reactor, m, p, a => (advanceReactor m p a).or (advanceAny (.reactor : Thread W) m p a)
  | .worker w, m, p, a => advanceAny (.worker w) m p a

abbrev State (W : Type*) := Threads.System (Thread W) Shared Pc

def initial (W : Type*) (fd : ℕ) : State W := { shared := { fd := fd }, pc := fun _ => .idle }

def step [DecidableEq W] : State W → Thread W × Act → Option (State W) := Threads.step advance

/-- An `enable_writing` functor is in the queue, or in the part of it that is being run. -/
def EnableQueued (s : State W) : Prop :=
  .enableWriting s.shared.fd ∈ s.shared.pending ∨
    ∃ t rest, s.pc t = .functors rest ∧ .enableWriting s.shared.fd ∈ rest

/-- Somebody is going to see to it that the output is written. -/
def Flushing (s : State W) : Prop :=
  s.shared.interest = some true ∨ EnableQueued s ∨ ∃ t, s.pc t = .notify

/-- The socket has a front part of the accepted messages, the buffer has the rest. -/
def StreamIntact (m : Shared) : Prop := m.written ++ m.output = m.accepted.flatten

/-- What the points of a thread say about the connection. -/
def Local (m : Shared) : Pc → Prop
  | .erased => m.registered = false
  | .closing _ | .clearing => m.running = false
  | _ => True

structure Open (m : Shared) : Prop where
  socket : m.running = true → m.socket = true
  interest : m.running = true → m.registered = true → m.interest.isSome = true

/-- The thread will have the interest set, if the connection stays registered. -/
def Owes (fd : ℕ) (p : Pc) : Prop := p = .notify ∨ ∃ rest, p = .functors rest ∧ .enableWriting fd ∈ rest

def Pc.free : Pc → Bool
  | .erased | .closing _ | .clearing => false
  | _ => true

/-- What one step of a thread can do to the connection. -/
inductive Move (m : Shared) : Pc → Shared → Pc → Prop
  | dead {p p' m'} (hdead : m'.running = false) (hfd : m'.fd = m.fd) (hreg : m'.registered = m.registered)
      (hp : p' ≠ .erased) : Move m p m' p'
  | quiet {p p'} (hp : p'.free = true) (h : m.registered = true → Owes m.fd p → Owes m.fd p') : Move m p m p'
  | append {msg} : Move m (.sendLock msg) (m.append msg)
      (if m.output = [] ∧ (m.append msg).output ≠ [] then .notify else .idle)
  | arm {p p'} (hp : p'.free = true) : Move m p (m.modify true) p'
  | notified : Move m .notify (m.post (.enableWriting m.fd)) .idle
  | post {f} : Move m .idle (m.post f) .idle
  | wrote {n} : Move m .writeLock (m.wrote n) .idle
  | drained (h : m.output = []) : Move m .writeLock (m.modify false) .idle
  | unregister : Move m .idle { m with registered := false } .erased
  | deleted (h : m.registered = false) : Move m .erased { m with interest := none } .shutdown
  | swap : Move m .idle { m with pending := [] } (.functors m.pending)

section Steps
variable {t : Thread W} {m m' : Shared} {p p' : Pc} {a : Act}

theorem advance_eq_some (h : advance t m p a = some (m',p')) :
    advanceAny t m p a = some (m',p') ∨ advanceReactor m p a = some (m',p') := by
  cases t with
  | worker w => exact Or.inl h
  | reactor =>
    rcases Option.or_eq_some_iff.mp h with h | ⟨-,h⟩
    · exact Or.inr h
    · exact Or.inl h

theorem retrieve_eq_drop (q : List UInt8) (n : ℕ) : retrieve q n = q.drop n := by
  unfold retrieve
  split
  · rfl
  · rw [List.drop_eq_nil_of_le (by omega)]

/-- The interest is taken back exactly when the buffer has been emptied. -/
theorem wrote_eq (m : Shared) (n : ℕ) : ∃ i, m.wrote n =
    { m with written := m.written ++ m.output.take n, output := m.output.drop n, interest := i } ∧
    i.isSome = m.interest.isSome ∧ (m.output.drop n ≠ [] → i = m.interest) := by
  unfold Shared.wrote
  simp only [retrieve_eq_drop]
  split
  · rename_i hempty
    exact ⟨_,rfl,by simp,fun hne => absurd hempty hne⟩
  · exact ⟨_,rfl,rfl,fun _ => rfl⟩

theorem shutdown_move (p : Pc) (inside : Bool) : Move m p (m.shutdown inside).1 (m.shutdown inside).2 := by
  unfold Shared.shutdown
  split
  · exact Move.dead rfl rfl rfl (by simp)
  · rename_i hdead
    exact Move.dead (by simpa using hdead) rfl rfl (by simp)

/-- `buffer_output` fails to reach the reactor only when the connection is closed. -/
theorem bufferOutput_move (ho : Open m) (t : Thread W) : Move m .notify (m.bufferOutput t) .idle := by
  cases hsocket : m.socket with
  | false =>
    have hdead : m.running = false := by
      by_contra hrun
      simp [ho.socket (by simpa using hrun)] at hsocket
    cases t <;> simp only [Shared.bufferOutput, hsocket] <;> exact Move.dead hdead rfl rfl (by simp)
  | true =>
    cases t with
    | reactor =>
      simp only [Shared.bufferOutput, hsocket, if_true]
      exact Move.arm rfl
    | worker w =>
      simp only [Shared.bufferOutput, hsocket, if_true]
      exact Move.notified

theorem runFunctor_move (f : Functor) (rest : List Functor) :
    Move m (.functors (f :: rest)) (m.runFunctor f) (.functors rest) := by
  cases f with
  | addConnection fd => exact Move.quiet rfl (by simp [Owes])
  | enableWriting fd =>
    simp only [Shared.runFunctor]
    split
    · exact Move.arm rfl
    · rename_i hother
      refine Move.quiet rfl ?_
      rintro hreg (hn | ⟨_,⟨⟩,hmem⟩)
      · cases hn
      · rcases List.mem_cons.mp hmem with heq | hmem
        · cases heq
          exact absurd ⟨rfl,hreg⟩ hother
        · exact Or.inr ⟨rest,rfl,hmem⟩

theorem move_of_advanceAny (ho : Open m) (hl : Local m p) (h : advanceAny t m p a = some (m',p')) :
    Move m p m' p' := by
  cases p with
  | idle =>
    cases a with
    | send data =>
      cases data with
      | none =>
        cases h
        exact Move.quiet rfl (fun _ => id)
      | some msg =>
        cases h
        refine Move.quiet ?_ (by simp [Owes])
        split <;> rfl
    | shutdown =>
      cases h
      exact Move.quiet rfl (by simp [Owes])
    | post f =>
      cases h
      exact Move.post
    | _ => cases h
  | sendLock msg =>
    cases a with
    | go =>
      simp only [advanceAny] at h
      split at h
      · cases h
      · split at h
        · have hm := shutdown_move (m := m) (.sendLock msg) true
          rwa [Option.some.inj h] at hm
        · cases h
          exact Move.append
    | throws =>
      simp only [advanceAny] at h
      split at h <;> cases h
      exact Move.quiet rfl (by simp [Owes])
    | _ => cases h
  | notify =>
    cases a with
    | go =>
      cases h
      exact bufferOutput_move ho t
    | _ => cases h
  | shutdown =>
    cases a with
    | go =>
      have hm := shutdown_move (m := m) .shutdown false
      rwa [Option.some.inj h] at hm
    | _ => cases h
  | closing inside =>
    cases a with
    | go | throws =>
      cases h
      exact Move.dead hl rfl rfl (by simp)
    | _ => cases h
  | clearing =>
    cases a with
    | go =>
      simp only [advanceAny] at h
      split at h <;> cases h
      exact Move.dead hl rfl rfl (by simp)
    | _ => cases h
  | writeLock | erased | functors => cases a <;> cases h

theorem move_of_advanceReactor (hl : Local m p) (h : advanceReactor m p a = some (m',p')) :
    Move m p m' p' := by
  cases p with
  | idle =>
    cases a with
    | handleWrite =>
      cases h
      refine Move.quiet ?_ (by simp [Owes])
      split <;> rfl
    | closeConnection =>
      simp only [advanceReactor] at h
      split at h
      · cases h
        exact Move.unregister
      · cases h
        exact Move.quiet rfl (fun _ => id)
    | doPendingFunctors =>
      cases h
      exact Move.swap
    | _ => cases h
  | writeLock =>
    cases a with
    | go =>
      simp only [advanceReactor] at h
      split at h
      · cases h
      · rename_i hout
        cases h
        exact Move.drained (by simpa using (not_or.mp hout).2)
    | wrote n =>
      simp only [advanceReactor] at h
      split at h <;> cases h
      exact Move.wrote
    | wouldBlock | throws =>
      simp only [advanceReactor] at h
      split at h <;> cases h
      exact Move.quiet rfl (by simp [Owes])
    | error =>
      simp only [advanceReactor] at h
      split at h
      · cases h
      · have hm := shutdown_move (m := m) .writeLock true
        rwa [Option.some.inj h] at hm
    | _ => cases h
  | erased =>
    cases a with
    | go =>
      cases h
      exact Move.deleted hl
    | _ => cases h
  | functors rest =>
    cases a with
    | go =>
      cases rest with
      | nil =>
        cases h
        exact Move.quiet rfl (by simp [Owes])
      | cons f rest =>
        cases h
        exact runFunctor_move f rest
    | _ => cases rest <;> cases h
  | sendLock | notify | shutdown | closing | clearing => cases a <;> cases h

theorem move_of_advance (ho : Open m) (hl : Local m p) (h : advance t m p a = some (m',p')) :
    Move m p m' p' := by
  rcases advance_eq_some h with h | h
  · exact move_of_advanceAny ho hl h
  · exact move_of_advanceReactor hl h

namespace Move

theorem later (h : Move m p m' p') :
    m'.fd = m.fd ∧ (m.running = false → m'.running = false) ∧ (m.registered = false → m'.registered = false) := by
  cases h with
  | dead hdead hfd hreg => exact ⟨hfd,fun _ => hdead,fun h => hreg.trans h⟩
  | wrote =>
    obtain ⟨i,hi,-⟩ := wrote_eq m _
    rw [hi]
    exact ⟨rfl,id,id⟩
  | unregister => exact ⟨rfl,id,fun _ => rfl⟩
  | quiet | append | arm | notified | post | drained | deleted | swap => exact ⟨rfl,id,id⟩

theorem local_own (h : Move m p m' p') : Local m' p' := by
  have hfree : ∀ {q : Pc} {k : Shared}, q.free = true → Local k q := by
    intro q k hq
    cases q <;> trivial
  cases h with
  | dead hdead hfd hreg hp =>
    cases p' with
    | erased => exact absurd rfl hp
    | closing | clearing => exact hdead
    | _ => trivial
  | quiet hp | arm hp => exact hfree hp
  | append => split <;> trivial
  | unregister => rfl
  | _ => trivial

theorem local_other {q : Pc} (h : Move m p m' p') (hq : Local m q) : Local m' q := by
  obtain ⟨-,hrun,hreg⟩ := h.later
  cases q with
  | erased => exact hreg hq
  | closing | clearing => exact hrun hq
  | _ => trivial

theorem keeps_open (h : Move m p m' p') (ho : Open m) : Open m' := by
  cases h with
  | dead hdead => exact ⟨by simp [hdead],by simp [hdead]⟩
  | arm | drained => exact ⟨ho.socket,by simpa [Shared.modify] using ho.interest⟩
  | wrote =>
    obtain ⟨i,hi,hsome,-⟩ := wrote_eq m _
    rw [hi]
    exact ⟨ho.socket,fun hrun hreg => hsome.trans (ho.interest hrun hreg)⟩
  | unregister => exact ⟨ho.socket,fun _ hreg => by cases hreg⟩
  | deleted h => exact ⟨ho.socket,fun _ hreg => by rw [h] at hreg; cases hreg⟩
  | quiet | append | notified | post | swap => exact ⟨ho.socket,ho.interest⟩

theorem keeps_stream (h : Move m p m' p') (hs : m.running = true → StreamIntact m) :
    m'.running = true → StreamIntact m' := by
  intro halive
  cases h with
  | dead hdead =>
    rw [hdead] at halive
    cases halive
  | append =>
    have hm : m.written ++ m.output = m.accepted.flatten := hs halive
    simp only [StreamIntact, Shared.append, List.flatten_concat, ← List.append_assoc, hm]
  | wrote =>
    obtain ⟨i,hi,-⟩ := wrote_eq m _
    rw [hi] at halive ⊢
    have hm : m.written ++ m.output = m.accepted.flatten := hs halive
    simp only [StreamIntact, List.append_assoc, List.take_append_drop, hm]
  | quiet | arm | notified | post | drained | unregister | deleted | swap => exact hs halive

end Move
end Steps

section Runs
variable [DecidableEq W] {s u : State W} {a : Thread W × Act} {fd : ℕ}

structure Inv (s : State W) : Prop where
  isOpen : Open s.shared
  points : ∀ t, Local s.shared (s.pc t)
  stream : s.shared.running = true → StreamIntact s.shared
  flushing : s.shared.running = true → s.shared.registered = true → s.shared.output ≠ [] → Flushing s

omit [DecidableEq W] in
theorem flushing_iff : Flushing s ↔ s.shared.interest = some true ∨
    .enableWriting s.shared.fd ∈ s.shared.pending ∨ ∃ t, Owes s.shared.fd (s.pc t) := by
  unfold Flushing EnableQueued Owes
  constructor
  · rintro (h | (h | ⟨t,h⟩) | ⟨t,h⟩)
    · exact Or.inl h
    · exact Or.inr (Or.inl h)
    · exact Or.inr (Or.inr ⟨t,Or.inr h⟩)
    · exact Or.inr (Or.inr ⟨t,Or.inl h⟩)
  · rintro (h | h | ⟨t,h | h⟩)
    · exact Or.inl h
    · exact Or.inr (Or.inl (Or.inl h))
    · exact Or.inr (Or.inr ⟨t,h⟩)
    · exact Or.inr (Or.inl (Or.inr ⟨t,h⟩))

/-- A thread that owes goes on owing, unless the step is its own and settles it. -/
theorem owes_update {t : Thread W} {p' : Pc} (h : Owes fd (s.pc t) → Owes fd p')
    (ho : ∃ x, Owes fd (s.pc x)) : ∃ x, Owes fd (Function.update s.pc t p' x) := by
  obtain ⟨x,hx⟩ := ho
  by_cases hxt : x = t
  · subst hxt
    exact ⟨x,by simpa using h hx⟩
  · exact ⟨x,by simpa [Function.update_of_ne hxt] using hx⟩

/-- A step that takes back neither the interest nor a functor, and after which the thread still owes
what it owed, leaves the output of a live connection to be written. -/
theorem Inv.still_flushing {t : Thread W} {p' : Pc} {interest : Option Bool} {pending : List Functor} (hi : Inv s)
    (halive : s.shared.running = true) (hreg : s.shared.registered = true) (hout : s.shared.output ≠ [])
    (hinterest : s.shared.interest = some true → interest = some true)
    (hpending : .enableWriting s.shared.fd ∈ s.shared.pending →
      .enableWriting s.shared.fd ∈ pending ∨ Owes s.shared.fd p')
    (howes : Owes s.shared.fd (s.pc t) → Owes s.shared.fd p') :
    interest = some true ∨ .enableWriting s.shared.fd ∈ pending ∨
      ∃ x, Owes s.shared.fd (Function.update s.pc t p' x) := by
  rcases flushing_iff.mp (hi.flushing halive hreg hout) with h | h | h
  · exact Or.inl (hinterest h)
  · rcases hpending h with h | h
    · exact Or.inr (Or.inl h)
    · exact Or.inr (Or.inr ⟨t,by simpa using h⟩)
  · exact Or.inr (Or.inr (owes_update howes h))

theorem step_flushing {t : Thread W} {m' : Shared} {p p' : Pc} (hi : Inv s) (hp : s.pc t = p)
    (hm : Move s.shared p m' p') (halive : m'.running = true) (hreg : m'.registered = true)
    (hout : m'.output ≠ []) : Flushing { shared := m', pc := Function.update s.pc t p' } := by
  rw [flushing_iff]
  dsimp only
  rw [hm.later.1]
  cases hm with
  | dead hdead =>
    rw [hdead] at halive
    cases halive
  | quiet _ hkeep => exact hi.still_flushing halive hreg hout id Or.inl (hp ▸ hkeep hreg)
  | append =>
    by_cases hempty : s.shared.output = []
    · refine Or.inr (Or.inr ⟨t,?_⟩)
      rw [Function.update_self]
      exact Or.inl (if_pos ⟨hempty,hout⟩)
    · exact hi.still_flushing halive hreg hempty id Or.inl (by simp [hp, Owes])
  | arm =>
    obtain ⟨b,hb⟩ := Option.isSome_iff_exists.mp (hi.isOpen.interest halive hreg)
    exact Or.inl (by simp [Shared.modify, hb])
  | notified => exact Or.inr (Or.inl (by simp [Shared.post]))
  | post =>
    exact hi.still_flushing halive hreg hout id (fun h => Or.inl (List.mem_append_left _ h)) (by simp [hp, Owes])
  | wrote =>
    obtain ⟨i,hw,-,hkeep⟩ := wrote_eq s.shared _
    rw [hw] at halive hreg hout ⊢
    have hne : s.shared.output ≠ [] := fun he => hout (by simp [he])
    exact hi.still_flushing halive hreg hne (fun h => (hkeep hout).trans h) Or.inl (by simp [hp, Owes])
  | drained hempty => exact absurd hempty hout
  | unregister => cases hreg
  | deleted h =>
    rw [h] at hreg
    cases hreg
  | swap =>
    -- the queue is empty now, but the reactor has taken its functors
    exact hi.still_flushing halive hreg hout id (fun h => Or.inr (Or.inr ⟨_,rfl,h⟩)) (by simp [hp, Owes])

theorem step_inv (hi : Inv s) (h : step s a = some u) : Inv u := by
  obtain ⟨t,act⟩ := a
  obtain ⟨m,p,ha,rfl⟩ := Threads.step_eq_some.mp h
  have hm := move_of_advance hi.isOpen (hi.points t) ha
  refine ⟨hm.keeps_open hi.isOpen,?_,hm.keeps_stream hi.stream,step_flushing hi rfl hm⟩
  refine Threads.step_forall (K := fun m _ p => Local m p) hi.points h ?_ ?_
  · intro m' p' ha'
    rw [ha] at ha'
    cases ha'
    exact hm.local_own
  · intro m' p' x ha' _ hx
    rw [ha] at ha'
    cases ha'
    exact hm.local_other hx

omit [DecidableEq W] in
theorem initial_inv : Inv (initial W fd) where
  isOpen := ⟨fun _ => rfl,fun _ _ => rfl⟩
  points := fun _ => trivial
  stream := fun _ => rfl
  flushing := fun _ _ h => absurd rfl h

theorem exec_inv {as : List (Thread W × Act)} (h : exec step (initial W fd) as = some s) : Inv s :=
  exec_of_steps (fun _ _ _ hi hu => step_inv hi hu) initial_inv h

/-- Output of a live, registered connection is never forgotten. -/
theorem no_stuck_output {as : List (Thread W × Act)} (h : exec step (initial W fd) as = some s)
    (halive : s.shared.running = true) (hreg : s.shared.registered = true) (hout : s.shared.output ≠ []) :
    s.shared.interest = some true ∨ EnableQueued s ∨ ∃ t, s.pc t = .notify :=
  (exec_inv h).flushing halive hreg hout

/-- What was written followed by what is buffered is what was accepted. -/
theorem output_stream_intact {as : List (Thread W × Act)} (h : exec step (initial W fd) as = some s)
    (halive : s.shared.running = true) : s.shared.written ++ s.shared.output = s.shared.accepted.flatten :=
  (exec_inv h).stream halive

end Runs

/-- Two workers send; the reactor takes the functor of the first one from the queue. -/
def overlappingSends : List (Thread Bool × Act) :=
  [(.worker false,.send (some [1])),(.worker false,.go),(.worker true,.send (some [2])),(.worker true,.go),
    (.worker false,.go),(.reactor,.doPendingFunctors)]

theorem no_stuck_output_overlapping :
    ∃ s, exec step (initial Bool 7) overlappingSends = some s ∧ s.shared.output = [1,2] ∧
      (s.shared.interest = some true ∨ EnableQueued s ∨ ∃ t, s.pc t = .notify) := by
  have hrun : ∃ s, exec step (initial Bool 7) overlappingSends = some s ∧ s.shared.running = true ∧
      s.shared.registered = true ∧ s.shared.output = [1,2] := ⟨_,rfl,rfl,rfl,rfl⟩
  obtain ⟨s,hs,halive,hreg,hout⟩ := hrun
  exact ⟨s,hs,hout,no_stuck_output hs halive hreg (by simp [hout])⟩

/-- The functor is run, and the socket takes one of the two bytes. -/
def partialWrite : List (Thread Bool × Act) :=
  overlappingSends ++ [(.reactor,.go),(.reactor,.go),(.reactor,.handleWrite),(.reactor,.wrote 1)]

theorem output_stream_intact_partial :
    ∃ s, exec step (initial Bool 7) partialWrite = some s ∧ s.shared.written = [1] ∧
      s.shared.written ++ s.shared.output = s.shared.accepted.flatten := by
  have hrun : ∃ s, exec step (initial Bool 7) partialWrite = some s ∧ s.shared.running = true ∧
      s.shared.written = [1] := ⟨_,rfl,rfl,rfl⟩
  obtain ⟨s,hs,halive,hwritten⟩ := hrun
  exact ⟨s,hs,hwritten,output_stream_intact hs halive⟩

end ModernTcp.OutputPath
