import Mathlib.Tactic
import ModernTcp.Common.Config
import ModernTcp.Lib.Threads

/-! # The lock of the output buffer

`send`, `send(Buffer&)`, `handle_write` and `shutdown` of one connection, called by any
threads in any order, at the grain of single tests and lock operations. `buffer_mutex_` is
a non-recursive lock with an owner: a thread that finds it taken goes no further, and for
the owner itself the lock is never free (a library may also report that as an error).
`shutdown` takes the lock and is called in two places inside a critical
section, for an output overflow in `send` and for a hard error in `handle_write`.
-/
namespace ModernTcp.BufferMutex
open Execution

/-- Where a thread stands. The points of `shutdown` know whether it was called with the lock
held; `leaving` is the end of a critical section, by an exception or not. -/
inductive Pc
  | idle
  | sendBufferAlive (readable : ℕ)
  | sendAlive (null : Bool) (len : ℕ)
  | sendLock (len : ℕ)
  | sendBody (len : ℕ)
  | writeAlive
  | writeLock
  | writeBody
  | leaving (threw : Bool)
  | shutdownCas (held : Bool)
  | shutdownLinger (held : Bool)
  | shutdownLock (held : Bool)
  | shutdownClear (held : Bool)
deriving DecidableEq

/-- The call an idle thread makes, or how the code and the kernel answer at a point. -/
inductive Act
  | send (null : Bool) (len : ℕ)
  | sendBuffer (readable : ℕ)
  | handleWrite
  | shutdown
  | go
  | throws
  | wrote (n : ℕ)
  | wouldBlock
  | error
deriving DecidableEq

structure Shared (T : Type*) where
  running : Bool := true
  socket : Bool := true
  output : ℕ := 0
  owner : Option T := none
deriving DecidableEq

variable {T : Type*}

/-- Acquire the lock, if it is free, and go on at `p`. -/
def Shared.acquire (m : Shared T) (t : T) (p : Pc) : Option (Shared T × Pc) :=
  match m.owner with
  | none => some ({ m with owner := some t },p)
  | some _ => none

/-- Where a thread goes when its `shutdown` returns. -/
def afterShutdown (held : Bool) : Pc := if held then .leaving false else .idle

/-- What one thread does next. -/
def advance (t : T) (m : Shared T) : Pc → Act → Option (Shared T × Pc)
  | .idle, .send null len => some (m,.sendAlive null len)
  | .idle, .sendBuffer readable => some (m,.sendBufferAlive readable)
  | .idle, .handleWrite => some (m,.writeAlive)
  | .idle, .shutdown => some (m,.shutdownCas false)
  | .sendBufferAlive readable, .go => some (m,if m.running then .sendAlive false readable else .idle)
  | .sendAlive null len, .go =>
    some (m,if m.running = false ∨ len = 0 ∨ null = true then .idle else .sendLock len)
  | .sendLock len, .go => m.acquire t (.sendBody len)
  | .sendBody len, .go =>
    if maxBufferSize < m.output + len then some (m,.shutdownCas true)
    else some ({ m with output := m.output + len },.leaving false)
  | .sendBody len, .throws =>
    if maxBufferSize < m.output + len then none else some (m,.leaving true)
  | .writeAlive, .go => some (m,if m.running = false ∨ m.socket = false then .idle else .writeLock)
  | .writeLock, .go => m.acquire t .writeBody
  | .writeBody, .go => if m.output = 0 then some (m,.leaving false) else none
  | .writeBody, .throws => some (m,.leaving true)
  | .writeBody, .wrote n =>
    if n ≤ m.output ∧ m.output ≠ 0 then some ({ m with output := m.output - n },.leaving false) else none
  | .writeBody, .wouldBlock => if m.output = 0 then none else some (m,.leaving false)
  | .writeBody, .error => if m.output = 0 then none else some (m,.shutdownCas true)
  | .leaving threw, .go => some ({ m with owner := none },if threw then .shutdownCas false else .idle)
  | .shutdownCas held, .go =>
    if m.running then some ({ m with running := false },.shutdownLinger held)
    else some (m,afterShutdown held)
  | .shutdownLinger held, .go => some ({ m with socket := false },.shutdownLock held)
  | .shutdownLinger held, .error => if m.socket then some (m,afterShutdown held) else none
  | .shutdownLock held, .go => m.acquire t (.shutdownClear held)
  | .shutdownClear held, .go => some ({ m with output := 0, owner := none },afterShutdown held)
  | _, _ => none

/-- The points at which the lock is acquired next. -/
def Pc.acquires : Pc → Bool
  | .sendLock _ | .writeLock | .shutdownLock _ => true
  | _ => false

/-- The points inside a critical section. -/
def Pc.holds : Pc → Bool
  | .sendBody _ | .writeBody | .leaving _ | .shutdownClear _ => true
  | .shutdownCas held | .shutdownLinger held | .shutdownLock held => held
  | _ => false

abbrev State (T : Type*) := Threads.System T (Shared T) Pc

def initial (T : Type*) : State T := { shared := {}, pc := fun _ => .idle }

def step [DecidableEq T] : State T → T × Act → Option (State T) := Threads.step advance

/-- The thread waits for a lock that it holds itself. -/
def SelfAcquires (s : State T) (t : T) : Prop := s.shared.owner = some t ∧ (s.pc t).acquires = true

/-- A live connection overflows in `send`, or its socket fails in `handle_write`. -/
def ClosesInside (s : State T) (a : T × Act) : Prop :=
  s.shared.running = true ∧
    ((∃ len, s.pc a.1 = .sendBody len ∧ a.2 = .go ∧ maxBufferSize < s.shared.output + len) ∨
      s.pc a.1 = .writeBody ∧ a.2 = .error ∧ s.shared.output ≠ 0)

instance (p : Pc) (q : ℕ → Prop) [DecidablePred q] : Decidable (∃ len, p = .sendBody len ∧ q len) :=
  match p with
  | .sendBody len => decidable_of_iff (q len) (by simp)
  | .idle | .sendBufferAlive _ | .sendAlive _ _ | .sendLock _ | .writeAlive | .writeLock | .writeBody | .leaving _
  | .shutdownCas _ | .shutdownLinger _ | .shutdownLock _ | .shutdownClear _ => isFalse (by simp)

instance (s : State T) (a : T × Act) : Decidable (ClosesInside s a) :=
  inferInstanceAs (Decidable (_ ∧ ((∃ _, _ ∧ _ ∧ _) ∨ _ ∧ _ ∧ _)))

/-- The owner of the lock is the thread inside a critical section, and nobody gets past
acquiring it twice. -/
def OwnerInside (m : Shared T) (t : T) (p : Pc) : Prop :=
  (m.owner = some t ↔ p.holds = true) ∧ p ≠ .shutdownClear true

/-- A `shutdown` inside a critical section comes too late to close anything. -/
def LateInside (m : Shared T) (_ : T) (p : Pc) : Prop :=
  (p = .shutdownCas true → m.running = false) ∧ p ≠ .shutdownLinger true ∧ p ≠ .shutdownLock true

theorem acquire_eq_some {m m' : Shared T} {t : T} {p p' : Pc} (h : m.acquire t p = some (m',p')) :
    m.owner = none ∧ m' = { m with owner := some t } ∧ p' = p := by
  unfold Shared.acquire at h
  split at h
  · rename_i hfree
    cases h
    exact ⟨hfree,rfl,rfl⟩
  · cases h

theorem advance_owner {t : T} {m m' : Shared T} {p p' : Pc} {a : Act}
    (h : advance t m p a = some (m',p')) :
    (m'.owner = m.owner ∧ p'.holds = p.holds ∧ p' ≠ .shutdownClear true) ∨
    (m.owner = none ∧ m'.owner = some t ∧ p'.holds = true ∧ p.acquires = true ∧
      (p' = .shutdownClear true → p = .shutdownLock true)) ∨
    (p.holds = true ∧ m'.owner = none ∧ (p ≠ .shutdownClear true → p'.holds = false)) := by
  cases p with
  | sendLock len | writeLock | shutdownLock held =>
    right
    left
    cases a <;> simp only [advance, reduceCtorEq] at h
    obtain ⟨hfree,rfl,rfl⟩ := acquire_eq_some h
    simp [hfree, Pc.holds, Pc.acquires]
  | leaving threw =>
    right
    right
    cases a <;> simp only [advance, Option.some.injEq, Prod.mk.injEq, reduceCtorEq] at h
    obtain ⟨rfl,rfl⟩ := h
    cases threw <;> simp [Pc.holds]
  | shutdownClear held =>
    right
    right
    cases a <;> simp only [advance, Option.some.injEq, Prod.mk.injEq, reduceCtorEq] at h
    obtain ⟨rfl,rfl⟩ := h
    cases held <;> simp [Pc.holds, afterShutdown]
  | idle | sendBufferAlive | sendAlive | writeAlive =>
    left
    cases a <;> simp only [advance, Option.some.injEq, Prod.mk.injEq, reduceCtorEq] at h <;>
      obtain ⟨rfl,rfl⟩ := h
    all_goals first | exact ⟨rfl,rfl,by simp⟩ | (split <;> exact ⟨rfl,rfl,by simp⟩)
  | sendBody len =>
    left
    cases a <;> simp only [advance, reduceCtorEq] at h <;> split at h <;> cases h <;> simp [Pc.holds]
  | writeBody =>
    left
    cases a <;> simp only [advance, reduceCtorEq] at h
    case throws =>
      cases h
      simp [Pc.holds]
    all_goals
      split at h <;> cases h
      simp [Pc.holds]
  | shutdownCas held =>
    left
    cases a <;> simp only [advance, reduceCtorEq] at h
    split at h <;> cases h <;> cases held <;> simp [Pc.holds, afterShutdown]
  | shutdownLinger held =>
    left
    cases a <;> simp only [advance, reduceCtorEq] at h
    case go =>
      cases h
      simp [Pc.holds]
    case error =>
      split at h <;> cases h
      cases held <;> simp [Pc.holds, afterShutdown]

/-- Whoever acquires the lock twice closes the connection inside a critical section. -/
theorem OwnerInside.self_acquires {m : Shared T} {t : T} {p : Pc} (h : OwnerInside m t p)
    (hown : m.owner = some t) (hacq : p.acquires = true) : p = .shutdownLock true := by
  have hh := h.1.mp hown
  cases p <;> simp_all [Pc.holds, Pc.acquires]

/-- `running_` is only ever cleared. -/
theorem advance_running {t : T} {m m' : Shared T} {p p' : Pc} {a : Act}
    (h : advance t m p a = some (m',p')) (hm : m.running = false) : m'.running = false := by
  unfold advance at h
  split at h <;> grind [Shared.acquire]

theorem advance_shutdownCas {t : T} {m m' : Shared T} {p : Pc} {a : Act}
    (h : advance t m p a = some (m',.shutdownCas true)) : m' = m ∧
    ((∃ len, p = .sendBody len ∧ a = .go ∧ maxBufferSize < m.output + len) ∨
      p = .writeBody ∧ a = .error ∧ m.output ≠ 0) := by
  unfold advance at h
  split at h <;> grind [Shared.acquire, afterShutdown]

theorem advance_shutdownLinger {t : T} {m m' : Shared T} {p : Pc} {a : Act}
    (h : advance t m p a = some (m',.shutdownLinger true)) : p = .shutdownCas true ∧ m.running = true := by
  unfold advance at h
  split at h <;> grind [Shared.acquire, afterShutdown]

theorem advance_shutdownLock {t : T} {m m' : Shared T} {p : Pc} {a : Act}
    (h : advance t m p a = some (m',.shutdownLock true)) : p = .shutdownLinger true := by
  unfold advance at h
  split at h <;> grind [Shared.acquire, afterShutdown]

theorem initial_ownerInside (t : T) : OwnerInside (initial T).shared t ((initial T).pc t) := by
  simp [OwnerInside, initial, Pc.holds]

theorem initial_lateInside (t : T) : LateInside (initial T).shared t ((initial T).pc t) := by
  simp [LateInside, initial]

section Runs
variable [DecidableEq T]

theorem step_ownerInside {s u : State T} {a : T × Act} (hs : ∀ t, OwnerInside s.shared t (s.pc t))
    (h : step s a = some u) : ∀ t, OwnerInside u.shared t (u.pc t) := by
  obtain ⟨t,act⟩ := a
  refine Threads.step_forall hs h ?_ ?_
  · intro m p ha
    obtain ⟨hiff,hclear⟩ := hs t
    rcases advance_owner ha with ⟨ho,hp,hc⟩ | ⟨hfree,ho,hp,hacq,hc⟩ | ⟨hp,ho,hout⟩
    · exact ⟨by rw [ho, hp, hiff],hc⟩
    · refine ⟨by simp [ho, hp],?_⟩
      intro hpc
      -- with the lock free, the thread is not inside a critical section
      have hpc' := hc hpc
      rw [hpc', hfree] at hiff
      simp [Pc.holds] at hiff
    · refine ⟨by simp [ho, hout hclear],?_⟩
      intro hpc
      have hfalse := hout hclear
      rw [hpc] at hfalse
      cases hfalse
  · intro m p x ha hx hk
    refine ⟨?_,hk.2⟩
    rcases advance_owner ha with ⟨ho,-⟩ | ⟨hfree,ho,-⟩ | ⟨hp,ho,-⟩
    · rw [ho]
      exact hk.1
    · rw [ho, ← hk.1, hfree]
      simp [hx.symm]
    · have hown : s.shared.owner = some t := (hs t).1.mpr hp
      rw [ho, ← hk.1, hown]
      simp [hx.symm]

theorem step_lateInside {s u : State T} {a : T × Act} (hs : ∀ t, LateInside s.shared t (s.pc t))
    (hgood : ¬ ClosesInside s a) (h : step s a = some u) : ∀ t, LateInside u.shared t (u.pc t) := by
  obtain ⟨t,act⟩ := a
  refine Threads.step_forall hs h ?_ ?_
  · intro m p ha
    obtain ⟨hcas,hlinger,-⟩ := hs t
    refine ⟨?_,?_,?_⟩
    · rintro rfl
      obtain ⟨rfl,hbad⟩ := advance_shutdownCas ha
      by_contra hrun
      exact hgood ⟨by simpa using hrun,hbad⟩
    · rintro rfl
      obtain ⟨hpc,hrun⟩ := advance_shutdownLinger ha
      rw [hcas hpc] at hrun
      cases hrun
    · rintro rfl
      exact hlinger (advance_shutdownLock ha)
  · intro m p x ha _ hk
    exact ⟨fun hp => advance_running ha (hk.1 hp),hk.2⟩

theorem no_selfAcquires {as : List (T × Act)}
    (hgood : Along step (fun s a => ¬ ClosesInside s a) (initial T) as) {s : State T}
    (hv : Visits step (initial T) as s) (t : T) : ¬ SelfAcquires s t := by
  have hinv := visits_invariant
    (I := fun s : State T => (∀ t, OwnerInside s.shared t (s.pc t)) ∧ ∀ t, LateInside s.shared t (s.pc t))
    (fun s a u hs hg hu => ⟨step_ownerInside hs.1 hu,step_lateInside hs.2 hg hu⟩)
    ⟨initial_ownerInside,initial_lateInside⟩ hgood hv
  rintro ⟨hown,hacq⟩
  exact (hinv.2 t).2.2 ((hinv.1 t).self_acquires hown hacq)

/-- After a close inside a critical section the thread needs two more steps to wait for itself. -/
theorem selfAcquires_after {s u : State T} {t : T} {a : Act} (hs : ∀ x, OwnerInside s.shared x (s.pc x))
    (hbad : ClosesInside s (t,a)) (hu : step s (t,a) = some u) :
    ∃ v, exec step u [(t,.go),(t,.go)] = some v ∧ SelfAcquires v t := by
  obtain ⟨hrun,hbad⟩ := hbad
  obtain ⟨m,p,ha,rfl⟩ := Threads.step_eq_some.mp hu
  have hto : m = s.shared ∧ p = .shutdownCas true := by
    rcases hbad with ⟨len,hpc,rfl,hmax⟩ | ⟨hpc,rfl,hne⟩
    · dsimp only at hpc
      rw [hpc] at ha
      simp only [advance, if_pos hmax, Option.some.injEq, Prod.mk.injEq] at ha
      exact ⟨ha.1.symm,ha.2.symm⟩
    · dsimp only at hpc
      rw [hpc] at ha
      simp only [advance, if_neg hne, Option.some.injEq, Prod.mk.injEq] at ha
      exact ⟨ha.1.symm,ha.2.symm⟩
  obtain ⟨rfl,rfl⟩ := hto
  have hown : s.shared.owner = some t := by
    apply (hs t).1.mpr
    rcases hbad with ⟨len,hpc,-⟩ | ⟨hpc,-⟩ <;> dsimp only at hpc <;> rw [hpc] <;> rfl
  let v : State T := {
    shared := { s.shared with running := false, socket := false }
    pc := Function.update s.pc t (.shutdownLock true) }
  refine ⟨v,?_,?_⟩
  · simp [v, exec, step, Threads.step, advance, hrun]
  · simp [v, SelfAcquires, hown, Pc.acquires]

/-- A run in which no live connection overflows in `send` or fails in `handle_write` never
has a thread waiting for itself. Wherever one of the two happens, the run can go on to a
state in which the thread does. -/
theorem buffer_mutex_not_self_acquired (as : List (T × Act)) :
    (Along step (fun s a => ¬ ClosesInside s a) (initial T) as →
      ∀ s, Visits step (initial T) as s → ∀ t, ¬ SelfAcquires s t) ∧
    ∀ s u t a, exec step (initial T) as = some s → ClosesInside s (t,a) → step s (t,a) = some u →
      ∃ more v, exec step u more = some v ∧ SelfAcquires v t := by
  refine ⟨fun hgood s hv t => no_selfAcquires hgood hv t,?_⟩
  intro s u t a hs hbad hu
  have hown : ∀ x, OwnerInside s.shared x (s.pc x) :=
    exec_of_steps (I := fun s : State T => ∀ t, OwnerInside s.shared t (s.pc t))
      (fun _ _ _ hs hu => step_ownerInside hs hu) initial_ownerInside hs
  obtain ⟨v,hv,hself⟩ := selfAcquires_after hown hbad hu
  exact ⟨_,v,hv,hself⟩

end Runs

/-- One byte is sent and written. -/
def writtenByte : List (Unit × Act) :=
  [((),.send false 1),((),.go),((),.go),((),.go),((),.go),
    ((),.handleWrite),((),.go),((),.go),((),.wrote 1),((),.go)]

theorem buffer_mutex_not_self_acquired_written :
    ∃ s, exec step (initial Unit) writtenByte = some s ∧ s.shared.output = 0 ∧ ¬ SelfAcquires s () := by
  have hrun : ∃ s, exec step (initial Unit) writtenByte = some s ∧ s.shared.output = 0 := ⟨_,rfl,rfl⟩
  obtain ⟨s,hs,hout⟩ := hrun
  have hgood : Along step (fun s a => ¬ ClosesInside s a) (initial Unit) writtenByte := by decide
  exact ⟨s,hs,hout,(buffer_mutex_not_self_acquired writtenByte).1 hgood s ⟨_,List.prefix_refl _,hs⟩ ()⟩

/-- One unsent byte and a reset peer. -/
def resetPeer : List (Unit × Act) :=
  [((),.send false 1),((),.go),((),.go),((),.go),((),.go),
    ((),.handleWrite),((),.go),((),.go),((),.error),((),.go),((),.go)]

theorem buffer_mutex_self_acquired :
    ∃ s, exec step (initial Unit) resetPeer = some s ∧ SelfAcquires s () :=
  ⟨_,rfl,rfl,rfl⟩

end ModernTcp.BufferMutex
