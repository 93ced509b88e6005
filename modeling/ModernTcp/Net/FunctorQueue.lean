import Mathlib.Tactic
import ModernTcp.Lib.Execution

/-! # Functors from other threads

`pending_functors_` of a reactor: `add_connection` and `enable_writing` push under
`pending_mutex_` and then write the eventfd; the loop of `run` reads the eventfd to zero when
`epoll_wait` reports it, goes on with the other events of the batch, and swaps and runs the
queue after the last one. A push, a write, a read and the swap are one step each. Posters are
of any type, functors of any type.
-/
namespace ModernTcp.FunctorQueue
open Execution

/-- What an entry of the array filled by `epoll_wait` stands for. -/
inductive Event
  | wake
  | timer
  | connection (fd : ℕ)
deriving DecidableEq

/-- `draining` is the loop around `read`, `functors` what `do_pending_functors` has not run yet. -/
inductive Pc (F : Type*)
  | top
  | waiting
  | batch (events : List Event) (needPending : Bool)
  | draining (events : List Event)
  | functors (rest : List F)
  | exited
deriving DecidableEq

inductive Stopping
  | running
  | woken
  | requested
deriving DecidableEq

/-- `posting` marks the threads between their push and their write. `pushed` and `executed`
remember the functors in the order of the pushes and of the calls. -/
structure State (P F : Type*) where
  pending : List F := []
  counter : ℕ := 0
  posting : P → Bool := fun _ => false
  stopping : Stopping := .running
  pc : Pc F := .top
  pushed : List F := []
  executed : List F := []

inductive Act (P F : Type*)
  | push (p : P) (f : F)
  | write (p : P)
  | shutdownWake
  | requestStop
  | epollWait (events : List Event)
  | interrupted
  | failed
  | go
deriving DecidableEq

def maxCounter : ℕ := 2 ^ 64 - 2

/-- A write of one to the eventfd; the descriptor does not block, at its limit the write fails. -/
def writeEventfd (counter : ℕ) : ℕ := if counter < maxCounter then counter + 1 else counter

variable {P F : Type*}

def Pc.waits : Pc F → Bool
  | .waiting => true
  | _ => false

/-- The loop of `run` between two answers of `epoll_wait`. -/
def advanceLoop (s : State P F) : Option (State P F) :=
  match s.pc with
  | .top => some { s with pc := if s.stopping = .requested then .exited else .waiting }
  | .batch (.wake :: rest) _ => some { s with pc := .draining rest }
  | .batch (_ :: rest) needPending => some { s with pc := .batch rest needPending }
  | .batch [] true => some { s with pc := .functors s.pending, pending := [] }
  | .batch [] false => some { s with pc := .top }
  | .draining rest =>
    if s.counter = 0 then some { s with pc := .batch rest true } else some { s with counter := 0 }
  | .functors (f :: rest) => some { s with pc := .functors rest, executed := s.executed ++ [f] }
  | .functors [] => some { s with pc := .top }
  | .waiting | .exited => none

def step [DecidableEq P] (s : State P F) : Act P F → Option (State P F)
  | .push p f =>
    if s.posting p then none
    else some { s with
      pending := s.pending ++ [f], pushed := s.pushed ++ [f], posting := Function.update s.posting p true }
  | .write p =>
    if s.posting p then
      some { s with counter := writeEventfd s.counter, posting := Function.update s.posting p false }
    else none
  | .shutdownWake =>
    if s.stopping = .running then some { s with stopping := .woken, counter := writeEventfd s.counter } else none
  | .requestStop => if s.stopping = .woken then some { s with stopping := .requested } else none
  -- the eventfd is watched level-triggered: it is reported only while its counter is positive
  | .epollWait events =>
    if s.pc.waits ∧ events ≠ [] ∧ (.wake ∈ events → 0 < s.counter) then some { s with pc := .batch events false }
    else none
  | .interrupted => if s.pc.waits then some { s with pc := .top } else none
  | .failed => if s.pc.waits then some { s with pc := .exited } else none
  | .go => advanceLoop s

/-- The part of the queue that `do_pending_functors` has taken and not run. -/
def Pc.taken : Pc F → List F
  | .functors rest => rest
  | _ => []

def Pc.swaps : Pc F → Bool
  | .draining _ | .batch _ true => true
  | _ => false

/-- Every functor that was pushed has been run, is about to be, or is in the queue, in this order;
and one in the queue is going to be noticed. -/
structure Inv (s : State P F) : Prop where
  accounted : s.executed ++ s.pc.taken ++ s.pending = s.pushed
  noticed : s.pending ≠ [] → 0 < s.counter ∨ (∃ p, s.posting p = true) ∨ s.pc.swaps = true

section Steps
variable {s u : State P F}

theorem writeEventfd_pos (counter : ℕ) : 0 < writeEventfd counter := by
  unfold writeEventfd maxCounter
  split <;> omega

theorem Inv.goto {pc : Pc F} (hs : Inv s) (htaken : pc.taken = s.pc.taken)
    (hswaps : s.pc.swaps = true → pc.swaps = true) : Inv { s with pc := pc } := by
  refine ⟨?_,?_⟩
  · dsimp only
    rw [htaken]
    exact hs.accounted
  · intro hne
    rcases hs.noticed hne with h | h | h
    · exact Or.inl h
    · exact Or.inr (Or.inl h)
    · exact Or.inr (Or.inr (hswaps h))

theorem advanceLoop_inv (hs : Inv s) (h : advanceLoop s = some u) : Inv u := by
  unfold advanceLoop at h
  cases hpc : s.pc with
  | top =>
    rw [hpc] at h
    cases h
    refine hs.goto ?_ ?_ <;> split <;> simp [hpc, Pc.taken, Pc.swaps]
  | waiting | exited =>
    rw [hpc] at h
    cases h
  | batch events needPending =>
    rw [hpc] at h
    cases events with
    | nil =>
      cases needPending with
      | false =>
        cases h
        exact hs.goto (by simp [hpc, Pc.taken]) (by simp [hpc, Pc.swaps])
      | true =>
        cases h
        refine ⟨?_,fun hne => absurd rfl hne⟩
        have hacc := hs.accounted
        simpa [hpc, Pc.taken] using hacc
    | cons e rest =>
      cases e with
      | wake =>
        cases h
        exact hs.goto (by simp [hpc, Pc.taken]) (fun _ => rfl)
      | timer | connection =>
        cases h
        exact hs.goto (by simp [hpc, Pc.taken]) (by cases needPending <;> simp [hpc, Pc.swaps])
  | draining rest =>
    rw [hpc] at h
    dsimp only at h
    split at h
    · cases h
      exact hs.goto (by simp [hpc, Pc.taken]) (fun _ => rfl)
    · cases h
      -- a push that comes after this read is still before the swap
      exact ⟨by simpa [hpc] using hs.accounted,fun _ => Or.inr (Or.inr rfl)⟩
  | functors rest =>
    rw [hpc] at h
    cases rest with
    | nil =>
      cases h
      exact hs.goto (by simp [hpc, Pc.taken]) (by simp [hpc, Pc.swaps])
    | cons f rest =>
      cases h
      refine ⟨?_,?_⟩
      · have hacc := hs.accounted
        simpa [hpc, Pc.taken] using hacc
      · have hnote := hs.noticed
        simpa [hpc, Pc.swaps] using hnote

theorem Inv.leave {pc : Pc F} (hs : Inv s) (hwaits : s.pc.waits = true) (htaken : pc.taken = []) :
    Inv { s with pc := pc } := by
  cases hpc : s.pc with
  | waiting => exact hs.goto (by rw [htaken, hpc]; rfl) (by simp [hpc, Pc.swaps])
  | top | batch | draining | functors | exited =>
    rw [hpc] at hwaits
    cases hwaits

variable [DecidableEq P]

theorem step_inv {a : Act P F} (hs : Inv s) (h : step s a = some u) : Inv u := by
  cases a with
  | push p f =>
    simp only [step] at h
    split at h
    · cases h
    · cases h
      refine ⟨?_,fun _ => Or.inr (Or.inl ⟨p,by simp⟩)⟩
      dsimp only
      rw [← hs.accounted, ← List.append_assoc]
  | write p =>
    simp only [step] at h
    split at h
    · cases h
      exact ⟨hs.accounted,fun _ => Or.inl (writeEventfd_pos _)⟩
    · cases h
  | shutdownWake =>
    simp only [step] at h
    split at h
    · cases h
      exact ⟨hs.accounted,fun _ => Or.inl (writeEventfd_pos _)⟩
    · cases h
  | requestStop =>
    simp only [step] at h
    split at h
    · cases h
      exact ⟨hs.accounted,hs.noticed⟩
    · cases h
  | epollWait events =>
    simp only [step] at h
    split at h
    · rename_i hready
      cases h
      exact hs.leave hready.1 rfl
    · cases h
  | interrupted | failed =>
    simp only [step] at h
    split at h
    · rename_i hwaits
      cases h
      exact hs.leave hwaits rfl
    · cases h
  | go => exact advanceLoop_inv hs h

theorem exec_inv {as : List (Act P F)} (h : exec step ({} : State P F) as = some s) : Inv s :=
  exec_of_steps (fun _ _ _ hs hu => step_inv hs hu) ⟨rfl,fun hne => absurd rfl hne⟩ h

end Steps

/-- Functors are run in the order of their pushes, none twice and none left out, and a reactor
that blocks with a functor in its queue has been woken or is about to be. -/
theorem functors_delivered [DecidableEq P] {as : List (Act P F)} {s : State P F}
    (h : exec step ({} : State P F) as = some s) :
    s.executed ++ s.pc.taken ++ s.pending = s.pushed ∧
    (s.pc = .waiting → s.pending ≠ [] → 0 < s.counter ∨ ∃ p, s.posting p = true) := by
  refine ⟨(exec_inv h).accounted,?_⟩
  intro hpc hne
  rcases (exec_inv h).noticed hne with hpos | hposting | hswaps
  · exact Or.inl hpos
  · exact Or.inr hposting
  · rw [hpc] at hswaps
    cases hswaps

/-- The second poster pushes between the read of the eventfd and the swap, the third one after it. -/
def latePush : List (Act (Fin 3) ℕ) :=
  [.go,.push 0 10,.write 0,.epollWait [.wake,.timer],.go,.go,.push 1 11,.go,.go,.go,
    .push 2 12,.go,.go,.go,.go]

theorem functors_delivered_late :
    ∃ s, exec step ({} : State (Fin 3) ℕ) latePush = some s ∧ s.pc = .waiting ∧ s.executed = [10,11] ∧
      s.pending = [12] ∧ (0 < s.counter ∨ ∃ p, s.posting p = true) := by
  have hrun : ∃ s, exec step ({} : State (Fin 3) ℕ) latePush = some s ∧ s.pc = .waiting ∧
      s.executed = [10,11] ∧ s.pending = [12] := ⟨_,rfl,rfl,rfl,rfl⟩
  obtain ⟨s,hs,hpc,hexec,hpend⟩ := hrun
  exact ⟨s,hs,hpc,hexec,hpend,(functors_delivered hs).2 hpc (by simp [hpend])⟩

end ModernTcp.FunctorQueue
