import Mathlib.Data.List.Basic
import Mathlib.Tactic

/-! # Starting the reactors

`TcpServer::start` builds its reactors in a loop and gives up when a constructor throws. But the body of the
constructor is in a `try` whose `catch (...)` cleans up and returns, so only the default construction of
the member `epoll_fd_` in front of it can throw.
-/
namespace ModernTcp.ReactorStart

/-- What the system calls of one constructor return; `none` and `false` are failures. -/
structure Outcomes where
  member : Option ℕ
  epoll : Option ℕ
  wake : Option ℕ
  addWake : Bool
  timer : Option ℕ
  addTimer : Bool
  thread : Bool
deriving DecidableEq

structure SubReactor where
  epollFd : ℕ
  wakeFd : Option ℕ := none
  timerFd : Option ℕ := none
  thread : Bool := false
deriving DecidableEq

namespace SubReactor

/-- The `try` block, with the state in which it is left and whether by an exception. -/
def body (o : Outcomes) (r : SubReactor) : SubReactor × Bool :=
  match o.epoll with
  | none => (r,true)
  | some epollFd =>
    let r := { r with epollFd }
    match o.wake with
    | none => (r,true)
    | some wakeFd =>
      let r := { r with wakeFd := some wakeFd }
      if o.addWake = false then (r,true)
      else match o.timer with
        | none => (r,true)
        | some timerFd =>
          let r := { r with timerFd := some timerFd }
          if o.addTimer = false then (r,true)
          else if o.thread = false then (r,true)
          else ({ r with thread := true },false)

/-- The `catch (...)` block, which ends the exception. -/
def cleanup (r : SubReactor) : SubReactor := { r with wakeFd := none, timerFd := none }

/-- `none` when an exception leaves the constructor. -/
def construct (o : Outcomes) : Option SubReactor :=
  o.member.map fun epollFd =>
    let built := body o { epollFd }
    if built.2 then built.1.cleanup else built.1

def Serves (r : SubReactor) : Prop := r.thread = true ∧ r.wakeFd.isSome = true ∧ r.timerFd.isSome = true

instance : DecidablePred Serves := fun _ => inferInstanceAs (Decidable (_ ∧ _))

end SubReactor

def Outcomes.BodySucceeds (o : Outcomes) : Prop :=
  o.epoll.isSome = true ∧ o.wake.isSome = true ∧ o.addWake = true ∧ o.timer.isSome = true ∧ o.addTimer = true ∧
    o.thread = true

instance : DecidablePred Outcomes.BodySucceeds := fun _ => inferInstanceAs (Decidable (_ ∧ _))

structure TcpServer where
  running : Bool := false
  subReactors : List SubReactor := []
  acceptThread : Bool := false
deriving DecidableEq

namespace TcpServer

/-- The loop over the reactors; the flag says that it was left by an exception. -/
def emplaceReactors (s : TcpServer) : List Outcomes → TcpServer × Bool
  | [] => (s,false)
  | o :: rest =>
    match SubReactor.construct o with
    | none => ({ s with subReactors := [] },true)
    | some r => emplaceReactors { s with subReactors := s.subReactors ++ [r] } rest

/-- `start` for as many reactors as there are outcomes; `accept` says whether the accept thread can be
created. A single reactor is built by the accept thread. -/
def start (outcomes : List Outcomes) (accept : Bool) (s : TcpServer) : TcpServer :=
  let built := if outcomes.length ≤ 1 then ({ s with running := true },false)
    else emplaceReactors { s with running := true } outcomes
  if built.2 then { built.1 with running := false }
  else if accept then { built.1 with acceptThread := true }
  else { built.1 with running := false }

/-- The reactor that the accept loop of a server with `num_reactors_` reactors has for a connection, by
`next_reactor_index_`. -/
def reactorOf (s : TcpServer) (numReactors nextReactorIndex : ℕ) : Option SubReactor :=
  s.subReactors[nextReactorIndex % numReactors]?

structure Whole (s : TcpServer) : Prop where
  serving : s.running = true → ∀ r ∈ s.subReactors, r.Serves
  empty : s.running = false → s.subReactors = []

end TcpServer

section Construction
variable {o : Outcomes} {r : SubReactor}

theorem construct_eq_none_iff : SubReactor.construct o = none ↔ o.member = none := by
  simp [SubReactor.construct]

/-- The constructor returns a reactor that serves exactly when nothing failed. -/
theorem construct_serves_iff (h : SubReactor.construct o = some r) : r.Serves ↔ o.BodySucceeds := by
  obtain ⟨epollFd,-,rfl⟩ := Option.map_eq_some_iff.mp h
  unfold SubReactor.body Outcomes.BodySucceeds
  cases hepoll : o.epoll with
  | none => simp [SubReactor.Serves, SubReactor.cleanup]
  | some e =>
    cases hwake : o.wake with
    | none => simp [SubReactor.Serves, SubReactor.cleanup]
    | some w =>
      cases haddWake : o.addWake with
      | false => simp [SubReactor.Serves, SubReactor.cleanup]
      | true =>
        cases htimer : o.timer with
        | none => simp [SubReactor.Serves, SubReactor.cleanup]
        | some t =>
          cases haddTimer : o.addTimer with
          | false => simp [SubReactor.Serves, SubReactor.cleanup]
          | true => cases o.thread <;> simp [SubReactor.Serves, SubReactor.cleanup]

end Construction

section Start
variable {outcomes : List Outcomes} {s : TcpServer}

theorem emplaceReactors_failed (h : ∃ o ∈ outcomes, o.member = none) :
    s.emplaceReactors outcomes = ({ s with subReactors := [] },true) := by
  induction outcomes generalizing s with
  | nil => simp at h
  | cons o rest ih =>
    unfold TcpServer.emplaceReactors
    cases hr : SubReactor.construct o with
    | none => rfl
    | some r =>
      have hrest : ∃ o ∈ rest, o.member = none := by
        obtain ⟨p,hp,hnone⟩ := h
        rcases List.mem_cons.mp hp with rfl | hp
        · rw [construct_eq_none_iff.mpr hnone] at hr
          cases hr
        · exact ⟨p,hp,hnone⟩
      exact ih hrest

theorem emplaceReactors_built (h : ∀ o ∈ outcomes, o.member ≠ none) : ∃ rs,
    List.Forall₂ (fun o r => SubReactor.construct o = some r) outcomes rs ∧
      s.emplaceReactors outcomes = ({ s with subReactors := s.subReactors ++ rs },false) := by
  induction outcomes generalizing s with
  | nil => exact ⟨[],.nil,by simp [TcpServer.emplaceReactors]⟩
  | cons o rest ih =>
    obtain ⟨ho,hrest⟩ := List.forall_mem_cons.mp h
    obtain ⟨r,hr⟩ := Option.ne_none_iff_exists'.mp (fun hnone => ho (construct_eq_none_iff.mp hnone))
    obtain ⟨rs,hrs,hloop⟩ := ih (s := { s with subReactors := s.subReactors ++ [r] }) hrest
    refine ⟨r :: rs,.cons hr hrs,?_⟩
    rw [TcpServer.emplaceReactors, hr]
    dsimp only
    rw [hloop]
    simp

theorem serves_forall₂ {rs : List SubReactor}
    (h : List.Forall₂ (fun o r => SubReactor.construct o = some r) outcomes rs) :
    (∀ r ∈ rs, r.Serves) ↔ ∀ o ∈ outcomes, o.BodySucceeds := by
  induction h with
  | nil => simp
  | cons hr _ ih => simp only [List.forall_mem_cons, construct_serves_iff hr, ih]

/-- A start in multi-reactor mode leaves a whole server or none exactly when the construction of a member
`epoll_fd_` fails, or nothing fails at all. -/
theorem start_whole_iff (h : 2 ≤ outcomes.length) (accept : Bool) :
    (TcpServer.start outcomes accept {}).Whole ↔
      (∃ o ∈ outcomes, o.member = none) ∨ (∀ o ∈ outcomes, o.BodySucceeds) ∧ accept = true := by
  have hmulti : ¬ outcomes.length ≤ 1 := by omega
  by_cases hfailed : ∃ o ∈ outcomes, o.member = none
  · have hstart : TcpServer.start outcomes accept {} = {} := by
      rw [TcpServer.start, if_neg hmulti, emplaceReactors_failed hfailed]
      rfl
    rw [hstart]
    exact iff_of_true ⟨(fun hrun => by cases hrun),fun _ => rfl⟩ (Or.inl hfailed)
  · have hmember : ∀ o ∈ outcomes, o.member ≠ none := fun o ho hnone => hfailed ⟨o,ho,hnone⟩
    obtain ⟨rs,hrs,hloop⟩ := emplaceReactors_built (s := { running := true }) hmember
    have hlength := hrs.length_eq
    rw [TcpServer.start, if_neg hmulti, hloop]
    cases accept with
    | true =>
      simp only [hfailed, false_or, and_true, ← serves_forall₂ hrs]
      exact ⟨fun hw => hw.serving rfl,fun hall => ⟨fun _ => hall,fun hdead => by cases hdead⟩⟩
    | false =>
      simp only [hfailed, false_or, Bool.false_eq_true, and_false, iff_false]
      intro hw
      have hnil : rs = [] := hw.empty rfl
      rw [hnil, List.length_nil] at hlength
      omega

end Start

theorem TcpServer.Whole.reactorOf {s : TcpServer} (h : s.Whole) (hrun : s.running = true) (numReactors index : ℕ) :
    ∀ r ∈ s.reactorOf numReactors index, r.Serves :=
  fun r hr => h.serving hrun r (List.mem_of_getElem? hr)

def succeeding (fd : ℕ) : Outcomes where
  member := some fd
  epoll := some (fd + 1)
  wake := some (fd + 2)
  addWake := true
  timer := some (fd + 3)
  addTimer := true
  thread := true

theorem start_whole_two : (TcpServer.start [succeeding 4,succeeding 8] true {}).Whole :=
  (start_whole_iff (by decide) true).mpr (Or.inr ⟨by decide,rfl⟩)

/-- The `eventfd` of the second reactor cannot be created: the server runs, and every other connection is queued to
a reactor without a thread. -/
theorem start_half_built :
    (TcpServer.start [succeeding 4,{ succeeding 8 with wake := none }] true {}).running = true ∧
    (∀ index, index % 2 = 1 →
      (TcpServer.start [succeeding 4,{ succeeding 8 with wake := none }] true {}).reactorOf 2 index =
        some { epollFd := 9, wakeFd := none, timerFd := none, thread := false }) ∧
    ¬ (TcpServer.start [succeeding 4,{ succeeding 8 with wake := none }] true {}).Whole := by
  refine ⟨rfl,?_,fun h => ?_⟩
  · intro index hodd
    rw [TcpServer.reactorOf, hodd]
    rfl
  · have hserves := h.serving rfl
    revert hserves
    decide

end ModernTcp.ReactorStart
