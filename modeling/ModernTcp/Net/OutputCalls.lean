import ModernTcp.Net.BufferMutex
import ModernTcp.Net.OutputPath
import ModernTcp.Net.ProtobufEcho
import ModernTcp.Net.ServerCloseLoss

/-! # The output in whole calls

The sessions have an output side that takes one `send`, one write or one `shutdown` after the other. The models of the
output path, of its lock and of a close by the server cut the same functions into the steps of several threads. Each
of their runs does to the output what a list of whole calls does to it, every call at the step that decides it. What
a closed connection has left is written by nobody, and is not compared.
-/
namespace ModernTcp.ProtobufEcho
open Execution

inductive OutputCall
  | send (data : List UInt8)
  | write (n : ℕ)
  | shutdown
deriving DecidableEq

namespace Output

def call (c : Output) : OutputCall → Output
  | .send data => c.send data
  | .write n => { c with outputBuffer := c.outputBuffer.drop n }
  | .shutdown => c.shutdown

/-- Another model has the connection open or closed as here, and if it is open, knows this much of what is unsent. -/
def Shows (c : Output) (running : Bool) (P : List UInt8 → Prop) : Prop :=
  c.running = running ∧ (running = true → P c.outputBuffer)

variable {c : Output} {running : Bool} {P Q : List UInt8 → Prop}

theorem Shows.shutdown (c : Output) (P : List UInt8 → Prop) : (c.call .shutdown).Shows false P :=
  ⟨c.shutdown_running,fun h => by cases h⟩

theorem send_fits {data : List UInt8} (hrun : c.running = true)
    (hfits : c.outputBuffer.length + data.length ≤ maxBufferSize) :
    c.send data = { c with outputBuffer := c.outputBuffer ++ data } := by
  by_cases hempty : data = []
  · rw [Output.send, if_pos (Or.inr hempty), hempty, List.append_nil]
  · rw [Output.send, if_neg (by simp [hrun, hempty]), if_neg (Nat.not_lt.mpr hfits)]

/-- A message for which there is room, or one that comes too late. -/
theorem Shows.send (h : c.Shows running P) {data : List UInt8}
    (hroom : running = true → ∀ l, P l → l.length + data.length ≤ maxBufferSize ∧ Q (l ++ data)) :
    (c.call (.send data)).Shows running Q := by
  cases running with
  | false =>
    rw [call, send_closed h.1]
    exact ⟨h.1,fun hf => by cases hf⟩
  | true =>
    obtain ⟨hfits,hQ⟩ := hroom rfl _ (h.2 rfl)
    rw [call, send_fits h.1 hfits]
    exact ⟨h.1,fun _ => hQ⟩

theorem Shows.write (h : c.Shows running P) {n : ℕ} (hQ : ∀ l, P l → Q (l.drop n)) :
    (c.call (.write n)).Shows running Q := ⟨h.1,fun hrun => hQ _ (h.2 hrun)⟩

end Output

end ModernTcp.ProtobufEcho

namespace ModernTcp.OutputPath
open Execution ProtobufEcho
variable {W : Type*}

/-- The call that a step of a thread decides. -/
def calls (m : Shared) : Pc → Act → List OutputCall
  | .sendLock msg, .go => if maxBufferSize < m.output.length + msg.length then [.shutdown] else [.send msg]
  | .writeLock, .wrote n => [.write n]
  | .writeLock, .error | .shutdown, .go => [.shutdown]
  | _, _ => []

theorem shutdown_running {m m' : Shared} {inside : Bool} {p : Pc} (h : some (m.shutdown inside) = some (m',p)) :
    m'.running = false := by
  obtain rfl : (m.shutdown inside).1 = m' := congrArg Prod.fst (Option.some.inj h)
  unfold Shared.shutdown
  split
  · rfl
  · rename_i hrun
    simpa using hrun

theorem bufferOutput_output (m : Shared) (t : Thread W) :
    (m.bufferOutput t).running = m.running ∧ (m.bufferOutput t).output = m.output := by
  cases t <;> simp only [Shared.bufferOutput] <;> split <;> exact ⟨rfl,rfl⟩

theorem runFunctor_output (m : Shared) (f : Functor) :
    (m.runFunctor f).running = m.running ∧ (m.runFunctor f).output = m.output := by
  cases f with
  | addConnection fd => exact ⟨rfl,rfl⟩
  | enableWriting fd =>
    simp only [Shared.runFunctor]
    split <;> exact ⟨rfl,rfl⟩

theorem advanceAny_shows {t : Thread W} {m m' : Shared} {p p' : Pc} {a : Act} {c : Output} (hl : Local m p)
    (hc : c.Shows m.running (· = m.output)) (h : advanceAny t m p a = some (m',p')) :
    ((calls m p a).foldl Output.call c).Shows m'.running (· = m'.output) := by
  unfold advanceAny at h
  split at h
  case h_5 msg =>
    split at h
    · cases h
    · split at h
      · rename_i hfull
        rw [shutdown_running h]
        simp only [calls, if_pos hfull]
        exact Output.Shows.shutdown c _
      · rename_i hfits
        cases h
        simp only [calls, if_neg hfits]
        refine hc.send ?_
        rintro - l rfl
        exact ⟨Nat.not_lt.mp hfits,rfl⟩
  case h_6 =>
    split at h <;> cases h
    exact hc
  case h_7 =>
    cases h
    obtain ⟨hrun,hout⟩ := bufferOutput_output m t
    rw [hrun, hout]
    exact hc
  case h_8 =>
    rw [shutdown_running h]
    exact Output.Shows.shutdown c _
  case h_11 =>
    have hdead : m.running = false := hl
    split at h <;> cases h
    refine ⟨hc.1,fun hrun => ?_⟩
    rw [hdead] at hrun
    cases hrun
  case h_12 => cases h
  all_goals
    cases h
    exact hc

theorem advanceReactor_shows {m m' : Shared} {p p' : Pc} {a : Act} {c : Output}
    (hc : c.Shows m.running (· = m.output)) (h : advanceReactor m p a = some (m',p')) :
    ((calls m p a).foldl Output.call c).Shows m'.running (· = m'.output) := by
  unfold advanceReactor at h
  split at h
  case h_3 n =>
    split at h <;> cases h
    obtain ⟨i,hwrote,-⟩ := wrote_eq m n
    rw [hwrote]
    exact hc.write (by rintro l rfl; rfl)
  case h_5 =>
    split at h
    · cases h
    · rw [shutdown_running h]
      exact Output.Shows.shutdown c _
  case h_11 f rest =>
    cases h
    obtain ⟨hrun,hout⟩ := runFunctor_output m f
    rw [hrun, hout]
    exact hc
  case h_12 => cases h
  case h_1 | h_8 | h_9 | h_10 =>
    cases h
    exact hc
  all_goals
    split at h <;> cases h
    all_goals exact hc

section Runs
variable [DecidableEq W] {fd : ℕ} {s t : State W} {as : List (Thread W × Act)}

theorem step_shows {a : Thread W × Act} {c : Output} (hs : Inv s ∧ c.Shows s.shared.running (· = s.shared.output))
    (h : step s a = some t) :
    Inv t ∧ ((calls s.shared (s.pc a.1) a.2).foldl Output.call c).Shows t.shared.running (· = t.shared.output) := by
  refine ⟨step_inv hs.1 h,?_⟩
  obtain ⟨m,p,ha,rfl⟩ := Threads.step_eq_some.mp h
  rcases advance_eq_some ha with ha | ha
  · exact advanceAny_shows (hs.1.points a.1) hs.2 ha
  · exact advanceReactor_shows hs.2 ha

/-- After every interleaving a connection is open or closed, and has unsent what its calls have left. -/
theorem output_in_calls (h : exec step (initial W fd) as = some s) :
    ((operations step (fun s a => calls s.shared (s.pc a.1) a.2) (initial W fd) as).foldl Output.call {}).Shows
      s.shared.running (· = s.shared.output) :=
  (exec_operations (R := fun s c => Inv s ∧ Output.Shows c s.shared.running (· = s.shared.output))
    (fun _ _ _ _ hs ht => step_shows hs ht) ⟨initial_inv,rfl,fun _ => rfl⟩ h).2

end Runs

end ModernTcp.OutputPath

namespace ModernTcp.BufferMutex
open Execution ProtobufEcho
variable {T : Type*}

/-- The call that a step of a thread decides. Of the data there is only the length here. -/
def calls (m : Shared T) : Pc → Act → List OutputCall
  | .sendBody len, .go => if maxBufferSize < m.output + len then [] else [.send (List.replicate len 0)]
  | .writeBody, .wrote n => [.write n]
  | .shutdownCas _, .go => [.shutdown]
  | _, _ => []

/-- The points of `shutdown` behind the exchange. -/
def Pc.closes : Pc → Bool
  | .shutdownLinger _ | .shutdownLock _ | .shutdownClear _ => true
  | _ => false

def ClosedFirst (m : Shared T) (_ : T) (p : Pc) : Prop := p.closes = true → m.running = false

theorem advance_closedFirst {t : T} {m m' : Shared T} {p p' : Pc} {a : Act} (hp : ClosedFirst m t p)
    (h : advance t m p a = some (m',p')) : ClosedFirst m' t p' := by
  intro hcloses
  unfold ClosedFirst at hp
  unfold advance at h
  split at h <;> grind [Shared.acquire, afterShutdown, Pc.closes]

theorem initial_closedFirst (t : T) : ClosedFirst (initial T).shared t ((initial T).pc t) := by
  simp [ClosedFirst, initial, Pc.closes]

theorem advance_shows {t : T} {m m' : Shared T} {p p' : Pc} {a : Act} {c : Output} (hp : ClosedFirst m t p)
    (hc : c.Shows m.running (·.length = m.output)) (h : advance t m p a = some (m',p')) :
    ((calls m p a).foldl Output.call c).Shows m'.running (·.length = m'.output) := by
  cases p with
  | sendBody len =>
    cases a <;> simp only [advance, reduceCtorEq] at h
    case go =>
      split at h
      · rename_i hfull
        cases h
        simp only [calls, if_pos hfull]
        exact hc
      · rename_i hfits
        cases h
        simp only [calls, if_neg hfits]
        refine hc.send ?_
        intro _ l hl
        rw [List.length_append, List.length_replicate, hl]
        exact ⟨Nat.not_lt.mp hfits,rfl⟩
    case throws =>
      split at h <;> cases h
      exact hc
  | writeBody =>
    cases a <;> simp only [advance, reduceCtorEq] at h
    case wrote n =>
      split at h <;> cases h
      refine hc.write ?_
      intro l hl
      rw [List.length_drop, hl]
    case throws =>
      cases h
      exact hc
    all_goals
      split at h <;> cases h
      exact hc
  | shutdownCas held =>
    cases a <;> simp only [advance, reduceCtorEq] at h
    split at h
    · cases h
      exact Output.Shows.shutdown c _
    · rename_i hrun
      cases h
      rw [Bool.not_eq_true] at hrun
      rw [hrun]
      exact Output.Shows.shutdown c _
  | shutdownClear held =>
    have hdead : m.running = false := hp rfl
    cases a <;> simp only [advance, reduceCtorEq] at h
    cases h
    refine ⟨hc.1,fun hrun => ?_⟩
    rw [hdead] at hrun
    cases hrun
  | shutdownLinger held =>
    cases a <;> simp only [advance, reduceCtorEq] at h
    case go =>
      cases h
      exact hc
    case error =>
      split at h <;> cases h
      exact hc
  | sendLock len | writeLock | shutdownLock held =>
    cases a <;> simp only [advance, reduceCtorEq] at h
    obtain ⟨-,rfl,-⟩ := acquire_eq_some h
    exact hc
  | idle | sendBufferAlive | sendAlive | writeAlive | leaving =>
    cases a <;> simp only [advance, reduceCtorEq] at h <;> cases h <;> exact hc

section Runs
variable [DecidableEq T] {s t : State T} {as : List (T × Act)}

theorem step_shows {a : T × Act} {c : Output}
    (hs : (∀ x, ClosedFirst s.shared x (s.pc x)) ∧ c.Shows s.shared.running (·.length = s.shared.output))
    (h : step s a = some t) : (∀ x, ClosedFirst t.shared x (t.pc x)) ∧
      ((calls s.shared (s.pc a.1) a.2).foldl Output.call c).Shows t.shared.running (·.length = t.shared.output) := by
  refine ⟨?_,?_⟩
  · exact Threads.step_forall hs.1 h (fun m p ha => advance_closedFirst (hs.1 a.1) ha)
      (fun m p x ha _ hx hcloses => advance_running ha (hx hcloses))
  · obtain ⟨m,p,ha,rfl⟩ := Threads.step_eq_some.mp h
    exact advance_shows (hs.1 a.1) hs.2 ha

/-- The lock is about the same output: as many bytes are unsent as the calls have left. -/
theorem output_in_calls (h : exec step (initial T) as = some s) :
    ((operations step (fun s a => calls s.shared (s.pc a.1) a.2) (initial T) as).foldl Output.call {}).Shows
      s.shared.running (·.length = s.shared.output) :=
  (exec_operations (R := fun s c => (∀ x, ClosedFirst s.shared x (s.pc x)) ∧
      Output.Shows c s.shared.running (·.length = s.shared.output))
    (fun _ _ _ _ hs ht => step_shows hs ht) ⟨initial_closedFirst,rfl,fun _ => rfl⟩ h).2

end Runs

end ModernTcp.BufferMutex

namespace ModernTcp.ServerClose
open EpollConnection Execution ProtobufEcho

/-- The call that an operation decides. At an overflow it is the `shutdown` that comes next. -/
def opCalls (m : Link) : Op → List OutputCall
  | .append data => if maxBufferSize < m.output.length + data.length then [] else [.send data]
  | .shutdown _ => [.shutdown]
  | .check | .send _ | .submit _ _ | .clear => []

theorem perform_shows {m : Link} {op : Op} {c : Output} (rest : List Op) (hop : op = .clear → m.running = false)
    (hc : c.Shows m.running (· = m.output)) : ((opCalls m op).foldl Output.call c).Shows
      (m.perform rest op).1.running (· = (m.perform rest op).1.output) := by
  cases op with
  | append data =>
    by_cases hfull : maxBufferSize < m.output.length + data.length
    · simp only [opCalls, Link.perform, if_pos hfull]
      exact hc
    · simp only [opCalls, Link.perform, if_neg hfull]
      refine hc.send ?_
      rintro - l rfl
      exact ⟨Nat.not_lt.mp hfull,rfl⟩
  | shutdown why =>
    have hdead : (m.perform rest (.shutdown why)).1.running = false := by
      simp only [Link.perform]
      split
      · rfl
      · rename_i hrun
        simpa using hrun
    rw [hdead]
    exact Output.Shows.shutdown c _
  | clear =>
    have hdead : m.running = false := hop rfl
    refine ⟨hc.1,fun hrun => ?_⟩
    rw [show (m.perform rest .clear).1.running = m.running from rfl, hdead] at hrun
    cases hrun
  | check | send _ | submit _ _ => exact hc

section Runs
variable {W : Type*} [DecidableEq W] {h : Handlers} {s t : State W} {as : List (Act W)}

def calls (s : State W) : Act W → List OutputCall
  | .write n => [.write n]
  | a => (nextOp s a).elim [] (opCalls s.link)

theorem step_shows {a : Act W} {c : Output} (hs : Inv h s ∧ c.Shows s.link.running (· = s.link.output))
    (hst : step h s a = some t) :
    Inv h t ∧ ((calls s a).foldl Output.call c).Shows t.link.running (· = t.link.output) := by
  refine ⟨step_inv hs.1 hst,?_⟩
  cases a with
  | write n =>
    simp only [step] at hst
    split at hst <;> cases hst
    exact hs.2.write (by rintro l rfl; rfl)
  | read chunk | round =>
    simp only [step] at hst
    split at hst
    · obtain ⟨r,-,rfl⟩ := Option.map_eq_some_iff.mp hst
      exact hs.2
    · cases hst
  | drop =>
    simp only [step] at hst
    split at hst <;> cases hst
    exact hs.2
  | take w =>
    simp only [step] at hst
    split at hst <;> cases hst
    exact hs.2
  | reactor =>
    simp only [step] at hst
    split at hst <;> cases hst
    rename_i op rest htodo
    simp only [calls, nextOp, htodo, List.head?_cons, Option.elim_some]
    refine perform_shows rest ?_ hs.2
    rintro rfl
    by_contra hrun
    have halive := (hs.1 (by simpa using hrun)).reactor_ops
    simp [htodo] at halive
  | worker w =>
    simp only [step] at hst
    split at hst <;> cases hst
    rename_i op rest htodo
    simp only [calls, nextOp, htodo, List.head?_cons, Option.elim_some]
    refine perform_shows rest ?_ hs.2
    rintro rfl
    by_contra hrun
    have halive := (hs.1 (by simpa using hrun)).worker_ops w
    simp [htodo] at halive

/-- What `accepted` and `written` are compared of is the same output. -/
theorem output_in_calls (hrun : exec (step h) {} as = some s) :
    ((operations (step h) calls {} as).foldl Output.call {}).Shows s.link.running (· = s.link.output) :=
  (exec_operations (R := fun s c => Inv h s ∧ Output.Shows c s.link.running (· = s.link.output))
    (fun _ _ _ _ hs ht => step_shows hs ht) ⟨initial_inv h,rfl,fun _ => rfl⟩ hrun).2

end Runs

end ModernTcp.ServerClose
