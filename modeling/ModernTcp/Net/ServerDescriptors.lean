import ModernTcp.Net.DescriptorOwnership
import ModernTcp.Net.Server

/-! # Descriptors in the running server

Every step of the server is at most one step on the descriptor table, so what holds of the
table alone holds here.
-/
namespace ModernTcp.Server
open Descriptors

section Invariant
variable {R : ℕ}

structure SharedOk (m : Shared R) : Prop where
  own : Own m.desc
  running : RunningHeld m.desc

theorem SharedOk.shutdown {m : Shared R} (h : SharedOk m) (id : ℕ) (linger : Bool) :
    SharedOk (m.shutdown id linger) := by
  unfold Shared.shutdown
  split
  · rename_i d hd
    refine ⟨step_own h.own ?_ hd,step_runningHeld h.running hd⟩
    rintro ⟨fd,fate,ha,-⟩
    cases ha
  · exact h

theorem SharedOk.of_desc {m m' : Shared R} (h : SharedOk m) (hdesc : m'.desc = m.desc) : SharedOk m' :=
  ⟨by rw [hdesc]; exact h.own,by rw [hdesc]; exact h.running⟩

theorem SharedOk.closeConnection {m : Shared R} (h : SharedOk m) (l : Reactor) (fd : ℕ) (expired : List ℕ)
    (batch : List Event) (needPending : Bool) : SharedOk (l.closeConnection m fd expired batch needPending).1 := by
  unfold Reactor.closeConnection
  split
  · exact h
  · exact h.of_desc rfl

theorem SharedOk.runAdd {m : Shared R} (h : SharedOk m) (r : Fin R) (l : Reactor) (fd id : ℕ) (linger : Bool)
    (fs : List Functor) : SharedOk (l.runAdd r m fd id linger fs).1 := by
  have hfail : SharedOk ((m.shutdown id linger).setStage id .released) := (h.shutdown id linger).of_desc rfl
  unfold Reactor.runAdd
  split
  · exact h.of_desc rfl
  · split
    · exact hfail
    · split
      · exact hfail
      · split
        · exact h.of_desc rfl
        · exact h.of_desc rfl

theorem SharedOk.acceptor {M : ℕ} {m m' : Shared R} {p p' : Acceptor R} {a : Act R} (hm : SharedOk m)
    (hnew : ∀ fd fate, a = .accept fd fate → ¬ ReusesPending m.desc (.accept fd fate))
    (h : advanceAcceptor M m p a = some (m',p')) : SharedOk m' := by
  cases p <;> cases a <;> simp only [advanceAcceptor, reduceCtorEq] at h
  case idle.accept fd fate =>
    split at h <;> cases h
    rename_i d hd
    exact ⟨step_own hm.own (hnew fd fate rfl) hd,step_runningHeld hm.running hd⟩
  case accepted.go id fate =>
    split at h
    · cases h
    · split at h
      · cases h
        exact hm
      · split at h <;> cases h <;> exact hm.of_desc rfl
  case adding.go id =>
    split at h <;> cases h
    exact hm.of_desc rfl
  case pushed.go r =>
    cases h
    exact hm.of_desc rfl

theorem SharedOk.reactor {m m' : Shared R} {r : Fin R} {l l' : Reactor} (hm : SharedOk m)
    (h : ReactorStep r m l m' l') : SharedOk m' := by
  cases h with
  | harvest | expire | skip | proceed | wait | enableWriting => exact hm
  | handle dies linger =>
    cases dies with
    | false => exact hm
    | true => exact hm.shutdown _ _
  | closeDead | closeExpired | closeHandled => exact hm.closeConnection _ _ _ _ _
  | leave ok => exact hm.shutdown _ _
  | add linger => exact hm.runAdd _ _ _ _ _ _
  | uncount | wake | swap | count => exact hm.of_desc rfl

theorem SharedOk.outside {m m' : Shared R} {a : Act R} (hm : SharedOk m) (h : advanceOutside m a = some m') :
    SharedOk m' := by
  have hdesc : ∀ {d : Descriptors.State} {b : Descriptors.Act}, Descriptors.step m.desc b = some d →
      (∀ fd fate, b ≠ .accept fd fate) → SharedOk { m with desc := d } := by
    intro d b hd hb
    refine ⟨step_own hm.own ?_ hd,step_runningHeld hm.running hd⟩
    rintro ⟨fd,fate,he,-⟩
    exact hb fd fate he
  cases a <;> simp only [advanceOutside, reduceCtorEq] at h
  case worker id linger =>
    cases h
    exact hm.shutdown id linger
  case post r fd =>
    cases h
    exact hm.of_desc rfl
  case syscall id =>
    split at h
    · cases h
    · obtain ⟨d,hd,rfl⟩ := Option.map_eq_some_iff.mp h
      exact hdesc hd (by simp)
  case release id linger =>
    split at h
    · obtain ⟨d,hd,rfl⟩ := Option.map_eq_some_iff.mp h
      exact hdesc hd (by simp)
    · cases h

end Invariant

end ModernTcp.Server
