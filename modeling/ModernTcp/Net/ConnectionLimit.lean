import Mathlib.Algebra.Order.BigOperators.Group.Finset
import ModernTcp.Net.ReactorMaps

/-! # The connection limit

`check_connection_limit` compares the limit with a counter that an add functor increments when
a reactor gets to it. What the accept loop has let through is in its hand, in a functor that
has not run, or in a map; the counter knows of the last only. A run keeps the limit as long
as every connection that is let through finds room for itself among all of these.
-/
namespace ModernTcp.Server
open Execution

section Limit
variable {R : ℕ}

/-- Let through by the check and not yet given to a reactor. -/
def Control.inHand : Control R → ℕ
  | .acceptor (.adding _) => 1
  | _ => 0

def Shared.toAdd (m : Shared R) (r : Fin R) (l : Reactor) : ℕ := (adds (l.pc.functorList ++ m.queue r)).length

/-- The connections in the maps of all reactors. -/
def held (s : State R) : ℕ := ∑ r, (reactorOf s r).connections.length

/-- These and the connections that the check has let through and no functor has added yet. -/
def admitted (s : State R) : ℕ :=
  (∑ r, ((reactorOf s r).connections.length + s.shared.toAdd r (reactorOf s r))) + (s.pc .acceptor).inHand

/-- Let through by the check and not yet counted. -/
def inFlight (s : State R) : ℕ :=
  (∑ r, (s.shared.toAdd r (reactorOf s r) + (reactorOf s r).pc.uncounted)) + (s.pc .acceptor).inHand

/-- A descriptor that is to become a connection is before the check. -/
def Control.atCheck : Control R → Bool
  | .acceptor (.accepted _ .connection) => true
  | _ => false

/-- The check lets a connection through. -/
def Passes (M : ℕ) (s : State R) (a : Thread R × Act R) : Prop :=
  a = (.acceptor,.go) ∧ (s.pc .acceptor).atCheck = true ∧ s.shared.limitAllows M

def HasRoom (M : ℕ) (s : State R) (a : Thread R × Act R) : Prop := Passes M s a → admitted s < M

instance (M : ℕ) (s : State R) (a : Thread R × Act R) : Decidable (HasRoom M s a) :=
  inferInstanceAs (Decidable (_ ∧ _ ∧ _ → _))

/-- What a step of a reactor does to its counts. -/
structure Counts (r : Fin R) (m m' : Shared R) (l l' : Reactor) : Prop where
  queue : ∀ q, q ≠ r → m'.queue q = m.queue q
  load : l'.connections.length + m'.toAdd r l' ≤ l.connections.length + m.toAdd r l

theorem Counts.of_same {r : Fin R} {m m' : Shared R} {l l' : Reactor} (hconn : l'.connections = l.connections)
    (hqueue : m'.queue = m.queue) (hfs : (adds l'.pc.functorList).length ≤ (adds l.pc.functorList).length) :
    Counts r m m' l l' := by
  refine ⟨fun _ _ => by rw [hqueue],?_⟩
  unfold Shared.toAdd
  rw [hconn, hqueue, adds_append, adds_append, List.length_append, List.length_append]
  omega

theorem closeConnection_counts {r : Fin R} {m : Shared R} {l : Reactor} (hfs : l.pc.functorList = []) (fd : ℕ)
    (expired : List ℕ) (batch : List Event) (needPending : Bool) :
    Counts r m (l.closeConnection m fd expired batch needPending).1 l
      (l.closeConnection m fd expired batch needPending).2 := by
  unfold Reactor.closeConnection
  split
  · exact Counts.of_same rfl rfl (Nat.zero_le _)
  · refine ⟨fun _ _ => rfl,?_⟩
    unfold Shared.toAdd
    rw [hfs]
    exact Nat.add_le_add_right (List.length_filter_le _ _) _

theorem runAdd_counts {r : Fin R} {m : Shared R} {l : Reactor} {fd id : ℕ} {fs : List Functor}
    (hpc : l.pc = .functors (.add fd id :: fs)) (linger : Bool) :
    Counts r m (l.runAdd r m fd id linger fs).1 l (l.runAdd r m fd id linger fs).2 := by
  have hdrop : ∀ {m' : Shared R} {l' : Reactor}, m'.queue = m.queue → l'.connections = l.connections →
      l'.pc = .functors fs → Counts r m m' l l' := by
    intro m' l' hqueue hconn hpc'
    exact Counts.of_same hconn hqueue (by simp [hpc, hpc', Pc.functorList, adds])
  have hfail : Counts r m ((m.shutdown id linger).setStage id .released) l (l.goto (.functors fs)) :=
    hdrop (shutdown_queue m id linger) rfl rfl
  unfold Reactor.runAdd
  split
  · exact hdrop rfl rfl rfl
  · split
    · exact hfail
    · split
      · exact hfail
      · split
        · exact hdrop rfl rfl rfl
        · refine ⟨fun _ _ => rfl,?_⟩
          simp [Shared.toAdd, Shared.setStage, hpc, Pc.functorList, adds]
          omega

theorem swap_counts {r : Fin R} {m : Shared R} {l : Reactor} (hpc : l.pc = .loop [] [] true) :
    Counts r m { m with queue := Function.update m.queue r [] } l (l.goto (.functors (m.queue r))) := by
  refine ⟨fun q hq => Function.update_of_ne hq _ _,?_⟩
  simp [Shared.toAdd, Reactor.goto, hpc, Pc.functorList]

theorem reactor_counts {r : Fin R} {m m' : Shared R} {l l' : Reactor} (h : ReactorStep r m l m' l') :
    Counts r m m' l l' := by
  have hmove : ∀ {m' : Shared R} {pc : Pc}, m'.queue = m.queue →
      (adds pc.functorList).length ≤ (adds l.pc.functorList).length → Counts r m m' l (l.goto pc) :=
    fun hqueue hfs => Counts.of_same rfl hqueue hfs
  cases h with
  | harvest hpc | expire _ hpc | skip hpc | proceed hpc | uncount hpc | wake hpc => exact hmove rfl (Nat.zero_le _)
  | handle dies linger hpc => exact hmove (by cases dies <;> simp) (Nat.zero_le _)
  | closeDead hpc | closeExpired hpc | closeHandled hpc => exact closeConnection_counts (by rw [hpc]; rfl) _ _ _ _
  | @leave fd id expired batch needPending ok hpc => exact Counts.of_same rfl (shutdown_queue m id ok) (Nat.zero_le _)
  | swap hpc => exact swap_counts hpc
  | wait hpc => exact hmove rfl (Nat.zero_le _)
  | add hpc linger => exact runAdd_counts linger hpc
  | enableWriting hpc => exact hmove rfl (by simp [hpc, Pc.functorList, adds])
  | count hpc => exact hmove rfl (by simp [hpc, Pc.functorList])

theorem toAdd_of_queue {m m' : Shared R} {q : Fin R} (h : m'.queue q = m.queue q) (l : Reactor) :
    m'.toAdd q l = m.toAdd q l := by
  unfold Shared.toAdd
  rw [h]

/-- The accept loop moves no connection, lets one through, or gives one to a reactor. -/
theorem acceptor_counts {M : ℕ} {m m' : Shared R} {p p' : Acceptor R} {a : Act R}
    (h : advanceAcceptor M m p a = some (m',p')) :
    (m'.queue = m.queue ∧ (Control.acceptor p').inHand = (Control.acceptor p).inHand) ∨
    (m'.queue = m.queue ∧ a = .go ∧ (Control.acceptor p).atCheck = true ∧ m.limitAllows M ∧
      (Control.acceptor p').inHand = 1 ∧ (Control.acceptor p).inHand = 0) ∨
    ∃ r fd id, m'.queue = Function.update m.queue r (m.queue r ++ [.add fd id]) ∧
      (Control.acceptor p').inHand = 0 ∧ (Control.acceptor p).inHand = 1 := by
  cases p <;> cases a <;> simp only [advanceAcceptor, reduceCtorEq] at h
  case idle.accept fd fate =>
    split at h <;> cases h
    exact Or.inl ⟨rfl,rfl⟩
  case accepted.go id fate =>
    split at h
    · cases h
    · rename_i hlimit
      split at h
      · rename_i hfate
        cases h
        subst hfate
        have hallows : m.limitAllows M := by
          by_contra hno
          exact hlimit ⟨by simp,hno⟩
        exact Or.inr (Or.inl ⟨rfl,rfl,rfl,hallows,rfl,rfl⟩)
      · split at h <;> cases h <;> exact Or.inl ⟨rfl,rfl⟩
  case adding.go id =>
    split at h <;> cases h
    exact Or.inr (Or.inr ⟨_,_,id,rfl,rfl,rfl⟩)
  case pushed.go r =>
    cases h
    exact Or.inl ⟨rfl,rfl⟩

theorem outside_counts {m m' : Shared R} {a : Act R} (h : advanceOutside m a = some m') :
    ∀ q l, m'.toAdd q l = m.toAdd q l := by
  cases a <;> simp only [advanceOutside, reduceCtorEq] at h
  case worker id linger =>
    cases h
    exact fun q l => toAdd_of_queue (by rw [shutdown_queue]) l
  case post r fd =>
    cases h
    intro q l
    by_cases hq : q = r
    · subst hq
      simp [Shared.toAdd, Shared.push, Shared.notify, adds]
    · exact toAdd_of_queue (by simp [Shared.push, Shared.notify, Function.update_of_ne hq]) l
  case syscall id =>
    split at h
    · cases h
    · obtain ⟨d,-,rfl⟩ := Option.map_eq_some_iff.mp h
      exact fun _ _ => rfl
  case release id linger =>
    split at h
    · obtain ⟨d,-,rfl⟩ := Option.map_eq_some_iff.mp h
      exact fun _ _ => rfl
    · cases h

theorem admitted_reactor {s : State R} {r : Fin R} {m' : Shared R} {l' : Reactor}
    (h : Counts r s.shared m' (reactorOf s r) l') :
    admitted { shared := m', pc := Function.update s.pc (.reactor r) (.reactor l') } ≤ admitted s := by
  unfold admitted
  refine Nat.add_le_add (Finset.sum_le_sum (fun q _ => ?_)) (by simp)
  by_cases hq : q = r
  · subst hq
    rw [reactorOf_self]
    exact h.load
  · rw [reactorOf_other _ _ hq, toAdd_of_queue (h.queue q hq)]

theorem step_admitted {M : ℕ} {s t : State R} {a : Thread R × Act R} (h : step M s a = some t) :
    admitted t ≤ admitted s ∨ (Passes M s a ∧ admitted t = admitted s + 1) := by
  obtain ⟨x,a⟩ := a
  obtain ⟨p,m',p',rfl,hc,hp,rfl⟩ | ⟨r,l,m',l',rfl,hc,hl,rfl⟩ | ⟨m',rfl,hm,rfl⟩ := step_by_thread h
  · obtain ⟨hqueue,hhand⟩ | ⟨hqueue,ha,hcheck,hallows,hhand',hhand⟩ | ⟨r,fd,id,hqueue,hhand',hhand⟩ :=
      acceptor_counts hp
    · left
      simp [admitted, reactorOf_acceptor, hc, hhand, toAdd_of_queue (congrFun hqueue _)]
    · right
      dsimp only at ha
      subst ha
      refine ⟨⟨rfl,by rw [hc]; exact hcheck,hallows⟩,?_⟩
      simp [admitted, reactorOf_acceptor, hc, hhand, hhand', toAdd_of_queue (congrFun hqueue _)]
    · left
      let f : Fin R → ℕ := fun q => (reactorOf s q).connections.length + s.shared.toAdd q (reactorOf s q)
      let g : Fin R → ℕ := fun q => (reactorOf s q).connections.length + m'.toAdd q (reactorOf s q)
      have hsum : (∑ q, g q) + f r = (∑ q, f q) + g r := by
        refine Threads.sum_exchange (fun q hq => congrArg (_ + ·) (toAdd_of_queue ?_ _))
        rw [hqueue, Function.update_of_ne hq]
      have hone : g r = f r + 1 := by
        simp [f, g, Shared.toAdd, hqueue, adds]
        omega
      have hgoal : (∑ q, g q) + 0 ≤ (∑ q, f q) + 1 := by omega
      simpa [admitted, reactorOf_acceptor, hc, hhand, hhand', f, g] using hgoal
  · left
    rw [← reactorOf_eq hc] at hl
    exact admitted_reactor (reactor_counts (reactorStep_of_advance hl))
  · left
    simp [admitted, reactorOf_outside, outside_counts hm]

theorem held_le_admitted (s : State R) : held s ≤ admitted s := by
  have hsum : held s ≤ ∑ r, ((reactorOf s r).connections.length + s.shared.toAdd r (reactorOf s r)) :=
    Finset.sum_le_sum (fun r _ => Nat.le_add_right _ _)
  exact hsum.trans (Nat.le_add_right _ _)

/-- With nothing in flight, all that is admitted is in the maps, and the counter covers it. -/
theorem admitted_le {s : State R} (hs : s.shared.active = ∑ r, (reactorOf s r).counted) (hzero : inFlight s = 0) :
    (admitted s : ℤ) ≤ s.shared.active := by
  obtain ⟨hsum,hhand⟩ := Nat.add_eq_zero_iff.mp hzero
  have heach : ∀ r, s.shared.toAdd r (reactorOf s r) = 0 ∧ (reactorOf s r).pc.uncounted = 0 := by
    intro r
    exact Nat.add_eq_zero_iff.mp (Finset.sum_eq_zero_iff.mp hsum r (Finset.mem_univ r))
  have hadmitted : admitted s = held s := by simp [admitted, held, hhand, heach]
  have hcounted : (held s : ℤ) ≤ ∑ r, (reactorOf s r).counted := by
    unfold held
    rw [Nat.cast_sum]
    refine Finset.sum_le_sum (fun r _ => ?_)
    unfold Reactor.counted
    rw [(heach r).2]
    omega
  rw [hadmitted, hs]
  exact hcounted

/-- In every run in which each connection that passes the check finds room, the limit holds in
every state. A check with nothing in flight and a counter in range is such a check. -/
theorem connection_limit_invariant (M : ℕ) (as : List (Thread R × Act R))
    (hgood : Along (step M) (HasRoom M) (initial R) as) (s : State R) (hv : Visits (step M) (initial R) as s) :
    held s ≤ M ∧ (0 < M → inFlight s = 0 → s.shared.active < 2 ^ 64 → ∀ a, HasRoom M s a) := by
  have hadmitted : admitted s ≤ M := by
    refine visits_invariant (I := fun s => admitted s ≤ M) ?_ ?_ hgood hv
    · intro s a t hs hroom h
      rcases step_admitted h with hle | ⟨hpass,hone⟩
      · exact hle.trans hs
      · have hlt := hroom hpass
        omega
    · simp [admitted, reactorOf, initial, Control.toReactor, Control.inHand, Shared.toAdd, Pc.functorList, adds]
  obtain ⟨pre,-,hpre⟩ := hv
  refine ⟨(held_le_admitted s).trans hadmitted,?_⟩
  intro hM hzero hrange a hpass
  have hle := admitted_le (active_eq_counted hpre) hzero
  have hlt : s.shared.active % 2 ^ 64 < M := hpass.2.2.resolve_left (by omega)
  rw [Int.emod_eq_of_lt (by omega) hrange] at hlt
  omega

end Limit

/-- Two connections one after the other, the second with the first already in the map. -/
def oneByOne : List (Thread 1 × Act 1) :=
  [(.acceptor,.accept 5 .connection),(.acceptor,.go),(.acceptor,.go),(.acceptor,.go),
   (.reactor 0,.harvest [.wake]),(.reactor 0,.go),(.reactor 0,.go),(.reactor 0,.linger true),(.reactor 0,.go),
   (.acceptor,.accept 6 .refused),(.acceptor,.go)]

theorem connection_limit_invariant_one :
    ∃ s, exec (step 1) (initial 1) oneByOne = some s ∧ (reactorOf s 0).connections = [(5,0)] ∧ held s ≤ 1 := by
  have hrun : ∃ s, exec (step 1) (initial 1) oneByOne = some s ∧ (reactorOf s 0).connections = [(5,0)] := ⟨_,rfl,rfl⟩
  obtain ⟨s,hs,hconn⟩ := hrun
  have hgood : Along (step 1) (HasRoom 1) (initial 1) oneByOne := by decide
  exact ⟨s,hs,hconn,(connection_limit_invariant 1 oneByOne hgood s ⟨oneByOne,List.prefix_refl _,hs⟩).1⟩

/-- Both pass the check before the functor of the first has run. -/
def bothAtOnce : List (Thread 1 × Act 1) :=
  [(.acceptor,.accept 5 .connection),(.acceptor,.go),(.acceptor,.go),(.acceptor,.go),
   (.acceptor,.accept 6 .connection),(.acceptor,.go),(.acceptor,.go),(.acceptor,.go),
   (.reactor 0,.harvest [.wake]),(.reactor 0,.go),(.reactor 0,.go),(.reactor 0,.linger true),(.reactor 0,.go),
   (.reactor 0,.linger true)]

theorem connection_limit_exceeded :
    ∃ s, exec (step 1) (initial 1) bothAtOnce = some s ∧ held s = 2 := by
  refine ⟨_,rfl,?_⟩
  decide

end ModernTcp.Server
