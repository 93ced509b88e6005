import ModernTcp.Net.Server
import ModernTcp.Net.SubReactor

/-! # The maps of the reactors inside the server

A run of the server treats the maps of its reactors and the counter of connections as a run of the reactors by
themselves does, which have the timeouts, but no descriptors and no queues. A functor that does not register its
connection and a close of a number that is not there are no steps of theirs. So the counter of the server is exact.
-/
namespace ModernTcp.Server
open Execution

section Counted
variable {R : ℕ}

/-- Entered into the map and not yet counted. -/
def Pc.uncounted : Pc → ℕ
  | .inserted _ => 1
  | _ => 0

/-- Taken out of the map and still counted. -/
def Pc.stillCounted : Pc → ℕ
  | .erased _ _ _ _ _ | .closing _ _ _ => 1
  | _ => 0

def Control.toReactor : Control R → Reactor
  | .reactor l => l
  | _ => {}

def reactorOf (s : State R) (r : Fin R) : Reactor := (s.pc (.reactor r)).toReactor

/-- What a reactor contributes to the counter. -/
def Reactor.counted (l : Reactor) : ℤ := l.connections.length + l.pc.stillCounted - l.pc.uncounted

theorem reactorOf_eq {s : State R} {r : Fin R} {l : Reactor} (h : s.pc (.reactor r) = .reactor l) :
    reactorOf s r = l := by
  unfold reactorOf
  rw [h]
  rfl

section Update
variable (m' : Shared R) (s : State R)

theorem reactorOf_acceptor (p : Acceptor R) (q : Fin R) :
    reactorOf { shared := m', pc := Function.update s.pc .acceptor (.acceptor p) } q = reactorOf s q := by
  simp [reactorOf]

theorem reactorOf_outside (q : Fin R) :
    reactorOf { shared := m', pc := Function.update s.pc .outside .outside } q = reactorOf s q := by
  simp [reactorOf]

theorem reactorOf_self (r : Fin R) (l : Reactor) :
    reactorOf { shared := m', pc := Function.update s.pc (.reactor r) (.reactor l) } r = l := by
  simp [reactorOf, Control.toReactor]

theorem reactorOf_other {q r : Fin R} (hq : q ≠ r) (l : Reactor) :
    reactorOf { shared := m', pc := Function.update s.pc (.reactor r) (.reactor l) } q = reactorOf s q := by
  simp [reactorOf, hq]

end Update

theorem acceptor_active {M : ℕ} {m m' : Shared R} {p p' : Acceptor R} {a : Act R}
    (h : advanceAcceptor M m p a = some (m',p')) : m'.active = m.active := by
  cases p <;> cases a <;> simp only [advanceAcceptor, reduceCtorEq] at h
  case idle.accept fd fate =>
    split at h <;> cases h
    rfl
  case accepted.go id fate => split_ifs at h <;> cases h <;> rfl
  case adding.go id =>
    split at h <;> cases h
    rfl
  case pushed.go r =>
    cases h
    rfl

theorem outside_active {m m' : Shared R} {a : Act R} (h : advanceOutside m a = some m') : m'.active = m.active := by
  cases a <;> simp only [advanceOutside, reduceCtorEq] at h
  case worker id linger =>
    cases h
    exact shutdown_active m id linger
  case post r fd =>
    cases h
    rfl
  case syscall id =>
    split at h
    · cases h
    · obtain ⟨d,-,rfl⟩ := Option.map_eq_some_iff.mp h
      rfl
  case release id linger =>
    split at h
    · obtain ⟨d,-,rfl⟩ := Option.map_eq_some_iff.mp h
      rfl
    · cases h

end Counted

/-- Where a reactor by itself stands. What it has just inserted is in its map. -/
def Pc.Matches (x : SubReactor.Reactor) : Pc → Prop
  | .waiting | .loop _ _ _ | .handled _ _ _ _ | .functors _ => x.pc = .at .idle
  | .erased fd _ _ _ _ => x.pc = .erased fd .idle
  | .closing _ _ _ => x.pc = .purged .idle
  | .inserted _ => ∃ fd, x.pc = .inserted fd ∧ fd ∈ x.connections

structure Reactor.SameMap (l : Reactor) (x : SubReactor.Reactor) : Prop where
  keys : x.connections.keys.Perm (l.connections.map (fun e => (e.1 : ℤ)))
  pc : l.pc.Matches x

/-- A reactor without the other ones. -/
def alone (x : ℤ × SubReactor.Reactor) (a : SubReactor.Act) : Option (ℤ × SubReactor.Reactor) :=
  SubReactor.advance x.1 x.2 a

section Simulation
variable {R : ℕ} {r : Fin R} {m m' : Shared R} {l l' : Reactor} {x : SubReactor.Reactor}

namespace Reactor.SameMap

theorem mem_iff (h : l.SameMap x) (fd : ℕ) : (fd : ℤ) ∈ x.connections ↔ (l.find fd).isSome = true := by
  rw [AList.mem_keys, h.keys.mem_iff]
  simp [Reactor.find]

theorem goto (h : l.SameMap x) {pc : Pc} (hpc : pc.Matches x) : (l.goto pc).SameMap x := ⟨h.keys,hpc⟩

theorem closeConnection (h : l.SameMap x) (hidle : x.pc = .at .idle) (m : Shared R) (fd : ℕ) (expired : List ℕ)
    (batch : List Event) (needPending : Bool) : ∃ os x',
    exec alone (m.active,x) os = some ((l.closeConnection m fd expired batch needPending).1.active,x') ∧
      (l.closeConnection m fd expired batch needPending).2.SameMap x' := by
  cases hfind : l.find fd with
  | none =>
    refine ⟨[],x,?_,?_⟩ <;> simp only [Reactor.closeConnection, hfind]
    · rfl
    · exact h.goto hidle
  | some id =>
    have hmem : (fd : ℤ) ∈ x.connections := (h.mem_iff fd).mpr (by rw [hfind]; rfl)
    have hnodup : (l.connections.map (fun e => (e.1 : ℤ))).Nodup := h.keys.nodup_iff.mp x.connections.keys_nodup
    refine ⟨[.closeConnection fd],{ x with connections := x.connections.erase fd, pc := .erased fd .idle },?_,?_⟩ <;>
      simp only [Reactor.closeConnection, hfind]
    · simp [exec, alone, SubReactor.advance, SubReactor.closeConnection, hidle, hmem, Shared.setStage]
    · refine ⟨?_,rfl⟩
      dsimp only
      rw [AList.keys_erase]
      refine (h.keys.erase _).trans (List.Perm.of_eq ?_)
      rw [hnodup.erase_eq_filter, List.filter_map]
      congr 2
      funext e
      by_cases he : e.1 = fd <;> simp [he]

theorem runAdd (h : l.SameMap x) (hidle : x.pc = .at .idle) (r : Fin R) (m : Shared R) (fd id : ℕ) (linger : Bool)
    (fs : List Functor) : ∃ os x', exec alone (m.active,x) os = some ((l.runAdd r m fd id linger fs).1.active,x') ∧
      (l.runAdd r m fd id linger fs).2.SameMap x' := by
  have hstay : (l.goto (.functors fs)).SameMap x := h.goto hidle
  have hfail : ((m.shutdown id linger).setStage id .released).active = m.active := shutdown_active m id linger
  unfold Reactor.runAdd
  split
  · exact ⟨[],x,rfl,hstay⟩
  · split
    · exact ⟨[],x,by rw [hfail]; rfl,hstay⟩
    · split
      · exact ⟨[],x,by rw [hfail]; rfl,hstay⟩
      · split
        · exact ⟨[],x,rfl,h.keys,hidle⟩
        · rename_i hfind
          have hmem : (fd : ℤ) ∉ x.connections := by rwa [h.mem_iff]
          let conn : SubReactor.Connection := { lastActive := 0, idleTimeout := 0 }
          refine ⟨[.addConnection fd conn true true],
            { x with connections := x.connections.insert fd conn, pc := .inserted fd },?_,?_,⟨fd,rfl,?_⟩⟩
          · simp [exec, alone, SubReactor.advance, SubReactor.addConnection, hidle, hmem, Shared.setStage]
          · dsimp only
            rw [AList.keys_insert, List.erase_of_not_mem (mt AList.mem_keys.mpr hmem), List.map_append]
            exact (h.keys.cons _).trans (List.perm_append_singleton _ _).symm
          · simp [AList.mem_insert]

theorem step (h : l.SameMap x) (hst : ReactorStep r m l m' l') : ∃ os x',
    exec alone (m.active,x) os = some (m'.active,x') ∧ l'.SameMap x' := by
  have hpc := h.pc
  cases hst with
  | harvest hl | expire _ hl | skip hl | proceed hl | wake hl | swap hl | enableWriting hl =>
    rw [hl] at hpc
    exact ⟨[],x,rfl,h.goto hpc⟩
  | wait hl =>
    refine ⟨[],x,rfl,h.goto ?_⟩
    rcases hl with hl | hl <;> rw [hl] at hpc <;> exact hpc
  | handle dies linger hl =>
    rw [hl] at hpc
    exact ⟨[],x,by cases dies <;> simp,h.goto hpc⟩
  | closeDead hl | closeExpired hl | closeHandled hl =>
    rw [hl] at hpc
    exact h.closeConnection hpc m _ _ _ _
  | @leave fd id expired batch needPending ok hl =>
    rw [hl] at hpc
    have hpc : x.pc = .erased fd .idle := hpc
    refine ⟨[.go],{ x with timeoutMap := x.timeoutMap.filter (fun e => e.2 != (fd : ℤ)), pc := .purged .idle },?_,
      h.keys,rfl⟩
    simp [exec, alone, SubReactor.advance, SubReactor.advanceGo, hpc]
  | @uncount expired batch needPending hl =>
    rw [hl] at hpc
    have hpc : x.pc = .purged .idle := hpc
    refine ⟨[.go],{ x with pc := .at .idle },?_,h.keys,rfl⟩
    simp [exec, alone, SubReactor.advance, SubReactor.advanceGo, hpc]
  | add linger hl =>
    rw [hl] at hpc
    exact h.runAdd hpc r m _ _ linger _
  | count hl =>
    rw [hl] at hpc
    obtain ⟨fd,hpc,hmem⟩ := hpc
    obtain ⟨conn,hconn⟩ := Option.isSome_iff_exists.mp (AList.lookup_isSome.mpr hmem)
    refine ⟨[.go,.now 0],
      { x with timeoutMap := Multimap.emplace x.timeoutMap (0 + conn.idleTimeout) fd, pc := .at .idle },?_,h.keys,rfl⟩
    simp [exec, alone, SubReactor.advance, SubReactor.advanceGo, SubReactor.armTimeout, hpc, hconn]

/-- The share of the reactor by itself is what the reactor has in the counter. -/
theorem share (h : l.SameMap x) : x.share = l.counted := by
  have hsize : (x.size : ℤ) = l.connections.length := by
    rw [SubReactor.Reactor.size, h.keys.length_eq, List.length_map]
  have hpc := h.pc
  cases hl : l.pc with
  | waiting | loop | handled | functors =>
    rw [hl] at hpc
    have hpc : x.pc = .at .idle := hpc
    simp [SubReactor.Reactor.share, hpc, hsize, Reactor.counted, hl, Pc.stillCounted, Pc.uncounted]
  | erased | closing =>
    rw [hl] at hpc
    simp only [Pc.Matches] at hpc
    simp [SubReactor.Reactor.share, hpc, hsize, Reactor.counted, hl, Pc.stillCounted, Pc.uncounted]
  | inserted fs =>
    rw [hl] at hpc
    obtain ⟨fd,hpc,-⟩ := hpc
    simp [SubReactor.Reactor.share, hpc, hsize, Reactor.counted, hl, Pc.stillCounted, Pc.uncounted]

end Reactor.SameMap

structure SameMaps (s : State R) (q : SubReactor.State (Fin R)) : Prop where
  active : q.shared = s.shared.active
  reactors : ∀ r, (reactorOf s r).SameMap (q.pc r)

theorem step_sameMaps {M : ℕ} {s t : State R} {a : Thread R × Act R} {q : SubReactor.State (Fin R)}
    (h : SameMaps s q) (hst : step M s a = some t) : ∃ os u, exec SubReactor.step q os = some u ∧ SameMaps t u := by
  rcases step_by_thread hst with ⟨p,m',p',-,-,ha,rfl⟩ | ⟨r,l,m',l',-,hl,ha,rfl⟩ | ⟨m',-,ha,rfl⟩
  · refine ⟨[],q,rfl,h.active.trans (acceptor_active ha).symm,fun r => ?_⟩
    rw [reactorOf_acceptor]
    exact h.reactors r
  · have hsame := h.reactors r
    rw [reactorOf_eq hl] at hsame
    obtain ⟨os,x,hx,hsame'⟩ := hsame.step (reactorStep_of_advance ha)
    rw [← h.active] at hx
    refine ⟨os.map (r,·),_,Threads.exec_thread hx,rfl,fun r' => ?_⟩
    by_cases hr : r' = r
    · subst hr
      rw [reactorOf_self]
      simpa using hsame'
    · rw [reactorOf_other m' s hr]
      simpa [hr] using h.reactors r'
  · refine ⟨[],q,rfl,h.active.trans (outside_active ha).symm,fun r => ?_⟩
    rw [reactorOf_outside]
    exact h.reactors r

theorem initial_sameMaps : SameMaps (initial R) SubReactor.start :=
  ⟨rfl,fun _ => ⟨List.Perm.refl _,by simp [reactorOf, initial, Control.toReactor, Pc.Matches, SubReactor.start]⟩⟩

/-- Every run of the server is a run of its reactors by themselves. -/
theorem run_sameMaps {M : ℕ} {as : List (Thread R × Act R)} {s : State R}
    (h : exec (step M) (initial R) as = some s) : ∃ os q, exec SubReactor.step SubReactor.start os = some q ∧ SameMaps s q :=
  exec_simulated (fun _ _ _ _ hs hst => step_sameMaps hs hst) initial_sameMaps h

/-- So `active_connections` is in every state what the reactors have put into it. -/
theorem active_eq_counted {M : ℕ} {as : List (Thread R × Act R)} {s : State R}
    (h : exec (step M) (initial R) as = some s) : s.shared.active = ∑ r, (reactorOf s r).counted := by
  obtain ⟨os,q,hq,hsame⟩ := run_sameMaps h
  rw [← hsame.active, (SubReactor.exec_accounted hq).total]
  exact Finset.sum_congr rfl (fun r _ => (hsame.reactors r).share)

end Simulation

end ModernTcp.Server
