import ModernTcp.Net.FunctorQueue
import ModernTcp.Net.Server

/-! # The functor queue inside the server

The model of the server has for every reactor the queue, the eventfd and the loop of `run`, without their inner steps. Seen
from one reactor each of its runs is a run of that queue by itself, so what is proved of the queue holds in the server.
-/
namespace ModernTcp.Server
open Execution

def Event.asQueue : Event → FunctorQueue.Event
  | .wake => .wake
  | .timer => .timer
  | .ready fd => .connection fd

/-- The handlers of a connection and `close_connection` run between two events of the batch. -/
def Pc.asQueue : Pc → FunctorQueue.Pc Functor
  | .waiting => .waiting
  | .loop _ batch needPending | .handled _ _ batch needPending | .erased _ _ _ batch needPending
  | .closing _ batch needPending => .batch (batch.map Event.asQueue) needPending
  | .functors fs | .inserted fs => .functors fs

section Simulation
variable {R : ℕ}

/-- The queue by itself, where the reactor has it. An empty answer of `epoll_wait` is an interruption there. -/
structure Mirrors (r : Fin R) (s : State R) (l : Reactor) (q : FunctorQueue.State (Thread R) Functor) : Prop where
  reactor : s.pc (.reactor r) = .reactor l
  pending : q.pending = s.shared.queue r
  counter : 0 < q.counter ↔ 0 < s.shared.wake r
  posting : ∀ t, q.posting t = true ↔ t = .acceptor ∧ s.pc .acceptor = .acceptor (.pushed r)
  running : q.stopping = .running
  pc : q.pc = l.pc.asQueue ∨ l.pc = .loop [] [] false ∧ q.pc = .top

/-- What the queue by itself has of the memory stays as it is. -/
def Untouched (r : Fin R) (m m' : Shared R) : Prop := m'.queue r = m.queue r ∧ m'.wake r = m.wake r

@[simp] theorem shutdown_wake (m : Shared R) (id : ℕ) (linger : Bool) : (m.shutdown id linger).wake = m.wake := by
  unfold Shared.shutdown
  split <;> rfl

theorem closeConnection_untouched (r : Fin R) (m : Shared R) (l : Reactor) (fd : ℕ) (expired : List ℕ)
    (batch : List Event) (needPending : Bool) :
    Untouched r m (l.closeConnection m fd expired batch needPending).1 ∧
      (l.closeConnection m fd expired batch needPending).2.pc.asQueue = .batch (batch.map Event.asQueue) needPending := by
  unfold Reactor.closeConnection
  split <;> exact ⟨⟨rfl,rfl⟩,rfl⟩

theorem runAdd_untouched (q r : Fin R) (m : Shared R) (l : Reactor) (fd id : ℕ) (linger : Bool) (fs : List Functor) :
    Untouched q m (l.runAdd r m fd id linger fs).1 ∧ (l.runAdd r m fd id linger fs).2.pc.asQueue = .functors fs := by
  have hfail : Untouched q m ((m.shutdown id linger).setStage id .released) := by
    simp [Untouched, Shared.setStage]
  unfold Reactor.runAdd
  split
  · exact ⟨⟨rfl,rfl⟩,rfl⟩
  · split
    · exact ⟨hfail,rfl⟩
    · split
      · exact ⟨hfail,rfl⟩
      · split <;> exact ⟨⟨rfl,rfl⟩,rfl⟩

/-- What a step of a reactor is for its queue: nothing, the answer of `epoll_wait`, the read of the eventfd, or a step of
the loop. -/
inductive QueueStep (r : Fin R) (m : Shared R) (l : Reactor) (m' : Shared R) (l' : Reactor) : Prop
  | stay (hm : Untouched r m m') (hpc : l'.pc.asQueue = l.pc.asQueue)
    (hbusy : l.pc ≠ .loop [] [] false)
  | harvest (hm : Untouched r m m') (batch : List Event) (hpc : l.pc = .waiting)
    (hwake : .wake ∈ batch → 0 < m.wake r) (hpc' : l'.pc = .loop [] batch false)
  | read (hqueue : m'.queue r = m.queue r) (hwake : m'.wake r = 0) (batch : List Event) (needPending : Bool)
    (hpc : l.pc = .loop [] (.wake :: batch) needPending) (hpc' : l'.pc = .loop [] batch true)
  | event (hm : Untouched r m m') (e : Event) (he : e ≠ .wake) (batch : List Event) (needPending : Bool)
    (hpc : l.pc = .loop [] (e :: batch) needPending)
    (hpc' : l'.pc.asQueue = .batch (batch.map Event.asQueue) needPending)
  | swap (hqueue : m'.queue r = []) (hwake : m'.wake r = m.wake r) (hpc : l.pc = .loop [] [] true)
    (hpc' : l'.pc = .functors (m.queue r))
  | call (hm : Untouched r m m') (f : Functor) (fs : List Functor) (hpc : l.pc = .functors (f :: fs))
    (hpc' : l'.pc.asQueue = .functors fs)
  | wait (hm : Untouched r m m') (hpc : l.pc = .loop [] [] false ∨ l.pc = .functors []) (hpc' : l'.pc = .waiting)

theorem ReactorStep.queueStep {r : Fin R} {m m' : Shared R} {l l' : Reactor} (h : ReactorStep r m l m' l') :
    QueueStep r m l m' l' := by
  cases h with
  | harvest hpc hwake => exact .harvest ⟨rfl,rfl⟩ _ hpc hwake rfl
  | expire fds hpc => exact .event ⟨rfl,rfl⟩ .timer (by simp) _ _ hpc rfl
  | skip hpc _ => exact .event ⟨rfl,rfl⟩ _ (by simp) _ _ hpc rfl
  | handle dies linger hpc _ _ =>
    refine .event ?_ _ (by simp) _ _ hpc rfl
    cases dies <;> simp [Untouched]
  | @closeDead fd batch needPending hpc =>
    obtain ⟨hm,hpc'⟩ := closeConnection_untouched r m l fd [] batch needPending
    exact .event hm _ (by simp) _ _ hpc hpc'
  | @closeExpired fd expired batch needPending hpc =>
    obtain ⟨hm,hpc'⟩ := closeConnection_untouched r m l fd expired batch needPending
    exact .stay hm (by rw [hpc', hpc]; rfl) (by simp [hpc])
  | @closeHandled fd id batch needPending hpc _ =>
    obtain ⟨hm,hpc'⟩ := closeConnection_untouched r m l fd [] batch needPending
    exact .stay hm (by rw [hpc', hpc]; rfl) (by simp [hpc])
  | proceed hpc _ => exact .stay ⟨rfl,rfl⟩ (by rw [hpc]; rfl) (by simp [hpc])
  | leave ok hpc => exact .stay (by simp [Untouched]) (by rw [hpc]; rfl) (by simp [hpc])
  | uncount hpc => exact .stay ⟨rfl,rfl⟩ (by rw [hpc]; rfl) (by simp [hpc])
  | wake hpc => exact .read rfl (by simp) _ _ hpc rfl
  | swap hpc => exact .swap (by simp) rfl hpc rfl
  | wait hpc => exact .wait ⟨rfl,rfl⟩ hpc rfl
  | @add fd id fs linger hpc =>
    obtain ⟨hm,hpc'⟩ := runAdd_untouched r r m l fd id linger fs
    exact .call hm _ _ hpc hpc'
  | enableWriting hpc => exact .call ⟨rfl,rfl⟩ _ _ hpc rfl
  | count hpc => exact .stay ⟨rfl,rfl⟩ (by rw [hpc]; rfl) (by simp [hpc])

theorem ReactorStep.others {r : Fin R} {m m' : Shared R} {l l' : Reactor} (h : ReactorStep r m l m' l') {q : Fin R}
    (hq : q ≠ r) : Untouched q m m' := by
  cases h with
  | handle dies linger => cases dies <;> simp [Untouched]
  | closeDead | closeExpired | closeHandled => exact (closeConnection_untouched q m l _ _ _ _).1
  | add => exact (runAdd_untouched q r m l _ _ _ _).1
  | wake | swap => simp [Untouched, hq]
  | leave => simp [Untouched]
  | harvest | expire | skip | proceed | uncount | wait | enableWriting | count => exact ⟨rfl,rfl⟩

variable {r : Fin R} {s : State R} {l l' : Reactor} {q u : FunctorQueue.State (Thread R) Functor} {m' : Shared R}

/-- A step of the loop moves the queue by itself to `u`. -/
theorem Mirrors.moved (h : Mirrors r s l q) (hpending : u.pending = m'.queue r)
    (hcounter : 0 < u.counter ↔ 0 < m'.wake r) (hposting : u.posting = q.posting) (hstopping : u.stopping = q.stopping)
    (hpc : u.pc = l'.pc.asQueue ∨ l'.pc = .loop [] [] false ∧ u.pc = .top) :
    Mirrors r ⟨m',Function.update s.pc (.reactor r) (.reactor l')⟩ l' u := by
  refine ⟨Function.update_self _ _ _,hpending,hcounter,?_,hstopping.trans h.running,hpc⟩
  intro t
  rw [hposting, h.posting t]
  simp

theorem Mirrors.loop (h : Mirrors r s l q) (hm : Untouched r s.shared m') {pc : FunctorQueue.Pc Functor}
    {executed : List Functor} (hpc : pc = l'.pc.asQueue ∨ l'.pc = .loop [] [] false ∧ pc = .top) :
    Mirrors r ⟨m',Function.update s.pc (.reactor r) (.reactor l')⟩ l' { q with pc := pc, executed := executed } :=
  h.moved (h.pending.trans hm.1.symm) (h.counter.trans (by rw [hm.2])) rfl rfl hpc

theorem exec_go (h : FunctorQueue.advanceLoop q = some u) : exec FunctorQueue.step q [.go] = some u := by
  simp [exec, FunctorQueue.step, h]

theorem exec_go_go {v : FunctorQueue.State (Thread R) Functor} (h : FunctorQueue.advanceLoop q = some u)
    (h' : FunctorQueue.advanceLoop u = some v) : exec FunctorQueue.step q [.go,.go] = some v := by
  simp [exec, FunctorQueue.step, h, h']

theorem asQueue_wake {e : Event} (h : e.asQueue = .wake) : e = .wake := by
  cases e with
  | wake => rfl
  | timer | ready fd => cases h

theorem Mirrors.reactorStep (h : Mirrors r s l q) (hstep : QueueStep r s.shared l m' l') : ∃ os u,
    exec FunctorQueue.step q os = some u ∧
      Mirrors r ⟨m',Function.update s.pc (.reactor r) (.reactor l')⟩ l' u := by
  -- away from the end of a batch the queue by itself stands where the reactor does
  have hat : l.pc ≠ .loop [] [] false → q.pc = l.pc.asQueue := fun hne => h.pc.resolve_right (fun hend => hne hend.1)
  cases hstep with
  | stay hm hpc hbusy => exact ⟨[],q,rfl,h.loop hm (Or.inl ((hat hbusy).trans hpc.symm))⟩
  | harvest hm batch hpc hwake hpc' =>
    have hq : q.pc = .waiting := by rw [hat (by simp [hpc]), hpc]; rfl
    by_cases hnil : batch = []
    · subst hnil
      refine ⟨[.interrupted],{ q with pc := .top },?_,h.loop hm (Or.inr ⟨hpc',rfl⟩)⟩
      simp [exec, FunctorQueue.step, hq, FunctorQueue.Pc.waits]
    · refine ⟨[.epollWait (batch.map Event.asQueue)],{ q with pc := .batch (batch.map Event.asQueue) false },?_,
        h.loop hm (Or.inl (by rw [hpc']; rfl))⟩
      have hready : .wake ∈ batch.map Event.asQueue → 0 < q.counter := by
        intro hmem
        obtain ⟨e,he,hwakes⟩ := List.mem_map.mp hmem
        exact h.counter.mpr (hwake (asQueue_wake hwakes ▸ he))
      rw [exec, FunctorQueue.step, if_pos ⟨by rw [hq]; rfl,by simpa using hnil,hready⟩]
      rfl
  | read hqueue hwake batch needPending hpc hpc' =>
    have hq : q.pc = .batch (.wake :: batch.map Event.asQueue) needPending := by rw [hat (by simp [hpc]), hpc]; rfl
    have hdrain : FunctorQueue.advanceLoop q = some { q with pc := .draining (batch.map Event.asQueue) } := by
      simp [FunctorQueue.advanceLoop, hq]
    let read : FunctorQueue.State (Thread R) Functor :=
      { q with counter := 0, pc := .batch (batch.map Event.asQueue) true }
    have hmirrors : Mirrors r ⟨m',Function.update s.pc (.reactor r) (.reactor l')⟩ l' read :=
      h.moved (h.pending.trans hqueue.symm) (by simp [read, hwake]) rfl rfl (Or.inl (by rw [hpc']; rfl))
    by_cases hzero : q.counter = 0
    · refine ⟨[.go,.go],read,exec_go_go hdrain ?_,hmirrors⟩
      simp [FunctorQueue.advanceLoop, hzero, read]
    · let drained : FunctorQueue.State (Thread R) Functor :=
        { q with counter := 0, pc := .draining (batch.map Event.asQueue) }
      have hread : FunctorQueue.advanceLoop { q with pc := .draining (batch.map Event.asQueue) } = some drained := by
        simp [FunctorQueue.advanceLoop, hzero, drained]
      have hlast : FunctorQueue.advanceLoop drained = some read := by simp [FunctorQueue.advanceLoop, drained, read]
      exact ⟨[.go,.go] ++ [.go],read,exec_trans (exec_go_go hdrain hread) (exec_go hlast),hmirrors⟩
  | event hm e he batch needPending hpc hpc' =>
    have hq : q.pc = .batch (e.asQueue :: batch.map Event.asQueue) needPending := by rw [hat (by simp [hpc]), hpc]; rfl
    refine ⟨[.go],{ q with pc := .batch (batch.map Event.asQueue) needPending },exec_go ?_,h.loop hm (Or.inl hpc'.symm)⟩
    cases e with
    | wake => exact absurd rfl he
    | timer | ready fd => simp [FunctorQueue.advanceLoop, hq, Event.asQueue]
  | swap hqueue hwake hpc hpc' =>
    have hq : q.pc = .batch [] true := by rw [hat (by simp [hpc]), hpc]; rfl
    refine ⟨[.go],{ q with pc := .functors q.pending, pending := [] },exec_go ?_,
      h.moved hqueue.symm (h.counter.trans (by rw [hwake])) rfl rfl (Or.inl (by rw [hpc', h.pending]; rfl))⟩
    simp [FunctorQueue.advanceLoop, hq]
  | call hm f fs hpc hpc' =>
    have hq : q.pc = .functors (f :: fs) := by rw [hat (by simp [hpc]), hpc]; rfl
    refine ⟨[.go],{ q with pc := .functors fs, executed := q.executed ++ [f] },exec_go ?_,h.loop hm (Or.inl hpc'.symm)⟩
    simp [FunctorQueue.advanceLoop, hq]
  | wait hm hpc hpc' =>
    have hmirrors : Mirrors r ⟨m',Function.update s.pc (.reactor r) (.reactor l')⟩ l' { q with pc := .waiting } :=
      h.loop hm (Or.inl (by rw [hpc']; rfl))
    have htop : FunctorQueue.advanceLoop { q with pc := .top } = some { q with pc := .waiting } := by
      simp [FunctorQueue.advanceLoop, h.running]
    have hback : q.pc = .batch [] false ∨ q.pc = .functors [] ∨ q.pc = .top := by
      rcases h.pc with hq | ⟨-,hq⟩
      · rcases hpc with hpc | hpc <;> rw [hq, hpc] <;> simp [Pc.asQueue]
      · exact Or.inr (Or.inr hq)
    rcases hback with hq | hq | hq
    · exact ⟨[.go,.go],_,exec_go_go (by simp [FunctorQueue.advanceLoop, hq]) htop,hmirrors⟩
    · exact ⟨[.go,.go],_,exec_go_go (by simp [FunctorQueue.advanceLoop, hq]) htop,hmirrors⟩
    · exact ⟨[.go],_,exec_go (by simp [FunctorQueue.advanceLoop, hq, h.running]),hmirrors⟩

/-- A step that the queue by itself does not see. -/
theorem Mirrors.frame (h : Mirrors r s l q) {t : State R} (hm : Untouched r s.shared t.shared)
    (hl : t.pc (.reactor r) = s.pc (.reactor r))
    (hacceptor : t.pc .acceptor = .acceptor (.pushed r) ↔ s.pc .acceptor = .acceptor (.pushed r)) : Mirrors r t l q :=
  ⟨hl.trans h.reactor,h.pending.trans hm.1.symm,h.counter.trans (by rw [hm.2]),
    fun x => by rw [h.posting x, hacceptor],h.running,h.pc⟩

theorem Mirrors.not_posting (h : Mirrors r s l q) {x : Thread R}
    (hx : ¬ (x = .acceptor ∧ s.pc .acceptor = .acceptor (.pushed r))) : q.posting x = false := by
  rw [← h.posting x] at hx
  simpa using hx

theorem Mirrors.acceptorStep {M : ℕ} (h : Mirrors r s l q) {p p' : Acceptor R} {a : Act R}
    (hp : s.pc .acceptor = .acceptor p) (ha : advanceAcceptor M s.shared p a = some (m',p')) : ∃ os u,
    exec FunctorQueue.step q os = some u ∧ Mirrors r ⟨m',Function.update s.pc .acceptor (.acceptor p')⟩ l u := by
  have hl : Function.update s.pc .acceptor (.acceptor p') (.reactor r) = s.pc (.reactor r) :=
    Function.update_of_ne (by simp) _ _
  have hstay : Untouched r s.shared m' → p ≠ .pushed r → p' ≠ .pushed r → ∃ os u,
      exec FunctorQueue.step q os = some u ∧ Mirrors r ⟨m',Function.update s.pc .acceptor (.acceptor p')⟩ l u :=
    fun hm hne hne' => ⟨[],q,rfl,h.frame hm hl (by simp [hp, hne, hne'])⟩
  cases p <;> cases a <;> simp only [advanceAcceptor, reduceCtorEq] at ha
  case idle.accept fd fate =>
    split at ha <;> cases ha
    exact hstay ⟨rfl,rfl⟩ (by simp) (by simp)
  case accepted.go id fate =>
    split at ha
    · cases ha
    · split at ha
      · cases ha
        exact hstay ⟨rfl,rfl⟩ (by simp) (by simp)
      · split at ha <;> cases ha <;> exact hstay ⟨rfl,rfl⟩ (by simp) (by simp)
  case adding.go id =>
    split at ha <;> cases ha
    rename_i hR
    generalize (⟨s.shared.nextReactorIndex % R,Nat.mod_lt _ hR⟩ : Fin R) = index at *
    by_cases hr : index = r
    · subst hr
      let f : Functor := .add (s.shared.desc.conn id).fd id
      refine ⟨[.push .acceptor f],{ q with
        pending := q.pending ++ [f]
        pushed := q.pushed ++ [f]
        posting := Function.update q.posting .acceptor true },?_,hl.trans h.reactor,?_,h.counter,?_,h.running,h.pc⟩
      · simp [exec, FunctorQueue.step, h.not_posting (x := .acceptor) (by simp [hp])]
      · simp [Shared.push, Shared.setStage, h.pending, f]
      · intro x
        by_cases hx : x = .acceptor
        · simp [hx]
        · simp [hx, h.not_posting (x := x) (fun hc => hx hc.1)]
    · refine hstay ⟨?_,rfl⟩ (by simp) (by simpa using hr)
      simp [Shared.push, Shared.setStage, Ne.symm hr]
  case pushed.go index =>
    cases ha
    by_cases hr : index = r
    · subst hr
      refine ⟨[.write .acceptor],{ q with
        counter := FunctorQueue.writeEventfd q.counter
        posting := Function.update q.posting .acceptor false },?_,hl.trans h.reactor,h.pending,?_,?_,h.running,h.pc⟩
      · simp [exec, FunctorQueue.step, (h.posting .acceptor).mpr ⟨rfl,hp⟩]
      · simp [FunctorQueue.writeEventfd_pos, Shared.notify]
      · intro x
        by_cases hx : x = .acceptor
        · simp [hx]
        · simp [hx, h.not_posting (x := x) (fun hc => hx hc.1)]
    · refine hstay ⟨rfl,?_⟩ (by simpa using hr) (by simp)
      simp [Shared.notify, Ne.symm hr]

theorem Mirrors.outsideStep (h : Mirrors r s l q) {a : Act R} (ha : advanceOutside s.shared a = some m') : ∃ os u,
    exec FunctorQueue.step q os = some u ∧ Mirrors r ⟨m',Function.update s.pc .outside .outside⟩ l u := by
  have hl : ∀ x : Thread R, x ≠ .outside → Function.update s.pc .outside .outside x = s.pc x :=
    fun x hx => Function.update_of_ne hx _ _
  have hstay : Untouched r s.shared m' → ∃ os u, exec FunctorQueue.step q os = some u ∧
      Mirrors r ⟨m',Function.update s.pc .outside .outside⟩ l u :=
    fun hm => ⟨[],q,rfl,h.frame hm (hl (.reactor r) (by simp)) (by simp)⟩
  cases a <;> simp only [advanceOutside, reduceCtorEq] at ha
  case worker id linger =>
    cases ha
    exact hstay (by simp [Untouched])
  case post index fd =>
    cases ha
    by_cases hr : index = r
    · subst hr
      refine ⟨[.push .outside (.enableWriting fd),.write .outside],{ q with
        pending := q.pending ++ [.enableWriting fd]
        pushed := q.pushed ++ [.enableWriting fd]
        counter := FunctorQueue.writeEventfd q.counter
        posting := Function.update (Function.update q.posting .outside true) .outside false },
        ?_,(hl (.reactor index) (by simp)).trans h.reactor,?_,?_,?_,h.running,h.pc⟩
      · simp [exec, FunctorQueue.step, h.not_posting (x := .outside) (by simp)]
      · simp [Shared.push, Shared.notify, h.pending]
      · simp [FunctorQueue.writeEventfd_pos, Shared.notify]
      · intro x
        by_cases hx : x = .outside
        · simp [hx]
        · simp [hx, h.posting x]
    · exact hstay (by simp [Untouched, Shared.push, Shared.notify, Ne.symm hr])
  case syscall id =>
    split at ha
    · cases ha
    · obtain ⟨d,-,rfl⟩ := Option.map_eq_some_iff.mp ha
      exact hstay ⟨rfl,rfl⟩
  case release id linger =>
    split at ha
    · obtain ⟨d,-,rfl⟩ := Option.map_eq_some_iff.mp ha
      exact hstay ⟨rfl,rfl⟩
    · cases ha

theorem step_mirrors {M : ℕ} {t : State R} {a : Thread R × Act R} (h : ∃ l, Mirrors r s l q)
    (hst : step M s a = some t) : ∃ os u, exec FunctorQueue.step q os = some u ∧ ∃ l, Mirrors r t l u := by
  obtain ⟨l,h⟩ := h
  rcases step_by_thread hst with ⟨p,m',p',-,hp,ha,rfl⟩ | ⟨r',l₀,m',l',-,hl,ha,rfl⟩ | ⟨m',-,ha,rfl⟩
  · obtain ⟨os,u,hu,hmirrors⟩ := h.acceptorStep hp ha
    exact ⟨os,u,hu,l,hmirrors⟩
  · have hstep := reactorStep_of_advance ha
    by_cases hr : r' = r
    · subst hr
      obtain rfl : l₀ = l := by simpa using hl.symm.trans h.reactor
      obtain ⟨os,u,hu,hmirrors⟩ := h.reactorStep hstep.queueStep
      exact ⟨os,u,hu,l',hmirrors⟩
    · refine ⟨[],q,rfl,l,h.frame (hstep.others (Ne.symm hr)) ?_ (by simp)⟩
      exact Function.update_of_ne (by simpa using Ne.symm hr) _ _
  · obtain ⟨os,u,hu,hmirrors⟩ := h.outsideStep ha
    exact ⟨os,u,hu,l,hmirrors⟩

theorem initial_mirrors (r : Fin R) : ∃ q, exec FunctorQueue.step {} [.go] = some q ∧ ∃ l, Mirrors r (initial R) l q :=
  ⟨{ pc := .waiting },rfl,{},rfl,rfl,by simp [initial],by simp [initial],rfl,Or.inl rfl⟩

/-- Every run of the server is, for each of its reactors, a run of the functor queue by itself. -/
theorem run_mirrors {M : ℕ} {as : List (Thread R × Act R)} (h : exec (step M) (initial R) as = some s) (r : Fin R) :
    ∃ os q l, exec FunctorQueue.step {} os = some q ∧ Mirrors r s l q := by
  obtain ⟨q,hq,hinit⟩ := initial_mirrors r
  obtain ⟨os,u,hu,l,hmirrors⟩ := exec_simulated (fun _ _ _ _ hs hst => step_mirrors hs hst) hinit h
  exact ⟨[.go] ++ os,u,l,exec_trans hq hu,hmirrors⟩

/-- So a reactor of the server does not wait with functors in its queue, unless it has been woken or the accept loop is
about to wake it. -/
theorem waiting_reactor_woken {M : ℕ} {as : List (Thread R × Act R)} (h : exec (step M) (initial R) as = some s)
    (hl : s.pc (.reactor r) = .reactor l) (hpc : l.pc = .waiting) (hne : s.shared.queue r ≠ []) :
    0 < s.shared.wake r ∨ s.pc .acceptor = .acceptor (.pushed r) := by
  obtain ⟨os,q,l₀,hq,hmirrors⟩ := run_mirrors h r
  obtain rfl : l₀ = l := by simpa using hmirrors.reactor.symm.trans hl
  have hwaits : q.pc = .waiting := by
    rcases hmirrors.pc with hq | ⟨hend,-⟩
    · rw [hq, hpc]
      rfl
    · rw [hpc] at hend
      cases hend
  rcases (FunctorQueue.exec_inv hq).noticed (by rwa [hmirrors.pending]) with hpos | ⟨x,hx⟩ | hswaps
  · exact Or.inl (hmirrors.counter.mp hpos)
  · exact Or.inr ((hmirrors.posting x).mp hx).2
  · rw [hwaits] at hswaps
    cases hswaps

end Simulation

end ModernTcp.Server
