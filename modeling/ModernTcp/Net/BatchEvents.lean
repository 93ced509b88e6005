import ModernTcp.Net.ConnectionLimit

/-! # Events of a batch

An event carries a descriptor number only. Between two calls of `epoll_wait` the loop of `run`
erases entries of `connections_` but inserts none until it is through the batch, so a number
that is still in the map stands for the connection it stood for when the batch was harvested.
-/
namespace ModernTcp.Server
open Execution

section Batch
variable {R : ℕ}

/-- The events of the batch that the loop has not taken yet; none outside a batch. -/
def Pc.restOfBatch : Pc → Option (List Event)
  | .loop _ batch _ | .handled _ _ batch _ | .erased _ _ _ batch _ | .closing _ batch _ => some batch
  | .waiting | .functors _ | .inserted _ => none

/-- `l₀` is the reactor at the harvest of `batch`. -/
def SinceHarvest (l₀ : Reactor) (batch : List Event) (l : Reactor) : Prop :=
  ∀ rest, l.pc.restOfBatch = some rest →
    rest ⊆ batch ∧ ∀ fd id, l.find fd = some id → l₀.find fd = some id

section Steps
variable {r : Fin R} {m m' : Shared R} {l₀ l l' : Reactor} {batch : List Event}

theorem find_of_filter {fd closed id : ℕ} {pc : Pc}
    (h : Reactor.find { l with connections := l.connections.filter (fun e => e.1 ≠ closed), pc := pc } fd = some id) :
    l.find fd = some id := by
  by_cases hfd : fd = closed
  · subst hfd
    have hnone : Reactor.find { l with connections := l.connections.filter (fun e => e.1 ≠ fd), pc := pc } fd =
        none := by
      simp [Reactor.find]
    rw [hnone] at h
    cases h
  · have hsame : Reactor.find { l with connections := l.connections.filter (fun e => e.1 ≠ closed), pc := pc } fd =
        l.find fd := by
      simp only [Reactor.find, List.find?_filter]
      congr 2
      funext e
      by_cases he : e.1 = fd
      · simp [he, hfd]
      · simp [he]
    exact hsame.symm.trans h

theorem SinceHarvest.goto {pc : Pc} (hs : SinceHarvest l₀ batch l) {rest : List Event}
    (hrest : l.pc.restOfBatch = some rest) (hpc : ∀ now, pc.restOfBatch = some now → now ⊆ rest) :
    SinceHarvest l₀ batch (l.goto pc) := by
  intro now hnow
  obtain ⟨hsub,hfind⟩ := hs rest hrest
  exact ⟨fun e he => hsub (hpc now hnow he),hfind⟩

theorem SinceHarvest.closeConnection {fd : ℕ} {expired : List ℕ} {now rest : List Event} {needPending : Bool}
    (hs : SinceHarvest l₀ batch l) (hrest : l.pc.restOfBatch = some rest) (hnow : now ⊆ rest) :
    SinceHarvest l₀ batch (l.closeConnection m fd expired now needPending).2 := by
  unfold Reactor.closeConnection
  split
  · refine hs.goto hrest ?_
    rintro _ ⟨⟩
    exact hnow
  · rintro _ ⟨⟩
    obtain ⟨hsub,hfind⟩ := hs rest hrest
    exact ⟨fun e he => hsub (hnow he),fun fd id h => hfind fd id (find_of_filter h)⟩

theorem reactorStep_sinceHarvest (hs : SinceHarvest l₀ batch l) (hwaiting : l.pc ≠ .waiting)
    (h : ReactorStep r m l m' l') : SinceHarvest l₀ batch l' := by
  cases h with
  | harvest hpc => exact absurd hpc hwaiting
  | expire fds hpc | skip hpc | handle _ _ hpc | wake hpc =>
    refine hs.goto (by rw [hpc]; rfl) ?_
    rintro _ ⟨⟩
    exact List.subset_cons_self _ _
  | closeDead hpc => exact hs.closeConnection (by rw [hpc]; rfl) (List.subset_cons_self _ _)
  | closeExpired hpc | closeHandled hpc => exact hs.closeConnection (by rw [hpc]; rfl) (List.Subset.refl _)
  | proceed hpc | uncount hpc =>
    refine hs.goto (by rw [hpc]; rfl) ?_
    rintro _ ⟨⟩
    exact List.Subset.refl _
  | leave ok hpc =>
    rintro _ ⟨⟩
    exact hs _ (by rw [hpc]; rfl)
  | swap | wait | enableWriting | count =>
    intro rest hrest
    cases hrest
  | @add fd id fs linger hpc =>
    intro rest hrest
    have hout : (l.runAdd r m fd id linger fs).2.pc.restOfBatch = none := by
      unfold Reactor.runAdd
      split
      · rfl
      · split
        · rfl
        · split_ifs <;> rfl
    rw [hout] at hrest
    cases hrest

theorem advanceReactor_waiting {a : Act R} (hpc : l.pc = .waiting) (h : advanceReactor r m l a = some (m',l')) :
    ∃ batch, a = .harvest batch := by
  cases a with
  | harvest batch => exact ⟨batch,rfl⟩
  | _ => simp [advanceReactor, hpc] at h

theorem closeConnection_not_handled {fd closed id : ℕ} {now rest : List Event} {pending needPending : Bool} :
    (l.closeConnection m closed [] now pending).2.pc ≠ .handled fd id rest needPending := by
  unfold Reactor.closeConnection
  split
  · exact Pc.noConfusion
  · exact Pc.noConfusion

/-- The loop comes to the handlers of a connection through an event and an entry of the map. -/
theorem handle_calls {fd id : ℕ} {rest : List Event} {dies linger needPending : Bool}
    (h : advanceReactor r m l (.handle dies linger) = some (m',l'))
    (hcalls : l'.pc = .handled fd id rest needPending) :
    l.pc = .loop [] (.ready fd :: rest) needPending ∧ l.find fd = some id := by
  simp only [advanceReactor] at h
  split at h
  · rename_i hpc
    split at h
    · cases h
      cases hcalls
    · rename_i hfind
      split at h
      · cases h
        cases hcalls
        exact ⟨hpc,hfind⟩
      · have hclosed : (l.closeConnection m _ [] _ _).2 = l' := congrArg Prod.snd (Option.some.inj h)
        rw [← hclosed] at hcalls
        exact absurd hcalls closeConnection_not_handled
  · cases h

end Steps

theorem step_sinceHarvest {M : ℕ} {s t : State R} {a : Thread R × Act R} {r : Fin R} {l₀ : Reactor}
    {batch : List Event} (hs : SinceHarvest l₀ batch (reactorOf s r))
    (hbatch : ∀ later, a ≠ (.reactor r,.harvest later)) (h : step M s a = some t) :
    SinceHarvest l₀ batch (reactorOf t r) := by
  obtain ⟨x,a⟩ := a
  obtain ⟨p,m',p',rfl,hc,hp,rfl⟩ | ⟨q,l,m',l',rfl,hc,hl,rfl⟩ | ⟨m',rfl,hm,rfl⟩ := step_by_thread h
  · rw [reactorOf_acceptor]
    exact hs
  · by_cases hq : r = q
    · subst hq
      rw [reactorOf_eq hc] at hs
      rw [reactorOf_self]
      have hwaiting : l.pc ≠ .waiting := by
        intro hpc
        obtain ⟨later,rfl⟩ := advanceReactor_waiting hpc hl
        exact hbatch later rfl
      exact reactorStep_sinceHarvest hs hwaiting (reactorStep_of_advance hl)
    · rw [reactorOf_other _ _ hq]
      exact hs
  · rw [reactorOf_outside]
    exact hs

theorem exec_sinceHarvest {M : ℕ} {s t : State R} {as : List (Thread R × Act R)} {r : Fin R} {batch : List Event}
    (hbatch : ∀ a ∈ as, ∀ later, a ≠ (.reactor r,.harvest later))
    (h : exec (step M) s ((.reactor r,.harvest batch) :: as) = some t) :
    SinceHarvest (reactorOf s r) batch (reactorOf t r) := by
  obtain ⟨u,hu,ht⟩ := exec_cons_eq_some.mp h
  have hharvest : SinceHarvest (reactorOf s r) batch (reactorOf u r) := by
    obtain ⟨_,_,_,hx,_⟩ | ⟨q,l,m',l',hx,hc,hl,rfl⟩ | ⟨_,hx,_⟩ := step_by_thread hu
    · cases hx
    · cases hx
      obtain ⟨_,hq⟩ := Option.ite_none_right_eq_some.mp hl
      cases hq
      rw [reactorOf_self, reactorOf_eq hc]
      rintro _ ⟨⟩
      exact ⟨List.Subset.refl _,fun _ _ hfind => hfind⟩
    · cases hx
  exact exec_invariant (P := fun _ a => ∀ later, a ≠ (.reactor r,.harvest later))
    (fun _ _ _ hs ha hstep => step_sinceHarvest hs ha hstep) hharvest
    (along_of_forall (fun _ a ha => hbatch a ha)) ht

/-- From a harvest to the next one of the same reactor, whatever the other threads do: the loop
calls the handlers of a connection for a number that the batch holds, and the connection is
the one that the map had for it at the harvest. -/
theorem events_reach_registered {M : ℕ} {s t u : State R} {as : List (Thread R × Act R)} {r : Fin R}
    {batch rest : List Event} {fd id : ℕ} {dies linger needPending : Bool}
    (hrun : exec (step M) s ((.reactor r,.harvest batch) :: as) = some t)
    (hbatch : ∀ a ∈ as, ∀ later, a ≠ (.reactor r,.harvest later))
    (hstep : step M t (.reactor r,.handle dies linger) = some u)
    (hcalls : (reactorOf u r).pc = .handled fd id rest needPending) :
    .ready fd ∈ batch ∧ (reactorOf s r).find fd = some id := by
  have hs := exec_sinceHarvest hbatch hrun
  obtain ⟨_,_,_,hx,_⟩ | ⟨q,l,m',l',hx,hc,hl,rfl⟩ | ⟨_,hx,_⟩ := step_by_thread hstep
  · cases hx
  · cases hx
    rw [reactorOf_eq hc] at hs
    rw [reactorOf_self] at hcalls
    obtain ⟨hpc,hfind⟩ := handle_calls hl hcalls
    obtain ⟨hsub,hentry⟩ := hs _ (by rw [hpc]; rfl)
    exact ⟨hsub List.mem_cons_self,hentry fd id hfind⟩
  · cases hx

end Batch

/-- Connections 0 and 1 have the numbers 5 and 6. -/
def twoRegistered : List (Thread 1 × Act 1) :=
  [(.acceptor,.accept 5 .connection),(.acceptor,.go),(.acceptor,.go),(.acceptor,.go),
    (.acceptor,.accept 6 .connection),(.acceptor,.go),(.acceptor,.go),(.acceptor,.go),
    (.reactor 0,.harvest [.wake]),(.reactor 0,.go),(.reactor 0,.go),(.reactor 0,.linger true),(.reactor 0,.go),
    (.reactor 0,.linger true),(.reactor 0,.go),(.reactor 0,.go)]

/-- Connection 1 times out in the batch, and connection 2 gets its number before the loop comes
to the event. -/
def reusedInBatch : List (Thread 1 × Act 1) :=
  [(.reactor 0,.expire [6]),(.reactor 0,.go),(.reactor 0,.linger true),(.reactor 0,.go),(.outside,.syscall 1),
    (.outside,.syscall 1),(.outside,.syscall 1),(.outside,.syscall 1),(.acceptor,.accept 6 .connection),
    (.acceptor,.go),(.acceptor,.go),(.acceptor,.go),(.reactor 0,.handle false false)]

theorem events_reach_registered_reused : ∃ s t u : State 1,
    exec (step 0) (initial 1) twoRegistered = some s ∧
    exec (step 0) s ((.reactor 0,.harvest [.timer,.ready 6,.ready 5]) :: reusedInBatch) = some t ∧
    step 0 t (.reactor 0,.handle false false) = some u ∧ (reactorOf u 0).pc = .handled 5 0 [] false ∧
      (reactorOf s 0).find 5 = some 0 := by
  have hrun : ∃ s t u : State 1, exec (step 0) (initial 1) twoRegistered = some s ∧
      exec (step 0) s ((.reactor 0,.harvest [.timer,.ready 6,.ready 5]) :: reusedInBatch) = some t ∧
      step 0 t (.reactor 0,.handle false false) = some u ∧ (reactorOf u 0).pc = .handled 5 0 [] false :=
    ⟨_,_,_,rfl,rfl,rfl,rfl⟩
  obtain ⟨s,t,u,hs,ht,hu,hpc⟩ := hrun
  exact ⟨s,t,u,hs,ht,hu,hpc,(events_reach_registered ht (by simp [reusedInBatch]) hu hpc).2⟩

end ModernTcp.Server
