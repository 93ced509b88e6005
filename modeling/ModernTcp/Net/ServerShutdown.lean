import ModernTcp.Net.AcceptLoop

/-! # Shutting the server down

Any number of threads may call `TcpServer::shutdown`; the first one does it. Unlike a reactor the accept thread is told
to stop before it is woken, so it does not miss the stop.
-/
namespace ModernTcp.AcceptLoop
open Execution

section Life
variable {T : Type*} {cfg : Config} {s t u : State T}

/-- How far the call of `shutdown` that found the server running has come. -/
def Caller.rank : Caller → ℕ
  | .outside => 0
  | .requesting => 1
  | .resetting => 2
  | .deleting => 3
  | .waking => 4
  | .joining => 5
  | .stopping => 6
  | .clearing => 7
  | .closing => 8
  | .returned => 9

/-- What that call has done so far. -/
structure Phase (s : State T) (c : Caller) : Prop where
  stop : s.stopRequested = decide (2 ≤ c.rank)
  serverFd : s.serverFd = decide (c.rank < 3)
  listening : s.listening = decide (c.rank < 4)
  eventFd : s.eventFd = decide (c.rank < 9)
  woken : 5 ≤ c.rank → s.pc = .waiting → 0 < s.eventCounter
  joined : 6 ≤ c.rank → s.pc = .exited
  crashed : s.pc = .crashed → 3 ≤ c.rank

/-- One call of `shutdown` runs, the others have found it running or have not begun. -/
structure Life (cfg : Config) (s : State T) : Prop where
  built : Built cfg s
  watched : s.pc.Watched
  phase : (s.running = true ∧ (∀ t, s.callers t = .outside) ∧ Phase s .outside) ∨
    (s.running = false ∧ ∃ w, s.callers w ≠ .outside ∧ (∀ t, t ≠ w → s.callers t = .outside ∨ s.callers t = .returned) ∧
      Phase s (s.callers w))

theorem advance_phase {a : AcceptAct} {c : Caller} (hb : Built cfg s) (hp : Phase s c)
    (h : s.advance cfg s.pc a = some t) : Phase t c := by
  have hframe := advance_frame h
  have hover := advance_over h
  have heffect := advance_effect h
  refine ⟨hframe.stopRequested.trans hp.stop,hframe.serverFd.trans hp.serverFd,hframe.listening.trans hp.listening,
    hframe.eventFd.trans hp.eventFd,fun hrank hwaits => ?_,fun hrank => ?_,fun hcrashed => ?_⟩
  · -- behind the request the test does not let the thread wait again
    have hgoes := effect_waits hb hover heffect hwaits
    have hstop : s.stopRequested = true := hp.stop.trans (decide_eq_true (by omega))
    rw [State.goes, hstop] at hgoes
    cases hgoes
  · rw [hp.joined hrank] at hover
    cases hover
  · have hnull := (effect_built hb hover heffect).2 hcrashed
    rw [hp.serverFd] at hnull
    have hlate := of_decide_eq_false hnull
    omega

theorem advance_life {a : AcceptAct} (hs : Life cfg s) (h : s.advance cfg s.pc a = some t) : Life cfg t := by
  have hframe := advance_frame h
  have hover := advance_over h
  have heffect := advance_effect h
  refine ⟨(effect_built hs.built hover heffect).1,effect_watched hs.built hover hs.watched heffect,?_⟩
  rw [hframe.running, hframe.callers]
  refine hs.phase.imp ?_ ?_
  · rintro ⟨hrun,hall,hphase⟩
    exact ⟨hrun,hall,advance_phase hs.built hphase h⟩
  · rintro ⟨hrun,w,hw,hothers,hphase⟩
    exact ⟨hrun,w,hw,hothers,advance_phase hs.built hphase h⟩

theorem Phase.exited {c : Caller} (hp : Phase s c) (hrank : 6 ≤ c.rank) : s.pc ≠ .waiting := by
  rw [hp.joined hrank]
  decide

theorem started_life (cfg : Config) : Life cfg (started cfg : State T) := by
  unfold started
  cases hmulti : cfg.multi with
  | true =>
    refine ⟨⟨fun h => (by cases h),fun _ _ => ?_⟩,trivial,Or.inl ⟨rfl,fun _ => rfl,?_⟩⟩
    · simp [Config.reactors, hmulti]
    · exact ⟨rfl,rfl,rfl,rfl,fun h => absurd h (by decide),fun h => absurd h (by decide),fun h => (by cases h)⟩
  | false =>
    refine ⟨⟨fun _ => ⟨hmulti,rfl⟩,fun h => absurd rfl h⟩,trivial,Or.inl ⟨rfl,fun _ => rfl,?_⟩⟩
    exact ⟨rfl,rfl,rfl,rfl,fun h => absurd h (by decide),fun h => absurd h (by decide),fun h => (by cases h)⟩

variable [DecidableEq T]

theorem callerAt_self (w : T) (c : Caller) : (s.callerAt w c).callers w = c := Function.update_self _ _ _

theorem callerAt_others {w x : T} {c : Caller} (hx : x ≠ w) : (s.callerAt w c).callers x = s.callers x :=
  Function.update_of_ne hx _ _

theorem Life.next {w : T} {c : Caller} (hs : Life cfg s) (hrun : t.running = false) (hcallers : t.callers = s.callers)
    (hpc : t.pc = s.pc) (hothers : ∀ x, x ≠ w → s.callers x = .outside ∨ s.callers x = .returned) (hc : c ≠ .outside)
    (hphase : Phase t c) (hbuilt : Built cfg t) : Life cfg (t.callerAt w c) := by
  refine ⟨⟨hbuilt.building,hbuilt.reactors⟩,hpc ▸ hs.watched,
    Or.inr ⟨hrun,w,?_,fun x hx => ?_,?_⟩⟩
  · rwa [callerAt_self]
  · rw [callerAt_others hx, hcallers]
    exact hothers x hx
  · rw [callerAt_self]
    exact ⟨hphase.stop,hphase.serverFd,hphase.listening,hphase.eventFd,hphase.woken,hphase.joined,hphase.crashed⟩

theorem Life.winner {w : T} (hs : Life cfg s) (houtside : s.callers w ≠ .outside) (hreturned : s.callers w ≠ .returned) :
    s.running = false ∧ (∀ x, x ≠ w → s.callers x = .outside ∨ s.callers x = .returned) ∧ Phase s (s.callers w) := by
  rcases hs.phase with ⟨-,hall,-⟩ | ⟨hrun,v,-,hothers,hphase⟩
  · exact absurd (hall w) houtside
  · by_cases hw : w = v
    · subst hw
      exact ⟨hrun,hothers,hphase⟩
    · rcases hothers w hw with h | h
      · exact absurd h houtside
      · exact absurd h hreturned

theorem outside_life {w : T} (hs : Life cfg s) (hw : s.callers w = .outside) :
    Life cfg (if s.running then { s with running := false }.callerAt w .requesting else s.callerAt w .returned) := by
  rcases hs.phase with ⟨hrun,hall,hphase⟩ | ⟨hrun,v,hv,hothers,hphase⟩
  · rw [if_pos hrun]
    have hone : Phase { s with running := false } .requesting :=
      ⟨hphase.stop,hphase.serverFd,hphase.listening,hphase.eventFd,fun h => absurd h (by decide),
        fun h => absurd h (by decide),fun h => absurd (hphase.crashed h) (by decide)⟩
    exact hs.next rfl rfl rfl (fun x _ => Or.inl (hall x)) (by decide) hone ⟨hs.built.building,hs.built.reactors⟩
  · rw [if_neg (by simp [hrun])]
    have hne : v ≠ w := by
      rintro rfl
      exact hv hw
    have hsame : (s.callerAt w .returned).callers v = s.callers v := callerAt_others hne
    refine ⟨⟨hs.built.building,hs.built.reactors⟩,hs.watched,
      Or.inr ⟨hrun,v,hsame ▸ hv,fun x hx => ?_,hsame ▸ ?_⟩⟩
    · by_cases hxw : x = w
      · rw [hxw]
        exact Or.inr (callerAt_self w .returned)
      · rw [callerAt_others hxw]
        exact hothers x hx
    · exact ⟨hphase.stop,hphase.serverFd,hphase.listening,hphase.eventFd,hphase.woken,hphase.joined,hphase.crashed⟩

theorem caller_life {w : T} (hs : Life cfg s) (hcrashed : s.pc ≠ .crashed) (h : s.advanceCaller w = some t) :
    Life cfg t := by
  unfold State.advanceCaller at h
  by_cases houtside : s.callers w = .outside
  · rw [houtside] at h
    cases h
    exact outside_life hs houtside
  by_cases hreturned : s.callers w = .returned
  · rw [hreturned] at h
    cases h
  obtain ⟨hrun,hothers,hphase⟩ := hs.winner houtside hreturned
  have hnocrash : ∀ {c : Caller}, s.pc = .crashed → 3 ≤ c.rank := fun h => absurd h hcrashed
  cases hc : s.callers w with
  | outside => exact absurd hc houtside
  | returned => exact absurd hc hreturned
  | requesting =>
    rw [hc] at h hphase
    cases h
    exact hs.next hrun rfl rfl hothers (by decide) ⟨rfl,hphase.serverFd,hphase.listening,hphase.eventFd,
      fun h => absurd h (by decide),fun h => absurd h (by decide),hnocrash⟩ ⟨hs.built.building,hs.built.reactors⟩
  | resetting =>
    rw [hc] at h hphase
    cases h
    exact hs.next hrun rfl rfl hothers (by decide) ⟨hphase.stop,rfl,hphase.listening,hphase.eventFd,
      fun h => absurd h (by decide),fun h => absurd h (by decide),hnocrash⟩ ⟨hs.built.building,hs.built.reactors⟩
  | deleting =>
    rw [hc] at h hphase
    cases h
    exact hs.next hrun rfl rfl hothers (by decide) ⟨hphase.stop,hphase.serverFd,rfl,hphase.eventFd,
      fun h => absurd h (by decide),fun h => absurd h (by decide),hnocrash⟩ ⟨hs.built.building,hs.built.reactors⟩
  | waking =>
    rw [hc] at h hphase
    cases h
    exact hs.next hrun rfl rfl hothers (by decide) ⟨hphase.stop,hphase.serverFd,hphase.listening,hphase.eventFd,
      fun _ _ => Nat.succ_pos _,fun h => absurd h (by decide),hnocrash⟩ ⟨hs.built.building,hs.built.reactors⟩
  | joining =>
    rw [hc] at h hphase
    dsimp only at h
    split_ifs at h with hexited
    cases h
    exact hs.next hrun rfl rfl hothers (by decide) ⟨hphase.stop,hphase.serverFd,hphase.listening,hphase.eventFd,
      fun _ hwaits => absurd (hexited.symm.trans hwaits) (by decide),fun _ => hexited,hnocrash⟩ hs.built
  | stopping =>
    rw [hc] at h hphase
    cases h
    exact hs.next hrun rfl rfl hothers (by decide) ⟨hphase.stop,hphase.serverFd,hphase.listening,hphase.eventFd,
      fun _ hwaits => absurd hwaits (hphase.exited le_rfl),fun _ => hphase.joined le_rfl,hnocrash⟩ hs.built
  | clearing =>
    rw [hc] at h hphase
    have hexited : s.pc = .exited := hphase.joined (by decide)
    cases h
    refine hs.next hrun rfl rfl hothers (by decide) ⟨hphase.stop,hphase.serverFd,hphase.listening,hphase.eventFd,
      fun _ hwaits => absurd hwaits (hphase.exited (by decide)),fun _ => hexited,hnocrash⟩ ⟨?_,?_⟩
    · intro hbuilding
      cases hexited.symm.trans hbuilding
    · intro _ hover
      rw [show State.pc _ = .exited from hexited] at hover
      cases hover
  | closing =>
    rw [hc] at h hphase
    cases h
    exact hs.next hrun rfl rfl hothers (by decide) ⟨hphase.stop,hphase.serverFd,hphase.listening,rfl,
      fun _ hwaits => absurd hwaits (hphase.exited (by decide)),fun _ => hphase.joined (by decide),hnocrash⟩
      ⟨hs.built.building,hs.built.reactors⟩

theorem step_life {a : Act T} (hs : Life cfg s) (h : step cfg s a = some t) : Life cfg t := by
  have hsame : ∀ {u : State T}, u.pc = s.pc → u.subReactors = s.subReactors → u.running = s.running →
      u.callers = s.callers → (∀ c, Phase s c → Phase u c) → Life cfg u := by
    intro u hpc hreactors hrun hcallers hphase
    refine ⟨⟨?_,?_⟩,hpc ▸ hs.watched,?_⟩
    · rw [hpc, hreactors]
      exact hs.built.building
    · rw [hpc, hreactors]
      exact hs.built.reactors
    · rw [hrun, hcallers]
      refine hs.phase.imp (fun ⟨h,hall,hp⟩ => ⟨h,hall,hphase _ hp⟩) ?_
      rintro ⟨h,w,hw,hothers,hp⟩
      exact ⟨h,w,hw,hothers,hphase _ hp⟩
  have hkeep : ∀ {u : State T} {c : Caller}, u.pc = s.pc → u.stopRequested = s.stopRequested →
      u.serverFd = s.serverFd → u.listening = s.listening → u.eventFd = s.eventFd → u.eventCounter = s.eventCounter →
      Phase s c → Phase u c := by
    intro u c hpc hstop hfd hlistening hevent hcounter hp
    refine ⟨hstop.trans hp.stop,hfd.trans hp.serverFd,hlistening.trans hp.listening,hevent.trans hp.eventFd,?_,?_,?_⟩
    · rw [hpc, hcounter]
      exact hp.woken
    · rw [hpc]
      exact hp.joined
    · rw [hpc]
      exact hp.crashed
  cases a with
  | acceptor a => exact advance_life hs h
  | caller w =>
    simp only [step] at h
    split_ifs at h with hcrashed
    exact caller_life hs hcrashed h
  | connect =>
    simp only [step] at h
    split_ifs at h
    cases h
    exact hsame rfl rfl rfl rfl (fun _ => hkeep rfl rfl rfl rfl rfl rfl)
  | setActive n =>
    cases h
    exact hsame rfl rfl rfl rfl (fun _ => hkeep rfl rfl rfl rfl rfl rfl)

theorem run_life {as : List (Act T)} (h : exec (step cfg) (started cfg) as = some s) : Life cfg s :=
  exec_of_steps (fun _ _ _ hs hstep => step_life hs hstep) (started_life cfg) h

end Life

/-- A server with one reactor and room for one connection. -/
def one : Config := { numReactors := 1, maxConnections := 1, metrics := true }

/-- One client comes, and behind it the accept thread waits in `accept4` for the next one. -/
def served : List (Act (Fin 2)) :=
  [List.replicate 5 (.acceptor .go),[.connect,.acceptor (.ready [.server])],List.replicate 10 (.acceptor .go)].flatten

def called (w : Fin 2) (n : ℕ) : List (Act (Fin 2)) := List.replicate n (.caller w)

section Shutdown
variable {T : Type*} [DecidableEq T] {cfg : Config} {as bs : List (Act T)} {s t : State T}

/-- A thread in the middle of `shutdown`. -/
def Caller.Inside (c : Caller) : Prop := c ≠ .outside ∧ c ≠ .returned

instance : DecidablePred Caller.Inside := fun _ => inferInstanceAs (Decidable (_ ∧ _))

/-- In every run, whoever calls `shutdown`: at most one call does something, and it stops and destroys the reactors
behind the end of the accept thread only. So the thread finds the reactors it hands connections to. -/
theorem shutdown_orderly (h : exec (step cfg) (started cfg) as = some s) :
    (∀ v w, (s.callers v).Inside → (s.callers w).Inside → v = w) ∧
    (∀ w, (s.callers w).Inside → 6 ≤ (s.callers w).rank → s.pc = .exited) ∧
    (s.pc.over = false → s.pc ≠ .building → s.subReactors = cfg.reactors) := by
  have hs := run_life h
  refine ⟨fun v w hv hw => ?_,fun w hw hrank => ?_,fun hover hbuilding => hs.built.reactors hbuilding hover⟩
  · by_contra hne
    obtain ⟨-,hothers,-⟩ := hs.winner hw.1 hw.2
    exact (hothers v hne).elim hv.1 hv.2
  · exact (hs.winner hw.1 hw.2).2.2.joined hrank

/-- Two threads call `shutdown`. -/
theorem shutdown_orderly_two : ∃ s, exec (step one) (started one)
      ([served,called 0 2,called 1 1,called 0 3,List.replicate 3 (.acceptor .go),called 0 1].flatten) = some s ∧
    s.callers 0 = .stopping ∧ s.callers 1 = .returned ∧ s.pc = .exited := by
  have hrun : (exec (step one) (started one)
      ([served,called 0 2,called 1 1,called 0 3,List.replicate 3 (.acceptor .go),called 0 1].flatten)).map
      (fun s => (s.callers 0,s.callers 1)) = some (.stopping,.returned) := by
    decide
  obtain ⟨s,hs,hcallers⟩ := Option.map_eq_some_iff.mp hrun
  obtain ⟨hfirst,hsecond⟩ := Prod.mk.inj hcallers
  exact ⟨s,hs,hfirst,hsecond,(shutdown_orderly hs).2.1 0 (by rw [hfirst]; decide) (by rw [hfirst]; decide)⟩

theorem caller_pc {w : T} (h : s.advanceCaller w = some t) :
    t.pc = s.pc ∧ (s.goes = false → t.goes = false) := by
  unfold State.advanceCaller at h
  split at h <;> (try split_ifs at h) <;> cases h
  all_goals first
    | exact ⟨rfl,id⟩
    | exact ⟨rfl,fun _ => Bool.and_false _⟩
    | exact ⟨rfl,fun _ => rfl⟩

theorem step_goes {a : Act T} (hgoes : s.goes = false) (h : step cfg s a = some t) : t.goes = false := by
  cases a with
  | acceptor a => exact (advance_frame h).goes.trans hgoes
  | caller w =>
    simp only [step] at h
    split_ifs at h
    exact (caller_pc h).2 hgoes
  | connect =>
    simp only [step] at h
    split_ifs at h
    cases h
    exact hgoes
  | setActive n =>
    cases h
    exact hgoes

theorem step_pc {a : Act T} (ha : ∀ b, a ≠ .acceptor b) (h : step cfg s a = some t) : t.pc = s.pc := by
  cases a with
  | acceptor b => exact absurd rfl (ha b)
  | caller w =>
    simp only [step] at h
    split_ifs at h
    exact (caller_pc h).1
  | connect =>
    simp only [step] at h
    split_ifs at h
    cases h
    rfl
  | setActive n =>
    cases h
    rfl

def Act.ofAcceptor : Act T → Bool
  | .acceptor _ => true
  | _ => false

theorem watched_steps {pc : Pc} (h : pc.Watched) : pc.steps ≤ 11 := by
  have hlen : ∀ {left : List Event}, (Event.server :: left).Nodup → left.length ≤ 1 :=
    fun hnodup => Nat.le_of_succ_le_succ (nodup_events hnodup)
  cases pc with
  | events left =>
    have hle := nodup_events h
    simp only [Pc.steps]
    omega
  | accepting n left | calling n left | accept4 n left | checking n left | counting n left | adding n left
  | added n left =>
    have hle := hlen h
    simp only [Pc.steps]
    omega
  | _ => decide

theorem acceptor_steps (hs : Life cfg s) (hgoes : s.goes = false) (h : exec (step cfg) s bs = some t) :
    bs.countP Act.ofAcceptor + t.pc.steps ≤ s.pc.steps := by
  induction bs generalizing s with
  | nil =>
    cases h
    simp
  | cons a bs ih =>
    obtain ⟨u,hu,h⟩ := exec_cons_eq_some.mp h
    have hrest := ih (step_life hs hu) (step_goes hgoes hu) h
    cases a with
    | acceptor a =>
      have hless := effect_steps hs.built (advance_over hu) hgoes (advance_effect hu)
      rw [List.countP_cons_of_pos rfl]
      omega
    | caller w | connect | setActive n =>
      rw [List.countP_cons_of_neg (by simp [Act.ofAcceptor]), ← step_pc (by simp) hu]
      exact hrest

/-- While `shutdown` waits for it, the accept thread can go on by itself. -/
theorem joining_enabled {w : T} (hs : Life cfg s) (hw : s.callers w = .joining) (hover : s.pc.over = false) :
    (∃ u, step cfg s (.acceptor .go) = some u) ∨ ∃ u, step cfg s (.acceptor (.ready [.wakeup])) = some u := by
  obtain ⟨-,-,hphase⟩ := hs.winner (by rw [hw]; decide) (by rw [hw]; decide)
  rw [hw] at hphase
  have hlistening : s.listening = false := hphase.listening
  cases hpc : s.pc with
  | waiting =>
    have hready : s.Ready .wakeup := ⟨hphase.eventFd,hphase.woken le_rfl hpc⟩
    right
    simp [step, State.advance, hpc, hready]
  | accept4 n left =>
    left
    simp [step, State.advance, hpc, hlistening]
  | events left =>
    left
    rcases left with _ | ⟨e,left⟩
    · simp [step, State.advance, hpc]
    · cases e <;> simp [step, State.advance, hpc]
  | exited | crashed =>
    rw [hpc] at hover
    cases hover
  | _ =>
    left
    simp [step, State.advance, hpc]

/-- Once `shutdown` has begun, the accept thread makes at most eleven steps, whatever the clients and the other threads
do, and while `shutdown` waits in its join the thread is neither stuck in `epoll_wait` nor in `accept4`. So the join
ends, unless the process does. -/
theorem accept_thread_ends (h : exec (step cfg) (started cfg) as = some s) (hrun : s.running = false)
    (hlater : exec (step cfg) s bs = some t) :
    bs.countP Act.ofAcceptor ≤ 11 ∧
    ∀ w, t.callers w = .joining → t.pc.over = false →
      (∃ u, step cfg t (.acceptor .go) = some u) ∨ ∃ u, step cfg t (.acceptor (.ready [.wakeup])) = some u := by
  have hs := run_life h
  have hgoes : s.goes = false := by simp [State.goes, hrun]
  have hsteps := acceptor_steps hs hgoes hlater
  have hbound := watched_steps hs.watched
  refine ⟨by omega,fun w hw hover => ?_⟩
  exact joining_enabled (exec_of_steps (fun _ _ _ hs hstep => step_life hs hstep) hs hlater) hw hover

/-- The thread is in `accept4` when the server is shut down, and what is left to it is to leave its loops. -/
theorem accept_thread_ends_one : ∃ s t, exec (step one) (started one) ([served,called 0 1].flatten) = some s ∧
    exec (step one) s (called 0 4) = some t ∧ t.callers 0 = .joining ∧ t.pc = .accept4 1 [] ∧
    ((∃ u, step one t (.acceptor .go) = some u) ∨ ∃ u, step one t (.acceptor (.ready [.wakeup])) = some u) := by
  have hrun : (exec (step one) (started one) ([served,called 0 1].flatten)).bind (fun s =>
      (exec (step one) s (called 0 4)).map (fun t => (s.running,t.callers 0,t.pc))) =
        some (false,.joining,.accept4 1 []) := by
    decide
  obtain ⟨s,hs,hrest⟩ := Option.bind_eq_some_iff.mp hrun
  obtain ⟨t,ht,hresult⟩ := Option.map_eq_some_iff.mp hrest
  obtain ⟨hrunning,hcaller,hpc⟩ : s.running = false ∧ t.callers 0 = .joining ∧ t.pc = .accept4 1 [] := by
    simpa using hresult
  exact ⟨s,t,hs,ht,hcaller,hpc,(accept_thread_ends hs hrunning ht).2 0 hcaller (by rw [hpc]; decide)⟩

/-- Some run ends the process. -/
def Crashes (cfg : Config) (s : State T) : Prop := ∃ bs t, exec (step cfg) s bs = some t ∧ t.pc = .crashed

theorem Crashes.of_step {a : Act T} (ht : Crashes cfg t) (h : step cfg s a = some t) : Crashes cfg s := by
  obtain ⟨bs,u,hu,hcrashed⟩ := ht
  exact ⟨a :: bs,u,exec_cons_eq_some.mpr ⟨t,h,hu⟩,hcrashed⟩

theorem crashes_of_deref {pc : Pc} (hnull : s.serverFd = false) (h : step cfg s (.acceptor .go) = some (s.deref pc)) :
    Crashes cfg s := by
  refine Crashes.of_step ⟨[],_,rfl,?_⟩ h
  simp [State.deref, State.goto, hnull]

theorem events_crash {left : List Event} (hnull : s.serverFd = false) (hmem : .server ∈ left)
    (hpc : s.pc = .events left) : Crashes cfg s := by
  induction left generalizing s with
  | nil => cases hmem
  | cons e left ih =>
    cases e with
    | server =>
      have hstep : step cfg s (.acceptor .go) = some (s.deref (.accepting 0 left)) := by simp only [step, State.advance, hpc]
      exact crashes_of_deref hnull hstep
    | wakeup =>
      have hrest : .server ∈ left := by simpa using hmem
      have hdrained : Crashes cfg ({ s with eventCounter := 0 }.goto (.events left)) := ih hnull hrest rfl
      exact hdrained.of_step (a := .acceptor .go) (by simp only [step, State.advance, hpc])

/-- With the null pointer and an open socket, a thread that is not safe can come to `server_fd_->get()`. -/
theorem exposed_crashes (hnull : s.serverFd = false) (hopen : s.listening = true) (hexposed : ¬ s.pc.Safe) :
    Crashes cfg s := by
  have hregistering : ∀ {u : State T}, u.serverFd = false → u.pc = .registering → Crashes cfg u := by
    intro u hnull hpc
    have hstep : step cfg u (.acceptor .go) = some (u.deref .registeringEvent) := by simp only [step, State.advance, hpc]
    exact crashes_of_deref hnull hstep
  have hcreating : ∀ {u : State T}, u.serverFd = false → u.pc = .creating → Crashes cfg u := by
    intro u hnull hpc
    have hstep : step cfg u (.acceptor .go) = some (u.goto .registering) := by simp only [step, State.advance, hpc]
    exact Crashes.of_step (t := u.goto .registering) (hregistering hnull rfl) hstep
  cases hpc : s.pc with
  | building =>
    exact Crashes.of_step (t := { s with subReactors := s.subReactors + 1 }.goto .creating) (a := .acceptor .go)
      (hcreating hnull rfl) (by simp only [step, State.advance, hpc])
  | creating => exact hcreating hnull hpc
  | registering => exact hregistering hnull hpc
  | calling n left =>
    have hstep : step cfg s (.acceptor .go) = some (s.deref (.accept4 n left)) := by simp only [step, State.advance, hpc]
    exact crashes_of_deref hnull hstep
  | events left => exact events_crash hnull (by simpa [hpc] using hexposed) hpc
  | waiting =>
    -- a client comes, and the thread is told of it
    have hready : { s with backlog := s.backlog + 1 }.Ready .server := ⟨hopen,Nat.succ_pos _⟩
    have hevents : Crashes cfg ({ s with backlog := s.backlog + 1 }.goto (.events [.server])) :=
      events_crash hnull List.mem_cons_self rfl
    have hwoken : Crashes cfg { s with backlog := s.backlog + 1 } :=
      hevents.of_step (a := .acceptor (.ready [.server])) (by simpa [step, State.advance, hpc] using hready)
    exact hwoken.of_step (a := .connect) (by simp only [step, hopen, if_true])
  | crashed => exact ⟨[],s,rfl,hpc⟩
  | _ =>
    rw [hpc] at hexposed
    exact absurd trivial hexposed

/-- The call of `shutdown` that makes `server_fd_` null has not ended the process so far, and it leads to the null
pointer being used exactly if the accept thread is on the way to it, or in `epoll_wait`, where it may be told of a
client until the deleter has shut the socket down. -/
theorem null_server_fd_iff {w : T} (h : exec (step cfg) (started cfg) as = some s) (hw : s.callers w = .resetting)
    (hreset : step cfg s (.caller w) = some t) : s.pc ≠ .crashed ∧
    ((∀ bs u, exec (step cfg) t bs = some u → u.pc ≠ .crashed) ↔ s.pc.Safe) := by
  have hs := run_life h
  obtain ⟨hrun,-,hphase⟩ := hs.winner (by rw [hw]; decide) (by rw [hw]; decide)
  rw [hw] at hphase
  have halive : s.pc ≠ .crashed := fun hcrashed => absurd (hphase.crashed hcrashed) (by decide)
  obtain rfl : { s with serverFd := false }.callerAt w .deleting = t := by
    simpa [step, halive, State.advanceCaller, hw] using hreset
  refine ⟨halive,fun hnever => ?_,fun hsafe bs u hu hcrashed => ?_⟩
  · by_contra hexposed
    have hcrashes : Crashes cfg ({ s with serverFd := false }.callerAt w .deleting) :=
      exposed_crashes rfl hphase.listening hexposed
    obtain ⟨bs,u,hu,hcrashed⟩ := hcrashes
    exact hnever bs u hu hcrashed
  · have hgoes : ({ s with serverFd := false }.callerAt w .deleting).goes = false := by
      change (!s.stopRequested && s.running) = false
      rw [hrun, Bool.and_false]
    have hend : Life cfg u ∧ u.goes = false ∧ u.pc.Safe := by
      refine exec_of_steps (I := fun v => Life cfg v ∧ v.goes = false ∧ v.pc.Safe) ?_ ⟨step_life hs hreset,hgoes,hsafe⟩ hu
      rintro v a v' ⟨hlife,hgoes,hsafe⟩ hstep
      refine ⟨step_life hlife hstep,step_goes hgoes hstep,?_⟩
      cases a with
      | acceptor a =>
        exact effect_safe hlife.built (advance_over hstep) hgoes hlife.watched hsafe (advance_effect hstep)
      | caller x | connect | setActive n =>
        rw [step_pc (by simp) hstep]
        exact hsafe
    rw [hcrashed] at hend
    exact hend.2.2

/-- The thread is safe in `accept4`. -/
theorem null_server_fd_accept4 : ∃ s t, exec (step one) (started one) ([served,called 0 2].flatten) = some s ∧
    step one s (.caller 0) = some t ∧ s.pc = .accept4 1 [] ∧
    ∀ bs u, exec (step one) t bs = some u → u.pc ≠ .crashed := by
  have hrun : (exec (step one) (started one) ([served,called 0 2].flatten)).map (fun s => (s.callers 0,s.pc)) =
      some (.resetting,.accept4 1 []) := by
    decide
  obtain ⟨s,hs,hresult⟩ := Option.map_eq_some_iff.mp hrun
  obtain ⟨hcaller,hpc⟩ := Prod.mk.inj hresult
  have hreset : step one s (.caller 0) = some ({ s with serverFd := false }.callerAt 0 .deleting) := by
    simp [step, State.advanceCaller, hpc, hcaller]
  exact ⟨s,_,hs,hreset,hpc,(null_server_fd_iff hs hcaller hreset).2.mpr (by rw [hpc]; decide)⟩

end Shutdown
end ModernTcp.AcceptLoop
