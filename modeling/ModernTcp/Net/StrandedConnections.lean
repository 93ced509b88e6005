import ModernTcp.Net.ReactorInvariant

/-! # Dead connections in the map of a reactor

A reactor takes a connection out of `connections_` in the round in which it dies. A worker
that closes one tells nobody: the entry stays, and a later connection with the same number
is dropped by its add functor.
-/
namespace ModernTcp.Server
open Execution Descriptors

section Invariant
variable {R : ℕ}

def ThreadOk (m : Shared R) : Thread R → Control R → Prop
  | .acceptor, .acceptor p => AcceptorOk m p
  | .reactor r, .reactor l => ReactorOk m r l
  | .outside, .outside => True
  | _, _ => False

theorem ThreadOk.keeps {who : Thread R} {m m' : Shared R} (hk : Keeps who m m') {x : Thread R} {c : Control R}
    (h : ThreadOk m x c) (hne : x ≠ who) : ThreadOk m' x c := by
  cases x <;> cases c <;> first | exact AcceptorOk.keeps hk h hne | exact ReactorOk.keeps hk h hne | exact h

/-- Where a worker closes a live connection, its reactor will still look at the number in this
round; and no number is reused in the middle of a teardown. -/
def Harmless (s : State R) (a : Thread R × Act R) : Prop :=
  (∀ id linger, a.2 = .worker id linger → s.shared.running id = true →
    ∀ r l, s.pc (.reactor r) = .reactor l → ∀ e ∈ l.connections, e.2 = id → e.1 ∈ l.pc.visits) ∧
  ∀ fd fate, a.2 = .accept fd fate → ¬ ReusesPending s.shared.desc (.accept fd fate)

def Control.LooksAt (id : ℕ) : Control R → Prop
  | .reactor l => ∀ e ∈ l.connections, e.2 = id → e.1 ∈ l.pc.visits
  | .acceptor _ | .outside => True

instance (id : ℕ) : DecidablePred (Control.LooksAt (R := R) id)
  | .reactor l => inferInstanceAs (Decidable (∀ e ∈ l.connections, e.2 = id → e.1 ∈ l.pc.visits))
  | .acceptor _ | .outside => isTrue trivial

theorem looksAt_iff {id : ℕ} {c : Control R} :
    c.LooksAt id ↔ ∀ l, c = .reactor l → ∀ e ∈ l.connections, e.2 = id → e.1 ∈ l.pc.visits := by
  cases c <;> simp [Control.LooksAt]

instance (s : State R) (a : Thread R × Act R) : Decidable (Harmless s a) :=
  match a with
  | (_,.worker id linger) =>
    decidable_of_iff (s.shared.running id = true → ∀ r, (s.pc (.reactor r)).LooksAt id) (by
      simp only [looksAt_iff]
      constructor
      · intro h
        refine ⟨?_,by simp⟩
        rintro _ _ ⟨⟩ hrun r
        exact h hrun r
      · exact fun h hrun r => h.1 id linger rfl hrun r)
  | (_,.accept fd fate) =>
    decidable_of_iff (¬ ReusesPending s.shared.desc (.accept fd fate)) (by
      constructor
      · intro h
        refine ⟨by simp,?_⟩
        rintro _ _ ⟨⟩
        exact h
      · exact fun h => h.2 fd fate rfl)
  | (_,.harvest _) | (_,.go) | (_,.expire _) | (_,.handle _ _) | (_,.linger _) | (_,.post _ _) | (_,.syscall _)
  | (_,.release _ _) => isTrue ⟨by simp,by simp⟩

/-- A worker closes a connection that no other thread knows, or that its reactor will look at. -/
theorem ThreadOk.worker {m : Shared R} {id : ℕ} (linger : Bool) {x : Thread R} {c : Control R} (h : ThreadOk m x c)
    (hvisits : ∀ l, c = .reactor l → ∀ e ∈ l.connections, e.2 = id → m.running id = true → e.1 ∈ l.pc.visits) :
    ThreadOk (m.shutdown id linger) x c := by
  obtain ⟨hcount,hfd,hrun⟩ := shutdown_frame m id linger
  match x, c, h with
  | .outside, .outside, _ => trivial
  | .acceptor, .acceptor p, h =>
    cases p with
    | idle | pushed _ => trivial
    | accepted _ _ | adding _ => exact ⟨lt_of_lt_of_le h.1 hcount,by rw [shutdown_stage]; exact h.2⟩
  | .reactor r, .reactor l, h =>
    have h : ReactorOk m r l := h
    refine ⟨fun e he => (h.entries e he).shutdown id linger,h.keys,?_,h.busy,?_,?_,?_,?_⟩
    · intro e he
      by_cases hid : e.2 = id
      · refine (h.alive e he).elim (fun hal => ?_) Or.inr
        rw [hid] at hal
        exact Or.inr (hvisits l rfl e he hid hal)
      · rw [hrun e.2 (h.entries e he).1 hid]
        exact h.alive e he
    · intro i hi
      obtain ⟨hlt,hrel⟩ := h.leaving i hi
      exact ⟨lt_of_lt_of_le hlt hcount,by rw [shutdown_stage]; exact hrel⟩
    · intro fd i hmem
      rw [shutdown_queue] at hmem
      exact (h.queued fd i hmem).shutdown id linger
    · rw [shutdown_queue]
      exact h.distinct
    · intro j hj
      exact (h.interest j hj).shutdown id linger

structure Consistent (s : State R) : Prop where
  shared : SharedOk s.shared
  threads : ∀ x, ThreadOk s.shared x (s.pc x)

theorem consistent_initial : Consistent (initial R) := by
  have hzero : ∀ {p : ℕ → Prop}, ∀ i < (initial R).shared.desc.count, p i := fun i hi => absurd hi (Nat.not_lt_zero i)
  refine ⟨⟨⟨hzero,hzero,rfl⟩,hzero⟩,?_⟩
  intro x
  cases x with
  | acceptor => trivial
  | outside => trivial
  | reactor r =>
    refine ⟨?_,?_,?_,?_,?_,?_,?_,?_⟩ <;> simp [initial, Pc.busy, Pc.leaving, Pc.functorList, adds]

theorem Consistent.outside {s : State R} (hs : Consistent s) {a : Act R} (hgood : Harmless s (.outside,a))
    {m' : Shared R} (hm : advanceOutside s.shared a = some m') : ∀ y ≠ .outside, ThreadOk m' y (s.pc y) := by
  intro y hy
  by_cases hw : ∃ id linger, a = .worker id linger
  · obtain ⟨id,linger,rfl⟩ := hw
    cases hm
    refine (hs.threads y).worker linger ?_
    intro l hl e he hid hrun
    cases y with
    | reactor r => exact hgood.1 id linger rfl hrun r l hl e he hid
    | acceptor =>
      have hacc := hs.threads .acceptor
      rw [hl] at hacc
      exact hacc.elim
    | outside => exact absurd rfl hy
  · have hkeeps := outside_step (fun id linger he => hw ⟨id,linger,he⟩) hm
    exact (hs.threads y).keeps hkeeps hy

theorem step_consistent {M : ℕ} {s t : State R} {a : Thread R × Act R} (hs : Consistent s) (hgood : Harmless s a)
    (h : step M s a = some t) : Consistent t := by
  obtain ⟨x,a⟩ := a
  -- the stepping thread keeps what it relies on itself and what the others rely on
  have hupdate : ∀ {m' : Shared R} {c' : Control R}, SharedOk m' → ThreadOk m' x c' →
      (∀ y ≠ x, ThreadOk m' y (s.pc y)) → Consistent { shared := m', pc := Function.update s.pc x c' } := by
    intro m' c' hm' hown hother
    exact ⟨hm',(Function.forall_update_iff s.pc (fun y c => ThreadOk m' y c)).mpr ⟨hown,hother⟩⟩
  obtain ⟨p,m',p',rfl,hc,hp,rfl⟩ | ⟨r,l,m',l',rfl,hc,hl,rfl⟩ | ⟨m',rfl,hm,rfl⟩ := step_by_thread h
  · have hok := hs.threads .acceptor
    rw [hc] at hok
    obtain ⟨hkeeps,hown⟩ := acceptor_step hok hp
    exact hupdate (hs.shared.acceptor (fun fd fate he => hgood.2 fd fate he) hp) hown
      (fun y hy => (hs.threads y).keeps hkeeps hy)
  · have hok := hs.threads (.reactor r)
    rw [hc] at hok
    have hstep := reactorStep_of_advance hl
    obtain ⟨hkeeps,hown⟩ := reactor_step hs.shared hok hstep
    exact hupdate (hs.shared.reactor hstep) hown (fun y hy => (hs.threads y).keeps hkeeps hy)
  · exact hupdate (hs.shared.outside hm) trivial (hs.outside hgood hm)

/-- The reactor is about to wait, and neither its eventfd nor its functors have anything for it. -/
def Quiet (s : State R) (r : Fin R) (l : Reactor) : Prop :=
  s.pc (.reactor r) = .reactor l ∧ l.pc = .waiting ∧ s.shared.wake r = 0 ∧ s.shared.queue r = []

theorem Consistent.reactor {s : State R} (hs : Consistent s) {r : Fin R} {l : Reactor}
    (hl : s.pc (.reactor r) = .reactor l) : ReactorOk s.shared r l := by
  have hok := hs.threads (.reactor r)
  rw [hl] at hok
  exact hok

theorem Consistent.add_registers {s : State R} (hs : Consistent s) {r : Fin R} {l : Reactor}
    (hl : s.pc (.reactor r) = .reactor l) {fd id : ℕ} {fs : List Functor}
    (hpc : l.pc = .functors (.add fd id :: fs)) (hrun : s.shared.running id = true) (linger : Bool) :
    l.find fd = none ∧ (fd,id) ∈ (l.runAdd r s.shared fd id linger fs).2.connections := by
  have h := hs.reactor hl
  have hk : Known s.shared fd id (.queued r) := h.queued fd id (by rw [hpc]; simp [Pc.functorList])
  have htab := add_table hs.shared hk hrun
  have hfree : l.find fd = none := by
    -- an entry with this number is alive as well, so it is this connection
    cases hfind : l.find fd with
    | none => rfl
    | some i =>
      have hmem := find_some hfind
      have hreg := h.entries _ hmem
      have halive : s.shared.running i = true := h.all_alive (by rw [hpc]; rfl) hmem
      have htab' := add_table hs.shared hreg halive
      rw [htab] at htab'
      cases htab'
      have hst := hreg.2.2
      rw [hk.2.2] at hst
      cases hst
  have hwatched : id ∉ l.interest := by
    intro hin
    obtain ⟨-,hrel | ⟨q,hreg⟩⟩ := h.interest id hin
    · rw [hk.2.2] at hrel
      cases hrel
    · rw [hk.2.2] at hreg
      cases hreg
  refine ⟨hfree,?_⟩
  simp [Reactor.runAdd, hrun, htab, hwatched, hfree]

theorem Consistent.stranded {M : ℕ} {s : State R} (hs : Consistent s) {r : Fin R} {l : Reactor}
    (hq : Quiet s r l) {e : ℕ × ℕ} (he : e ∈ l.connections) :
    ∃ t, step M s (.outside,.worker e.2 true) = some t ∧ Quiet t r l ∧ t.shared.running e.2 = false := by
  obtain ⟨hl,hpc,hwake,hqueue⟩ := hq
  have h := hs.reactor hl
  have hlt := (h.entries e he).1
  have hrun : s.shared.running e.2 = true := h.all_alive (by rw [hpc]; rfl) he
  have hsocket := hs.shared.running e.2 hlt hrun
  have hout : s.pc .outside = .outside := by
    have hok := hs.threads .outside
    cases hc : s.pc .outside with
    | outside => rfl
    | acceptor p =>
      rw [hc] at hok
      exact hok.elim
    | reactor l =>
      rw [hc] at hok
      exact hok.elim
  refine ⟨⟨s.shared.shutdown e.2 true,Function.update s.pc .outside .outside⟩,?_,⟨?_,hpc,?_,?_⟩,?_⟩
  · exact Threads.step_eq_some.mpr ⟨_,_,by rw [hout]; rfl,rfl⟩
  · simpa using hl
  · unfold Shared.shutdown
    split <;> exact hwake
  · rw [shutdown_queue]
    exact hqueue
  · simp [Shared.shutdown, Shared.running, Descriptors.step, hlt, hsocket, shutdown_running]

/-- In every run without a harmful step, a quiet reactor has only live connections, and the add
functor of a live connection finds its number free and registers it. The condition is
needed: the close by a worker strands any connection of a quiet reactor. -/
theorem dead_connections_not_stranded (M : ℕ) (as : List (Thread R × Act R))
    (hgood : Along (step M) Harmless (initial R) as) (s : State R) (hv : Visits (step M) (initial R) as s) :
    (∀ r l, Quiet s r l → ∀ e ∈ l.connections, s.shared.running e.2 = true) ∧
    (∀ r l fd id fs, s.pc (.reactor r) = .reactor l → l.pc = .functors (.add fd id :: fs) →
      s.shared.running id = true → l.find fd = none ∧ ∀ linger, ∃ t l',
        step M s (.reactor r,.linger linger) = some t ∧ t.pc (.reactor r) = .reactor l' ∧
          (fd,id) ∈ l'.connections) ∧
    ∀ r l, Quiet s r l → ∀ e ∈ l.connections, ∃ t, step M s (.outside,.worker e.2 true) = some t ∧
      Quiet t r l ∧ t.shared.running e.2 = false := by
  have hs : Consistent s :=
    visits_invariant (fun _ _ _ hs hg h => step_consistent hs hg h) consistent_initial hgood hv
  refine ⟨?_,?_,?_⟩
  · intro r l hq e he
    exact (hs.reactor hq.1).all_alive (by rw [hq.2.1]; rfl) he
  · intro r l fd id fs hl hpc hrun
    refine ⟨(hs.add_registers hl hpc hrun true).1,?_⟩
    intro linger
    let u := l.runAdd r s.shared fd id linger fs
    refine ⟨⟨u.1,Function.update s.pc (.reactor r) (.reactor u.2)⟩,u.2,?_,Function.update_self _ _ _,
      (hs.add_registers hl hpc hrun linger).2⟩
    exact Threads.step_eq_some.mpr ⟨_,_,by simp [advance, hl, advanceReactor, hpc, u, Prod.map],rfl⟩
  · intro r l hq e he
    exact hs.stranded hq he

end Invariant

def registeredRun : List (Thread 1 × Act 1) :=
  [(.acceptor,.accept 5 .connection),(.acceptor,.go),(.acceptor,.go),(.acceptor,.go),
   (.reactor 0,.harvest [.wake]),(.reactor 0,.go),(.reactor 0,.go),(.reactor 0,.linger true),(.reactor 0,.go),
   (.reactor 0,.go)]

/-- The connection 1 is registered too; then a worker closes the connection 0 while the reactor still has an event
of it in its batch. -/
def noticedRun : List (Thread 1 × Act 1) :=
  registeredRun ++
  [(.acceptor,.accept 6 .connection),(.acceptor,.go),(.acceptor,.go),(.acceptor,.go),
   (.reactor 0,.harvest [.wake]),(.reactor 0,.go),(.reactor 0,.go),(.reactor 0,.linger true),(.reactor 0,.go),
   (.reactor 0,.go),
   (.reactor 0,.harvest [.ready 5]),(.outside,.worker 0 true),(.reactor 0,.handle true true),(.reactor 0,.linger true),
   (.reactor 0,.go),(.reactor 0,.go)]

theorem dead_connections_not_stranded_registered :
    ∃ s l, exec (step 0) (initial 1) noticedRun = some s ∧ Quiet s 0 l ∧ l.connections = [(6,1)] ∧
      s.shared.running 0 = false ∧ ∀ e ∈ l.connections, s.shared.running e.2 = true := by
  have hgood : Along (step 0) Harmless (initial 1) noticedRun := by decide
  have hq : ∃ s, exec (step 0) (initial 1) noticedRun = some s ∧
      Quiet s 0 { connections := [(6,1)], interest := [1] } ∧ s.shared.running 0 = false :=
    ⟨_,rfl,⟨rfl,rfl,rfl,rfl⟩,rfl⟩
  obtain ⟨s,hs,hq,hdead⟩ := hq
  exact ⟨s,_,hs,hq,rfl,hdead,
    (dead_connections_not_stranded 0 noticedRun hgood s ⟨noticedRun,List.prefix_refl _,hs⟩).1 0 _ hq⟩

def strandedRun : List (Thread 1 × Act 1) :=
  registeredRun ++ [(.outside,.worker 0 true),(.outside,.syscall 0),(.outside,.syscall 0),(.outside,.syscall 0),
    (.outside,.syscall 0)]

/-- The next connection gets the number 5 again, and its functor runs. -/
def droppedRun : List (Thread 1 × Act 1) :=
  [(.acceptor,.accept 5 .connection),(.acceptor,.go),(.acceptor,.go),(.acceptor,.go),
   (.reactor 0,.harvest [.wake]),(.reactor 0,.go),(.reactor 0,.go),(.reactor 0,.linger true)]

/-- The dead connection 0 is an entry of the quiet reactor; connection 1, alive, is dropped. -/
theorem dead_connection_stranded :
    (∃ s l, exec (step 0) (initial 1) strandedRun = some s ∧ Quiet s 0 l ∧ (5,0) ∈ l.connections ∧
      s.shared.running 0 = false ∧ s.shared.desc.table 5 = none) ∧
    ∃ s l, exec (step 0) (initial 1) (strandedRun ++ droppedRun) = some s ∧ s.pc (.reactor 0) = .reactor l ∧
      l.connections = [(5,0)] ∧ l.pc = .functors [] ∧ s.shared.running 1 = true := by
  constructor
  · exact ⟨_,{ connections := [(5,0)], interest := [0] },rfl,⟨rfl,rfl,rfl,rfl⟩,by decide,rfl,rfl⟩
  · exact ⟨_,{ connections := [(5,0)], interest := [1,0], pc := .functors [] },rfl,rfl,rfl,rfl,rfl⟩

end ModernTcp.Server
