import ModernTcp.Net.DescriptorOwnership
import ModernTcp.Net.Server

/-! # What a step leaves to the other threads

A connection is in the hands of one thread at a time: the accept loop, the reactor that has its
functor or its entry, or nobody. Only that thread moves it on.
-/
namespace ModernTcp.Server
open Descriptors

section Invariant
variable {R : ℕ}

/-- The thread that may change the stage of a connection. -/
def Stage.owner : Stage R → Thread R
  | .accepted => .acceptor
  | .queued r | .registered r => .reactor r
  | .released => .outside

/-- The connection has the number it is known by and is at this stage. -/
def Known (m : Shared R) (fd id : ℕ) (stage : Stage R) : Prop :=
  id < m.desc.count ∧ (m.desc.conn id).fd = fd ∧ m.stage id = stage

/-- Past its add functor. -/
def Settled (m : Shared R) (id : ℕ) : Prop :=
  id < m.desc.count ∧ (m.stage id = .released ∨ ∃ r, m.stage id = .registered r)

/-- What a step of `who` leaves to the other threads. -/
structure Keeps (who : Thread R) (m m' : Shared R) : Prop where
  count : m.desc.count ≤ m'.desc.count
  fd : ∀ i < m.desc.count, (m'.desc.conn i).fd = (m.desc.conn i).fd
  stage : ∀ i < m.desc.count, (m.stage i).owner ≠ who → m'.stage i = m.stage i
  settled : ∀ i < m.desc.count, Settled m i → Settled m' i
  released : ∀ i < m.desc.count, m.stage i = .released → m'.stage i = .released
  running : ∀ i < m.desc.count, ∀ r, m.stage i = .registered r → .reactor r ≠ who → m'.running i = m.running i
  queue : ∀ r, .reactor r ≠ who → ∃ fs, m'.queue r = m.queue r ++ fs ∧
    (∀ fd id, .add fd id ∈ fs → Known m' fd id (.queued r)) ∧ (adds fs).Nodup ∧
    ∀ id ∈ adds fs, m.stage id ≠ .queued r

theorem mem_adds {fs : List Functor} {id : ℕ} : id ∈ adds fs ↔ ∃ fd, .add fd id ∈ fs := by
  induction fs with
  | nil => simp [adds]
  | cons f fs ih =>
    cases f with
    | add fd i =>
      simp only [adds, List.mem_cons, ih, Functor.add.injEq]
      constructor
      · rintro (rfl | ⟨fd',h⟩)
        · exact ⟨fd,Or.inl ⟨rfl,rfl⟩⟩
        · exact ⟨fd',Or.inr h⟩
      · rintro ⟨fd',⟨-,rfl⟩ | h⟩
        · exact Or.inl rfl
        · exact Or.inr ⟨fd',h⟩
    | enableWriting fd => simp [adds, ih]

theorem Known.keeps {who : Thread R} {m m' : Shared R} (hk : Keeps who m m') {fd id : ℕ} {stage : Stage R}
    (h : Known m fd id stage) (hne : stage.owner ≠ who) : Known m' fd id stage := by
  obtain ⟨hlt,hfd,hst⟩ := h
  refine ⟨lt_of_lt_of_le hlt hk.count,(hk.fd id hlt).trans hfd,?_⟩
  rw [hk.stage id hlt (by rw [hst]; exact hne), hst]

theorem Keeps.of_eq {who : Thread R} {m m' : Shared R} (hdesc : m'.desc = m.desc) (hstage : m'.stage = m.stage)
    (hqueue : ∀ r, .reactor r ≠ who → m'.queue r = m.queue r) : Keeps who m m' := by
  refine ⟨by rw [hdesc],fun i _ => by rw [hdesc],fun i _ _ => by rw [hstage],?_,fun i _ h => by rw [hstage, h],?_,?_⟩
  · intro i _ h
    unfold Settled at h ⊢
    rw [hdesc, hstage]
    exact h
  · intro i _ r _ _
    unfold Shared.running
    rw [hdesc]
  · intro r hne
    exact ⟨[],by rw [hqueue r hne, List.append_nil],by simp,by simp [adds],by simp [adds]⟩

theorem Keeps.trans {who : Thread R} {m m' m'' : Shared R} (h : Keeps who m m') (h' : Keeps who m' m'')
    (hqueue : m''.queue = m'.queue) : Keeps who m m'' := by
  have hlt : ∀ i < m.desc.count, i < m'.desc.count := fun i hi => lt_of_lt_of_le hi h.count
  refine ⟨le_trans h.count h'.count,?_,?_,?_,?_,?_,?_⟩
  · intro i hi
    exact (h'.fd i (hlt i hi)).trans (h.fd i hi)
  · intro i hi hne
    have hst := h.stage i hi hne
    exact (h'.stage i (hlt i hi) (by rw [hst]; exact hne)).trans hst
  · intro i hi hset
    exact h'.settled i (hlt i hi) (h.settled i hi hset)
  · intro i hi hrel
    exact h'.released i (hlt i hi) (h.released i hi hrel)
  · intro i hi r hst hne
    have hst' : m'.stage i = .registered r := (h.stage i hi (by rw [hst]; exact hne)).trans hst
    exact (h'.running i (hlt i hi) r hst' hne).trans (h.running i hi r hst hne)
  · intro r hne
    obtain ⟨fs,hq,hnew,hnodup,hfresh⟩ := h.queue r hne
    refine ⟨fs,by rw [hqueue, hq],?_,hnodup,hfresh⟩
    intro fd id hmem
    exact (hnew fd id hmem).keeps h' hne

/-- A step on the descriptors, which ends no connection registered with another reactor. -/
theorem keeps_desc {who : Thread R} {m : Shared R} {d : Descriptors.State} {a : Descriptors.Act}
    (h : Descriptors.step m.desc a = some d)
    (hends : ∀ i r, a.ends = some i → m.stage i = .registered r → .reactor r = who) :
    Keeps who m { m with desc := d } := by
  obtain ⟨hcount,hfd,hrun⟩ := step_frame h
  refine ⟨hcount,hfd,fun _ _ _ => rfl,?_,fun _ _ h => h,?_,?_⟩
  · intro i hi hset
    exact ⟨lt_of_lt_of_le hi hcount,hset.2⟩
  · intro i hi r hst hne
    exact hrun i hi (fun he => hne (hends i r he hst))
  · intro r _
    exact ⟨[],by simp,by simp,by simp [adds],by simp [adds]⟩

theorem shutdown_keeps {who : Thread R} {m : Shared R} {id : ℕ} (linger : Bool)
    (hends : ∀ r, m.stage id = .registered r → .reactor r = who) : Keeps who m (m.shutdown id linger) := by
  unfold Shared.shutdown
  split
  · rename_i d hd
    refine keeps_desc hd ?_
    intro i r hi hst
    cases hi
    exact hends r hst
  · exact Keeps.of_eq rfl rfl (fun _ _ => rfl)

/-- The owner of a connection moves it on. -/
theorem setStage_keeps {who : Thread R} {m : Shared R} {id : ℕ} {stage : Stage R}
    (hown : (m.stage id).owner = who) (hlive : m.stage id ≠ .released)
    (hreg : ∀ r, m.stage id = .registered r → stage = .released) : Keeps who m (m.setStage id stage) := by
  refine ⟨le_rfl,fun _ _ => rfl,?_,?_,?_,fun _ _ _ _ _ => rfl,?_⟩
  · intro i _ hne
    have hi : i ≠ id := fun he => hne (by rw [he, hown])
    exact Function.update_of_ne hi _ _
  · intro i hi hset
    by_cases hid : i = id
    · subst hid
      obtain ⟨r,hr⟩ := hset.2.resolve_left hlive
      exact ⟨hi,Or.inl (by simp [Shared.setStage, hreg r hr])⟩
    · exact ⟨hi,by simpa [Shared.setStage, Function.update_of_ne hid] using hset.2⟩
  · intro i _ hrel
    have hi : i ≠ id := fun he => hlive (by rw [← he, hrel])
    rw [← hrel]
    exact Function.update_of_ne hi _ _
  · intro r _
    exact ⟨[],by simp [Shared.setStage],by simp,by simp [adds],by simp [adds]⟩

theorem accept_keeps {m : Shared R} {d : Descriptors.State} {fd : ℕ} {fate : Fate}
    (h : Descriptors.step m.desc (.accept fd fate) = some d) :
    Keeps .acceptor m ({ m with desc := d }.setStage m.desc.count .accepted) := by
  obtain ⟨hcount,hfd,hrun⟩ := step_frame h
  have hstage : ∀ i < m.desc.count, ({ m with desc := d }.setStage m.desc.count .accepted).stage i = m.stage i := by
    intro i hi
    exact Function.update_of_ne (by omega) _ _
  refine ⟨hcount,hfd,fun i hi _ => hstage i hi,?_,?_,?_,?_⟩
  · intro i hi hset
    refine ⟨lt_of_lt_of_le hi hcount,?_⟩
    rw [hstage i hi]
    exact hset.2
  · intro i hi hrel
    rw [hstage i hi, hrel]
  · intro i hi r _ _
    exact hrun i hi (by simp [Descriptors.Act.ends])
  · intro r _
    exact ⟨[],by simp [Shared.setStage],by simp,by simp [adds],by simp [adds]⟩

/-- The functor of a new connection goes to the queue of a reactor. -/
theorem push_add_keeps {m : Shared R} {id : ℕ} (hid : id < m.desc.count) (hst : m.stage id = .accepted)
    (r : Fin R) : Keeps .acceptor m ((m.push r (.add (m.desc.conn id).fd id)).setStage id (.queued r)) := by
  have hlift : Keeps .acceptor m (m.setStage id (.queued r)) := by
    refine setStage_keeps (by rw [hst]; rfl) (by simp [hst]) ?_
    intro r' hr'
    rw [hst] at hr'
    cases hr'
  refine ⟨hlift.count,hlift.fd,hlift.stage,hlift.settled,hlift.released,hlift.running,?_⟩
  intro q _
  by_cases hq : q = r
  · subst hq
    refine ⟨[.add (m.desc.conn id).fd id],by simp [Shared.push, Shared.setStage],?_,by simp [adds],?_⟩
    · intro fd i hmem
      cases List.mem_singleton.mp hmem
      exact ⟨hid,rfl,by simp [Shared.setStage]⟩
    · intro i hi
      rw [show i = id by simpa [adds] using hi, hst]
      simp
  · exact ⟨[],by simp [Shared.push, Shared.setStage, Function.update_of_ne hq],by simp,by simp [adds],by simp [adds]⟩

theorem Known.setStage {m : Shared R} {fd i id : ℕ} {stage new : Stage R} (h : Known m fd i stage)
    (hne : i ≠ id) : Known (m.setStage id new) fd i stage :=
  ⟨h.1,h.2.1,(Function.update_of_ne hne _ _).trans h.2.2⟩

theorem Settled.setStage {m : Shared R} {i id : ℕ} {new : Stage R} (h : Settled m i)
    (hnew : new = .released ∨ ∃ r, new = .registered r) : Settled (m.setStage id new) i := by
  refine ⟨h.1,?_⟩
  by_cases hi : i = id
  · subst hi
    simpa [Shared.setStage] using hnew
  · simpa [Shared.setStage, Function.update_of_ne hi] using h.2

theorem shutdown_frame (m : Shared R) (id : ℕ) (linger : Bool) :
    m.desc.count ≤ (m.shutdown id linger).desc.count ∧
    (∀ i < m.desc.count, ((m.shutdown id linger).desc.conn i).fd = (m.desc.conn i).fd) ∧
    ∀ i < m.desc.count, i ≠ id → (m.shutdown id linger).running i = m.running i := by
  unfold Shared.shutdown
  split
  · rename_i d hd
    obtain ⟨hcount,hfd,hrun⟩ := step_frame hd
    exact ⟨hcount,hfd,fun i hi hne => hrun i hi (by simpa [Descriptors.Act.ends] using hne.symm)⟩
  · exact ⟨le_rfl,fun _ _ => rfl,fun _ _ _ => rfl⟩

theorem Known.shutdown {m : Shared R} {fd i : ℕ} {stage : Stage R} (h : Known m fd i stage) (id : ℕ)
    (linger : Bool) : Known (m.shutdown id linger) fd i stage := by
  obtain ⟨hcount,hfd,-⟩ := shutdown_frame m id linger
  exact ⟨lt_of_lt_of_le h.1 hcount,(hfd i h.1).trans h.2.1,by rw [shutdown_stage]; exact h.2.2⟩

theorem Settled.shutdown {m : Shared R} {i : ℕ} (h : Settled m i) (id : ℕ) (linger : Bool) :
    Settled (m.shutdown id linger) i := by
  obtain ⟨hcount,-,-⟩ := shutdown_frame m id linger
  exact ⟨lt_of_lt_of_le h.1 hcount,by rw [shutdown_stage]; exact h.2⟩

def AcceptorOk (m : Shared R) : Acceptor R → Prop
  | .accepted id _ | .adding id => id < m.desc.count ∧ m.stage id = .accepted
  | .idle | .pushed _ => True

theorem AcceptorOk.keeps {who : Thread R} {m m' : Shared R} (hk : Keeps who m m') {p : Acceptor R}
    (h : AcceptorOk m p) (hne : .acceptor ≠ who) : AcceptorOk m' p := by
  cases p with
  | idle | pushed _ => trivial
  | accepted id _ | adding id =>
    obtain ⟨hlt,hst⟩ := h
    refine ⟨lt_of_lt_of_le hlt hk.count,?_⟩
    rw [hk.stage id hlt (by rw [hst]; exact hne), hst]

theorem acceptor_step {M : ℕ} {m m' : Shared R} {p p' : Acceptor R} {a : Act R} (hp : AcceptorOk m p)
    (h : advanceAcceptor M m p a = some (m',p')) : Keeps .acceptor m m' ∧ AcceptorOk m' p' := by
  cases p with
  | idle =>
    cases a <;> simp only [advanceAcceptor, reduceCtorEq] at h
    rename_i fd fate
    split at h <;> cases h
    rename_i d hd
    refine ⟨accept_keeps hd,?_,by simp [Shared.setStage]⟩
    simp only [Descriptors.step] at hd
    split at hd <;> cases hd
    exact Nat.lt_succ_self _
  | accepted id fate =>
    obtain ⟨hid,hst⟩ := hp
    cases a <;> simp only [advanceAcceptor, reduceCtorEq] at h
    split at h
    · cases h
    split at h
    · cases h
      exact ⟨Keeps.of_eq rfl rfl (fun _ _ => rfl),hid,hst⟩
    · have hkeeps : Keeps .acceptor m (m.setStage id .released) :=
        setStage_keeps (by rw [hst]; rfl) (by simp [hst]) (fun _ _ => rfl)
      split at h <;> cases h
      · exact ⟨hkeeps.trans (Keeps.of_eq rfl rfl (fun _ _ => rfl)) rfl,trivial⟩
      · exact ⟨hkeeps,trivial⟩
  | adding id =>
    obtain ⟨hid,hst⟩ := hp
    cases a <;> simp only [advanceAcceptor, reduceCtorEq] at h
    split at h <;> cases h
    refine ⟨(push_add_keeps hid hst _).trans (Keeps.of_eq rfl rfl (fun _ _ => rfl)) rfl,trivial⟩
  | pushed r =>
    cases a <;> simp only [advanceAcceptor, reduceCtorEq] at h
    cases h
    exact ⟨Keeps.of_eq rfl rfl (fun _ _ => rfl),trivial⟩

theorem outside_step {m m' : Shared R} {a : Act R} (hworker : ∀ id linger, a ≠ .worker id linger)
    (h : advanceOutside m a = some m') : Keeps .outside m m' := by
  cases a <;> simp only [advanceOutside, reduceCtorEq] at h
  case worker id linger => exact absurd rfl (hworker id linger)
  case post r fd =>
    cases h
    refine ⟨le_rfl,fun _ _ => rfl,fun _ _ _ => rfl,fun _ _ h => h,fun _ _ h => h,fun _ _ _ _ _ => rfl,?_⟩
    intro q _
    by_cases hq : q = r
    · subst hq
      exact ⟨[.enableWriting fd],by simp [Shared.push, Shared.notify],by simp,by simp [adds],by simp [adds]⟩
    · exact ⟨[],by simp [Shared.push, Shared.notify, Function.update_of_ne hq],by simp,by simp [adds],by simp [adds]⟩
  case syscall id =>
    split at h
    · cases h
    · obtain ⟨d,hd,rfl⟩ := Option.map_eq_some_iff.mp h
      exact keeps_desc hd (fun i r hi _ => by simp [Descriptors.Act.ends] at hi)
  case release id linger =>
    split at h
    · rename_i hrel
      obtain ⟨d,hd,rfl⟩ := Option.map_eq_some_iff.mp h
      refine keeps_desc hd ?_
      intro i r hi hst
      cases hi
      rw [hrel] at hst
      cases hst
    · cases h

end Invariant

end ModernTcp.Server
