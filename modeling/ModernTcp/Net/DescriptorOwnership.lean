import ModernTcp.Lib.Execution
import ModernTcp.Net.Descriptors

/-! # Who closes which descriptor

A wrapped descriptor is closed by every layer that holds it. The late calls of a teardown hit
another connection exactly when `accept4` returns the number in between.
-/
namespace ModernTcp.Descriptors
open Execution

/-- Nothing more will be done with the descriptor. -/
def Descriptor.TornDown (d : Descriptor) : Prop := d.socket = false ∧ d.todo = []

/-- `accept4` returns a number that an unfinished teardown is going to use again. -/
def ReusesPending (s : State) (a : Act) : Prop :=
  ∃ fd fate, a = .accept fd fate ∧ ∃ i < s.count, (s.conn i).fd = fd ∧ (s.conn i).todo ≠ []

instance (s : State) (a : Act) : Decidable (ReusesPending s a) :=
  match a with
  | .accept fd fate =>
    decidable_of_iff (∃ i < s.count, (s.conn i).fd = fd ∧ (s.conn i).todo ≠ []) (by
      constructor
      · intro h
        exact ⟨fd,fate,rfl,h⟩
      · rintro ⟨_,_,⟨⟩,h⟩
        exact h)
  | .shutdown _ _ | .destroy _ _ | .syscall _ => isFalse (by rintro ⟨_,_,⟨⟩,-⟩)

/-- A `close` for every layer that thinks it owns the number. -/
def Counted (d : Descriptor) : Prop :=
  if d.socket then d.closes = 0 ∧ d.todo = [] ∧ d.wrapped = true
  else if d.wrapped then 2 ≤ d.closes + d.todo.count .close
  else d.closes + d.todo.count .close = 1

theorem Counted.tornDown {d : Descriptor} (h : Counted d) (hd : d.TornDown) :
    d.closes = 1 ↔ d.wrapped = false := by
  obtain ⟨hsocket,htodo⟩ := hd
  unfold Counted at h
  rw [hsocket, htodo] at h
  cases hw : d.wrapped with
  | false => simpa [hw] using h
  | true =>
    simp only [hw, List.count_nil, Bool.false_eq_true, if_false, if_true] at h
    simp
    omega

theorem Fate.counted (fate : Fate) (fd : ℕ) : Counted (fate.descriptor fd) := by
  cases fate <;> simp [Counted, Fate.descriptor, Fate.calls, socketDeleter]

theorem Counted.shutdown {d : Descriptor} (h : Counted d) (hsocket : d.socket = true) (linger : Bool) :
    Counted (d.shutdown linger) := by
  unfold Counted at h
  rw [hsocket] at h
  obtain ⟨hcl,htodo,hw⟩ := h
  unfold Descriptor.shutdown
  split
  · cases linger
    · simp [Counted, hsocket, hcl, htodo, hw]
    · simp [Counted, hw, socketDeleter]
  · simp [Counted, hsocket, hcl, htodo, hw]

theorem Counted.destroy {d : Descriptor} (h : Counted d) (hsocket : d.socket = true) (linger : Bool) :
    Counted (d.destroy linger) := by
  have hs := h.shutdown hsocket linger
  unfold Descriptor.destroy
  split
  · rename_i hsock
    unfold Counted at hs
    rw [hsock] at hs
    simp [Counted, socketDeleter, hs.2.2]
  · exact hs

theorem Counted.call {d : Descriptor} (h : Counted d) {c : Syscall} {rest : List Syscall}
    (htodo : d.todo = c :: rest) :
    Counted { d with todo := rest, closes := if c = .close then d.closes + 1 else d.closes } := by
  unfold Counted at h ⊢
  rw [htodo] at h
  cases hs : d.socket with
  | true => simp [hs] at h
  | false =>
    cases c <;> cases hw : d.wrapped <;> simp [hs, hw] at h ⊢ <;> omega

def AllCounted (s : State) : Prop := ∀ i < s.count, Counted (s.conn i)

theorem step_allCounted {s t : State} {a : Act} (hs : AllCounted s) (h : step s a = some t) :
    AllCounted t := by
  obtain ⟨fd,fate,-,-,rfl⟩ | ⟨i,linger,d,hi,hsocket,hd,rfl⟩ | ⟨i,c,rest,hi,htodo,rfl⟩ := step_cases h
  · intro j hj
    dsimp only at hj ⊢
    by_cases hjc : j = s.count
    · subst hjc
      rw [Function.update_self]
      exact fate.counted fd
    · rw [Function.update_of_ne hjc]
      exact hs j (by omega)
  · intro j hj
    by_cases hji : j = i
    · subst hji
      dsimp only
      rw [Function.update_self]
      rcases hd with rfl | rfl
      · exact (hs j hj).shutdown hsocket linger
      · exact (hs j hj).destroy hsocket linger
    · dsimp only
      rw [Function.update_of_ne hji]
      exact hs j hj
  · intro j hj
    by_cases hji : j = i
    · subst hji
      simp only [State.call]
      rw [Function.update_self]
      exact (hs j hj).call htodo
    · simp only [State.call]
      rw [Function.update_of_ne hji]
      exact hs j hj

/-- A held number belongs to its connection, and the number of an unfinished teardown to
nobody else. -/
structure Own (s : State) : Prop where
  held : ∀ i < s.count, (s.conn i).socket = true → s.table (s.conn i).fd = some i
  pending : ∀ i < s.count, (s.conn i).todo ≠ [] →
    (s.conn i).socket = false ∧ (s.table (s.conn i).fd = some i ∨ s.table (s.conn i).fd = none)
  none_foreign : s.foreign = []

/-- What starts a teardown gives the `SocketPtr` up. -/
theorem teardown_socket {d d' : Descriptor} {linger : Bool} (htodo : d.todo = [])
    (hd : d' = d.shutdown linger ∨ d' = d.destroy linger) (hne : d'.todo ≠ []) : d'.socket = false := by
  have hshut : (d.shutdown linger).todo ≠ [] → (d.shutdown linger).socket = false := by
    unfold Descriptor.shutdown
    split
    · split
      · intro _
        rfl
      · intro h
        exact absurd htodo h
    · intro h
      exact absurd htodo h
  rcases hd with rfl | rfl
  · exact hshut hne
  · unfold Descriptor.destroy at hne ⊢
    split
    · rfl
    · rename_i hsock
      simpa using hsock

theorem accept_own {s : State} (hs : Own s) {fd : ℕ} {fate : Fate} (hfree : s.table fd = none)
    (hnew : ¬ ReusesPending s (.accept fd fate)) : Own { s with
      table := Function.update s.table fd (some s.count)
      conn := Function.update s.conn s.count (fate.descriptor fd)
      count := s.count + 1 } := by
  have hfd : (fate.descriptor fd).fd = fd := rfl
  refine ⟨?_,?_,hs.none_foreign⟩
  · intro i hi hsocket
    dsimp only at hi hsocket ⊢
    by_cases hic : i = s.count
    · subst hic
      rw [Function.update_self, hfd, Function.update_self]
    · rw [Function.update_of_ne hic] at hsocket ⊢
      have htab := hs.held i (by omega) hsocket
      have hne : (s.conn i).fd ≠ fd := by
        intro he
        rw [he, hfree] at htab
        cases htab
      rw [Function.update_of_ne hne, htab]
  · intro i hi htodo
    dsimp only at hi htodo ⊢
    by_cases hic : i = s.count
    · subst hic
      rw [Function.update_self] at htodo ⊢
      refine ⟨?_,Or.inl (by rw [hfd, Function.update_self])⟩
      cases fate with
      | connection => exact absurd rfl htodo
      | refused | noReactor | notAdded | threw => rfl
    · rw [Function.update_of_ne hic] at htodo ⊢
      have hne : (s.conn i).fd ≠ fd := by
        intro he
        exact hnew ⟨fd,fate,rfl,i,by omega,he,htodo⟩
      rw [Function.update_of_ne hne]
      exact hs.pending i (by omega) htodo

theorem teardown_own {s : State} (hs : Own s) {i : ℕ} {linger : Bool} {d : Descriptor} (hi : i < s.count)
    (hsocket : (s.conn i).socket = true)
    (hd : d = (s.conn i).shutdown linger ∨ d = (s.conn i).destroy linger) :
    Own { s with conn := Function.update s.conn i d } := by
  have hfd : d.fd = (s.conn i).fd := by
    rcases hd with rfl | rfl
    · exact shutdown_fd _ _
    · exact destroy_fd _ _
  have htab := hs.held i hi hsocket
  have hnil : (s.conn i).todo = [] := by
    by_contra hne
    rw [(hs.pending i hi hne).1] at hsocket
    cases hsocket
  refine ⟨?_,?_,hs.none_foreign⟩
  · intro j hj hsock
    dsimp only at hj hsock ⊢
    by_cases hji : j = i
    · subst hji
      rw [Function.update_self, hfd, htab]
    · rw [Function.update_of_ne hji] at hsock ⊢
      exact hs.held j hj hsock
  · intro j hj htodo
    dsimp only at hj htodo ⊢
    by_cases hji : j = i
    · subst hji
      rw [Function.update_self] at htodo ⊢
      exact ⟨teardown_socket hnil hd htodo,Or.inl (by rw [hfd, htab])⟩
    · rw [Function.update_of_ne hji] at htodo ⊢
      exact hs.pending j hj htodo

theorem call_own {s : State} (hs : Own s) {i : ℕ} {c : Syscall} {rest : List Syscall} (hi : i < s.count)
    (htodo : (s.conn i).todo = c :: rest) : Own (s.call i c rest) := by
  obtain ⟨hsocket,hmine⟩ := hs.pending i hi (by rw [htodo]; simp)
  -- the number loses its owner or keeps what it has
  have htable : ∀ x, x ≠ (s.conn i).fd → (s.call i c rest).table x = s.table x := by
    intro x hx
    simp only [State.call]
    split
    · exact Function.update_of_ne hx _ _
    · rfl
  have hthis : (s.call i c rest).table (s.conn i).fd = none ∨
      (s.call i c rest).table (s.conn i).fd = s.table (s.conn i).fd := by
    simp only [State.call]
    split
    · exact Or.inl (Function.update_self _ _ _)
    · exact Or.inr rfl
  refine ⟨?_,?_,?_⟩
  · intro j hj hsock
    by_cases hji : j = i
    · subst hji
      simp only [State.call, Function.update_self] at hsock
      rw [hsocket] at hsock
      cases hsock
    · have hconn : (s.call i c rest).conn j = s.conn j := Function.update_of_ne hji _ _
      rw [hconn] at hsock ⊢
      have htab := hs.held j hj hsock
      rw [htable, htab]
      intro he
      rw [he] at htab
      rcases hmine with hm | hm <;> rw [hm] at htab <;> cases htab
      exact hji rfl
  · intro j hj hne
    by_cases hji : j = i
    · subst hji
      have hfd : ((s.call j c rest).conn j).fd = (s.conn j).fd := by simp [State.call]
      refine ⟨by simpa [State.call] using hsocket,?_⟩
      rw [hfd]
      rcases hthis with h | h
      · exact Or.inr h
      · rw [h]
        exact hmine
    · have hconn : (s.call i c rest).conn j = s.conn j := Function.update_of_ne hji _ _
      rw [hconn] at hne ⊢
      obtain ⟨hsock,hown⟩ := hs.pending j hj hne
      refine ⟨hsock,?_⟩
      by_cases hfd : (s.conn j).fd = (s.conn i).fd
      · rw [hfd] at hown ⊢
        rcases hthis with h | h
        · exact Or.inr h
        · rw [h]
          exact hown
      · rw [htable _ hfd]
        exact hown
  · simp only [State.call]
    rcases hmine with hm | hm <;> simp [hm, hs.none_foreign]

theorem step_own {s t : State} {a : Act} (hs : Own s) (hgood : ¬ ReusesPending s a)
    (h : step s a = some t) : Own t := by
  obtain ⟨fd,fate,rfl,hfree,rfl⟩ | ⟨i,linger,d,hi,hsocket,hd,rfl⟩ | ⟨i,c,rest,hi,htodo,rfl⟩ := step_cases h
  · exact accept_own hs hfree hgood
  · exact teardown_own hs hi hsocket hd
  · exact call_own hs hi htodo

theorem foreign_after_reuse {s t : State} {a : Act} (hbad : ReusesPending s a) (h : step s a = some t) :
    ∃ i u, step t (.syscall i) = some u ∧ (i,s.count) ∈ u.foreign := by
  obtain ⟨fd,fate,rfl,i,hi,hfd,hne⟩ := hbad
  simp only [step] at h
  split at h <;> cases h
  cases htodo : (s.conn i).todo with
  | nil => exact absurd htodo hne
  | cons c rest =>
    have hic : i ≠ s.count := by omega
    have hsc : ¬ s.count = i := fun he => hic he.symm
    let t : State := { s with
      table := Function.update s.table fd (some s.count)
      conn := Function.update s.conn s.count (fate.descriptor fd)
      count := s.count + 1 }
    refine ⟨i,t.call i c rest,?_,?_⟩
    · simp [t, step, Function.update_of_ne hic, htodo, Nat.lt_succ_of_lt hi]
    · simp [t, State.call, Function.update_of_ne hic, hfd, hsc]

/-- In every run: a descriptor whose teardown is over was closed exactly once only if no
`SocketPtr` ever held it; as long as no number is reused in the middle of a teardown, no
system call hits another connection; and wherever one is, the run can go on to such a call. -/
theorem descriptor_ownership (as : List Act) :
    (∀ s, exec step {} as = some s → ∀ i < s.count, (s.conn i).TornDown →
      ((s.conn i).closes = 1 ↔ (s.conn i).wrapped = false)) ∧
    (Along step (fun s a => ¬ ReusesPending s a) {} as → ∀ s, Visits step {} as s → s.foreign = []) ∧
    ∀ s t a, exec step {} as = some s → ReusesPending s a → step s a = some t →
      ∃ i u, step t (.syscall i) = some u ∧ u.foreign ≠ [] := by
  refine ⟨?_,?_,?_⟩
  · intro s hs i hi htorn
    have hall : AllCounted s := exec_of_steps (fun _ _ _ hs h => step_allCounted hs h)
      (fun i hi => absurd hi (Nat.not_lt_zero i)) hs
    exact (hall i hi).tornDown htorn
  · intro hgood s hv
    have hown : Own s := visits_invariant (fun _ _ _ hs hg h => step_own hs hg h)
      ⟨fun i hi => absurd hi (Nat.not_lt_zero i),fun i hi => absurd hi (Nat.not_lt_zero i),rfl⟩ hgood hv
    exact hown.none_foreign
  · intro s t a _ hbad ht
    obtain ⟨i,u,hu,hmem⟩ := foreign_after_reuse hbad ht
    exact ⟨i,u,hu,List.ne_nil_of_mem hmem⟩

/-- The number 5 is given out again when its first teardown is over. -/
def oneAfterTheOther : List Act :=
  [.accept 5 .connection,.shutdown 0 true,.syscall 0,.syscall 0,.syscall 0,.syscall 0,.accept 5 .refused,.syscall 1]

theorem descriptor_ownership_in_turn :
    ∃ s, exec step {} oneAfterTheOther = some s ∧ s.foreign = [] ∧
      ((s.conn 0).closes = 1 ↔ (s.conn 0).wrapped = false) ∧
      ((s.conn 1).closes = 1 ↔ (s.conn 1).wrapped = false) := by
  have hrun : ∃ s, exec step {} oneAfterTheOther = some s ∧ s.count = 2 ∧ (s.conn 0).TornDown ∧
      (s.conn 1).TornDown := ⟨_,rfl,rfl,⟨rfl,rfl⟩,rfl,rfl⟩
  obtain ⟨s,hs,hcount,h0,h1⟩ := hrun
  obtain ⟨honce,hgood,-⟩ := descriptor_ownership oneAfterTheOther
  exact ⟨s,hs,hgood (by decide) s ⟨_,List.prefix_refl _,hs⟩,honce s hs 0 (by omega) h0,honce s hs 1 (by omega) h1⟩

/-- The number 5 is closed by the first layer, given to a second connection, and then shut down
and closed by the layers of the first. -/
theorem descriptor_closed_by_other :
    ∃ s, exec step {} [.accept 5 .connection,.shutdown 0 true,.syscall 0,.accept 5 .connection,
        .syscall 0,.syscall 0,.syscall 0] = some s ∧
      s.foreign = [(0,1),(0,1)] ∧ (s.conn 0).closes = 3 ∧ (s.conn 1).socket = true ∧ s.table 5 = none := by
  refine ⟨_,rfl,?_⟩
  decide

end ModernTcp.Descriptors
