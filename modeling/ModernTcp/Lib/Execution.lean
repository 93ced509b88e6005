import Mathlib.Algebra.GroupWithZero.Nat
import Mathlib.Data.List.Basic
import Mathlib.Order.WellFounded

/-! # Executions of a partial labelled step function

A step function refuses a label or yields the next state. A schedule is a finite
list of labels; the threads of a concurrent program are labels of one step
function, so a schedule is one interleaving. Conditions on a run are conditions on
the state in which each label of the schedule is taken.
-/
namespace ModernTcp.Execution
variable {S A : Type*} (step : S → A → Option S)

-- schedules of one or two threads name them by literals of `Fin 1` and `Fin 2`
instance neZeroOne : NeZero 1 := ⟨Nat.one_ne_zero⟩
instance neZeroTwo : NeZero 2 := ⟨Nat.succ_ne_zero 1⟩

/-- The state after a whole schedule, when every label of it was enabled. -/
def exec : S → List A → Option S
  | s, [] => some s
  | s, a :: rest => (step s a).bind (fun t => exec t rest)

/-- Every label of the schedule is taken in a state in which `P` allows it. -/
def Along (P : S → A → Prop) : S → List A → Prop
  | _, [] => True
  | s, a :: rest => P s a ∧ ∀ t, step s a = some t → Along P t rest

/-- `t` is one of the states the schedule passes through, its ends included. -/
def Visits (s : S) (as : List A) (t : S) : Prop := ∃ pre, pre <+: as ∧ exec step s pre = some t

variable {step}

@[simp] theorem exec_nil (s : S) : exec step s [] = some s := rfl

theorem exec_cons_eq_some {s u : S} {a : A} {as : List A} :
    exec step s (a :: as) = some u ↔ ∃ t, step s a = some t ∧ exec step t as = some u := by
  simp only [exec, Option.bind_eq_some_iff]

theorem exec_append (s : S) (as bs : List A) :
    exec step s (as ++ bs) = (exec step s as).bind (fun t => exec step t bs) := by
  induction as generalizing s with
  | nil => rfl
  | cons a as ih => simp only [List.cons_append, exec, Option.bind_assoc, ih]

theorem exec_trans {s t u : S} {as bs : List A} (h : exec step s as = some t) (h' : exec step t bs = some u) :
    exec step s (as ++ bs) = some u := by
  rw [exec_append, h]
  exact h'

theorem along_append {P : S → A → Prop} {s : S} {as bs : List A} :
    Along step P s (as ++ bs) ↔
      Along step P s as ∧ ∀ t, exec step s as = some t → Along step P t bs := by
  induction as generalizing s with
  | nil => simp [Along]
  | cons a as ih =>
    simp only [List.cons_append, Along, ih, exec_cons_eq_some]
    constructor
    · rintro ⟨ha,h⟩
      exact ⟨⟨ha,fun t ht => (h t ht).1⟩,fun u ⟨t,ht,hu⟩ => (h t ht).2 u hu⟩
    · rintro ⟨⟨ha,h⟩,hu⟩
      exact ⟨ha,fun t ht => ⟨h t ht,fun u h' => hu u ⟨t,ht,h'⟩⟩⟩

theorem along_cons {P : S → A → Prop} {s : S} {a : A} {as : List A} :
    Along step P s (a :: as) ↔ P s a ∧ ∀ t ∈ step s a, Along step P t as := Iff.rfl

/-- A run is checked by running it. -/
instance decidableAlong {P : S → A → Prop} [∀ s a, Decidable (P s a)] :
    ∀ s as, Decidable (Along step P s as)
  | _, [] => inferInstanceAs (Decidable True)
  | s, a :: as =>
    match h : step s a with
    | none => decidable_of_iff (P s a) (by simp [along_cons, h])
    | some t =>
      have : Decidable (Along step P t as) := decidableAlong t as
      decidable_of_iff (P s a ∧ Along step P t as) (by simp [along_cons, h])

theorem along_of_forall {P : S → A → Prop} {s : S} {as : List A} (h : ∀ s, ∀ a ∈ as, P s a) :
    Along step P s as := by
  induction as generalizing s with
  | nil => trivial
  | cons a as ih => exact ⟨h s a List.mem_cons_self,fun t _ => ih (fun s b hb => h s b (List.mem_cons_of_mem a hb))⟩

theorem Along.mono {P Q : S → A → Prop} {s : S} {as : List A} (h : Along step P s as) (hPQ : ∀ s a, P s a → Q s a) :
    Along step Q s as := by
  induction as generalizing s with
  | nil => trivial
  | cons a as ih => exact ⟨hPQ s a h.1,fun t ht => ih (h.2 t ht)⟩

theorem Along.of_prefix {P : S → A → Prop} {s : S} {pre as : List A} (hp : pre <+: as)
    (h : Along step P s as) : Along step P s pre := by
  obtain ⟨rest,rfl⟩ := hp
  exact (along_append.mp h).1

/-- A predicate kept by every allowed step holds at the end of every allowed run. -/
theorem exec_invariant {P : S → A → Prop} {I : S → Prop}
    (hstep : ∀ s a t, I s → P s a → step s a = some t → I t) {s t : S} {as : List A}
    (hs : I s) (hP : Along step P s as) (he : exec step s as = some t) : I t := by
  induction as generalizing s with
  | nil =>
    cases he
    exact hs
  | cons a as ih =>
    obtain ⟨u,hu,he⟩ := exec_cons_eq_some.mp he
    exact ih (hstep s a u hs hP.1 hu) (hP.2 u hu) he

/-- A predicate kept by every step holds at the end of every run. -/
theorem exec_of_steps {I : S → Prop} (hstep : ∀ s a t, I s → step s a = some t → I t) {s t : S} {as : List A}
    (hs : I s) (he : exec step s as = some t) : I t :=
  exec_invariant (P := fun _ _ => True) (fun s a t hI _ h => hstep s a t hI h) hs
    (along_of_forall (fun _ _ _ => trivial)) he

section Simulation
variable {C O : Type*} {ops : S → A → List O} {call : C → O → C} {R : S → C → Prop}

/-- The operations of a second system that the steps of a schedule stand for, one after another. -/
def operations (step : S → A → Option S) (ops : S → A → List O) : S → List A → List O
  | _, [] => []
  | s, a :: as => ops s a ++
    match step s a with
    | none => []
    | some t => operations step ops t as

/-- Forward simulation: a relation that every step and its operations keep holds after a run and all of its operations. -/
theorem exec_operations (hstep : ∀ s a t c, R s c → step s a = some t → R t ((ops s a).foldl call c)) {s t : S}
    {c : C} {as : List A} (hs : R s c) (he : exec step s as = some t) :
    R t ((operations step ops s as).foldl call c) := by
  induction as generalizing s c with
  | nil =>
    cases he
    exact hs
  | cons a as ih =>
    obtain ⟨u,hu,he⟩ := exec_cons_eq_some.mp he
    have hrest := ih (hstep s a u c hs hu) he
    rw [← List.foldl_append] at hrest
    simpa only [operations, hu] using hrest

/-- The same where the second system may refuse an operation, and has a choice of operations for a step. -/
theorem exec_simulated {step' : C → O → Option C}
    (hstep : ∀ s a t c, R s c → step s a = some t → ∃ os d, exec step' c os = some d ∧ R t d) {s t : S} {c : C}
    {as : List A} (hs : R s c) (he : exec step s as = some t) : ∃ os d, exec step' c os = some d ∧ R t d := by
  induction as generalizing s c with
  | nil =>
    cases he
    exact ⟨[],c,rfl,hs⟩
  | cons a as ih =>
    obtain ⟨u,hu,he⟩ := exec_cons_eq_some.mp he
    obtain ⟨os,d,hd,hR⟩ := hstep s a u c hs hu
    obtain ⟨os',d',hd',hR'⟩ := ih hR he
    exact ⟨os ++ os',d',exec_trans hd hd',hR'⟩

end Simulation

/-- What every allowed step keeps holds at every state an allowed run passes through. -/
theorem visits_invariant {P : S → A → Prop} {I : S → Prop}
    (hstep : ∀ s a t, I s → P s a → step s a = some t → I t) {s t : S} {as : List A}
    (hs : I s) (hP : Along step P s as) (hv : Visits step s as t) : I t := by
  obtain ⟨pre,hpre,he⟩ := hv
  exact exec_invariant hstep hs (hP.of_prefix hpre) he

theorem visits_cons {s t : S} {a : A} {as : List A} :
    Visits step s (a :: as) t ↔ t = s ∨ ∃ u, step s a = some u ∧ Visits step u as t := by
  constructor
  · rintro ⟨pre,hpre,he⟩
    cases pre with
    | nil =>
      cases he
      exact Or.inl rfl
    | cons b pre =>
      obtain ⟨rfl,hrest⟩ := List.cons_prefix_cons.mp hpre
      obtain ⟨u,hu,he⟩ := exec_cons_eq_some.mp he
      exact Or.inr ⟨u,hu,pre,hrest,he⟩
  · rintro (rfl | ⟨u,hu,pre,hpre,he⟩)
    · exact ⟨[],List.nil_prefix,rfl⟩
    · exact ⟨a :: pre,List.cons_prefix_cons.mpr ⟨rfl,hpre⟩,exec_cons_eq_some.mpr ⟨u,hu,he⟩⟩

/-- A property holds at every state of a run exactly when every step meets the condition that
decides whether the step keeps it. -/
theorem visits_iff_along {P : S → A → Prop} {I G : S → Prop}
    (hI : ∀ s a t, I s → step s a = some t → I t)
    (hG : ∀ s a t, I s → G s → step s a = some t → (G t ↔ P s a))
    (hstuck : ∀ s a, I s → step s a = none → P s a) {s : S} (hs : I s) (hg : G s) {as : List A} :
    (∀ t, Visits step s as t → G t) ↔ Along step P s as := by
  induction as generalizing s with
  | nil =>
    refine ⟨fun _ => trivial,?_⟩
    rintro _ t ⟨pre,hpre,he⟩
    rw [List.prefix_nil.mp hpre] at he
    cases he
    exact hg
  | cons a as ih =>
    simp only [visits_cons, Along]
    constructor
    · intro h
      cases hu : step s a with
      | none => exact ⟨hstuck s a hs hu,fun t ht => by cases ht⟩
      | some u =>
        have hgu : G u := h u (Or.inr ⟨u,hu,[],List.nil_prefix,rfl⟩)
        refine ⟨(hG s a u hs hg hu).mp hgu,?_⟩
        rintro t ⟨⟩
        exact (ih (hI s a u hs hu) hgu).mp (fun v hv => h v (Or.inr ⟨u,hu,hv⟩))
    · rintro ⟨hP,hrest⟩ t (rfl | ⟨u,hu,hv⟩)
      · exact hg
      · have hgu := (hG s a u hs hg hu).mpr hP
        exact (ih (hI s a u hs hu) hgu).mpr (hrest u hu) t hv

/-- An endless run: the label `a n` leads from the state `f n` to the next one. -/
def Endless (step : S → A → Option S) (f : ℕ → S) (a : ℕ → A) : Prop := ∀ n, step (f n) (a n) = some (f (n + 1))

/-- When a label of `P` is enabled, one of them is taken sooner or later. -/
def Fair (step : S → A → Option S) (P : A → Prop) (f : ℕ → S) (a : ℕ → A) : Prop :=
  ∀ n b, P b → (step (f n) b).isSome = true → ∃ m, n ≤ m ∧ P (a m)

section Endless
variable {f : ℕ → S} {a : ℕ → A} {P Q : A → Prop} {I : S → Prop}

theorem Endless.invariant {Q : S → A → Prop} (hf : Endless step f a) (hQ : ∀ n, Q (f n) (a n))
    (hstep : ∀ s b t, I s → Q s b → step s b = some t → I t) (hs : I (f 0)) (n : ℕ) : I (f n) := by
  induction n with
  | zero => exact hs
  | succ n ih => exact hstep (f n) (a n) (f (n + 1)) ih (hQ n) (hf n)

/-- Labels that lower a well-founded measure, which the other ones do not raise, are not taken for ever. -/
theorem Endless.quiet {M : Type*} [PartialOrder M] [WellFoundedLT M] (work : S → M) (hf : Endless step f a)
    (hI : ∀ n, I (f n)) (hQ : ∀ n, Q (a n)) (hle : ∀ s b t, I s → Q b → step s b = some t → work t ≤ work s)
    (hlt : ∀ s b t, I s → P b → step s b = some t → work t < work s) : ∃ N, ∀ n, N ≤ n → ¬ P (a n) := by
  have hanti : Antitone (work ∘ f) := antitone_nat_of_succ_le fun n => hle (f n) (a n) _ (hI n) (hQ n) (hf n)
  obtain ⟨_,⟨N,rfl⟩,hmin⟩ := (wellFounded_lt (α := M)).has_min (Set.range (work ∘ f)) ⟨_,0,rfl⟩
  refine ⟨N,fun n hn hP => hmin _ ⟨n + 1,rfl⟩ ?_⟩
  exact (hlt (f n) (a n) _ (hI n) hP (hf n)).trans_le (hanti hn)

/-- So a fair run comes to the point where they are not enabled any more. -/
theorem Endless.stuck {M : Type*} [PartialOrder M] [WellFoundedLT M] (work : S → M) (hf : Endless step f a)
    (hI : ∀ n, I (f n)) (hQ : ∀ n, Q (a n)) (hle : ∀ s b t, I s → Q b → step s b = some t → work t ≤ work s)
    (hlt : ∀ s b t, I s → P b → step s b = some t → work t < work s) (hfair : Fair step P f a) :
    ∃ N, ∀ n, N ≤ n → ∀ b, P b → step (f n) b = none := by
  obtain ⟨N,hN⟩ := hf.quiet work hI hQ hle hlt
  refine ⟨N,fun n hn b hb => ?_⟩
  by_contra henabled
  obtain ⟨m,hm,hP⟩ := hfair n b hb (Option.isSome_iff_ne_none.mpr henabled)
  exact hN m (hn.trans hm) hP

end Endless

end ModernTcp.Execution
