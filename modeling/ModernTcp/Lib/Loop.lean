import Mathlib.Data.Nat.Init

/-! # Loops that carry their own termination measure

The body of a loop maps a loop state to the next one, or to `none` when the loop is
left. Running it with the measure of the start state as fuel computes, and a
decreasing measure makes the fuel unobservable: the two unfolding equations below
are all that a proof about a loop needs.
-/
namespace ModernTcp.Loop
variable {S : Type*}

def iterate (body : S → Option S) : ℕ → S → S
  | 0, s => s
  | n + 1, s => match body s with
    | none => s
    | some t => iterate body n t

/-- The loop, run until its body leaves it. -/
def run (body : S → Option S) (measure : S → ℕ) (s : S) : S := iterate body (measure s) s

/-- Every round of the loop lowers the measure. -/
def Decreases (body : S → Option S) (measure : S → ℕ) : Prop :=
  ∀ s t, body s = some t → measure t < measure s

variable {body : S → Option S} {measure : S → ℕ}

theorem iterate_of_le (h : Decreases body measure) {n : ℕ} {s : S} (hn : measure s ≤ n) :
    iterate body n s = run body measure s := by
  induction n using Nat.strong_induction_on generalizing s with
  | _ n ih =>
    unfold run
    cases hb : body s with
    | none => cases n <;> cases measure s <;> simp [iterate, hb]
    | some t =>
      have ht := h s t hb
      obtain ⟨m,hm⟩ : ∃ m, measure s = m + 1 := ⟨measure s - 1,by omega⟩
      obtain ⟨k,rfl⟩ : ∃ k, n = k + 1 := ⟨n - 1,by omega⟩
      rw [hm]
      simp only [iterate, hb]
      by_cases hk : m = k
      · rw [hk]
      · rw [ih k (by omega) (by omega), ih m (by omega) (by omega)]

theorem run_of_none {s : S} (hb : body s = none) : run body measure s = s := by
  unfold run
  cases measure s <;> simp [iterate, hb]

theorem run_of_some (h : Decreases body measure) {s t : S} (hb : body s = some t) :
    run body measure s = run body measure t := by
  have ht := h s t hb
  obtain ⟨m,hm⟩ : ∃ m, measure s = m + 1 := ⟨measure s - 1,by omega⟩
  change iterate body (measure s) s = _
  rw [hm]
  simp only [iterate, hb]
  exact iterate_of_le h (by omega)

/-- Induction along the rounds of a loop, from the state in which it is left. -/
theorem run_induction (h : Decreases body measure) {motive : S → Prop}
    (leave : ∀ s, body s = none → motive s)
    (round : ∀ s t, body s = some t → motive t → motive s) (s : S) : motive s := by
  induction hn : measure s using Nat.strong_induction_on generalizing s with
  | _ n ih =>
    cases hb : body s with
    | none => exact leave s hb
    | some t =>
      have ht := h s t hb
      exact round s t hb (ih (measure t) (by omega) t rfl)

/-- The loop is really left: in its last state the body has no further round. -/
theorem body_run (h : Decreases body measure) (s : S) : body (run body measure s) = none := by
  refine run_induction h (motive := fun s => body (run body measure s) = none) ?_ ?_ s
  · intro s hb
    rw [run_of_none hb, hb]
  · intro s t hb ih
    rw [run_of_some h hb]
    exact ih

theorem run_invariant (h : Decreases body measure) {I : S → Prop}
    (hround : ∀ s t, I s → body s = some t → I t) {s : S} (hs : I s) : I (run body measure s) := by
  revert hs
  refine run_induction h (motive := fun s => I s → I (run body measure s)) ?_ ?_ s
  · intro s hb hs
    rwa [run_of_none hb]
  · intro s t hb ih hs
    rw [run_of_some h hb]
    exact ih (hround s t hs hb)

/-- What every round keeps holds after any number of rounds. -/
theorem iterate_invariant {I : S → Prop} (hround : ∀ s t, I s → body s = some t → I t) {s : S} (hs : I s)
    (n : ℕ) : I (iterate body n s) := by
  induction n generalizing s with
  | zero => exact hs
  | succ n ih =>
    rw [iterate]
    cases hb : body s with
    | none => exact hs
    | some t => exact ih (hround s t hs hb)

/-- Two bodies that agree on the states of an invariant make the same rounds. -/
theorem iterate_congr {body' : S → Option S} {I : S → Prop} (hround : ∀ s t, I s → body s = some t → I t)
    (heq : ∀ s, I s → body' s = body s) {s : S} (hs : I s) (n : ℕ) : iterate body' n s = iterate body n s := by
  induction n generalizing s with
  | zero => rfl
  | succ n ih =>
    rw [iterate, iterate, heq s hs]
    cases hb : body s with
    | none => rfl
    | some t => exact ih (hround s t hs hb)

/-- Two loops whose rounds keep a relation, and which are left together. -/
theorem run_related {T : Type*} {body' : T → Option T} {measure' : T → ℕ} (h : Decreases body measure)
    (h' : Decreases body' measure') {R : S → T → Prop}
    (round : ∀ s t, R s t → Option.Rel R (body s) (body' t)) {s : S} {t : T} (hst : R s t) :
    R (run body measure s) (run body' measure' t) := by
  revert t
  refine run_induction h (motive := fun s => ∀ {t}, R s t → R (run body measure s) (run body' measure' t)) ?_ ?_ s
  · intro s hb t hst
    have hround := round s t hst
    rw [hb] at hround
    cases hb' : body' t with
    | none => rwa [run_of_none hb, run_of_none hb']
    | some u =>
      rw [hb'] at hround
      cases hround
  · intro s u hb ih t hst
    have hround := round s t hst
    rw [hb] at hround
    cases hb' : body' t with
    | none =>
      rw [hb'] at hround
      cases hround
    | some v =>
      rw [hb'] at hround
      cases hround with
      | some huv =>
        rw [run_of_some h hb, run_of_some h' hb']
        exact ih huv

def Halts (body : S → Option S) (s : S) : Prop := ∃ n, body (iterate body n s) = none

theorem halts_of_none {s : S} (hb : body s = none) : Halts body s := ⟨0,hb⟩

theorem halts_of_some {s t : S} (hb : body s = some t) (ht : Halts body t) : Halts body s := by
  obtain ⟨n,hn⟩ := ht
  refine ⟨n + 1,?_⟩
  simpa only [iterate, hb] using hn

/-- A measure that goes down along the rounds from the states of an invariant. -/
theorem halts_of_measure {I : S → Prop} (hround : ∀ s t, I s → body s = some t → I t ∧ measure t < measure s)
    {s : S} (hs : I s) : Halts body s := by
  induction hn : measure s using Nat.strong_induction_on generalizing s with
  | _ n ih =>
    cases hb : body s with
    | none => exact halts_of_none hb
    | some t =>
      obtain ⟨ht,hlt⟩ := hround s t hs hb
      exact halts_of_some hb (ih (measure t) (by omega) ht rfl)

theorem not_halts_of_invariant {I : S → Prop} (hround : ∀ s, I s → ∃ t, body s = some t ∧ I t) {s : S}
    (hs : I s) : ¬ Halts body s := by
  rintro ⟨n,hn⟩
  induction n generalizing s with
  | zero =>
    obtain ⟨t,ht,-⟩ := hround s hs
    rw [iterate, ht] at hn
    cases hn
  | succ n ih =>
    obtain ⟨t,ht,hI⟩ := hround s hs
    simp only [iterate, ht] at hn
    exact ih hI hn

end ModernTcp.Loop
