import Mathlib.Data.List.Basic

/-! # Pipelines of stream components

A component takes chunks of an input stream and gives chunks of an output stream. When it does what is up to the
environment, which chooses the actions and the chunks. A component realises a function of streams when its output
is always a front part of what the function gives for its input, and all of it when the component is idle. Behind
one another, components realise the composition of their functions, however their steps are interleaved.
-/
namespace ModernTcp.Pipeline
variable {I M O : Type*}

structure Component (I O : Type*) where
  State : Type
  Act : Type
  start : State
  step : State → Act → List I → Option (State × List O)
  Idle : State → Prop

/-- The state behind a schedule of actions, each with the chunk it takes, and all of the output. -/
def run (C : Component I O) : C.State → List (C.Act × List I) → Option (C.State × List O)
  | s, [] => some (s,[])
  | s, (a,i) :: rest =>
    match C.step s a i with
    | none => none
    | some (t,o) => (run C t rest).map (fun r => (r.1,o ++ r.2))

/-- All of the input of a schedule. -/
def input {A : Type} (as : List (A × List I)) : List I := (as.map Prod.snd).flatten

def Realizes (C : Component I O) (f : List I → List O) : Prop :=
  ∀ as t ys, run C C.start as = some (t,ys) → ys <+: f (input as) ∧ (C.Idle t → ys = f (input as))

/-- More input, more output. -/
def Monotone (f : List I → List O) : Prop := ∀ xs more, f xs <+: f (xs ++ more)

/-- Which of two components acts. If both do, the second one takes what the first one gives. -/
inductive CompAct (A B : Type)
  | left (a : A)
  | right (b : B)
  | both (a : A) (b : B)
deriving DecidableEq

def comp (C : Component I M) (D : Component M O) : Component I O where
  State := C.State × D.State
  Act := CompAct C.Act D.Act
  start := (C.start,D.start)
  Idle s := C.Idle s.1 ∧ D.Idle s.2
  step s a i :=
    match a with
    | .left a =>
      match C.step s.1 a i with
      | some (t,[]) => some ((t,s.2),[])
      | _ => none
    | .right b =>
      match i with
      | [] => (D.step s.2 b []).map (fun r => ((s.1,r.1),r.2))
      | _ :: _ => none
    | .both a b => (C.step s.1 a i).bind (fun r => (D.step s.2 b r.2).map (fun q => ((r.1,q.1),q.2)))

inductive Passing
  | pass (n : ℕ)
deriving DecidableEq

/-- A channel: the chunk goes in at the back, and as many items as the action says come out at the front. -/
def channel (α : Type) : Component α α where
  State := List α
  Act := Passing
  start := []
  Idle q := q = []
  step
    | q, .pass n, i => some ((q ++ i).drop n,(q ++ i).take n)

@[simp] theorem run_nil (C : Component I O) (s : C.State) : run C s [] = some (s,[]) := rfl

@[simp] theorem input_nil {A : Type} : input ([] : List (A × List I)) = [] := rfl

@[simp] theorem input_cons {A : Type} (a : A) (i : List I) (as : List (A × List I)) :
    input ((a,i) :: as) = i ++ input as := rfl

theorem run_cons {C : Component I O} {s t : C.State} {a : C.Act} {i : List I} {as : List (C.Act × List I)}
    {ys : List O} : run C s ((a,i) :: as) = some (t,ys) ↔
      ∃ u o rest, C.step s a i = some (u,o) ∧ run C u as = some (t,rest) ∧ ys = o ++ rest := by
  rw [run]
  cases hstep : C.step s a i with
  | none => simp
  | some r =>
    obtain ⟨u,o⟩ := r
    simp only [Option.map_eq_some_iff, Prod.exists, Prod.mk.injEq, Option.some.injEq]
    constructor
    · rintro ⟨t',rest,hrest,rfl,rfl⟩
      exact ⟨u,o,rest,⟨rfl,rfl⟩,hrest,rfl⟩
    · rintro ⟨u',o',rest,⟨rfl,rfl⟩,hrest,rfl⟩
      exact ⟨t,rest,hrest,rfl,rfl⟩

/-- What every step keeps of input, output and state, holds at the end of every run. -/
theorem run_invariant {C : Component I O} {R : List I → List O → C.State → Prop}
    (hstep : ∀ xs ys s a i t o, R xs ys s → C.step s a i = some (t,o) → R (xs ++ i) (ys ++ o) t)
    {xs : List I} {ys zs : List O} {s t : C.State} {as : List (C.Act × List I)} (hs : R xs ys s)
    (h : run C s as = some (t,zs)) : R (xs ++ input as) (ys ++ zs) t := by
  induction as generalizing xs ys s zs with
  | nil =>
    cases h
    simpa using hs
  | cons x as ih =>
    obtain ⟨a,i⟩ := x
    obtain ⟨u,o,rest,hu,hrest,rfl⟩ := run_cons.mp h
    have hlater := ih (hstep _ _ _ _ _ _ _ hs hu) hrest
    rwa [List.append_assoc, List.append_assoc] at hlater

theorem realizes_of_invariant {C : Component I O} {f : List I → List O} (R : List I → List O → C.State → Prop)
    (hstart : R [] [] C.start)
    (hstep : ∀ xs ys s a i t o, R xs ys s → C.step s a i = some (t,o) → R (xs ++ i) (ys ++ o) t)
    (hout : ∀ xs ys s, R xs ys s → ys <+: f xs ∧ (C.Idle s → ys = f xs)) : Realizes C f := by
  intro as t ys h
  exact hout _ _ _ (run_invariant hstep hstart h)

/-- A channel loses nothing, and changes neither the items nor their order. -/
theorem channel_realizes (α : Type) : Realizes (channel α) id := by
  have hsplit : ∀ (ys q i : List α) (n : ℕ), ys ++ q ++ i = ys ++ (q ++ i).take n ++ (q ++ i).drop n := by
    intro ys q i n
    rw [List.append_assoc, List.append_assoc, List.take_append_drop]
  refine realizes_of_invariant (fun xs ys (q : List α) => xs = ys ++ q) rfl ?_ ?_
  · intro xs ys q act i t o hs h
    obtain ⟨n⟩ := act
    cases h
    exact (congrArg (· ++ i) hs).trans (hsplit ys q i n)
  · intro xs ys q hs
    refine ⟨⟨q,hs.symm⟩,?_⟩
    intro hidle
    obtain rfl : q = [] := hidle
    exact (hs.trans (List.append_nil ys)).symm

/-- A run of two components is one of each; the second one takes what the first one gives. -/
theorem run_comp {C : Component I M} {D : Component M O} {s t : (comp C D).State}
    {as : List ((comp C D).Act × List I)} {zs : List O} (h : run (comp C D) s as = some (t,zs)) :
    ∃ cs ms ds, run C s.1 cs = some (t.1,ms) ∧ input cs = input as ∧ run D s.2 ds = some (t.2,zs) ∧ input ds = ms := by
  induction as generalizing s zs with
  | nil =>
    cases h
    exact ⟨[],[],[],rfl,rfl,rfl,rfl⟩
  | cons x as ih =>
    obtain ⟨act,i⟩ := x
    obtain ⟨u,o,rest,hu,hrest,rfl⟩ := run_cons.mp h
    obtain ⟨cs,ms,ds,hc,hci,hd,hdi⟩ := ih hrest
    cases act with
    | left a =>
      dsimp only [comp] at hu
      split at hu
      · rename_i v hv
        cases hu
        exact ⟨(a,i) :: cs,ms,ds,run_cons.mpr ⟨_,_,_,hv,hc,rfl⟩,congrArg (i ++ ·) hci,hd,hdi⟩
      · cases hu
    | right b =>
      dsimp only [comp] at hu
      split at hu
      · obtain ⟨⟨v,o'⟩,hv,heq⟩ := Option.map_eq_some_iff.mp hu
        cases heq
        exact ⟨cs,ms,(b,[]) :: ds,hc,hci,run_cons.mpr ⟨_,_,_,hv,hd,rfl⟩,hdi⟩
      · cases hu
    | both a b =>
      dsimp only [comp] at hu
      obtain ⟨⟨v,m⟩,hv,hmap⟩ := Option.bind_eq_some_iff.mp hu
      obtain ⟨⟨w,o'⟩,hw,heq⟩ := Option.map_eq_some_iff.mp hmap
      cases heq
      exact ⟨(a,i) :: cs,m ++ ms,(b,m) :: ds,run_cons.mpr ⟨_,_,_,hv,hc,rfl⟩,congrArg (i ++ ·) hci,
        run_cons.mpr ⟨_,_,_,hw,hd,rfl⟩,congrArg (m ++ ·) hdi⟩

theorem Monotone.of_prefix {f : List I → List O} (hf : Monotone f) {xs ys : List I} (h : xs <+: ys) : f xs <+: f ys := by
  obtain ⟨more,rfl⟩ := h
  exact hf xs more

theorem Realizes.comp {C : Component I M} {D : Component M O} {f : List I → List M} {g : List M → List O}
    (hC : Realizes C f) (hD : Realizes D g) (hg : Monotone g) : Realizes (comp C D) (g ∘ f) := by
  intro as t zs h
  obtain ⟨cs,ms,ds,hc,hci,hd,hdi⟩ := run_comp h
  obtain ⟨hcpre,hcidle⟩ := hC cs t.1 ms hc
  obtain ⟨hdpre,hdidle⟩ := hD ds t.2 zs hd
  rw [hci] at hcpre hcidle
  rw [hdi] at hdpre hdidle
  refine ⟨hdpre.trans (hg.of_prefix hcpre),?_⟩
  intro hidle
  rw [hdidle hidle.2, hcidle hidle.1, Function.comp]

theorem monotone_id : Monotone (id : List I → List I) := fun xs more => List.prefix_append xs more

theorem Monotone.comp {f : List I → List M} {g : List M → List O} (hg : Monotone g) (hf : Monotone f) :
    Monotone (g ∘ f) := fun xs more => hg.of_prefix (hf xs more)

end ModernTcp.Pipeline
