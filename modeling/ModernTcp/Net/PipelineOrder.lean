import Mathlib.Tactic
import ModernTcp.Lib.Threads

/-! # Pipelined requests on the worker pool

`handle_read` submits one task for each parsed request, in order. The threads of
`WorkerPool::worker_loop` pop the queue under its lock and run the tasks outside of it. A
task is known by its connection and by the position of its request in the pipeline, and a
response by the position of the request it answers.
-/
namespace ModernTcp.WorkerPool
open Execution

structure Task (C : Type*) where
  conn : C
  index : ℕ
  closeAfter : Bool
deriving DecidableEq

/-- The pool and what its tasks see of the connections. -/
structure Pool (C : Type*) where
  tasks : List (Task C) := []
  stopped : Bool := false
  parsed : C → ℕ := fun _ => 0
  alive : C → Bool := fun _ => true
  responses : C → List ℕ := fun _ => []

inductive Pc (C : Type*)
  | waiting
  | taken (task : Task C)
  | handling (task : Task C)
  | handled (task : Task C)
  | exited
deriving DecidableEq

inductive Act (C : Type*)
  | submit (c : C) (closeAfter : Bool)
  | stop
  | close (c : C)
  | go
  | respond
  | throws
deriving DecidableEq

section Model
variable {C : Type*} [DecidableEq C]

def Pool.submit (m : Pool C) (c : C) (closeAfter : Bool) : Pool C :=
  { m with
    parsed := Function.update m.parsed c (m.parsed c + 1)
    tasks := if m.stopped then m.tasks else m.tasks ++ [⟨c,m.parsed c,closeAfter⟩] }

def Pool.close (m : Pool C) (c : C) : Pool C := { m with alive := Function.update m.alive c false }

/-- The `send` of the HTTP handler; a dead connection takes nothing. -/
def Pool.send (m : Pool C) (task : Task C) : Pool C :=
  if m.alive task.conn then
    { m with responses := Function.update m.responses task.conn (m.responses task.conn ++ [task.index]) }
  else m

/-- Thread `none` stands for everything outside the pool: the reactor that submits, the
destructor that stops the pool, and whoever closes a connection. -/
def advance {k : ℕ} : Option (Fin k) → Pool C → Pc C → Act C → Option (Pool C × Pc C)
  | none, m, p, .submit c closeAfter => some (m.submit c closeAfter,p)
  | none, m, p, .stop => some ({ m with stopped := true },p)
  | none, m, p, .close c => some (m.close c,p)
  | some _, m, .waiting, .go =>
    match m.tasks with
    | [] => if m.stopped then some (m,.exited) else none
    | task :: rest => some ({ m with tasks := rest },.taken task)
  | some _, m, .taken task, .go => some (m,if m.alive task.conn then .handling task else .waiting)
  | some _, m, .handling task, .respond => some (m.send task,.handled task)
  | some _, m, .handling task, .throws => some (m.close task.conn,.waiting)
  | some _, m, .handled task, .go => some (if task.closeAfter then m.close task.conn else m,.waiting)
  | _, _, _, _ => none

/-- A pool of `k` workers and its surroundings. -/
abbrev State (C : Type*) (k : ℕ) := Threads.System (Option (Fin k)) (Pool C) (Pc C)

def initial (C : Type*) (k : ℕ) : State C k := { shared := {}, pc := fun _ => .waiting }

def step {k : ℕ} : State C k → Option (Fin k) × Act C → Option (State C k) := Threads.step advance

/-- The responses of a connection come in the order of its requests. -/
def InOrder {k : ℕ} (s : State C k) (c : C) : Prop := (s.shared.responses c).Pairwise (· < ·)

/-- What a worker still has to answer. -/
def Pc.open : Pc C → List (Task C)
  | .taken task | .handling task => [task]
  | _ => []

def indices (c : C) (ts : List (Task C)) : List ℕ := (ts.filter (fun t => t.conn = c)).map Task.index

/-- All requests of a connection that are answered, in work or queued, the oldest first. -/
def Pool.line (m : Pool C) (ts : List (Task C)) (c : C) : List ℕ :=
  m.responses c ++ indices c (ts ++ m.tasks)

/-- With the tasks `ts` in work, every connection's requests stand in line in their order. -/
def Lined (m : Pool C) (ts : List (Task C)) : Prop :=
  ∀ c, (m.line ts c).Pairwise (· < ·) ∧ ∀ i ∈ m.line ts c, i < m.parsed c

@[simp] theorem indices_append (c : C) (as bs : List (Task C)) :
    indices c (as ++ bs) = indices c as ++ indices c bs := by
  simp [indices]

theorem Lined.sublist {m m' : Pool C} {ts ts' : List (Task C)} (h : Lined m ts)
    (hp : m'.parsed = m.parsed) (hsub : ∀ c, (m'.line ts' c).Sublist (m.line ts c)) : Lined m' ts' := by
  intro c
  obtain ⟨hpair,hlt⟩ := h c
  refine ⟨hpair.sublist (hsub c),?_⟩
  intro i hi
  rw [hp]
  exact hlt i ((hsub c).subset hi)

theorem Lined.submit {m : Pool C} {ts : List (Task C)} (h : Lined m ts) (c : C) (closeAfter : Bool) :
    Lined (m.submit c closeAfter) ts := by
  intro d
  obtain ⟨hpair,hlt⟩ := h d
  by_cases hd : d = c
  · subst hd
    have hparsed : (m.submit d closeAfter).parsed d = m.parsed d + 1 := by simp [Pool.submit]
    have hline : (m.submit d closeAfter).line ts d = m.line ts d ∨
        (m.submit d closeAfter).line ts d = m.line ts d ++ [m.parsed d] := by
      by_cases hs : m.stopped
      · left
        simp [Pool.line, Pool.submit, hs]
      · right
        simp [Pool.line, Pool.submit, hs, indices]
    rw [hparsed]
    rcases hline with hline | hline
    · rw [hline]
      exact ⟨hpair,fun i hi => Nat.lt_succ_of_lt (hlt i hi)⟩
    · rw [hline]
      refine ⟨List.pairwise_append.mpr ⟨hpair,List.pairwise_singleton _ _,?_⟩,?_⟩
      · intro i hi j hj
        rw [List.mem_singleton.mp hj]
        exact hlt i hi
      · intro i hi
        rcases List.mem_append.mp hi with hi | hi
        · exact Nat.lt_succ_of_lt (hlt i hi)
        · rw [List.mem_singleton.mp hi]
          exact Nat.lt_succ_self _
  · have hline : (m.submit c closeAfter).line ts d = m.line ts d := by
      have hne : c ≠ d := fun he => hd he.symm
      by_cases hs : m.stopped <;> simp [Pool.line, Pool.submit, hs, indices, hne]
    have hparsed : (m.submit c closeAfter).parsed d = m.parsed d := by
      simp [Pool.submit, Function.update_of_ne hd]
    rw [hline, hparsed]
    exact ⟨hpair,hlt⟩

theorem drop_line (m : Pool C) (task : Task C) (c : C) : (m.line [] c).Sublist (m.line [task] c) := by
  unfold Pool.line
  rw [indices_append, indices_append]
  exact (List.Sublist.refl _).append (List.sublist_append_right _ _)

theorem send_line (m : Pool C) (task : Task C) (c : C) :
    ((m.send task).line [] c).Sublist (m.line [task] c) := by
  unfold Pool.send
  split
  · by_cases hc : task.conn = c
    · subst hc
      simp [Pool.line, indices]
    · have hne : c ≠ task.conn := fun he => hc he.symm
      simp [Pool.line, indices, hc, Function.update_of_ne hne]
  · exact drop_line m task c

theorem Lined.worker {k : ℕ} {i : Fin k} {m m' : Pool C} {p p' : Pc C} {a : Act C} (h : Lined m p.open)
    (ha : advance (some i) m p a = some (m',p')) : Lined m' p'.open := by
  cases p with
  | exited => cases a <;> simp [advance] at ha
  | waiting =>
    cases a <;> simp only [advance, reduceCtorEq] at ha
    cases htasks : m.tasks with
    | nil =>
      simp only [htasks] at ha
      split at ha <;> cases ha
      exact h
    | cons task rest =>
      simp only [htasks, Option.some.injEq, Prod.mk.injEq] at ha
      obtain ⟨rfl,rfl⟩ := ha
      refine h.sublist rfl (fun c => ?_)
      simp [Pool.line, Pc.open, htasks]
  | taken task =>
    cases a <;> simp only [advance, Option.some.injEq, Prod.mk.injEq, reduceCtorEq] at ha
    obtain ⟨rfl,rfl⟩ := ha
    split
    · exact h
    · exact h.sublist rfl (drop_line m task)
  | handling task =>
    cases a <;> simp only [advance, Option.some.injEq, Prod.mk.injEq, reduceCtorEq] at ha
    case respond =>
      obtain ⟨rfl,rfl⟩ := ha
      refine h.sublist ?_ (send_line m task)
      unfold Pool.send
      split <;> rfl
    case throws =>
      obtain ⟨rfl,rfl⟩ := ha
      exact h.sublist rfl (drop_line m task)
  | handled task =>
    cases a <;> simp only [advance, Option.some.injEq, Prod.mk.injEq, reduceCtorEq] at ha
    obtain ⟨rfl,rfl⟩ := ha
    split
    · exact h
    · exact h

theorem Lined.outside {k : ℕ} {ts : List (Task C)} {m m' : Pool C} {p p' : Pc C} {a : Act C}
    (h : Lined m ts) (ha : advance (none : Option (Fin k)) m p a = some (m',p')) : Lined m' ts := by
  cases a <;> simp only [advance, Option.some.injEq, Prod.mk.injEq, reduceCtorEq] at ha
  all_goals obtain ⟨rfl,-⟩ := ha
  · exact h.submit _ _
  · exact h
  · exact h

theorem step_lined {s u : State C 1} {a : Option (Fin 1) × Act C} (hs : Lined s.shared (s.pc (some 0)).open)
    (h : step s a = some u) : Lined u.shared (u.pc (some 0)).open := by
  obtain ⟨t,act⟩ := a
  obtain ⟨m,p,ha,rfl⟩ := Threads.step_eq_some.mp h
  cases t with
  | none =>
    have hpc : Function.update s.pc none p (some 0) = s.pc (some 0) := Function.update_of_ne (by simp) _ _
    dsimp only
    rw [hpc]
    exact hs.outside ha
  | some i =>
    obtain rfl : i = 0 := Subsingleton.elim i 0
    dsimp only
    rw [Function.update_self]
    exact hs.worker ha

theorem inOrder_single {as : List (Option (Fin 1) × Act C)} {s : State C 1}
    (hs : exec step (initial C 1) as = some s) (c : C) : InOrder s c := by
  have hlined : Lined s.shared (s.pc (some 0)).open := by
    refine exec_of_steps (I := fun s : State C 1 => Lined s.shared (s.pc (some 0)).open)
      (fun _ _ _ hs hu => step_lined hs hu) ?_ hs
    intro c
    simp [initial, Pool.line, Pc.open, indices]
  exact (hlined c).1.sublist (List.sublist_append_left _ _)

theorem exec_submit_two {k : ℕ} (c : C) :
    ∃ t, exec step (initial C k) [(none,.submit c false),(none,.submit c false)] = some t ∧
      t.shared.tasks = [⟨c,0,false⟩,⟨c,1,false⟩] ∧ t.shared.alive = (fun _ => true) ∧
      t.shared.responses = (fun _ => []) ∧ ∀ x, t.pc x = .waiting := by
  simp [exec, step, Threads.step, advance, initial, Pool.submit]

theorem exec_take {k : ℕ} {s : State C k} {i : Fin k} {task : Task C} {rest : List (Task C)}
    (hpc : s.pc (some i) = .waiting) (htasks : s.shared.tasks = task :: rest) :
    ∃ t, exec step s [(some i,.go)] = some t ∧ t.shared = { s.shared with tasks := rest } ∧
      t.pc (some i) = .taken task ∧ ∀ x, x ≠ some i → t.pc x = s.pc x := by
  simp +contextual [exec, step, Threads.step, advance, hpc, htasks]

theorem exec_answer {k : ℕ} {s : State C k} {i : Fin k} {task : Task C} (hpc : s.pc (some i) = .taken task)
    (halive : s.shared.alive task.conn = true) :
    ∃ t, exec step s [(some i,.go),(some i,.respond)] = some t ∧ t.shared = s.shared.send task ∧
      ∀ x, x ≠ some i → t.pc x = s.pc x := by
  simp +contextual [exec, step, Threads.step, advance, hpc, halive]

/-- Two requests, each in the hands of its own worker; the second worker is faster. -/
def overtaking {k : ℕ} (i j : Fin k) (c : C) : List (Option (Fin k) × Act C) :=
  [(none,.submit c false),(none,.submit c false),(some i,.go),(some j,.go),(some j,.go),(some j,.respond),
    (some i,.go),(some i,.respond)]

theorem overtaking_responses {k : ℕ} {i j : Fin k} (hij : i ≠ j) (c : C) :
    ∃ s, exec step (initial C k) (overtaking i j c) = some s ∧ s.shared.responses c = [1,0] := by
  have hne : some i ≠ some j := by simpa using hij
  obtain ⟨s,hs,htasks,halive,hresp,hpc⟩ := exec_submit_two (k := k) c
  obtain ⟨t,ht,htshared,hti,htother⟩ := exec_take (hpc (some i)) htasks
  have htj : t.pc (some j) = .waiting := by rw [htother _ hne.symm, hpc]
  have httasks : t.shared.tasks = [⟨c,1,false⟩] := by rw [htshared]
  obtain ⟨u,hu,hushared,huj,huother⟩ := exec_take htj httasks
  have hualive : u.shared.alive = fun _ => true := by rw [hushared, htshared, ← halive]
  obtain ⟨v,hv,hvshared,hvother⟩ := exec_answer huj (by rw [hualive])
  have hvi : v.pc (some i) = .taken ⟨c,0,false⟩ := by rw [hvother _ hne, huother _ hne, hti]
  have hvalive : v.shared.alive c = true := by simp [hvshared, Pool.send, hualive]
  obtain ⟨w,hw,hwshared,-⟩ := exec_answer hvi hvalive
  have hexec : exec step (initial C k) (overtaking i j c) = some w :=
    exec_trans hs (exec_trans ht (exec_trans hu (exec_trans hv hw)))
  have hfinal : w.shared.responses c = [1,0] := by
    rw [hwshared, hvshared, hushared, htshared]
    simp [Pool.send, halive, hresp]
  exact ⟨w,hexec,hfinal⟩

/-- Responses always come in request order if and only if there is a single worker. -/
theorem responses_in_order_iff {k : ℕ} (hk : 0 < k) (c : C) :
    (∀ as s, exec step (initial C k) as = some s → InOrder s c) ↔ k = 1 := by
  constructor
  · intro h
    by_contra hne
    have hij : (⟨0,hk⟩ : Fin k) ≠ ⟨1,by omega⟩ := by simp
    obtain ⟨s,hs,hresp⟩ := overtaking_responses hij c
    have horder := h _ s hs
    rw [InOrder, hresp] at horder
    revert horder
    decide
  · rintro rfl as s hs
    exact inOrder_single hs c

end Model

/-- One worker answers two requests. -/
def inTurn : List (Option (Fin 1) × Act ℕ) :=
  [(none,.submit 7 false),(none,.submit 7 false),(some 0,.go),(some 0,.go),(some 0,.respond),
    (some 0,.go),(some 0,.go),(some 0,.go),(some 0,.respond)]

theorem responses_in_order_one :
    ∃ s, exec step (initial ℕ 1) inTurn = some s ∧ s.shared.responses 7 = [0,1] ∧ InOrder s 7 :=
  ⟨_,rfl,rfl,(responses_in_order_iff (by decide) 7).mpr rfl inTurn _ rfl⟩

theorem responses_out_of_order :
    ∃ as s, exec step (initial ℕ 2) as = some s ∧ s.shared.responses 7 = [1,0] ∧ ¬ InOrder s 7 := by
  obtain ⟨s,hs,hresp⟩ := overtaking_responses (show (0 : Fin 2) ≠ 1 by decide) 7
  refine ⟨_,s,hs,hresp,?_⟩
  rw [InOrder, hresp]
  decide

end ModernTcp.WorkerPool
