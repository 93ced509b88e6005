import Mathlib.Algebra.BigOperators.Group.Finset.Basic
import ModernTcp.Lib.Execution

/-! # Threads over a shared memory

Every thread has its own control state. A step of the system is a step of one thread, which
changes the memory and its own control state only. A label names the thread and what the
environment decides for it, so a schedule of labels is an interleaving.
-/
namespace ModernTcp.Threads
variable {T M P A : Type*} [DecidableEq T]

structure System (T M P : Type*) where
  shared : M
  pc : T → P

def step (advance : T → M → P → A → Option (M × P)) (s : System T M P) (a : T × A) :
    Option (System T M P) :=
  (advance a.1 s.shared (s.pc a.1) a.2).map
    (fun r => { shared := r.1, pc := Function.update s.pc a.1 r.2 })

variable {advance : T → M → P → A → Option (M × P)}

theorem step_eq_some {s u : System T M P} {t : T} {a : A} :
    step advance s (t,a) = some u ↔ ∃ m p, advance t s.shared (s.pc t) a = some (m,p) ∧
      u = { shared := m, pc := Function.update s.pc t p } := by
  simp only [step, Option.map_eq_some_iff, Prod.exists]
  constructor
  · rintro ⟨m,p,h,rfl⟩
    exact ⟨m,p,h,rfl⟩
  · rintro ⟨m,p,h,rfl⟩
    exact ⟨m,p,h,rfl⟩

/-- A statement about the memory and each single thread is kept when the stepping thread
keeps it for itself and the change of the memory keeps it for the others. -/
theorem step_forall {K : M → T → P → Prop} {s u : System T M P} {t : T} {a : A}
    (hs : ∀ x, K s.shared x (s.pc x)) (h : step advance s (t,a) = some u)
    (own : ∀ m p, advance t s.shared (s.pc t) a = some (m,p) → K m t p)
    (other : ∀ m p x, advance t s.shared (s.pc t) a = some (m,p) → x ≠ t →
      K s.shared x (s.pc x) → K m x (s.pc x)) : ∀ x, K u.shared x (u.pc x) := by
  obtain ⟨m,p,ha,rfl⟩ := step_eq_some.mp h
  intro x
  by_cases hx : x = t
  · subst hx
    simpa using own m p ha
  · simpa [Function.update_of_ne hx] using other m p x ha hx (hs x)

/-- A run of one thread by itself is a run of the system in which the others do nothing. -/
theorem exec_thread {s : System T M P} {t : T} {as : List A} {m : M} {p : P}
    (h : Execution.exec (fun (x : M × P) a => advance t x.1 x.2 a) (s.shared,s.pc t) as = some (m,p)) :
    Execution.exec (step advance) s (as.map (t,·)) = some { shared := m, pc := Function.update s.pc t p } := by
  induction as generalizing s with
  | nil =>
    cases h
    rw [Function.update_eq_self]
    rfl
  | cons a as ih =>
    obtain ⟨⟨m',p'⟩,ha,hrest⟩ := Execution.exec_cons_eq_some.mp h
    have hnext := ih (s := { shared := m', pc := Function.update s.pc t p' }) (by simpa using hrest)
    rw [Function.update_idem] at hnext
    exact Execution.exec_cons_eq_some.mpr ⟨_,step_eq_some.mpr ⟨m',p',ha,rfl⟩,hnext⟩

/-- A sum over the threads after a step of one of them. -/
theorem sum_exchange {ι α : Type*} [Fintype ι] [DecidableEq ι] [AddCommMonoid α] {f g : ι → α} {i : ι}
    (h : ∀ j, j ≠ i → g j = f j) : (∑ j, g j) + f i = (∑ j, f j) + g i := by
  have hrest : ∑ j ∈ Finset.univ.erase i, g j = ∑ j ∈ Finset.univ.erase i, f j :=
    Finset.sum_congr rfl (fun j hj => h j (Finset.ne_of_mem_erase hj))
  rw [← Finset.add_sum_erase _ g (Finset.mem_univ i), ← Finset.add_sum_erase _ f (Finset.mem_univ i), hrest]
  rw [add_right_comm, add_comm (g i) (f i), add_right_comm]

end ModernTcp.Threads
