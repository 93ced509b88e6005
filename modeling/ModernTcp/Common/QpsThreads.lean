import Mathlib.Tactic
import ModernTcp.Common.ServerMetrics
import ModernTcp.Lib.Threads

/-! # Requests per second from several threads

The counting of the request middleware and calls of `refresh_qps` on one `ServerMetrics`, by any threads, at the
grain of single atomic loads and stores. A thread goes on with what it has loaded while others store, and its own
stores may put back older values. `qps_last_count` is loaded before `total_requests`, which only grows. The numbers
are those of `refreshQps`.
-/
namespace ModernTcp.QpsThreads
open Execution ServerMetrics

/-- The next load, store or computation of a thread, with the locals it has by then. -/
inductive Pc
  | idle
  | loadTs (now : ℤ)
  | loadLastCount (now lastTs : ℤ)
  | loadTotal (now lastTs : ℤ) (lastCount : UInt64)
  | compare (now lastTs : ℤ) (lastCount curCnt : UInt64)
  | divide (now : ℤ) (dt : ℚ) (lastCount curCnt : UInt64)
  | storeCurrent (now : ℤ) (curCnt : UInt64) (qps : ℕ)
  | storeLastCount (now : ℤ) (curCnt : UInt64) (qps : ℕ)
  | storeTs (now : ℤ) (qps : ℕ)
  | loadCurrent
  | returned (qps : ℕ)
deriving DecidableEq

/-- An idle thread counts a request, or calls `refresh_qps` and reads the clock. -/
inductive Act
  | request
  | refresh (now : ℤ)
  | go
deriving DecidableEq

/-- What one thread does next. -/
def advance (m : ServerMetrics) : Pc → Act → Option (ServerMetrics × Pc)
  | .idle, .request => some (m.count 1,.idle)
  | .idle, .refresh now => some (m,.loadTs now)
  | .loadTs now, .go => some (m,.loadLastCount now m.qpsLastTs)
  | .loadLastCount now lastTs, .go => some (m,.loadTotal now lastTs m.qpsLastCount)
  | .loadTotal now lastTs lastCount, .go => some (m,.compare now lastTs lastCount m.totalRequests)
  | .compare now lastTs lastCount curCnt, .go =>
    let dt : ℚ := (now - lastTs : ℤ) / 1000
    some (m,if 1 ≤ dt then .divide now dt lastCount curCnt else .loadCurrent)
  | .divide now dt lastCount curCnt, .go =>
    some (m,.storeCurrent now curCnt ⌊((curCnt - lastCount).toNat : ℚ) / dt⌋₊)
  | .storeCurrent now curCnt qps, .go => some ({ m with qpsCurrent := qps },.storeLastCount now curCnt qps)
  | .storeLastCount now curCnt qps, .go => some ({ m with qpsLastCount := curCnt },.storeTs now qps)
  | .storeTs now qps, .go => some ({ m with qpsLastTs := now },.returned qps)
  | .loadCurrent, .go => some (m,.returned m.qpsCurrent)
  | .returned _, .go => some (m,.idle)
  | _, _ => none

abbrev State (T : Type*) := Threads.System T ServerMetrics Pc

variable {T : Type*}

def initial (T : Type*) : State T := { shared := {}, pc := fun _ => .idle }

def step [DecidableEq T] : State T → T × Act → Option (State T) := Threads.step (fun _ => advance)

/-- A request is counted only while the counter stays below its limit. -/
def Counts (s : State T) (a : T × Act) : Prop :=
  a.2 = .request → s.shared.totalRequests.toNat + 1 < 2 ^ 64

instance (s : State T) (a : T × Act) : Decidable (Counts s a) := inferInstanceAs (Decidable (_ → _))

/-- What the locals of a thread have to do with the counter: the counts are old values of it, in the order in which
they were loaded, and a rate is at most the count it comes from. -/
def Pc.Behind (total : UInt64) : Pc → Prop
  | .loadTotal _ _ lastCount => lastCount ≤ total
  | .compare _ _ lastCount curCnt => lastCount ≤ curCnt ∧ curCnt ≤ total
  | .divide _ dt lastCount curCnt => 1 ≤ dt ∧ lastCount ≤ curCnt ∧ curCnt ≤ total
  | .storeCurrent _ curCnt qps => qps ≤ curCnt.toNat ∧ curCnt ≤ total
  | .storeLastCount _ curCnt qps => qps ≤ curCnt.toNat ∧ curCnt ≤ total
  | .storeTs _ qps => qps ≤ total.toNat
  | .returned qps => qps ≤ total.toNat
  | .idle | .loadTs _ | .loadLastCount _ _ | .loadCurrent => True

/-- The last count and the rate are old values too, whoever stored them. -/
def MetricsBehind (m : ServerMetrics) : Prop :=
  m.qpsLastCount ≤ m.totalRequests ∧ m.qpsCurrent ≤ m.totalRequests.toNat

def Inv (m : ServerMetrics) (_ : T) (p : Pc) : Prop := MetricsBehind m ∧ p.Behind m.totalRequests

theorem Pc.Behind.mono {p : Pc} {total total' : UInt64} (h : p.Behind total) (hle : total ≤ total') :
    p.Behind total' := by
  have hnat : total.toNat ≤ total'.toNat := UInt64.le_iff_toNat_le.mp hle
  cases p with
  | idle | loadTs | loadLastCount | loadCurrent => trivial
  | loadTotal now lastTs lastCount => exact UInt64.le_trans h hle
  | compare now lastTs lastCount curCnt => exact ⟨h.1,UInt64.le_trans h.2 hle⟩
  | divide now dt lastCount curCnt => exact ⟨h.1,h.2.1,UInt64.le_trans h.2.2 hle⟩
  | storeCurrent now curCnt qps | storeLastCount now curCnt qps => exact ⟨h.1,UInt64.le_trans h.2 hle⟩
  | storeTs now qps | returned qps => exact Nat.le_trans h hnat

theorem floor_rate_le {d : ℕ} {dt : ℚ} (h : 1 ≤ dt) : ⌊(d : ℚ) / dt⌋₊ ≤ d := by
  apply Nat.floor_le_of_le
  exact div_le_self (Nat.cast_nonneg d) h

theorem le_count_one {m : ServerMetrics} (h : m.totalRequests.toNat + 1 < 2 ^ 64) :
    m.totalRequests ≤ (m.count 1).totalRequests := by
  rw [UInt64.le_iff_toNat_le, ServerMetrics.count, UInt64.toNat_add, UInt64.toNat_one, Nat.mod_eq_of_lt h]
  omega

theorem advance_metrics {m m' : ServerMetrics} {p p' : Pc} {a : Act} (h : advance m p a = some (m',p')) :
    m' = m ∨ (a = .request ∧ m' = m.count 1) ∨
      (∃ now curCnt qps, p = .storeCurrent now curCnt qps ∧ m' = { m with qpsCurrent := qps }) ∨
      (∃ now curCnt qps, p = .storeLastCount now curCnt qps ∧ m' = { m with qpsLastCount := curCnt }) ∨
      ∃ now qps, p = .storeTs now qps ∧ m' = { m with qpsLastTs := now } := by
  cases p <;> cases a <;> simp only [advance, Option.some.injEq, Prod.mk.injEq, reduceCtorEq] at h <;>
    obtain ⟨rfl,rfl⟩ := h
  case idle.request => exact Or.inr (Or.inl ⟨rfl,rfl⟩)
  case storeCurrent.go => exact Or.inr (Or.inr (Or.inl ⟨_,_,_,rfl,rfl⟩))
  case storeLastCount.go => exact Or.inr (Or.inr (Or.inr (Or.inl ⟨_,_,_,rfl,rfl⟩)))
  case storeTs.go => exact Or.inr (Or.inr (Or.inr (Or.inr ⟨_,_,rfl,rfl⟩)))
  all_goals exact Or.inl rfl

theorem advance_total_le {m m' : ServerMetrics} {p p' : Pc} {a : Act} (h : advance m p a = some (m',p'))
    (hroom : a = .request → m.totalRequests.toNat + 1 < 2 ^ 64) : m.totalRequests ≤ m'.totalRequests := by
  rcases advance_metrics h with rfl | ⟨rfl,rfl⟩ | ⟨_,_,_,-,rfl⟩ | ⟨_,_,_,-,rfl⟩ | ⟨_,_,-,rfl⟩
  · exact UInt64.le_refl _
  · exact le_count_one (hroom rfl)
  all_goals exact UInt64.le_refl _

/-- What a thread stores was loaded before, so it keeps the metrics behind the counter. -/
theorem advance_metricsBehind {m m' : ServerMetrics} {p p' : Pc} {a : Act} (h : advance m p a = some (m',p'))
    (hroom : a = .request → m.totalRequests.toNat + 1 < 2 ^ 64) (hm : MetricsBehind m)
    (hp : p.Behind m.totalRequests) : MetricsBehind m' := by
  rcases advance_metrics h with rfl | ⟨rfl,rfl⟩ | ⟨_,_,_,rfl,rfl⟩ | ⟨_,_,_,rfl,rfl⟩ | ⟨_,_,rfl,rfl⟩
  · exact hm
  · have hle := le_count_one (hroom rfl)
    exact ⟨UInt64.le_trans hm.1 hle,Nat.le_trans hm.2 (UInt64.le_iff_toNat_le.mp hle)⟩
  · exact ⟨hm.1,Nat.le_trans hp.1 (UInt64.le_iff_toNat_le.mp hp.2)⟩
  · exact ⟨hp.2,hm.2⟩
  · exact hm

theorem advance_behind {m m' : ServerMetrics} {p p' : Pc} {a : Act} (h : advance m p a = some (m',p'))
    (hm : MetricsBehind m) (hp : p.Behind m.totalRequests) : p'.Behind m'.totalRequests := by
  cases p <;> cases a <;> simp only [advance, Option.some.injEq, Prod.mk.injEq, reduceCtorEq] at h <;>
    obtain ⟨rfl,rfl⟩ := h
  case idle.request | idle.refresh | loadTs.go | returned.go => trivial
  case loadLastCount.go => exact hm.1
  case loadTotal.go => exact ⟨hp,UInt64.le_refl _⟩
  case compare.go now lastTs lastCount curCnt =>
    split
    · rename_i hdt
      exact ⟨hdt,hp⟩
    · trivial
  case divide.go now dt lastCount curCnt =>
    obtain ⟨hdt,hle,hcur⟩ := hp
    refine ⟨?_,hcur⟩
    have hrate := floor_rate_le (d := (curCnt - lastCount).toNat) hdt
    rw [UInt64.toNat_sub_of_le _ _ hle] at hrate ⊢
    omega
  case storeCurrent.go | storeTs.go => exact hp
  case storeLastCount.go => exact Nat.le_trans hp.1 (UInt64.le_iff_toNat_le.mp hp.2)
  case loadCurrent.go => exact hm.2

theorem initial_inv (t : T) : Inv (initial T).shared t ((initial T).pc t) :=
  ⟨⟨UInt64.le_refl _,Nat.le_refl _⟩,trivial⟩

section Runs
variable [DecidableEq T]

theorem step_inv {s u : State T} {a : T × Act} (hs : ∀ t, Inv s.shared t (s.pc t)) (hroom : Counts s a)
    (h : step s a = some u) : ∀ t, Inv u.shared t (u.pc t) := by
  obtain ⟨t,act⟩ := a
  refine Threads.step_forall hs h ?_ ?_
  · intro m p ha
    exact ⟨advance_metricsBehind ha hroom (hs t).1 (hs t).2,advance_behind ha (hs t).1 (hs t).2⟩
  · intro m p x ha _ hk
    exact ⟨advance_metricsBehind ha hroom (hs t).1 (hs t).2,hk.2.mono (advance_total_le ha hroom)⟩

theorem visits_inv {as : List (T × Act)} (hroom : Along step Counts (initial T) as) {s : State T}
    (hv : Visits step (initial T) as s) : ∀ t, Inv s.shared t (s.pc t) :=
  visits_invariant (I := fun s : State T => ∀ t, Inv s.shared t (s.pc t))
    (fun _ _ _ hs hP h => step_inv hs hP h) initial_inv hroom hv

/-- In every run in which the counter stays below its limit, a thread that divides has a difference that does not
wrap and a divisor of at least one. -/
theorem refresh_qps_never_wraps {as : List (T × Act)} (hroom : Along step Counts (initial T) as) {s : State T}
    (hv : Visits step (initial T) as s) {t : T} {now : ℤ} {dt : ℚ} {lastCount curCnt : UInt64}
    (hpc : s.pc t = .divide now dt lastCount curCnt) :
    lastCount ≤ curCnt ∧ (curCnt - lastCount).toNat = curCnt.toNat - lastCount.toNat ∧ 1 ≤ dt := by
  have hinv := (visits_inv hroom hv t).2
  rw [hpc] at hinv
  obtain ⟨hdt,hle,-⟩ := hinv
  exact ⟨hle,UInt64.toNat_sub_of_le _ _ hle,hdt⟩

/-- The steps a call of `refresh_qps` takes behind the reading of the clock. -/
def callSteps (m : ServerMetrics) (now : ℤ) : ℕ := if 1000 ≤ now - m.qpsLastTs then 8 else 5

/-- A call that no other thread interrupts does what `refreshQps` says. -/
theorem alone_refreshQps {s : State T} {t : T} (now : ℤ) (hidle : s.pc t = .idle) :
    exec step s ((t,.refresh now) :: List.replicate (callSteps s.shared now) (t,.go)) =
      some { shared := (refreshQps s.shared now).1
             pc := Function.update s.pc t (.returned (refreshQps s.shared now).2) } := by
  by_cases hlong : 1000 ≤ now - s.shared.qpsLastTs
  · have hdt : (1 : ℚ) ≤ ((now - s.shared.qpsLastTs : ℤ) : ℚ) / 1000 := one_le_dt.mpr hlong
    rw [refreshQps_of_le hlong, callSteps, if_pos hlong]
    simp only [List.replicate, exec, step, Threads.step, hidle, advance, Option.map_some, Option.bind_some,
      Function.update_self, Function.update_idem, if_pos hdt, startWindow, delta]
  · have hdt : ¬ (1 : ℚ) ≤ ((now - s.shared.qpsLastTs : ℤ) : ℚ) / 1000 := fun h => hlong (one_le_dt.mp h)
    rw [refreshQps_of_lt (not_le.mp hlong), callSteps, if_neg hlong]
    simp only [List.replicate, exec, step, Threads.step, hidle, advance, Option.map_some, Option.bind_some,
      Function.update_self, Function.update_idem, if_neg hdt]

end Runs

/-- Two requests and two calls. The first call stores its count of 1 over the 2 of the second one, and a third call
divides with it. -/
def staleCount : List (Bool × Act) :=
  [[(false,.request),(false,.refresh 2000000)],List.replicate 5 (false,.go),
    [(true,.request),(true,.refresh 2500000)],List.replicate 9 (true,.go),List.replicate 3 (false,.go),
    [(true,.refresh 4000000)],List.replicate 4 (true,.go)].flatten

theorem refresh_qps_never_wraps_staleCount : ∃ s, exec step (initial Bool) staleCount = some s ∧
    s.pc true = .divide 4000000 2000 1 2 ∧ ((1 : UInt64) ≤ 2 ∧ (2 - 1 : UInt64).toNat = 2 - 1 ∧ (1 : ℚ) ≤ 2000) := by
  have hrun : (exec step (initial Bool) staleCount).map (fun s => s.pc true) = some (.divide 4000000 2000 1 2) := by
    decide +kernel
  obtain ⟨s,hs,hpc⟩ := Option.map_eq_some_iff.mp hrun
  have hroom : Along step Counts (initial Bool) staleCount := by decide +kernel
  exact ⟨s,hs,hpc,refresh_qps_never_wraps hroom ⟨_,List.prefix_refl _,hs⟩ hpc⟩

end ModernTcp.QpsThreads
