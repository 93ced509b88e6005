import Mathlib.Algebra.Order.Floor.Semiring
import Mathlib.Data.Rat.Floor
import Mathlib.Tactic
import ModernTcp.Lib.Execution

/-! # Requests per second

`refresh_qps` with rational numbers for its doubles. The clock counts microseconds, and dividing by 1000
makes milliseconds of them; the variables are named `now_ms` and `qps_last_ts_ms`, and the comparison with
1.0 means a second.
-/
namespace ModernTcp
open Execution

structure ServerMetrics where
  totalRequests : UInt64 := 0
  qpsLastCount : UInt64 := 0
  qpsLastTs : ℤ := 0
  qpsCurrent : ℕ := 0
deriving DecidableEq

namespace ServerMetrics

/-- The requests since the last window, as the unsigned difference of the counters. -/
def delta (m : ServerMetrics) : ℕ := (m.totalRequests - m.qpsLastCount).toNat

def startWindow (m : ServerMetrics) (now : ℤ) (qps : ℕ) : ServerMetrics :=
  { m with qpsCurrent := qps, qpsLastCount := m.totalRequests, qpsLastTs := now }

/-- The metrics behind the call, and what it returns. -/
def refreshQps (m : ServerMetrics) (now : ℤ) : ServerMetrics × ℕ :=
  let dt : ℚ := (now - m.qpsLastTs : ℤ) / 1000
  if 1 ≤ dt then
    let qps := ⌊(m.delta : ℚ) / dt⌋₊
    (m.startWindow now qps,qps)
  else (m,m.qpsCurrent)

/-- Requests per second in windows of at least one second. -/
def perSecond (m : ServerMetrics) (now : ℤ) : ServerMetrics × ℕ :=
  if 1000000 ≤ now - m.qpsLastTs then
    let qps := ⌊(m.delta * 1000000 : ℚ) / (now - m.qpsLastTs : ℤ)⌋₊
    (m.startWindow now qps,qps)
  else (m,m.qpsCurrent)

/-- Requests that come in, and then a call at some time. -/
structure Call where
  requests : UInt64
  now : ℤ

def count (m : ServerMetrics) (requests : UInt64) : ServerMetrics :=
  { m with totalRequests := m.totalRequests + requests }

/-- The metrics and the value behind each call of a run. -/
def calls (f : ServerMetrics → ℤ → ServerMetrics × ℕ) : ServerMetrics → List Call → List (ServerMetrics × ℕ)
  | _, [] => []
  | m, c :: rest =>
    let r := f (m.count c.requests) c.now
    r :: calls f r.1 rest

def step (m : ServerMetrics) (c : Call) : Option ServerMetrics := some (refreshQps (m.count c.requests) c.now).1

/-- The call comes within a millisecond of the start of the window, or at least a second after it and with less
than one request a second. -/
def TooEarlyOrIdle (m : ServerMetrics) (now : ℤ) : Prop :=
  now - m.qpsLastTs < 1000 ∨ 1000000 ≤ now - m.qpsLastTs ∧ 1000000 * (m.delta : ℤ) < now - m.qpsLastTs

instance (m : ServerMetrics) (now : ℤ) : Decidable (m.TooEarlyOrIdle now) := inferInstanceAs (Decidable (_ ∨ _))

variable {m : ServerMetrics} {now : ℤ}

theorem one_le_dt {elapsed : ℤ} : (1 : ℚ) ≤ (elapsed : ℚ) / 1000 ↔ 1000 ≤ elapsed := by
  rw [le_div_iff₀ (by norm_num), one_mul]
  exact_mod_cast Iff.rfl

/-- The rates a second and a millisecond have the same integer part only below one a second. -/
theorem floor_rates_eq_iff {d : ℕ} {elapsed : ℤ} (h : 0 < elapsed) :
    ⌊(d : ℚ) / ((elapsed : ℚ) / 1000)⌋₊ = ⌊(d * 1000000 : ℚ) / elapsed⌋₊ ↔ 1000000 * (d : ℤ) < elapsed := by
  have hpos : (0 : ℚ) < elapsed := by exact_mod_cast h
  have hmilli : (d : ℚ) / ((elapsed : ℚ) / 1000) = (d * 1000000 : ℚ) / elapsed / 1000 := by
    field_simp
    ring
  rw [hmilli]
  set x := (d * 1000000 : ℚ) / elapsed with hx
  have hsmall : 1000000 * (d : ℤ) < elapsed ↔ x < 1 := by
    rw [hx, div_lt_one hpos]
    constructor
    · intro hlt
      have hcast : ((1000000 * (d : ℤ) : ℤ) : ℚ) < elapsed := by exact_mod_cast hlt
      push_cast at hcast
      linarith
    · intro hlt
      have hcast : ((1000000 * (d : ℤ) : ℤ) : ℚ) < elapsed := by
        push_cast
        linarith
      exact_mod_cast hcast
  have hnonneg : 0 ≤ x := by positivity
  rw [hsmall]
  constructor
  · intro heq
    by_contra hlarge
    -- the smaller rate is at least one too, and the larger one is a thousand times as large
    have hone : 1 ≤ x := not_lt.mp hlarge
    have hfloor : x < ⌊x⌋₊ + 1 := Nat.lt_floor_add_one x
    have hle : ((⌊x / 1000⌋₊ : ℕ) : ℚ) ≤ x / 1000 := Nat.floor_le (by positivity)
    have hpos' : 1 ≤ ⌊x⌋₊ := Nat.one_le_floor_iff x |>.mpr hone
    have hcast : (1 : ℚ) ≤ (⌊x⌋₊ : ℕ) := by exact_mod_cast hpos'
    rw [heq] at hle
    linarith
  · intro hlt
    rw [Nat.floor_eq_zero.mpr hlt, Nat.floor_eq_zero.mpr (by linarith)]

theorem refreshQps_of_le (h : 1000 ≤ now - m.qpsLastTs) : refreshQps m now =
    (m.startWindow now ⌊(m.delta : ℚ) / ((now - m.qpsLastTs : ℤ) / 1000)⌋₊,
      ⌊(m.delta : ℚ) / ((now - m.qpsLastTs : ℤ) / 1000)⌋₊) := by
  have hdt : (1 : ℚ) ≤ ((now - m.qpsLastTs : ℤ) : ℚ) / 1000 := one_le_dt.mpr h
  rw [refreshQps]
  dsimp only
  rw [if_pos hdt]

theorem refreshQps_of_lt (h : now - m.qpsLastTs < 1000) : refreshQps m now = (m,m.qpsCurrent) := by
  have hdt : ¬ (1 : ℚ) ≤ ((now - m.qpsLastTs : ℤ) : ℚ) / 1000 := fun hle => absurd (one_le_dt.mp hle) (not_le.mpr h)
  rw [refreshQps]
  dsimp only
  rw [if_neg hdt]

/-- One call does what windows of a second do exactly when it falls into no window, or finds less than one request a
second. -/
theorem refreshQps_eq_iff : refreshQps m now = perSecond m now ↔ m.TooEarlyOrIdle now := by
  unfold perSecond TooEarlyOrIdle
  by_cases hlong : 1000000 ≤ now - m.qpsLastTs
  · have hsame := floor_rates_eq_iff (d := m.delta) (show 0 < now - m.qpsLastTs by omega)
    rw [if_pos hlong, refreshQps_of_le (by omega)]
    constructor
    · intro heq
      exact Or.inr ⟨hlong,hsame.mp (congrArg Prod.snd heq)⟩
    · intro h
      have hidle := (h.resolve_left (by omega)).2
      rw [hsame.mpr hidle]
  · rw [if_neg hlong]
    by_cases hshort : now - m.qpsLastTs < 1000
    · rw [refreshQps_of_lt hshort]
      exact iff_of_true rfl (Or.inl hshort)
    · rw [refreshQps_of_le (by omega)]
      refine iff_of_false (fun heq => ?_) (by omega)
      have hts : now = m.qpsLastTs := congrArg (fun r => r.1.qpsLastTs) heq
      omega

theorem calls_cons (f : ServerMetrics → ℤ → ServerMetrics × ℕ) (m : ServerMetrics) (c : Call) (rest : List Call) :
    calls f m (c :: rest) = f (m.count c.requests) c.now :: calls f (f (m.count c.requests) c.now).1 rest := rfl

theorem along_step {P : ServerMetrics → Call → Prop} (m : ServerMetrics) (c : Call) (rest : List Call) :
    Along step P m (c :: rest) ↔ P m c ∧ Along step P (refreshQps (m.count c.requests) c.now).1 rest := by
  simp only [along_cons, step, Option.mem_def, Option.some.injEq, forall_eq']

/-- A run of calls goes as with windows of a second exactly when all of its calls do. -/
theorem qps_run_iff (m : ServerMetrics) (cs : List Call) : calls refreshQps m cs = calls perSecond m cs ↔
    Along step (fun m c => (m.count c.requests).TooEarlyOrIdle c.now) m cs := by
  induction cs generalizing m with
  | nil =>
    rw [calls, calls]
    exact iff_of_true rfl trivial
  | cons c rest ih =>
    rw [calls_cons, calls_cons, List.cons.injEq, refreshQps_eq_iff, along_step]
    apply and_congr_right
    intro hcall
    rw [← refreshQps_eq_iff.mpr hcall]
    exact ih _

/-- Five requests within two seconds: the rate is 0 where it should be 2. Behind it a call two milliseconds
later starts a new window. -/
theorem qps_two_seconds :
    (calls refreshQps {} [⟨5,2000000⟩,⟨0,2002000⟩]).map (fun r => (r.1.qpsLastTs,r.2)) = [(2000000,0),(2002000,0)] ∧
    (calls perSecond {} [⟨5,2000000⟩,⟨0,2002000⟩]).map (fun r => (r.1.qpsLastTs,r.2)) = [(2000000,2),(2000000,2)] ∧
    calls refreshQps {} [⟨5,2000000⟩,⟨0,2002000⟩] ≠ calls perSecond {} [⟨5,2000000⟩,⟨0,2002000⟩] := by
  have hfive : UInt64.toNat 5 = 5 := rfl
  have hrate : ⌊(5 / 2 : ℚ)⌋₊ = 2 := (Nat.floor_eq_iff (by norm_num)).mpr (by norm_num)
  have hread : (calls refreshQps {} [⟨5,2000000⟩,⟨0,2002000⟩]).map (fun r => (r.1.qpsLastTs,r.2)) =
      [(2000000,0),(2002000,0)] := by
    norm_num [calls, refreshQps, count, startWindow, delta, hfive]
  have hsecond : (calls perSecond {} [⟨5,2000000⟩,⟨0,2002000⟩]).map (fun r => (r.1.qpsLastTs,r.2)) =
      [(2000000,2),(2000000,2)] := by
    norm_num [calls, perSecond, count, startWindow, delta, hfive, hrate]
  refine ⟨hread,hsecond,?_⟩
  intro heq
  rw [heq, hsecond] at hread
  exact absurd hread (by decide)

end ServerMetrics
end ModernTcp
