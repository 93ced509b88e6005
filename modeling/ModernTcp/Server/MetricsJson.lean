import Mathlib.Tactic
import ModernTcp.Common.Config
import ModernTcp.Common.ServerMetrics
import ModernTcp.Lib.Decimal
import ModernTcp.Lib.Json

/-! # The metrics as JSON

`ServerMetrics::to_json` with rational numbers for its doubles. Each counter is loaded once, apart from
`total_requests`, and the clock is read three times. What is written is a JSON text with these values, the average in
hundredths.
-/
namespace ModernTcp

/-- The counters that `refresh_qps` does not use, and the start of the clock in nanoseconds. -/
structure Metrics extends ServerMetrics where
  activeConnections : ℤ := 0
  totalConnections : UInt64 := 0
  rejectedConnections : UInt64 := 0
  startTime : ℤ := 0
deriving DecidableEq

/-- The times at which `to_json` reads the clock, in nanoseconds. -/
structure Clock where
  refresh : ℤ
  uptime : ℤ
  average : ℤ

/-- The nearest number of hundredths; of two the even one. -/
def hundredths (q : ℚ) : ℕ :=
  let n := ⌊100 * q⌋₊
  if 100 * q - n < 1 / 2 ∨ 100 * q - n = 1 / 2 ∧ n % 2 = 0 then n else n + 1

/-- A double under `std::fixed` and `std::setprecision(2)`, if it is not negative. -/
def fixedTwo (q : ℚ) : List UInt8 :=
  let n := hundredths q
  decimal (n / 100) ++ 46 :: (decimal (n % 100 / 10) ++ decimal (n % 10))

namespace Metrics

def uptimeSeconds (m : Metrics) (now : ℤ) : ℕ := ((now - m.startTime).tdiv 1000000000 % 2 ^ 64).toNat

def avgQps (m : Metrics) (now : ℤ) : ℚ :=
  let elapsed : ℚ := (now - m.startTime : ℤ) / 1000000000
  if 0 < elapsed then m.totalRequests.toNat / elapsed else 0

def toJson (m : Metrics) (clock : Clock) (workerQueueDepth : UInt64) : Metrics × List UInt8 :=
  let refreshed := m.refreshQps (clock.refresh.tdiv 1000)
  ({ m with toServerMetrics := refreshed.1 },
    bytes "\x7b\n" ++
    bytes "  \"uptime_seconds\": " ++ decimal (m.uptimeSeconds clock.uptime) ++ bytes ",\n" ++
    bytes "  \"connections\": \x7b\n" ++
    bytes "    \"active\": " ++ signedDecimal m.activeConnections ++ bytes ",\n" ++
    bytes "    \"total_accepted\": " ++ decimal m.totalConnections.toNat ++ bytes ",\n" ++
    bytes "    \"rejected_over_limit\": " ++ decimal m.rejectedConnections.toNat ++ bytes "\n" ++
    bytes "  \x7d,\n" ++
    bytes "  \"requests\": \x7b\n" ++
    bytes "    \"total\": " ++ decimal m.totalRequests.toNat ++ bytes ",\n" ++
    bytes "    \"qps_current\": " ++ decimal refreshed.2 ++ bytes ",\n" ++
    bytes "    \"qps_avg\": " ++ fixedTwo (m.avgQps clock.average) ++ bytes "\n" ++
    bytes "  \x7d,\n" ++
    bytes "  \"worker_pool\": \x7b\n" ++
    bytes "    \"queue_depth\": " ++ decimal workerQueueDepth.toNat ++ bytes "\n" ++
    bytes "  \x7d\n" ++
    bytes "\x7d\n")

/-- What the text should say, with this average. -/
def document (m : Metrics) (clock : Clock) (workerQueueDepth : UInt64) (average : ℚ) : Json.Value :=
  .object [
    (bytes "uptime_seconds",.number (m.uptimeSeconds clock.uptime)),
    (bytes "connections",.object [
      (bytes "active",.number m.activeConnections),
      (bytes "total_accepted",.number m.totalConnections.toNat),
      (bytes "rejected_over_limit",.number m.rejectedConnections.toNat)]),
    (bytes "requests",.object [
      (bytes "total",.number m.totalRequests.toNat),
      (bytes "qps_current",.number (m.refreshQps (clock.refresh.tdiv 1000)).2),
      (bytes "qps_avg",.number average)]),
    (bytes "worker_pool",.object [(bytes "queue_depth",.number workerQueueDepth.toNat)])]

end Metrics

theorem isInt_decimal (n : ℕ) : Json.IsInt (decimal n) := by
  refine ⟨decimal_ne_nil n,fun h => ?_⟩
  rw [head_decimal h]
  rfl

theorem jsonDigits_decimal (n : ℕ) : ∀ b ∈ decimal n, isDigit b = true :=
  fun _ hb => isDigit_of_mem_decimal hb

open Json

theorem writes_signedDecimal (z : ℤ) : Writes (.number z) (signedDecimal z) := by
  have hwrites : Writes (.number (numberValue (decide (z < 0)) (decimal z.natAbs) []))
      (numberText (decide (z < 0)) (decimal z.natAbs) []) :=
    .number (isInt_decimal z.natAbs) (by simpa using jsonDigits_decimal z.natAbs)
  have htext : numberText (decide (z < 0)) (decimal z.natAbs) [] = signedDecimal z := by
    simp [numberText, signedDecimal]
  have hdigits : digitsValue (decimal z.natAbs) = z.natAbs := digitsValue_decimal z.natAbs
  have hvalue : numberValue (decide (z < 0)) (decimal z.natAbs) [] = z := by
    have habs : ((z.natAbs : ℕ) : ℚ) = |(z : ℚ)| := by rw [Nat.cast_natAbs, Int.cast_abs]
    rw [numberValue, hdigits, habs]
    by_cases hneg : z < 0
    · have hcast : (z : ℚ) < 0 := by exact_mod_cast hneg
      simp [digitsValue, hneg, abs_of_neg hcast]
    · have hcast : (0 : ℚ) ≤ z := by exact_mod_cast not_lt.mp hneg
      simp [digitsValue, hneg, abs_of_nonneg hcast]
  rw [htext, hvalue] at hwrites
  exact hwrites

theorem writes_decimal (n : ℕ) : Writes (.number n) (decimal n) := by
  have hwrites := writes_signedDecimal n
  rw [signedDecimal, if_neg (by omega)] at hwrites
  simpa using hwrites

theorem digitsValue_pair {a b : ℕ} (ha : a < 10) (hb : b < 10) :
    digitsValue (decimal a ++ decimal b) = 10 * a + b := by
  have hbyte : ∀ n < 10, (UInt8.ofNat (48 + n)).toNat = 48 + n := fun n hn =>
    UInt8.toNat_ofNat_of_lt' (show 48 + n < 256 by omega)
  rw [decimal_digit ha, decimal_digit hb, digitsValue]
  simp only [List.cons_append, List.nil_append, List.foldl_cons, List.foldl_nil, hbyte a ha, hbyte b hb]
  omega

theorem writes_fixedTwo (q : ℚ) : Writes (.number ((hundredths q : ℚ) / 100)) (fixedTwo q) := by
  set n := hundredths q with hn
  have htens : n % 100 / 10 < 10 := by omega
  have hones : n % 10 < 10 := by omega
  have hdigits : ∀ b ∈ decimal (n / 100) ++ (decimal (n % 100 / 10) ++ decimal (n % 10)), isDigit b = true := by
    simp only [List.forall_mem_append]
    exact ⟨jsonDigits_decimal _,jsonDigits_decimal _,jsonDigits_decimal _⟩
  have hwrites : Writes (.number (numberValue false (decimal (n / 100)) (decimal (n % 100 / 10) ++ decimal (n % 10))))
      (numberText false (decimal (n / 100)) (decimal (n % 100 / 10) ++ decimal (n % 10))) :=
    .number (isInt_decimal _) hdigits
  have htext : numberText false (decimal (n / 100)) (decimal (n % 100 / 10) ++ decimal (n % 10)) = fixedTwo q := by
    simp [numberText, fixedTwo, decimal_ne_nil, hn]
  have hlength : (decimal (n % 100 / 10) ++ decimal (n % 10)).length = 2 := by
    rw [decimal_digit htens, decimal_digit hones]
    rfl
  have hwhole : digitsValue (decimal (n / 100)) = n / 100 := digitsValue_decimal _
  have hsplit : n = 100 * (n / 100) + (10 * (n % 100 / 10) + n % 10) := by omega
  have hvalue : numberValue false (decimal (n / 100)) (decimal (n % 100 / 10) ++ decimal (n % 10)) = (n : ℚ) / 100 := by
    rw [numberValue, hwhole, digitsValue_pair htens hones, hlength]
    conv_rhs => rw [hsplit]
    push_cast
    norm_num
    ring
  rw [htext, hvalue] at hwrites
  exact hwrites

theorem hundredths_near {q : ℚ} (h : 0 ≤ q) : |(hundredths q : ℚ) / 100 - q| ≤ 1 / 200 := by
  have hlow : (⌊100 * q⌋₊ : ℚ) ≤ 100 * q := Nat.floor_le (by positivity)
  have hhigh : 100 * q < ⌊100 * q⌋₊ + 1 := Nat.lt_floor_add_one _
  have hhalf : 100 * q - hundredths q ≤ 1 / 2 ∧ hundredths q - 100 * q ≤ 1 / 2 := by
    unfold hundredths
    dsimp only
    split_ifs with hdown
    · have hless : 100 * q - ⌊100 * q⌋₊ ≤ 1 / 2 := by
        rcases hdown with hdown | ⟨hdown,-⟩
        · exact hdown.le
        · exact hdown.le
      exact ⟨hless,by linarith⟩
    · have hmore : 1 / 2 ≤ 100 * q - ⌊100 * q⌋₊ := not_lt.mp fun hlt => hdown (Or.inl hlt)
      push_cast
      exact ⟨by linarith,by linarith⟩
  rw [abs_le]
  constructor
  · linarith [hhalf.1]
  · linarith [hhalf.2]

namespace Metrics
variable (m : Metrics) (clock : Clock) (workerQueueDepth : UInt64)

theorem avgQps_nonneg (now : ℤ) : 0 ≤ m.avgQps now := by
  unfold avgQps
  dsimp only
  split_ifs with h
  · positivity
  · exact le_refl 0

set_option maxRecDepth 2000 in
theorem toJson_text : Text (m.document clock workerQueueDepth (hundredths (m.avgQps clock.average) / 100))
    (m.toJson clock workerQueueDepth).2 := by
  have hspace : (bytes " ").all isBlank = true := by decide
  have hindent : (bytes "\n    ").all isBlank = true := by decide
  have houtdent : (bytes "\n  ").all isBlank = true := by decide
  have hend : (bytes "\n").all isBlank = true := by decide
  have hconnections := Writes.object hindent hspace houtdent
    (.cons ((writes_signedDecimal m.activeConnections).member (bytes "active") (by decide))
      (.cons ((writes_decimal m.totalConnections.toNat).member (bytes "total_accepted") (by decide))
        (.cons ((writes_decimal m.rejectedConnections.toNat).member (bytes "rejected_over_limit") (by decide)) .nil)))
  have hrequests := Writes.object hindent hspace houtdent
    (.cons ((writes_decimal m.totalRequests.toNat).member (bytes "total") (by decide))
      (.cons ((writes_decimal (m.refreshQps (clock.refresh.tdiv 1000)).2).member (bytes "qps_current") (by decide))
        (.cons ((writes_fixedTwo (m.avgQps clock.average)).member (bytes "qps_avg") (by decide)) .nil)))
  have hpool := Writes.object hindent hspace houtdent
    (.cons ((writes_decimal workerQueueDepth.toNat).member (bytes "queue_depth") (by decide)) .nil)
  have hall := Writes.object houtdent hspace hend
    (.cons ((writes_decimal (m.uptimeSeconds clock.uptime)).member (bytes "uptime_seconds") (by decide))
      (.cons (hconnections.member (bytes "connections") (by decide))
        (.cons (hrequests.member (bytes "requests") (by decide))
          (.cons (hpool.member (bytes "worker_pool") (by decide)) .nil))))
  have htext : Text (m.document clock workerQueueDepth (hundredths (m.avgQps clock.average) / 100)) _ :=
    hall.text hend
  convert htext using 1
  simp only [toJson, objectText, membersText, keyText, List.append_assoc, List.cons_append]
  rfl

/-- A client that decodes the metrics gets the values of all counters, and the average to half a hundredth. -/
theorem metrics_json : ∃ average : ℚ, |average - m.avgQps clock.average| ≤ 1 / 200 ∧
    decode (m.toJson clock workerQueueDepth).2 = some (m.document clock workerQueueDepth average) :=
  ⟨_,hundredths_near (m.avgQps_nonneg clock.average),decode_text (toJson_text m clock workerQueueDepth)⟩

/-- 5 requests in 8 seconds, that is 0.625 a second. -/
example : (({ totalRequests := 5, activeConnections := -1 } : Metrics).toJson ⟨0,8999999999,8000000000⟩ 3).2 =
    bytes ("\x7b\n  \"uptime_seconds\": 8,\n  \"connections\": \x7b\n    \"active\": -1,\n    \"total_accepted\": 0,\n" ++
      "    \"rejected_over_limit\": 0\n  \x7d,\n  \"requests\": \x7b\n    \"total\": 5,\n    \"qps_current\": 0,\n" ++
      "    \"qps_avg\": 0.62\n  \x7d,\n  \"worker_pool\": \x7b\n    \"queue_depth\": 3\n  \x7d\n\x7d\n") := by
  decide +kernel

end Metrics
end ModernTcp
