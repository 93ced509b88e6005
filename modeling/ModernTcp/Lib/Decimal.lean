import Mathlib.Data.List.TakeWhile
import Mathlib.Tactic

/-! # Decimal numerals

The decimal digits of a number as bytes, and the value of such digits.
-/
namespace ModernTcp

def isDigit (c : UInt8) : Bool := 48 ≤ c && c ≤ 57

def digitsValue (ds : List UInt8) : ℕ := ds.foldl (fun n d => 10 * n + (d.toNat - 48)) 0

def decimal (n : ℕ) : List UInt8 := (Nat.toDigits 10 n).map (fun c => UInt8.ofNat c.toNat)

/-- With a sign in front of a negative number. -/
def signedDecimal (z : ℤ) : List UInt8 := (if z < 0 then [45] else []) ++ decimal z.natAbs

theorem digit_of_mem_decimal {n : ℕ} {b : UInt8} (h : b ∈ decimal n) : 48 ≤ b.toNat ∧ b.toNat ≤ 57 := by
  obtain ⟨c,hc,rfl⟩ := List.mem_map.mp h
  have hdigit := Nat.isDigit_of_mem_toDigits (by decide) (by decide) hc
  have hrange : 48 ≤ c.toNat ∧ c.toNat ≤ 57 := Char.isDigit_iff_toNat.mp hdigit
  rw [UInt8.toNat_ofNat_of_lt' (Nat.lt_of_le_of_lt hrange.2 (by decide))]
  exact hrange

theorem isDigit_of_mem_decimal {n : ℕ} {b : UInt8} (h : b ∈ decimal n) : isDigit b = true := by
  obtain ⟨hlow,hhigh⟩ := digit_of_mem_decimal h
  simp only [isDigit, Bool.and_eq_true, decide_eq_true_eq, UInt8.le_iff_toNat_le]
  exact ⟨hlow,hhigh⟩

theorem decimal_ne_nil (n : ℕ) : decimal n ≠ [] := by
  simp [decimal, Nat.toDigits_ne_nil]

theorem takeWhile_decimal (n : ℕ) : (decimal n).takeWhile isDigit = decimal n :=
  List.takeWhile_eq_self_iff.mpr fun _ hb => isDigit_of_mem_decimal hb

theorem foldl_digits {cs : List Char} (h : ∀ c ∈ cs, c.toNat ≤ 57) (m : ℕ) :
    (cs.map (fun c => UInt8.ofNat c.toNat)).foldl (fun n d => 10 * n + (d.toNat - 48)) m =
      Nat.ofDigitChars 10 cs m := by
  induction cs generalizing m with
  | nil => simp
  | cons c cs ih =>
    obtain ⟨hc,hcs⟩ := List.forall_mem_cons.mp h
    have hval : (UInt8.ofNat c.toNat).toNat = c.toNat :=
      UInt8.toNat_ofNat_of_lt' (Nat.lt_of_le_of_lt hc (by decide))
    rw [List.map_cons, List.foldl_cons, ih hcs, hval, Nat.ofDigitChars_cons]
    rfl

theorem digitsValue_decimal (n : ℕ) : digitsValue (decimal n) = n := by
  have hle : ∀ c ∈ Nat.toDigits 10 n, c.toNat ≤ 57 := fun c hc =>
    (Char.isDigit_iff_toNat.mp (Nat.isDigit_of_mem_toDigits (by decide) (by decide) hc)).2
  rw [digitsValue, decimal, foldl_digits hle, Nat.ofDigitChars_ten_toDigits]

theorem decimal_digit {n : ℕ} (h : n < 10) : decimal n = [UInt8.ofNat (48 + n)] := by
  rw [decimal, Nat.toDigits_of_lt_base h, List.map_singleton, Nat.toNat_digitChar_of_lt_ten h, Nat.add_comm]

/-- No other number begins with a zero. -/
theorem head_decimal {n : ℕ} (h : (decimal n).head? = some 48) : n = 0 := by
  induction n using Nat.strong_induction_on with
  | h n ih =>
    rcases Nat.lt_or_ge n 10 with hsmall | hlarge
    · rw [decimal_digit hsmall] at h
      have hbyte : UInt8.ofNat (48 + n) = 48 := Option.some.inj h
      have hnat := congrArg UInt8.toNat hbyte
      rw [UInt8.toNat_ofNat_of_lt' (show 48 + n < 256 by omega)] at hnat
      change 48 + n = 48 at hnat
      omega
    · have hsplit : decimal n = decimal (n / 10) ++ decimal (n % 10) := by
        simp only [decimal]
        rw [Nat.toDigits_of_base_le (by decide) hlarge, List.map_append,
          Nat.toDigits_of_lt_base (Nat.mod_lt n (by decide))]
      rw [hsplit, List.head?_append_of_ne_nil _ (decimal_ne_nil _)] at h
      have hzero := ih (n / 10) (by omega) h
      omega

end ModernTcp
