import Mathlib.Data.List.Basic
import Mathlib.Data.Nat.Log
import Mathlib.Tactic

/-! # The wire format of protocol buffers

A message is a sequence of fields. A field is its number, with the wire type in the low three bits,
and a variable-length integer or a string behind its length. Numbers are sent in groups of seven
bits, the lowest first, and every byte but the last has its high bit set. Strings have to be UTF-8.
-/
namespace ModernTcp.Wire

def varint (n : ℕ) : List UInt8 :=
  if n < 128 then [UInt8.ofNat n] else UInt8.ofNat (n % 128 + 128) :: varint (n / 128)

def varintSize (n : ℕ) : ℕ := Nat.log 128 n + 1

def readVarint : List UInt8 → Option (ℕ × List UInt8)
  | [] => none
  | b :: s => if b < 128 then some (b.toNat,s) else (readVarint s).map (fun r => (b.toNat - 128 + 128 * r.1,r.2))

theorem varint_length (n : ℕ) : (varint n).length = varintSize n := by
  induction n using varint.induct with
  | case1 n h =>
    rw [varint, if_pos h, varintSize, Nat.log_of_lt h]
    rfl
  | case2 n h ih =>
    rw [varint, if_neg h, List.length_cons, ih, varintSize, varintSize,
      Nat.log_of_one_lt_of_le (by decide) (not_lt.mp h)]

theorem varintSize_le {n k : ℕ} (hk : k ≠ 0) (h : n < 128 ^ k) : varintSize n ≤ k := Nat.log_lt_of_lt_pow' hk h

theorem lt_varintSize {n k : ℕ} (h : 128 ^ k ≤ n) : k < varintSize n :=
  Nat.lt_succ_of_le (Nat.le_log_of_pow_le (by decide) h)

theorem readVarint_varint (n : ℕ) (s : List UInt8) : readVarint (varint n ++ s) = some (n,s) := by
  induction n using varint.induct with
  | case1 n h =>
    have hbyte : (UInt8.ofNat n).toNat = n := UInt8.toNat_ofNat_of_lt' (lt_trans h (by decide))
    have hlt : UInt8.ofNat n < 128 := by
      rw [UInt8.lt_iff_toNat_lt, hbyte]
      exact h
    rw [varint, if_pos h, List.singleton_append, readVarint, if_pos hlt, hbyte]
  | case2 n h ih =>
    have hbyte : (UInt8.ofNat (n % 128 + 128)).toNat = n % 128 + 128 :=
      UInt8.toNat_ofNat_of_lt' (show n % 128 + 128 < 256 by omega)
    have hge : ¬ UInt8.ofNat (n % 128 + 128) < 128 := by
      rw [UInt8.lt_iff_toNat_lt, hbyte]
      simp
    rw [varint, if_neg h, List.cons_append, readVarint, if_neg hge, ih, hbyte, Option.map_some]
    simp only [Option.some.injEq, Prod.mk.injEq, and_true]
    omega

inductive Value
  | varint (n : ℕ)
  | bytes (b : List UInt8)
deriving DecidableEq

def encodeField (f : ℕ × Value) : List UInt8 :=
  match f.2 with
  | .varint n => varint (8 * f.1) ++ varint n
  | .bytes b => varint (8 * f.1 + 2) ++ (varint b.length ++ b)

def readField (s : List UInt8) : Option ((ℕ × Value) × List UInt8) :=
  (readVarint s).bind (fun t =>
    if t.1 % 8 = 0 then (readVarint t.2).map (fun r => ((t.1 / 8,.varint r.1),r.2))
    else if t.1 % 8 = 2 then
      (readVarint t.2).bind (fun r =>
        if r.1 ≤ r.2.length then some ((t.1 / 8,.bytes (r.2.take r.1)),r.2.drop r.1) else none)
    else none)

theorem readField_encodeField (f : ℕ × Value) (s : List UInt8) : readField (encodeField f ++ s) = some (f,s) := by
  obtain ⟨number,value⟩ := f
  cases value with
  | varint n =>
    simp only [encodeField, readField, List.append_assoc, readVarint_varint, Option.bind_some, Option.map_some]
    rw [if_pos (by omega), Nat.mul_div_cancel_left number (by decide)]
  | bytes b =>
    have hnumber : (8 * number + 2) / 8 = number := by omega
    simp only [encodeField, readField, List.append_assoc, readVarint_varint, Option.bind_some]
    rw [if_neg (by omega), if_pos (by omega), hnumber, if_pos (by simp), List.take_left, List.drop_left]

def encode (fs : List (ℕ × Value)) : List UInt8 := fs.flatMap encodeField

/-- The fields of `s`, with fuel for each of them. -/
def readFields : ℕ → List UInt8 → Option (List (ℕ × Value))
  | _, [] => some []
  | 0, _ :: _ => none
  | n + 1, b :: s => (readField (b :: s)).bind (fun r => (readFields n r.2).map (r.1 :: ·))

def decode (s : List UInt8) : Option (List (ℕ × Value)) := readFields s.length s

theorem encodeField_ne_nil (f : ℕ × Value) : encodeField f ≠ [] := by
  intro hnil
  have hread := readField_encodeField f []
  rw [hnil] at hread
  cases hread

theorem readFields_encode {n : ℕ} (fs : List (ℕ × Value)) (h : fs.length ≤ n) : readFields n (encode fs) = some fs := by
  induction fs generalizing n with
  | nil =>
    cases n with
    | zero => rfl
    | succ n => rfl
  | cons f fs ih =>
    obtain ⟨b,s,hbs⟩ := List.exists_cons_of_ne_nil (encodeField_ne_nil f)
    cases n with
    | zero => cases h
    | succ n =>
      have hread := readField_encodeField f (encode fs)
      have hcons : encode (f :: fs) = b :: (s ++ encode fs) := by
        rw [encode, List.flatMap_cons, hbs]
        rfl
      rw [hbs, List.cons_append] at hread
      rw [hcons, readFields, hread, Option.bind_some, ih (Nat.le_of_succ_le_succ h)]
      rfl

theorem length_le_encode (fs : List (ℕ × Value)) : fs.length ≤ (encode fs).length := by
  induction fs with
  | nil => rfl
  | cons f fs ih =>
    have hpos := List.length_pos_of_ne_nil (encodeField_ne_nil f)
    rw [encode] at ih
    rw [encode, List.flatMap_cons, List.length_append, List.length_cons]
    omega

theorem decode_encode (fs : List (ℕ × Value)) : decode (encode fs) = some fs :=
  readFields_encode fs (length_le_encode fs)

section Utf8
variable {s : List UInt8}

def ValidUtf8 (s : List UInt8) : Prop := s.toByteArray.IsValidUTF8

instance (s : List UInt8) : Decidable (ValidUtf8 s) := inferInstanceAs (Decidable (ByteArray.IsValidUTF8 _))

theorem validUtf8_iff : ValidUtf8 s ↔ ∃ chars : List Char, s = chars.flatMap String.utf8EncodeChar := by
  constructor
  · rintro ⟨chars,h⟩
    exact ⟨chars,List.toByteArray_inj.mp h⟩
  · rintro ⟨chars,rfl⟩
    exact ⟨chars,rfl⟩

/-- One byte below 128, or a first byte from 192 on. -/
theorem utf8EncodeChar_head (c : Char) : (∃ b, b < 128 ∧ String.utf8EncodeChar c = [b]) ∨
    ∃ b t, 192 ≤ b ∧ String.utf8EncodeChar c = b :: t := by
  have hlead : ∀ n, 192 ≤ n → n < 256 → (192 : UInt8) ≤ UInt8.ofNat n := by
    intro n hlow hhigh
    rw [UInt8.le_iff_toNat_le, UInt8.toNat_ofNat_of_lt' hhigh]
    exact hlow
  unfold String.utf8EncodeChar
  dsimp only
  split_ifs with hone htwo hthree
  · refine Or.inl ⟨_,?_,rfl⟩
    rw [UInt8.lt_iff_toNat_lt, UInt8.toNat_ofNat_of_lt' (lt_of_le_of_lt hone (by decide))]
    exact Nat.lt_succ_of_le hone
  · exact Or.inr ⟨_,_,hlead _ (by omega) (by omega),rfl⟩
  · exact Or.inr ⟨_,_,hlead _ (by omega) (by omega),rfl⟩
  · exact Or.inr ⟨_,_,hlead _ (by omega) (by omega),rfl⟩

theorem validUtf8_nil : ValidUtf8 [] := validUtf8_iff.mpr ⟨[],rfl⟩

/-- A byte below 128 is a character of its own. -/
theorem validUtf8_ascii_cons {b : UInt8} (hb : b < 128) : ValidUtf8 (b :: s) ↔ ValidUtf8 s := by
  rw [validUtf8_iff, validUtf8_iff]
  constructor
  · rintro ⟨chars,h⟩
    cases chars with
    | nil => cases h
    | cons c chars =>
      rw [List.flatMap_cons] at h
      rcases utf8EncodeChar_head c with ⟨d,-,hd⟩ | ⟨d,t,hlead,hd⟩
      · rw [hd] at h
        exact ⟨chars,(List.cons.inj h).2⟩
      · rw [hd] at h
        have hbd : b = d := (List.cons.inj h).1
        rw [UInt8.lt_iff_toNat_lt] at hb
        rw [← hbd, UInt8.le_iff_toNat_le] at hlead
        exact absurd (lt_of_le_of_lt hlead hb) (by decide)
  · rintro ⟨chars,rfl⟩
    rw [UInt8.lt_iff_toNat_lt] at hb
    have hvalid : b.toNat.isValidChar := Or.inl (lt_trans hb (by decide))
    have hvalue : (Char.ofNatAux b.toNat hvalid).val.toNat = b.toNat := rfl
    refine ⟨Char.ofNatAux b.toNat hvalid :: chars,?_⟩
    rw [List.flatMap_cons, String.utf8EncodeChar, hvalue, if_pos (Nat.le_of_lt_succ hb), UInt8.ofNat_toNat]
    rfl

theorem validUtf8_ascii_append {text : List UInt8} (h : ∀ b ∈ text, b < 128) : ValidUtf8 (text ++ s) ↔ ValidUtf8 s := by
  induction text with
  | nil => rfl
  | cons b text ih =>
    rw [List.cons_append, validUtf8_ascii_cons (h b List.mem_cons_self)]
    exact ih (fun x hx => h x (List.mem_cons_of_mem b hx))

theorem validUtf8_ascii (h : ∀ b ∈ s, b < 128) : ValidUtf8 s := by
  rw [← List.append_nil s, validUtf8_ascii_append h]
  exact validUtf8_nil

/-- No character starts with a byte from 128 to 191. -/
theorem not_validUtf8_continuation {b : UInt8} (hlow : 128 ≤ b) (hhigh : b < 192) : ¬ ValidUtf8 (b :: s) := by
  rw [validUtf8_iff]
  rintro ⟨chars,h⟩
  cases chars with
  | nil => cases h
  | cons c chars =>
    rw [List.flatMap_cons] at h
    rcases utf8EncodeChar_head c with ⟨d,hascii,hd⟩ | ⟨d,t,hlead,hd⟩
    · rw [hd] at h
      rw [(List.cons.inj h).1] at hlow
      exact absurd hascii (UInt8.not_lt.mpr hlow)
    · rw [hd] at h
      rw [(List.cons.inj h).1] at hhigh
      exact absurd hhigh (UInt8.not_lt.mpr hlead)

end Utf8

end ModernTcp.Wire
