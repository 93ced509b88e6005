import ModernTcp.Http.HeaderLine

/-! # The value of a content length

`parse_header_line` gives the value to `std::stoul` and does not look at how much of it was read.
-/
namespace ModernTcp

/-- A number in decimal digits, and not above the limit. -/
def StrictLength (value : List UInt8) : Prop :=
  value ≠ [] ∧ (∀ c ∈ value, isDigit c = true) ∧ digitsValue value ≤ maxHttpBodySize

/-- A sign in front of the digits, or text behind them, and the number that the digits make with the
sign is not above the limit. A minus sign counts down from 2^64. -/
def LenientLength (value : List UInt8) : Prop :=
  let signed := takeSign value
  let digits := signed.2.takeWhile isDigit
  digits ≠ [] ∧ digits ≠ value ∧
    if signed.1 then digitsValue digits = 0 ∨ 2 ^ 64 - maxHttpBodySize ≤ digitsValue digits ∧ digitsValue digits < 2 ^ 64
    else digitsValue digits ≤ maxHttpBodySize

theorem takeSign_digit {c : UInt8} (h : isDigit c = true) (s : List UInt8) : takeSign (c :: s) = (false,c :: s) := by
  unfold takeSign
  split
  · rename_i heq
    cases heq
    exact absurd h (by decide)
  · rename_i heq
    cases heq
    exact absurd h (by decide)
  · rfl

theorem takeSign_all {value : List UInt8} (h : ∀ c ∈ value, isDigit c = true) : takeSign value = (false,value) := by
  cases value with
  | nil => rfl
  | cons c t => exact takeSign_digit (h c List.mem_cons_self) t

/-- The digits are all of the value if and only if it has no other byte. -/
theorem digits_ne_iff (value : List UInt8) :
    (takeSign value).2.takeWhile isDigit ≠ value ↔ ∃ c ∈ value, isDigit c = false := by
  constructor
  · intro hne
    by_contra hno
    push Not at hno
    have hall : ∀ c ∈ value, isDigit c = true := fun c hc => by simpa using hno c hc
    rw [takeSign_all hall] at hne
    exact hne (List.takeWhile_eq_self_iff.mpr hall)
  · rintro ⟨c,hc,hno⟩ heq
    rw [← heq] at hc
    rw [List.mem_takeWhile_imp hc] at hno
    cases hno

theorem allowedLength_iff {value : List UInt8} (h : value.dropWhile isSpace = value) :
    AllowedLength value ↔ (takeSign value).2.takeWhile isDigit ≠ [] ∧
      if (takeSign value).1 then digitsValue ((takeSign value).2.takeWhile isDigit) = 0 ∨
        2 ^ 64 - maxHttpBodySize ≤ digitsValue ((takeSign value).2.takeWhile isDigit) ∧
          digitsValue ((takeSign value).2.takeWhile isDigit) < 2 ^ 64
      else digitsValue ((takeSign value).2.takeWhile isDigit) ≤ maxHttpBodySize := by
  have hmax : maxHttpBodySize < 2 ^ 64 := by decide
  rw [AllowedLength]
  simp only [stoul, h]
  generalize (takeSign value).2.takeWhile isDigit = digits
  generalize maxHttpBodySize = limit at *
  by_cases hnil : digits = []
  · simp [hnil]
  rw [if_neg hnil, and_iff_right hnil]
  generalize digitsValue digits = n
  by_cases hwide : 2 ^ 64 ≤ n
  · rw [if_pos hwide]
    refine iff_of_false (by simp) ?_
    split_ifs <;> omega
  · rw [if_neg hwide]
    simp only [Option.mem_def, Option.some.injEq, exists_eq_left']
    split_ifs
    · by_cases hzero : n = 0
      · simp [hzero]
      · rw [Nat.mod_eq_of_lt (by omega)]
        omega
    · rfl

theorem isSpace_digit {c : UInt8} (h : isDigit c = true) : isSpace c = false := by
  simp only [isDigit, isSpace, Bool.and_eq_true, decide_eq_true_eq, Bool.or_eq_false_iff, beq_eq_false_iff_ne,
    Bool.and_eq_false_iff, decide_eq_false_iff_not, UInt8.le_iff_toNat_le] at h ⊢
  have hlow : 48 ≤ c.toNat := h.1
  refine ⟨?_,Or.inr ?_⟩
  · rintro rfl
    exact absurd hlow (by decide)
  · exact fun hle => absurd (hlow.trans hle) (by decide)

theorem stoul_digits {s : List UInt8} (hne : s ≠ []) (h : ∀ c ∈ s, isDigit c = true) :
    stoul s = if 2 ^ 64 ≤ digitsValue s then none else some (digitsValue s) := by
  obtain ⟨c,t,rfl⟩ := List.exists_cons_of_ne_nil hne
  have hc := h c List.mem_cons_self
  have hspace : (c :: t).dropWhile isSpace = c :: t := List.dropWhile_cons_of_neg (by rw [isSpace_digit hc]; decide)
  have hdigits : (c :: t).takeWhile isDigit = c :: t := List.takeWhile_eq_self_iff.mpr h
  simp only [stoul, hspace, takeSign_digit hc, hdigits, List.cons_ne_nil, if_false, Bool.false_eq_true]

theorem allowedLength_digits {value : List UInt8} (h : ∀ c ∈ value, isDigit c = true) :
    AllowedLength value ↔ StrictLength value := by
  by_cases hnil : value = []
  · rw [hnil]
    exact iff_of_false (by decide) (fun hstrict => hstrict.1 rfl)
  have hmax : maxHttpBodySize < 2 ^ 64 := by decide
  rw [AllowedLength, stoul_digits hnil h]
  constructor
  · rintro ⟨n,hn,hle⟩
    split_ifs at hn
    · cases hn
    · cases hn
      exact ⟨hnil,h,hle⟩
  · rintro ⟨-,-,hle⟩
    rw [if_neg (not_le.mpr (hle.trans_lt hmax))]
    exact ⟨_,rfl,hle⟩

theorem stoul_strict {value : List UInt8} (h : StrictLength value) : (stoul value).getD 0 = digitsValue value := by
  have hmax : maxHttpBodySize < 2 ^ 64 := by decide
  rw [stoul_digits h.1 h.2.1, if_neg (not_le.mpr (h.2.2.trans_lt hmax))]
  rfl

theorem lenientLength_iff {value : List UInt8} (h : value.dropWhile isSpace = value) :
    LenientLength value ↔ (∃ c ∈ value, isDigit c = false) ∧ AllowedLength value := by
  rw [allowedLength_iff h, ← digits_ne_iff, LenientLength]
  exact and_left_comm

namespace SimpleHttpRequest

/-- The header line is accepted for a strict length only, and then sets it. -/
def ReadsLength (r : SimpleHttpRequest) (line : List UInt8) : Prop :=
  ((r.parseHeaderLine line).1 = true ↔ StrictLength (fieldValue line)) ∧
    ((r.parseHeaderLine line).1 = true →
      (r.parseHeaderLine line).2.contentLength = digitsValue (fieldValue line))

/-- A content length is read strictly if and only if its value is not a lenient one. -/
theorem content_length_strict_iff (r : SimpleHttpRequest) {line : List UInt8} (hcolon : 58 ∈ line)
    (hname : toLower (fieldName line) = bytes "content-length") :
    r.ReadsLength line ↔ ¬ LenientLength (fieldValue line) := by
  have hne : fieldName line ≠ [] := by
    intro hnil
    rw [hnil] at hname
    exact absurd hname (by decide)
  have haccept : (r.parseHeaderLine line).1 = true ↔ AllowedLength (fieldValue line) := by
    rw [parseHeaderLine_accepts]
    exact ⟨fun h => h.length hname,fun h => ⟨hcolon,hne,fun _ => h⟩⟩
  have hset : (r.parseHeaderLine line).1 = true →
      (r.parseHeaderLine line).2.contentLength = (stoul (fieldValue line)).getD 0 := by
    intro h
    rw [parseHeaderLine_valid r ((parseHeaderLine_accepts r line).mp h), setHeader, if_pos hname]
  have hfront : (fieldValue line).dropWhile isSpace = fieldValue line := trim_dropWhile _
  rw [ReadsLength, haccept, lenientLength_iff hfront]
  rw [haccept] at hset
  by_cases hdigits : ∀ c ∈ fieldValue line, isDigit c = true
  · have hlenient : ¬ ((∃ c ∈ fieldValue line, isDigit c = false) ∧ AllowedLength (fieldValue line)) := by
      rintro ⟨⟨c,hc,hno⟩,-⟩
      rw [hdigits c hc] at hno
      cases hno
    refine iff_of_true ?_ hlenient
    have hallowed := allowedLength_digits hdigits
    refine ⟨hallowed,?_⟩
    intro h
    rw [hset h]
    exact stoul_strict (hallowed.mp h)
  · have hstrict : ¬ StrictLength (fieldValue line) := fun h => hdigits h.2.1
    have hother : ∃ c ∈ fieldValue line, isDigit c = false := by simpa using hdigits
    rw [and_iff_right hother]
    constructor
    · rintro ⟨hiff,-⟩ hread
      exact hstrict (hiff.mp hread)
    · intro hread
      exact ⟨iff_of_false hread hstrict,fun h => absurd h hread⟩

theorem content_length_strict_five :
    (({} : SimpleHttpRequest).parseHeaderLine (bytes "CONTENT-length: 5 ")).2.contentLength = 5 ∧
      ReadsLength {} (bytes "CONTENT-length: 5 ") :=
  ⟨by decide,(content_length_strict_iff {} (by decide) (by decide)).mpr (by
    rintro ⟨-,hother,-⟩
    exact hother (by decide))⟩

/-- The number at the front is taken, and the rest is not looked at. -/
theorem content_length_lenient : ¬ ReadsLength {} (bytes "Content-Length: 12abc") := by
  rintro ⟨hiff,-⟩
  have hstrict := hiff.mp (by decide)
  exact absurd (hstrict.2.1 97 (by decide)) (by decide)

end SimpleHttpRequest
end ModernTcp
