import Mathlib.Algebra.Group.Nat.Defs
import Mathlib.Data.List.TakeWhile
import ModernTcp.Common.Config
import ModernTcp.Lib.Decimal

/-! # String helpers

`string_utils.h`, and the pieces of the C++ library the parser calls: character
classes of the C locale, extraction of a word from a stream, `std::stoul` and
`memmem` for the line terminator.
-/
namespace ModernTcp

def isSpace (c : UInt8) : Bool := c == 32 || (9 ≤ c && c ≤ 13)

def trim (s : List UInt8) : List UInt8 :=
  ((s.dropWhile isSpace).reverse.dropWhile isSpace).reverse

/-- `rtrim_cc` takes one CR off the end. -/
def rtrimCc (s : List UInt8) : List UInt8 := if s.getLast? = some 13 then s.dropLast else s

def toLower (s : List UInt8) : List UInt8 :=
  s.map (fun c => if 65 ≤ c && c ≤ 90 then c + 32 else c)

/-- `is >> word`: skip white space, then take the longest run without any. The read
fails, and leaves its target alone, when nothing is left. -/
def extractWord (s : List UInt8) : Option (List UInt8 × List UInt8) :=
  match s.dropWhile isSpace with
  | [] => none
  | c :: rest => some ((c :: rest).takeWhile (fun d => !isSpace d),
      (c :: rest).dropWhile (fun d => !isSpace d))

/-- The sign `strtoul` accepts, and the text after it. -/
def takeSign : List UInt8 → Bool × List UInt8
  | 43 :: rest => (false,rest)
  | 45 :: rest => (true,rest)
  | s => (false,s)

/-- `std::stoul` on a 64-bit `unsigned long`; `none` when it throws. -/
def stoul (s : List UInt8) : Option ℕ :=
  let signed := takeSign (s.dropWhile isSpace)
  let digits := signed.2.takeWhile isDigit
  if digits = [] then none
  else if 2 ^ 64 ≤ digitsValue digits then none
  else some (if signed.1 then (2 ^ 64 - digitsValue digits) % 2 ^ 64 else digitsValue digits)

/-- Distance of the first CRLF from the start of the data, as `memmem` finds it. -/
def findCrlf : List UInt8 → Option ℕ
  | [] => none
  | [_] => none
  | a :: b :: rest => if a = 13 ∧ b = 10 then some 0 else (findCrlf (b :: rest)).map (· + 1)

theorem mem_of_mem_rtrimCc {c : UInt8} {s : List UInt8} (h : c ∈ rtrimCc s) : c ∈ s := by
  unfold rtrimCc at h
  split_ifs at h
  · exact List.mem_of_mem_dropLast h
  · exact h

theorem rtrimCc_append (s : List UInt8) :
    rtrimCc s ++ (if s.getLast? = some 13 then [13,10] else [10]) = s ++ [10] := by
  unfold rtrimCc
  split_ifs with hcr
  · have hsplit := List.dropLast_append_getLast? 13 hcr
    calc s.dropLast ++ [13,10] = (s.dropLast ++ [13]) ++ [10] := by rw [List.append_assoc]; rfl
      _ = s ++ [10] := by rw [hsplit]
  · rfl

theorem findCrlf_bound {s : List UInt8} {n : ℕ} (h : findCrlf s = some n) : n + 2 ≤ s.length := by
  induction s using findCrlf.induct generalizing n with
  | case1 => simp [findCrlf] at h
  | case2 a => simp [findCrlf] at h
  | case3 a b rest hab =>
    simp only [findCrlf, if_pos hab, Option.some.injEq] at h
    subst h
    simp
  | case4 a b rest hab ih =>
    simp only [findCrlf, if_neg hab, Option.map_eq_some_iff] at h
    obtain ⟨m,hm,rfl⟩ := h
    have hh := ih hm
    simp only [List.length_cons] at hh ⊢
    omega

theorem findCrlf_append_of_some {s : List UInt8} {n : ℕ} (h : findCrlf s = some n)
    (t : List UInt8) : findCrlf (s ++ t) = some n := by
  induction s using findCrlf.induct generalizing n with
  | case1 => simp [findCrlf] at h
  | case2 a => simp [findCrlf] at h
  | case3 a b rest hab =>
    simp only [findCrlf, if_pos hab] at h
    simp only [List.cons_append, findCrlf, if_pos hab, h]
  | case4 a b rest hab ih =>
    simp only [findCrlf, if_neg hab, Option.map_eq_some_iff] at h
    obtain ⟨m,hm,rfl⟩ := h
    simp only [List.cons_append, findCrlf, if_neg hab]
    rw [← List.cons_append, ih hm]
    rfl

theorem findCrlf_take {s : List UInt8} {n : ℕ} (h : findCrlf s = some n) :
    findCrlf (s.take (n + 2)) = some n := by
  induction s using findCrlf.induct generalizing n with
  | case1 => simp [findCrlf] at h
  | case2 a => simp [findCrlf] at h
  | case3 a b rest hab =>
    simp only [findCrlf, if_pos hab, Option.some.injEq] at h
    subst h
    simp [findCrlf, hab]
  | case4 a b rest hab ih =>
    simp only [findCrlf, if_neg hab, Option.map_eq_some_iff] at h
    obtain ⟨m,hm,rfl⟩ := h
    have hh := ih hm
    simp only [List.take_succ_cons] at hh ⊢
    simp only [findCrlf, if_neg hab, hh, Option.map_some]

theorem findCrlf_zero {s : List UInt8} (h : findCrlf s = some 0) : ∃ t, s = 13 :: 10 :: t := by
  match s, h with
  | a :: b :: rest, h =>
    by_cases hab : a = 13 ∧ b = 10
    · exact ⟨rest,by rw [hab.1, hab.2]⟩
    · simp [findCrlf, hab] at h

/-- `s` and `t` are cut between the two bytes of a terminator. -/
def SplitsCrlf (s t : List UInt8) : Prop := s.getLast? = some 13 ∧ t.head? = some 10

instance (s t : List UInt8) : Decidable (SplitsCrlf s t) := inferInstanceAs (Decidable (_ ∧ _))

/-- Without a terminator in the prefix or across the cut, the search goes on behind it. -/
theorem findCrlf_append_of_none {s t : List UInt8} (h : findCrlf s = none) (hc : ¬ SplitsCrlf s t) :
    findCrlf (s ++ t) = (findCrlf t).map (· + s.length) := by
  induction s using findCrlf.induct with
  | case1 => simp
  | case2 a =>
    cases t with
    | nil => simp [findCrlf]
    | cons b t =>
      have hab : ¬ (a = 13 ∧ b = 10) := by simpa [SplitsCrlf] using hc
      simp [findCrlf, hab]
  | case3 a b rest hab => simp [findCrlf, hab] at h
  | case4 a b rest hab ih =>
    simp only [findCrlf, if_neg hab, Option.map_eq_none_iff] at h
    have hc' : ¬ SplitsCrlf (b :: rest) t := by simpa [SplitsCrlf] using hc
    simp only [List.cons_append, findCrlf, if_neg hab]
    rw [← List.cons_append, ih h hc', Option.map_map]
    rfl

theorem takeWhile_append_first {b : UInt8} {s : List UInt8} (h : b ∈ s) :
    s.takeWhile (· ≠ b) ++ b :: (s.dropWhile (· ≠ b)).drop 1 = s := by
  induction s with
  | nil => cases h
  | cons c s ih =>
    by_cases hc : c = b
    · subst hc
      simp
    · have hmem : b ∈ s := (List.mem_cons.mp h).resolve_left (Ne.symm hc)
      simpa [hc] using ih hmem

theorem not_mem_takeWhile_ne (b : UInt8) (s : List UInt8) : b ∉ s.takeWhile (· ≠ b) := by
  intro h
  simpa using List.mem_takeWhile_imp h

theorem takeWhile_ne_append {b : UInt8} {r : List UInt8} (h : b ∉ r) (rest : List UInt8) :
    (r ++ rest).takeWhile (· ≠ b) = r ++ rest.takeWhile (· ≠ b) := by
  refine List.takeWhile_append_of_pos fun c hc => ?_
  simpa using fun he : c = b => h (he ▸ hc)

end ModernTcp
