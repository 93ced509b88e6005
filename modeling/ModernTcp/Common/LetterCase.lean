import Mathlib.Data.List.DropRight
import ModernTcp.Common.Lines

/-! # The case of letters

Strings that differ in the case of letters have their white space and their line ends in the same places,
so cutting and trimming commute with `to_lower`.
-/
namespace ModernTcp

theorem forall_byte {P : UInt8 → Prop} (h : ∀ n : Fin 256, P (UInt8.ofFin n)) (c : UInt8) : P c := h c.toFin

def lowerByte (c : UInt8) : UInt8 := if 65 ≤ c && c ≤ 90 then c + 32 else c

theorem toLower_eq_map (s : List UInt8) : toLower s = s.map lowerByte := rfl

theorem isSpace_lowerByte (c : UInt8) : isSpace (lowerByte c) = isSpace c :=
  forall_byte (P := fun c => isSpace (lowerByte c) = isSpace c) (by decide +kernel) c

theorem lowerByte_idem (c : UInt8) : lowerByte (lowerByte c) = lowerByte c :=
  forall_byte (P := fun c => lowerByte (lowerByte c) = lowerByte c) (by decide +kernel) c

theorem lowerByte_cr (c : UInt8) : lowerByte c = 13 ↔ c = 13 :=
  forall_byte (P := fun c => lowerByte c = 13 ↔ c = 13) (by decide +kernel) c

theorem lowerByte_lf (c : UInt8) : lowerByte c = 10 ↔ c = 10 :=
  forall_byte (P := fun c => lowerByte c = 10 ↔ c = 10) (by decide +kernel) c

theorem lowerByte_colon (c : UInt8) : lowerByte c = 58 ↔ c = 58 :=
  forall_byte (P := fun c => lowerByte c = 58 ↔ c = 58) (by decide +kernel) c

theorem colon_mem_toLower (s : List UInt8) : 58 ∈ toLower s ↔ 58 ∈ s := by
  simp only [toLower_eq_map, List.mem_map, lowerByte_colon, exists_eq_right]

@[simp] theorem toLower_append (s t : List UInt8) : toLower (s ++ t) = toLower s ++ toLower t := List.map_append

@[simp] theorem toLower_toLower (s : List UInt8) : toLower (toLower s) = toLower s := by
  simp only [toLower_eq_map, List.map_map, Function.comp_def, lowerByte_idem]

theorem length_toLower (s : List UInt8) : (toLower s).length = s.length := List.length_map _

theorem dropWhile_toLower (s : List UInt8) : (toLower s).dropWhile isSpace = toLower (s.dropWhile isSpace) := by
  rw [toLower_eq_map, List.dropWhile_map, toLower_eq_map]
  congr 2
  funext c
  exact isSpace_lowerByte c

theorem toLower_reverse (s : List UInt8) : (toLower s).reverse = toLower s.reverse := List.map_reverse.symm

theorem toLower_trim (s : List UInt8) : toLower (trim s) = trim (toLower s) := by
  rw [trim, trim, dropWhile_toLower, toLower_reverse, dropWhile_toLower, toLower_reverse]

theorem findCrlf_toLower (s : List UInt8) : findCrlf (toLower s) = findCrlf s := by
  induction s using findCrlf.induct with
  | case1 => rfl
  | case2 a => rfl
  | case3 a b rest hab =>
    obtain ⟨rfl,rfl⟩ := hab
    rfl
  | case4 a b rest hab ih =>
    have hab' : ¬ (lowerByte a = 13 ∧ lowerByte b = 10) := by rwa [lowerByte_cr, lowerByte_lf]
    have hrest : findCrlf (lowerByte b :: rest.map lowerByte) = findCrlf (b :: rest) := ih
    simp only [toLower_eq_map, List.map_cons, findCrlf, if_neg hab, if_neg hab', hrest]

theorem trim_reverse (s : List UInt8) : (trim s).reverse.dropWhile isSpace = (trim s).reverse := by
  rw [trim, List.reverse_reverse, List.dropWhile_idempotent]

@[simp] theorem trim_trim (s : List UInt8) : trim (trim s) = trim s := by
  conv_lhs => rw [trim]
  rw [trim_dropWhile, trim_reverse, List.reverse_reverse]

/-- White space around a trimmed string is what `trim` takes away. -/
theorem trim_pad {a b w : List UInt8} (ha : ∀ c ∈ a, isSpace c = true) (hb : ∀ c ∈ b, isSpace c = true)
    (hw : trim w = w) : trim (a ++ w ++ b) = w := by
  have hfront : w.dropWhile isSpace = w := by
    rw [← hw]
    exact trim_dropWhile w
  have hback : w.reverse.dropWhile isSpace = w.reverse := by
    rw [← hw]
    exact trim_reverse w
  rw [trim, List.append_assoc, List.dropWhile_append_of_pos ha]
  cases w with
  | nil =>
    rw [List.nil_append, List.dropWhile_eq_nil_iff.mpr hb]
    rfl
  | cons c w =>
    have hc : isSpace c = false := by
      rw [Bool.eq_false_iff]
      intro hspace
      rw [List.dropWhile_cons_of_pos hspace] at hfront
      have hlength := (List.dropWhile_suffix (l := w) isSpace).length_le
      rw [hfront, List.length_cons] at hlength
      omega
    have hb' : ∀ d ∈ b.reverse, isSpace d = true := fun d hd => hb d (List.mem_reverse.mp hd)
    rw [List.cons_append, List.dropWhile_cons_of_neg (by rw [hc]; decide), ← List.cons_append, List.reverse_append,
      List.dropWhile_append_of_pos hb', hback, List.reverse_reverse]

/-- A string around its trimmed part. -/
theorem exists_trim (s : List UInt8) :
    ∃ a b, s = a ++ trim s ++ b ∧ (∀ c ∈ a, isSpace c = true) ∧ ∀ c ∈ b, isSpace c = true := by
  refine ⟨s.takeWhile isSpace,((s.dropWhile isSpace).reverse.takeWhile isSpace).reverse,?_,?_,?_⟩
  · rw [List.append_assoc, trim, ← List.reverse_append, List.takeWhile_append_dropWhile, List.reverse_reverse,
      List.takeWhile_append_dropWhile]
  · exact fun c hc => List.mem_takeWhile_imp hc
  · exact fun c hc => List.mem_takeWhile_imp (List.mem_reverse.mp hc)

/-- Another spelling of the trimmed part, in its place. -/
theorem exists_recase {x w : List UInt8} (h : toLower w = toLower (trim x)) :
    ∃ x', toLower x' = toLower x ∧ trim x' = w := by
  have hw : trim w = w := by
    refine (trim_part w).eq_of_length ?_
    rw [← length_toLower (trim w), toLower_trim, h, ← toLower_trim, trim_trim, ← h, length_toLower]
  obtain ⟨a,b,hx,ha,hb⟩ := exists_trim x
  refine ⟨a ++ w ++ b,?_,trim_pad ha hb hw⟩
  conv_rhs => rw [hx]
  simp only [toLower_append, h]

end ModernTcp
