import Mathlib.Algebra.GroupWithZero.Nat
import Mathlib.Data.List.Infix
import ModernTcp.Common.StringUtils

/-! # Lines of a text that comes in chunks

A text is a sequence of bytes and line ends. In one chunk every CRLF is a line end; when a text is
read chunk by chunk, a CRLF that is cut by a chunk boundary is not one, and its two bytes stay in
the line.
-/
namespace ModernTcp

/-- The bytes of a chunk, with `none` for every CRLF in it. -/
def marks : List UInt8 → List (Option UInt8)
  | [] => []
  | [b] => [some b]
  | a :: b :: rest => if a = 13 ∧ b = 10 then none :: marks rest else some a :: marks (b :: rest)

/-- The lines that end in a marked text which goes on from the partial line `line`. -/
def terminated (line : List UInt8) : List (Option UInt8) → List (List UInt8)
  | [] => []
  | none :: ms => line :: terminated [] ms
  | some b :: ms => terminated (line ++ [b]) ms

/-- The partial line behind the last line end of a marked text. -/
def held (line : List UInt8) : List (Option UInt8) → List UInt8
  | [] => line
  | none :: ms => held [] ms
  | some b :: ms => held (line ++ [b]) ms

/-- The bytes of lines and of their line ends. -/
def linesLength (lines : List (List UInt8)) : ℕ := (lines.map (fun line => line.length + 2)).sum

/-- The lines of a text, as its chunks deliver them. -/
def deliveredLines (chunks : List (List UInt8)) : List (List UInt8) := terminated [] (chunks.flatMap marks)

/-- The CRLF-terminated lines of a text in one piece. -/
def linesOf (s : List UInt8) : List (List UInt8) := terminated [] (marks s)

theorem marks_of_findCrlf_none {s : List UInt8} (h : findCrlf s = none) : marks s = s.map some := by
  induction s using findCrlf.induct with
  | case1 => rfl
  | case2 a => rfl
  | case3 a b rest hab => simp [findCrlf, hab] at h
  | case4 a b rest hab ih =>
    simp only [findCrlf, if_neg hab, Option.map_eq_none_iff] at h
    rw [marks, if_neg hab, ih h]
    rfl

theorem marks_of_findCrlf {s : List UInt8} {n : ℕ} (h : findCrlf s = some n) :
    marks s = (s.take n).map some ++ none :: marks (s.drop (n + 2)) := by
  induction s using findCrlf.induct generalizing n with
  | case1 => simp [findCrlf] at h
  | case2 a => simp [findCrlf] at h
  | case3 a b rest hab =>
    simp only [findCrlf, if_pos hab, Option.some.injEq] at h
    subst h
    simp [marks, hab]
  | case4 a b rest hab ih =>
    simp only [findCrlf, if_neg hab, Option.map_eq_some_iff] at h
    obtain ⟨m,hm,rfl⟩ := h
    rw [marks, if_neg hab, ih hm]
    rfl

/-- Only a cut CRLF is not seen when two texts are marked apart. -/
theorem marks_append {s t : List UInt8} (h : ¬ SplitsCrlf s t) : marks (s ++ t) = marks s ++ marks t := by
  induction s using marks.induct with
  | case1 => rfl
  | case2 a =>
    cases t with
    | nil => rfl
    | cons b t =>
      have hab : ¬ (a = 13 ∧ b = 10) := by simpa [SplitsCrlf] using h
      simp [marks, hab]
  | case3 a b rest hab ih =>
    have hrest : ¬ SplitsCrlf rest t := by
      cases rest with
      | nil => simp [SplitsCrlf]
      | cons c rest => simpa [SplitsCrlf] using h
    simp [marks, hab, ih hrest]
  | case4 a b rest hab ih =>
    have hrest : ¬ SplitsCrlf (b :: rest) t := by simpa [SplitsCrlf] using h
    simp only [List.cons_append] at ih ⊢
    simp [marks, hab, ih hrest]

theorem marks_crlf (s t : List UInt8) : marks (s ++ 13 :: 10 :: t) = marks s ++ none :: marks t := by
  rw [marks_append (by simp [SplitsCrlf])]
  simp [marks]

theorem terminated_append (line s : List UInt8) (ms : List (Option UInt8)) :
    terminated line (s.map some ++ ms) = terminated (line ++ s) ms := by
  induction s generalizing line with
  | nil => simp
  | cons b s ih => simp [terminated, ih]

theorem terminated_length (line : List UInt8) (ms : List (Option UInt8)) :
    (terminated line ms).length = ms.count none := by
  induction ms generalizing line with
  | nil => rfl
  | cons m ms ih =>
    cases m with
    | none => simp [terminated, ih]
    | some b => simp [terminated, ih]

theorem terminated_append_marks (line : List UInt8) (ms ms' : List (Option UInt8)) :
    terminated line (ms ++ ms') = terminated line ms ++ terminated (held line ms) ms' := by
  induction ms generalizing line with
  | nil => rfl
  | cons m ms ih =>
    cases m with
    | none => exact congrArg (line :: ·) (ih [])
    | some b => exact ih _

theorem held_append (line : List UInt8) (ms ms' : List (Option UInt8)) :
    held line (ms ++ ms') = held (held line ms) ms' := by
  induction ms generalizing line with
  | nil => rfl
  | cons m ms ih =>
    cases m with
    | none => exact ih []
    | some b => exact ih _

theorem held_some (line s : List UInt8) : held line (s.map some) = line ++ s := by
  induction s generalizing line with
  | nil => simp [held]
  | cons b s ih => simp [held, ih]

theorem terminated_of_none (line : List UInt8) {s : List UInt8} (h : findCrlf s = none) :
    terminated line (marks s) = [] := by
  rw [marks_of_findCrlf_none h, ← List.append_nil (s.map some), terminated_append]
  rfl

theorem terminated_of_some (line : List UInt8) {s : List UInt8} {n : ℕ} (h : findCrlf s = some n) :
    terminated line (marks s) = (line ++ s.take n) :: linesOf (s.drop (n + 2)) := by
  rw [marks_of_findCrlf h, terminated_append]
  rfl

theorem held_of_none (line : List UInt8) {s : List UInt8} (h : findCrlf s = none) : held line (marks s) = line ++ s := by
  rw [marks_of_findCrlf_none h, held_some]

@[simp] theorem linesLength_nil : linesLength [] = 0 := rfl

@[simp] theorem linesLength_cons (line : List UInt8) (lines : List (List UInt8)) :
    linesLength (line :: lines) = line.length + 2 + linesLength lines := by
  simp [linesLength]

@[simp] theorem linesLength_append (lines lines' : List (List UInt8)) :
    linesLength (lines ++ lines') = linesLength lines + linesLength lines' := by
  simp [linesLength]

theorem linesLength_terminated (line s : List UInt8) :
    linesLength (terminated line (marks s)) + (held line (marks s)).length = line.length + s.length := by
  induction s using marks.induct generalizing line with
  | case1 => simp [marks, terminated, held]
  | case2 a => simp [marks, terminated, held]
  | case3 a b rest hab ih =>
    have hrest := ih []
    simp only [List.length_nil] at hrest
    rw [marks, if_pos hab, terminated, held, linesLength_cons]
    simp only [List.length_cons]
    omega
  | case4 a b rest hab ih =>
    have hrest := ih (line ++ [a])
    rw [marks, if_neg hab, terminated, held]
    simp only [List.length_cons, List.length_append, List.length_nil] at hrest ⊢
    omega

theorem findCrlf_eq_none_iff {s : List UInt8} : findCrlf s = none ↔ none ∉ marks s := by
  cases h : findCrlf s with
  | none => simp [marks_of_findCrlf_none h]
  | some n => simp [marks_of_findCrlf h]

theorem findCrlf_eq_none_iff_no_crlf {s : List UInt8} : findCrlf s = none ↔ ¬ [13,10] <:+: s := by
  induction s using findCrlf.induct with
  | case1 => simp [findCrlf]
  | case2 a =>
    refine iff_of_true rfl ?_
    intro hin
    have hle := hin.length_le
    simp at hle
  | case3 a b rest hab =>
    obtain ⟨rfl,rfl⟩ := hab
    simp only [findCrlf, and_self, if_true, reduceCtorEq, false_iff, not_not]
    exact ⟨[],rest,rfl⟩
  | case4 a b rest hab ih =>
    simp only [findCrlf, if_neg hab, Option.map_eq_none_iff, ih]
    rw [List.infix_cons_iff (a := a)]
    have hhead : ¬ [13,10] <+: a :: b :: rest := by
      intro hprefix
      obtain ⟨ha,htail⟩ := List.cons_prefix_cons.mp hprefix
      exact hab ⟨ha.symm,(List.cons_prefix_cons.mp htail).1.symm⟩
    tauto

theorem findCrlf_none_of_part {s t : List UInt8} (h : t <:+: s) (hs : findCrlf s = none) : findCrlf t = none := by
  rw [findCrlf_eq_none_iff_no_crlf] at hs ⊢
  exact fun ht => hs (ht.trans h)

theorem findCrlf_of_not_mem {s : List UInt8} (h : 13 ∉ s) : findCrlf s = none := by
  rw [findCrlf_eq_none_iff_no_crlf]
  intro hin
  exact h (hin.subset List.mem_cons_self)

theorem findCrlf_take_none {s : List UInt8} {n : ℕ} (h : findCrlf s = some n) : findCrlf (s.take n) = none := by
  induction s using findCrlf.induct generalizing n with
  | case1 => simp [findCrlf] at h
  | case2 a => simp [findCrlf] at h
  | case3 a b rest hab =>
    simp only [findCrlf, if_pos hab, Option.some.injEq] at h
    subst h
    rfl
  | case4 a b rest hab ih =>
    simp only [findCrlf, if_neg hab, Option.map_eq_some_iff] at h
    obtain ⟨m,hm,rfl⟩ := h
    have hrest := ih hm
    cases m with
    | zero => rfl
    | succ m =>
      simp only [List.take_succ_cons] at hrest ⊢
      simp only [findCrlf, if_neg hab, hrest, Option.map_none]

theorem eq_crlf_of_findCrlf {s : List UInt8} {n : ℕ} (h : findCrlf s = some n) :
    s = s.take n ++ 13 :: 10 :: s.drop (n + 2) := by
  induction s using findCrlf.induct generalizing n with
  | case1 => simp [findCrlf] at h
  | case2 a => simp [findCrlf] at h
  | case3 a b rest hab =>
    simp only [findCrlf, if_pos hab, Option.some.injEq] at h
    subst h
    simp [hab]
  | case4 a b rest hab ih =>
    simp only [findCrlf, if_neg hab, Option.map_eq_some_iff] at h
    obtain ⟨m,hm,rfl⟩ := h
    simpa using ih hm

theorem linesOf_crlf {s : List UInt8} (t : List UInt8) (h : findCrlf s = none) :
    linesOf (s ++ 13 :: 10 :: t) = s :: linesOf t := by
  rw [linesOf, marks_crlf, marks_of_findCrlf_none h, terminated_append]
  rfl

theorem length_linesOf_crlf (s t : List UInt8) :
    (linesOf (s ++ 13 :: 10 :: t)).length = (marks s).count none + 1 + (linesOf t).length := by
  simp only [linesOf, terminated_length, marks_crlf, List.count_append, List.count_cons_self]
  omega

theorem findCrlf_of_mem_linesOf {s line : List UInt8} (h : line ∈ linesOf s) : findCrlf line = none := by
  induction hn : s.length using Nat.strong_induction_on generalizing s with
  | _ n ih =>
    unfold linesOf at h
    cases hf : findCrlf s with
    | none =>
      rw [terminated_of_none [] hf] at h
      cases h
    | some m =>
      have hbound := findCrlf_bound hf
      rw [terminated_of_some [] hf, List.nil_append] at h
      rcases List.mem_cons.mp h with rfl | h
      · exact findCrlf_take_none hf
      · exact ih (s.drop (m + 2)).length (by rw [List.length_drop]; omega) h rfl

/-- Lines with their line ends. -/
def joinLines (lines : List (List UInt8)) : List UInt8 := lines.flatMap (fun line => line ++ [13,10])

@[simp] theorem joinLines_nil : joinLines [] = [] := rfl
@[simp] theorem joinLines_cons (line : List UInt8) (lines : List (List UInt8)) :
    joinLines (line :: lines) = line ++ 13 :: 10 :: joinLines lines := by
  simp [joinLines]

theorem length_joinLines (lines : List (List UInt8)) : (joinLines lines).length = linesLength lines := by
  induction lines with
  | nil => rfl
  | cons line lines ih =>
    rw [joinLines_cons, linesLength_cons, ← ih]
    simp only [List.length_append, List.length_cons]
    omega

theorem linesOf_join {lines : List (List UInt8)} (h : ∀ line ∈ lines, findCrlf line = none) (t : List UInt8) :
    linesOf (joinLines lines ++ t) = lines ++ linesOf t := by
  induction lines with
  | nil => rfl
  | cons line lines ih =>
    obtain ⟨hline,hlines⟩ := List.forall_mem_cons.mp h
    rw [joinLines_cons, List.append_assoc, List.cons_append, List.cons_append, linesOf_crlf _ hline, ih hlines]
    rfl

theorem held_join (lines : List (List UInt8)) (t : List UInt8) :
    held [] (marks (joinLines lines ++ t)) = held [] (marks t) := by
  induction lines with
  | nil => rfl
  | cons line lines ih =>
    rw [joinLines_cons, List.append_assoc, List.cons_append, List.cons_append, marks_crlf, held_append, held, ih]

theorem exists_join {s : List UInt8} {pre post : List (List UInt8)} (h : linesOf s = pre ++ post) :
    ∃ t, s = joinLines pre ++ t ∧ linesOf t = post := by
  induction pre generalizing s with
  | nil => exact ⟨s,rfl,h⟩
  | cons line pre ih =>
    cases hf : findCrlf s with
    | none =>
      rw [linesOf, terminated_of_none [] hf] at h
      cases h
    | some n =>
      have hsplit := eq_crlf_of_findCrlf hf
      rw [linesOf, terminated_of_some [] hf, List.nil_append, List.cons_append] at h
      obtain ⟨hline,hrest⟩ := List.cons.inj h
      obtain ⟨t,hs,ht⟩ := ih hrest
      refine ⟨t,?_,ht⟩
      rw [joinLines_cons, List.append_assoc, List.cons_append, List.cons_append, ← hs, ← hline]
      exact hsplit

theorem trim_front (s : List UInt8) : trim s <+: s.dropWhile isSpace := by
  rw [trim, ← List.reverse_suffix, List.reverse_reverse]
  exact List.dropWhile_suffix _

theorem trim_part (s : List UInt8) : trim s <:+: s :=
  (trim_front s).isInfix.trans (List.dropWhile_suffix _).isInfix

theorem trim_dropWhile (s : List UInt8) : (trim s).dropWhile isSpace = trim s := by
  cases htrim : trim s with
  | nil => rfl
  | cons c t =>
    obtain ⟨u,hu⟩ := trim_front s
    have hhead := List.head?_dropWhile_not isSpace s
    rw [← hu, htrim] at hhead
    exact List.dropWhile_cons_of_neg (by simpa using hhead)

/-- No chunk boundary lies between the two bytes of a CRLF. -/
def CutsNoCrlf (chunks : List (List UInt8)) : Prop :=
  ∀ pre post, chunks = pre ++ post → ¬ SplitsCrlf pre.flatten post.flatten

theorem CutsNoCrlf.flatMap_marks {chunks : List (List UInt8)} (h : CutsNoCrlf chunks) :
    chunks.flatMap marks = marks chunks.flatten := by
  induction chunks with
  | nil => rfl
  | cons c cs ih =>
    have htail : CutsNoCrlf cs := by
      rintro pre post rfl hsplit
      refine h (c :: pre) post rfl ?_
      have hne : pre.flatten ≠ [] := by
        intro hnil
        rw [SplitsCrlf, hnil] at hsplit
        cases hsplit.1
      refine ⟨?_,hsplit.2⟩
      rw [List.flatten_cons, List.getLast?_append_of_ne_nil _ hne]
      exact hsplit.1
    have hcut : ¬ SplitsCrlf c cs.flatten := by simpa using h [c] cs rfl
    rw [List.flatMap_cons, ih htail, List.flatten_cons, marks_append hcut]

theorem CutsNoCrlf.findCrlf_line {chunks : List (List UInt8)} (h : CutsNoCrlf chunks) {line : List UInt8}
    (hline : line ∈ deliveredLines chunks) : findCrlf line = none := by
  rw [deliveredLines, h.flatMap_marks] at hline
  exact findCrlf_of_mem_linesOf hline

end ModernTcp
