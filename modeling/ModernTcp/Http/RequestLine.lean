import ModernTcp.Http.HttpTypes

/-! # The words of a request line

`parse_request_line` reads three words from a stream. It means to refuse a version that does not
begin with `HTTP/`, but a word of fewer than five bytes is not looked at.
-/
namespace ModernTcp

/-- The longest runs without white space. -/
def words (s : List UInt8) : List (List UInt8) := (s.splitOnP isSpace).filter (· ≠ [])

def cleanedLine (line : List UInt8) : List UInt8 := rtrimCc line

theorem words_space {c : UInt8} (h : isSpace c = true) (s : List UInt8) : words (c :: s) = words s := by
  simp [words, List.splitOnP_cons_eq_if_modifyHead, h]

theorem words_dropWhile (s : List UInt8) : words (s.dropWhile isSpace) = words s := by
  induction s with
  | nil => rfl
  | cons c s ih =>
    by_cases hc : isSpace c = true
    · rw [List.dropWhile_cons_of_pos hc, ih, words_space hc]
    · rw [List.dropWhile_cons_of_neg hc]

theorem words_word {w rest : List UInt8} (hne : w ≠ []) (hw : ∀ c ∈ w, isSpace c = false)
    (hrest : rest = [] ∨ ∃ c t, rest = c :: t ∧ isSpace c = true) : words (w ++ rest) = w :: words rest := by
  rcases hrest with rfl | ⟨c,t,rfl,hc⟩
  · rw [List.append_nil, words, List.splitOnP_eq_singleton hw]
    simp [words, hne]
  · rw [words_space hc, words, List.splitOnP_append_cons_of_forall_mem hw c hc]
    simp [words, hne]

theorem extractWord_words (s : List UInt8) :
    (extractWord s = none ∧ words s = []) ∨
      ∃ w rest, extractWord s = some (w,rest) ∧ words s = w :: words rest := by
  rw [← words_dropWhile]
  unfold extractWord
  cases hdrop : s.dropWhile isSpace with
  | nil => exact Or.inl ⟨rfl,rfl⟩
  | cons c rest =>
    right
    have hc : isSpace c = false := by
      have hhead := List.head?_dropWhile_not isSpace s
      rw [hdrop] at hhead
      simpa using hhead
    refine ⟨_,_,rfl,?_⟩
    conv_lhs => rw [← List.takeWhile_append_dropWhile (p := fun d => !isSpace d) (l := c :: rest)]
    refine words_word ?_ ?_ ?_
    · simp [hc]
    · intro d hd
      simpa using List.mem_takeWhile_imp hd
    · cases hafter : (c :: rest).dropWhile (fun d => !isSpace d) with
      | nil => exact Or.inl rfl
      | cons d t =>
        right
        have hhead := List.head?_dropWhile_not (fun d => !isSpace d) (c :: rest)
        rw [hafter] at hhead
        exact ⟨d,t,rfl,by simpa using hhead⟩

namespace SimpleHttpRequest
variable {r : SimpleHttpRequest} {line : List UInt8}

def RequestLine (line : List UInt8) : Prop :=
  ∃ method path version rest, words (cleanedLine line) = method :: path :: version :: rest ∧ bytes "HTTP/" <+: version

/-- Its third word is too short for the test of the version. -/
def ShortVersion (line : List UInt8) : Prop :=
  ∃ method path version rest, words (cleanedLine line) = method :: path :: version :: rest ∧ version.length < 5

/-- `parse_request_line` takes request lines, and takes their words. -/
def ReadsRequestLine (r : SimpleHttpRequest) (line : List UInt8) : Prop :=
  ((r.parseRequestLine line).1 = true ↔ RequestLine line) ∧
    ((r.parseRequestLine line).1 = true → ∃ rest, words (cleanedLine line) =
      (r.parseRequestLine line).2.method :: (r.parseRequestLine line).2.path ::
        (r.parseRequestLine line).2.version :: rest)

theorem checkVersion_eq (r : SimpleHttpRequest) :
    (r.checkVersion.1 = true ↔ r.version.length < 5 ∨ bytes "HTTP/" <+: r.version) ∧
      (r.checkVersion.1 = true → r.checkVersion.2 = r) := by
  have htake : r.version.take 5 = bytes "HTTP/" ↔ bytes "HTTP/" <+: r.version := by
    rw [List.prefix_iff_eq_take]
    exact eq_comm
  unfold checkVersion
  split_ifs with hbad
  · rw [ne_eq, htake] at hbad
    refine ⟨iff_of_false (by simp [fail]) ?_,by simp [fail]⟩
    rintro (hshort | hbegins)
    · omega
    · exact hbad.2 hbegins
  · refine ⟨iff_of_true rfl ?_,fun _ => rfl⟩
    rw [ne_eq, not_and_or, not_le, not_not, htake] at hbad
    exact hbad

theorem parseRequestLine_cases (r : SimpleHttpRequest) (line : List UInt8) :
    (words (cleanedLine line)).length < 3 ∧ (r.parseRequestLine line).1 = false ∨
      ∃ method path version rest, words (cleanedLine line) = method :: path :: version :: rest ∧
        r.parseRequestLine line = { r with method, path, version }.checkVersion := by
  have hclean : (if line.getLast? = some 13 then line.dropLast else line) = cleanedLine line := rfl
  unfold parseRequestLine
  dsimp only
  rw [hclean]
  rcases extractWord_words (cleanedLine line) with ⟨hnone,hwords⟩ | ⟨method,afterMethod,hsome,hwords⟩
  · left
    rw [hwords, hnone]
    exact ⟨by simp,rfl⟩
  rw [hwords, hsome]
  rcases extractWord_words afterMethod with ⟨hnone,hwords2⟩ | ⟨path,afterPath,hsome2,hwords2⟩
  · left
    rw [hwords2]
    dsimp only
    rw [hnone]
    exact ⟨by simp,rfl⟩
  rw [hwords2]
  dsimp only
  rw [hsome2]
  rcases extractWord_words afterPath with ⟨hnone,hthird⟩ | ⟨version,rest,htake,hthird⟩
  · left
    rw [hthird]
    dsimp only
    rw [hnone]
    exact ⟨by simp,rfl⟩
  · right
    rw [hthird]
    dsimp only
    rw [htake]
    exact ⟨method,path,version,words rest,rfl,rfl⟩

/-- Request lines are read right if and only if their third word is not shorter than `HTTP/`. -/
theorem request_line_iff (r : SimpleHttpRequest) (line : List UInt8) :
    r.ReadsRequestLine line ↔ ¬ ShortVersion line := by
  rcases parseRequestLine_cases r line with ⟨hfew,hfalse⟩ | ⟨method,path,version,rest,hwords,heq⟩
  · -- fewer than three words: refused, and rightly
    have hno : ∀ P : List UInt8 → Prop, ¬ ∃ method path version rest,
        words (cleanedLine line) = method :: path :: version :: rest ∧ P version := by
      rintro P ⟨method,path,version,rest,hwords,-⟩
      rw [hwords] at hfew
      simp only [List.length_cons] at hfew
      omega
    refine iff_of_true ⟨iff_of_false (by simp [hfalse]) (hno _),?_⟩ (hno _)
    intro htrue
    rw [hfalse] at htrue
    cases htrue
  · obtain ⟨haccept,hsame⟩ := checkVersion_eq { r with method, path, version }
    have hline : RequestLine line ↔ bytes "HTTP/" <+: version := by
      constructor
      · rintro ⟨method2,path2,version2,rest2,hwords2,hbegins⟩
        rw [hwords] at hwords2
        cases hwords2
        exact hbegins
      · exact fun hbegins => ⟨method,path,version,rest,hwords,hbegins⟩
    have hshort : ShortVersion line ↔ version.length < 5 := by
      constructor
      · rintro ⟨method2,path2,version2,rest2,hwords2,hlen⟩
        rw [hwords] at hwords2
        cases hwords2
        exact hlen
      · exact fun hlen => ⟨method,path,version,rest,hwords,hlen⟩
    rw [ReadsRequestLine, heq, haccept, hline, hshort, hwords]
    have hlong : bytes "HTTP/" <+: version → 5 ≤ version.length := fun hbegins => hbegins.length_le
    constructor
    · rintro ⟨hiff,-⟩ hlen
      have hle := hlong (hiff.mp (Or.inl hlen))
      omega
    · intro hlen
      refine ⟨⟨fun h => h.resolve_left hlen,Or.inr⟩,?_⟩
      intro h
      rw [hsame (haccept.mpr h)]
      exact ⟨rest,rfl⟩

/-- A version of one letter is let through. -/
theorem request_line_short : (({} : SimpleHttpRequest).parseRequestLine (bytes "GET / X")).1 = true ∧
    ¬ RequestLine (bytes "GET / X") := by
  refine ⟨by decide,?_⟩
  rintro ⟨method,path,version,rest,hwords,hbegins⟩
  rw [show words (cleanedLine (bytes "GET / X")) = [bytes "GET",bytes "/",bytes "X"] by decide] at hwords
  cases hwords
  revert hbegins
  decide

end SimpleHttpRequest
end ModernTcp
