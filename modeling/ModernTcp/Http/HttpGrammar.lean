import ModernTcp.Http.HeadFraming
import ModernTcp.Http.HttpParserPipeline

/-! # Parsing in one piece

One call of `parse` on a new parser finds the parts that the framing of the text says: the text is cut at
its CRLFs, and what follows the head is the body.
-/
namespace ModernTcp.HttpParser
open Scan

/-- A call of `parse` on the text finds what its framing says. -/
structure MatchesGrammar (s : List UInt8) : Prop where
  complete : (parse {} s).2.isComplete = true ↔ WholeRequest (linesOf s) s.length
  consumed : (parse {} s).2.isComplete = true →
    (parse {} s).2.consumedBytes = headLength (linesOf s) + bodyLength (linesOf s)
  body : (parse {} s).2.isComplete = true →
    (parse {} s).1.currentReq.body = (s.drop (headLength (linesOf s))).take (bodyLength (linesOf s))
  headers : (parse {} s).2.isComplete = true →
    ∀ name, (parse {} s).1.currentReq.headers.find name = lastValue (headLines (linesOf s)) name
  error : (parse {} s).2.hasError = true ↔ ¬ LinesAccepted (linesOf s)
  more : (parse {} s).2.isComplete = false → (parse {} s).2.hasError = false →
    (held [] (marks s)).length ≤ maxHttpHeaderSize → (parse {} s).1.state.active = true

variable {s : List UInt8}

theorem fresh_lines (s : List UInt8) : (({} : HttpParser).scan s).lines = linesOf s := scan_lines {} s

theorem matches_open (hopen : (({} : Head).reads (linesOf s)).state.readsLine = true) : MatchesGrammar s := by
  obtain ⟨haccepted,hblank⟩ := framing_open hopen
  have hrun : s ≠ [] → (({} : HttpParser).scan s).run.parser =
      holding (({} : HttpParser).scan s).parser (({} : Head).reads (linesOf s)) (held [] (marks s)) ∧
      (({} : HttpParser).scan s).run.result = {} := by
    intro hne
    obtain ⟨hparser,-,hresult⟩ := run_open (s := ({} : HttpParser).scan s) (by rw [fresh_lines]; exact hopen) hne
    rw [fresh_lines] at hparser
    exact ⟨hparser,hresult⟩
  have hresult : (({} : HttpParser).scan s).run.result = {} := by
    by_cases hnil : s = []
    · rw [run_nil hnil]
      rfl
    · exact (hrun hnil).2
  have hcomplete : (parse {} s).2.isComplete = false := by rw [parse_isComplete, hresult]
  have herror : (parse {} s).2.hasError = false := by rw [parse_hasError, hresult]
  constructor
  · rw [hcomplete]
    exact iff_of_false (by simp) (fun h => hblank h.2.1)
  · simp [hcomplete]
  · simp [hcomplete]
  · simp [hcomplete]
  · rw [herror]
    exact iff_of_false (by simp) (not_not.mpr haccepted)
  · intro _ _ hshort
    rw [parse_state]
    by_cases hnil : s = []
    · rw [run_nil hnil]
      rfl
    · rw [(hrun hnil).1, holding_state, if_neg (not_lt.mpr hshort)]
      rcases State.readsLine_iff.mp hopen with hst | hst <;> rw [hst] <;> rfl

theorem matches_refused {pre post : List (List UInt8)} {line : List UInt8} (hlines : linesOf s = pre ++ line :: post)
    (hopen : (({} : Head).reads pre).state.readsLine = true)
    (herr : ((({} : Head).reads pre).read line).state = .error) : MatchesGrammar s := by
  obtain ⟨hstate,hflag⟩ := run_refused (s := ({} : HttpParser).scan s) (by rw [fresh_lines]; exact hlines) hopen herr
  have hcomplete : (parse {} s).2.isComplete = false := by
    rw [parse_isComplete, Bool.eq_false_iff]
    intro hc
    have hst := (run_flagsAgree (fresh_flagsAgree s)).complete_iff.mp hc
    exact absurd (hstate.symm.trans hst) (by decide)
  have hrefused : ¬ LinesAccepted (linesOf s) := by
    rw [hlines]
    exact framing_refused hopen herr
  constructor
  · rw [hcomplete]
    exact iff_of_false (by simp) (fun h => hrefused h.1)
  · simp [hcomplete]
  · simp [hcomplete]
  · simp [hcomplete]
  · exact iff_of_true hflag hrefused
  · intro _ hno
    rw [parse_hasError, hflag] at hno
    cases hno

theorem headLength_le {pre post : List (List UInt8)} (hlines : linesOf s = pre ++ [] :: post) :
    linesLength (pre ++ [[]]) ≤ s.length := by
  have hsum := linesLength_terminated [] s
  rw [show terminated [] (marks s) = linesOf s from rfl, hlines] at hsum
  simp only [linesLength_append, linesLength_cons, linesLength_nil, List.length_nil] at hsum ⊢
  omega

/-- The scan behind a head that ends: the body is what the lines say, as far as it is there. -/
theorem run_ended {pre post : List (List UInt8)} (hlines : linesOf s = pre ++ [] :: post)
    (hhead : (({} : Head).reads pre).state = .expectHeader) :
    let behind := s.drop (headLength (linesOf s))
    (({} : HttpParser).scan s).run.parser.currentReq =
      { headRequest (linesOf s) with body := behind.take (bodyLength (linesOf s)) } ∧
    (({} : HttpParser).scan s).run.parser.state =
      (if bodyLength (linesOf s) ≤ behind.length then .complete else .expectBody) ∧
    (({} : HttpParser).scan s).run.rest = behind.drop (bodyLength (linesOf s)) ∧
    (({} : HttpParser).scan s).run.result.hasError = false ∧
    (({} : HttpParser).scan s).run.result.isComplete = decide (bodyLength (linesOf s) ≤ behind.length) := by
  obtain ⟨-,-,hlength,hrequest⟩ := framing_ended post hhead
  obtain ⟨hparser,hrest,herr,hcomplete⟩ := run_blank (s := ({} : HttpParser).scan s)
    (by rw [fresh_lines]; exact hlines) hhead rfl
  have hfresh : (({} : HttpParser).scan s).parser.head = {} := rfl
  have htemp : (({} : HttpParser).scan s).parser.tempBuffer = [] := rfl
  rw [hfresh, hrequest, htemp, scan_rest, ← hlength, ← hlines, headRequest_contentLength, List.length_nil,
    Nat.sub_zero] at hparser hrest hcomplete
  rw [scan_result, Bool.false_or] at hcomplete
  refine ⟨?_,?_,hrest,herr,hcomplete⟩
  · rw [hparser]
    dsimp only
    rw [headRequest, SimpleHttpRequest.ofHead_body, List.nil_append, SimpleHttpRequest.ofHead_contentLength]
    rfl
  · rw [hparser]

theorem matches_ended {pre post : List (List UInt8)} (hlines : linesOf s = pre ++ [] :: post)
    (hhead : (({} : Head).reads pre).state = .expectHeader) : MatchesGrammar s := by
  obtain ⟨haccepted,hends,hlength,-⟩ := framing_ended post hhead
  have hinside := headLength_le hlines
  obtain ⟨hrequest,hstate,hrest,herr,hcomplete⟩ := run_ended hlines hhead
  rw [← hlines] at haccepted hends hlength
  have hfits : (parse {} s).2.isComplete = true ↔ headLength (linesOf s) + bodyLength (linesOf s) ≤ s.length := by
    rw [parse_isComplete, hcomplete, decide_eq_true_eq, List.length_drop]
    omega
  constructor
  · rw [hfits]
    exact ⟨fun h => ⟨haccepted,hends,h⟩,fun h => h.2.2⟩
  · intro h
    have hcons := run_consumed (({} : HttpParser).scan s)
    have hle := hfits.mp h
    rw [hrest, List.length_drop, List.length_drop, scan_consumed, scan_rest] at hcons
    rw [parse_consumed]
    omega
  · intro _
    rw [parse_fst, hrequest]
  · intro _ name
    rw [parse_fst, hrequest]
    exact SimpleHttpRequest.ofHead_find _ _ name
  · rw [parse_hasError, herr]
    exact iff_of_false (by simp) (not_not.mpr haccepted)
  · intro hmore _ _
    rw [parse_isComplete, hcomplete, decide_eq_false_iff_not] at hmore
    rw [parse_state, hstate, if_neg hmore]
    rfl

/-- Every text is parsed as it is framed. -/
theorem parse_matches_grammar (s : List UInt8) : MatchesGrammar s := by
  rcases Head.reads_cases (h := {}) rfl (linesOf s) with hopen | ⟨pre,line,post,hlines,hopen,⟨hhead,rfl⟩ | herr⟩
  · exact matches_open hopen
  · exact matches_ended hlines hhead
  · exact matches_refused hlines hopen herr

theorem accepted_bare {line : List UInt8} (hline : AcceptedRequestLine line) (hclean : findCrlf line = none) :
    Accepted (joinLines [line,[]]) ∧ requestOf (joinLines [line,[]]) =
      { (SimpleHttpRequest.ofRequestLine line).checkHeaders with parseSuccess := true } := by
  have hlines : linesOf (joinLines [line,[]]) = [line] ++ [] :: [] := by
    have hjoin := linesOf_join (show ∀ l ∈ [line,[]], findCrlf l = none by simp [hclean, findCrlf]) []
    rwa [List.append_nil, show linesOf [] = [] from rfl, List.append_nil] at hjoin
  have hhead : (({} : Head).reads [line]).state = .expectHeader := by
    rw [Head.reads_cons, Head.read_requestLine line hline]
    rfl
  obtain ⟨hrequest,hstate,hrest,-,hcomplete⟩ := run_ended hlines hhead
  have hbody : bodyLength (linesOf (joinLines [line,[]])) = 0 := by
    rw [hlines]
    rfl
  have hmade : headRequest (linesOf (joinLines [line,[]])) = (SimpleHttpRequest.ofRequestLine line).checkHeaders := by
    rw [hlines]
    rfl
  rw [hbody, if_pos (Nat.zero_le _)] at hstate
  rw [hbody, decide_eq_true (Nat.zero_le _)] at hcomplete
  have hlength : (joinLines [line,[]]).length = headLength (linesOf (joinLines [line,[]])) := by
    rw [length_joinLines, hlines]
    rfl
  have hmatches := matches_ended hlines hhead
  have hdone : (parse {} (joinLines [line,[]])).2.isComplete = true := by rw [parse_isComplete, hcomplete]
  refine ⟨⟨hdone,?_⟩,?_⟩
  · rw [hmatches.consumed hdone, hbody, hlength]
    rfl
  · have hnobody : (SimpleHttpRequest.ofRequestLine line).checkHeaders.body = [] :=
      SimpleHttpRequest.ofHead_body line []
    rw [requestOf, getRequest, parse_fst, hrequest, hstate, hbody, hmade, List.take_zero, ← hnobody]
    rfl

end ModernTcp.HttpParser
