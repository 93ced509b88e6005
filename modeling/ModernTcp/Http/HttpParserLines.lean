import ModernTcp.Common.Lines
import ModernTcp.Http.HttpParserIncremental

/-! # The header lines a parser sees

A parser that is fed a request in chunks reads the lines that the chunks deliver, up to the first
empty one. The content type of the request is the value of the last line with that name.
-/
namespace ModernTcp

def fieldName (line : List UInt8) : List UInt8 := trim (line.takeWhile (· ≠ 58))

def fieldValue (line : List UInt8) : List UInt8 := trim ((line.dropWhile (· ≠ 58)).drop 1)

def IsContentType (line : List UInt8) : Prop := toLower (fieldName line) = bytes "content-type"

instance : DecidablePred IsContentType := fun line => inferInstanceAs (Decidable (toLower (fieldName line) = _))

/-- The header lines of a request that comes in chunks. -/
def headerLines (chunks : List (List UInt8)) : List (List UInt8) :=
  ((deliveredLines chunks).drop 1).takeWhile (· ≠ [])

/-- The line that the content type of a request is taken from. -/
def contentTypeLine (chunks : List (List UInt8)) : Option (List UInt8) :=
  ((headerLines chunks).filter (fun line => decide (IsContentType line))).getLast?

namespace SimpleHttpRequest

theorem parseRequestLine_contentType (r : SimpleHttpRequest) (line : List UInt8) :
    (r.parseRequestLine line).2.contentType = r.contentType := by
  unfold parseRequestLine
  dsimp only
  split
  · rfl
  · split
    · rfl
    · split
      · rfl
      · unfold checkVersion
        split <;> rfl

theorem setContentLength_contentType (r : SimpleHttpRequest) (value : List UInt8) :
    (r.setContentLength value).2.contentType = r.contentType := by
  unfold setContentLength
  split
  · rfl
  · split <;> rfl

theorem checkHeaders_contentType (r : SimpleHttpRequest) : r.checkHeaders.contentType = r.contentType := by
  unfold checkHeaders
  split <;> rfl

/-- An accepted header line sets the content type, if it is about that. -/
theorem parseHeaderLine_contentType {r r' : SimpleHttpRequest} {line : List UInt8}
    (h : r.parseHeaderLine line = (true,r')) :
    r'.contentType = if IsContentType line then fieldValue line else r.contentType := by
  have hother : ∀ name, name ≠ bytes "content-type" → toLower (fieldName line) = name →
      (if IsContentType line then fieldValue line else r.contentType) = r.contentType := by
    rintro name hne rfl
    exact if_neg hne
  unfold parseHeaderLine at h
  split at h
  · cases h
  dsimp only at h
  split at h
  · cases h
  split at h
  · rename_i hname
    rw [hother _ (by decide) hname]
    have hset := congrArg (fun x => x.2.contentType) h
    exact hset.symm.trans (setContentLength_contentType _ _)
  split at h
  · rename_i hname
    cases h
    exact (hother _ (by decide) hname).symm
  split at h
  · rename_i hname
    cases h
    exact (hother _ (by decide) hname).symm
  split at h
  · rename_i hname
    cases h
    exact (hother _ (by decide) hname).symm
  split at h
  · rename_i hname
    cases h
    exact (if_pos hname).symm
  · rename_i hname
    cases h
    exact (if_neg hname).symm

end SimpleHttpRequest

/-- The content type behind header lines, when it was `current` before them. -/
def contentTypeFrom (current : List UInt8) : List (List UInt8) → List UInt8
  | [] => current
  | line :: rest =>
    if line = [] then current else contentTypeFrom (if IsContentType line then fieldValue line else current) rest

theorem contentTypeFrom_eq (current : List UInt8) (lines : List (List UInt8)) :
    contentTypeFrom current lines = (((lines.takeWhile (· ≠ [])).filter
      (fun line => decide (IsContentType line))).getLast?.map fieldValue).getD current := by
  induction lines generalizing current with
  | nil => rfl
  | cons line rest ih =>
    by_cases hnil : line = []
    · simp [contentTypeFrom, hnil]
    · rw [contentTypeFrom, if_neg hnil, ih]
      by_cases htype : IsContentType line
      · simp only [htype, if_true]
        rw [List.takeWhile_cons_of_pos (by simpa using hnil), List.filter_cons_of_pos (by simpa using htype),
          List.getLast?_cons]
        cases ((rest.takeWhile (· ≠ [])).filter (fun line => decide (IsContentType line))).getLast? with
        | none => simp
        | some last => simp
      · simp [hnil, htype]

namespace HttpParser
open SimpleHttpRequest

/-- The content type that the request will have, if it is completed by the marked text that follows. -/
def expectedType (p : HttpParser) (ms : List (Option UInt8)) : List UInt8 :=
  match p.state with
  | .expectRequestLine => contentTypeFrom p.currentReq.contentType ((terminated p.tempBuffer ms).drop 1)
  | .expectHeader => contentTypeFrom p.currentReq.contentType (terminated p.tempBuffer ms)
  | .expectBody | .complete | .error => p.currentReq.contentType

namespace Scan
variable {s t : Scan} {ms : List (Option UInt8)}

theorem keepPartial_expectedType (hnone : findCrlf s.rest = none) (herr : s.keepPartial.parser.state ≠ .error) :
    s.keepPartial.parser.expectedType ms = s.parser.expectedType (marks s.rest ++ ms) := by
  have habsorb : s.keepPartial = s.absorb := by
    unfold keepPartial at herr ⊢
    split at herr
    · exact absurd rfl herr
    · rename_i hsmall
      rw [if_neg hsmall]
  rw [habsorb, marks_of_findCrlf_none hnone]
  simp only [expectedType, absorb, terminated_append]

theorem requestLine_expectedType {line : List UInt8} (hst : s.parser.state = .expectRequestLine)
    (htemp : s.parser.tempBuffer = []) (herr : (s.readLine line).parser.state ≠ .error) :
    (s.readLine line).parser.expectedType ms =
      contentTypeFrom s.parser.currentReq.contentType (terminated [] ms) := by
  unfold readLine at herr ⊢
  rw [if_pos hst] at herr ⊢
  have hkeep := parseRequestLine_contentType s.parser.currentReq line
  split at herr
  · exact absurd rfl herr
  · rename_i r hparse
    rw [hparse] at hkeep
    rw [← htemp, ← hkeep]
    rfl

theorem headerLine_expectedType {line : List UInt8} (hst : s.parser.state = .expectHeader)
    (htemp : s.parser.tempBuffer = []) (herr : (s.readLine line).parser.state ≠ .error) :
    (s.readLine line).parser.expectedType ms =
      contentTypeFrom s.parser.currentReq.contentType (line :: terminated [] ms) := by
  unfold readLine at herr ⊢
  rw [if_neg (by rw [hst]; decide)] at herr ⊢
  rw [contentTypeFrom]
  by_cases hnil : line = []
  · -- the empty line ends the head, with or without a body behind it
    rw [if_pos hnil, if_pos hnil]
    dsimp only
    split_ifs
    · exact checkHeaders_contentType _
    · exact checkHeaders_contentType _
  · rw [if_neg hnil] at herr
    rw [if_neg hnil, if_neg hnil]
    split at herr
    · exact absurd rfl herr
    · rename_i r hparse
      rw [← parseHeaderLine_contentType hparse, ← htemp]
      simp only [expectedType, withRequest, hst]

theorem takeLine_expectedType {n : ℕ} (hst : s.parser.state = .expectRequestLine ∨ s.parser.state = .expectHeader)
    (hn : findCrlf s.rest = some n) (herr : (s.takeLine n).parser.state ≠ .error) :
    (s.takeLine n).parser.expectedType (marks (s.takeLine n).rest ++ ms) =
      s.parser.expectedType (marks s.rest ++ ms) := by
  have hlines : terminated s.parser.tempBuffer (marks s.rest ++ ms) =
      s.lineAt n :: terminated [] (marks (s.takeLine n).rest ++ ms) := by
    rw [marks_of_findCrlf hn, List.append_assoc, terminated_append, List.cons_append, terminated, takeLine_rest]
    rfl
  rcases hst with hst | hst
  · rw [takeLine, requestLine_expectedType (s := s.afterLine n) hst rfl herr]
    simp only [expectedType, hst, hlines, List.drop_one, List.tail_cons]
    rfl
  · rw [takeLine, headerLine_expectedType (s := s.afterLine n) hst rfl herr]
    simp only [expectedType, hst, hlines]
    rfl

theorem takeBody_expectedType (hst : s.parser.state = .expectBody) :
    s.takeBody.parser.expectedType (marks s.takeBody.rest ++ ms) = s.parser.expectedType (marks s.rest ++ ms) := by
  have hbody : s.parser.expectedType (marks s.rest ++ ms) = s.parser.currentReq.contentType := by
    simp only [expectedType, hst]
  rw [hbody, takeBody, checkBody]
  split_ifs
  · rfl
  · have hstate : (s.appendBody s.bodyTake).parser.state = .expectBody := hst
    simp only [expectedType, hstate]
    rfl

theorem run_expectedType (s : Scan) (ms : List (Option UInt8)) (herr : s.run.parser.state ≠ .error) :
    s.run.parser.expectedType (marks s.run.rest ++ ms) = s.parser.expectedType (marks s.rest ++ ms) := by
  refine Loop.run_invariant round_decreases (I := fun t => t.parser.state ≠ .error →
    t.parser.expectedType (marks t.rest ++ ms) = s.parser.expectedType (marks s.rest ++ ms)) ?_ (fun _ => rfl) herr
  intro t u ht h hu
  obtain ⟨-,⟨hst,⟨hnone,rfl⟩ | ⟨n,hn,rfl⟩⟩ | ⟨hst,rfl⟩⟩ := round_cases h
  · rw [← ht (by rcases hst with hst | hst <;> rw [hst] <;> decide), keepPartial_rest]
    exact keepPartial_expectedType hnone hu
  · rw [← ht (by rcases hst with hst | hst <;> rw [hst] <;> decide)]
    exact takeLine_expectedType hst hn hu
  · rw [← ht (by rw [hst]; decide)]
    exact takeBody_expectedType hst

end Scan

theorem startRequest_expectedType (p : HttpParser) (ms : List (Option UInt8)) :
    p.startRequest.expectedType ms = p.expectedType ms := by
  unfold startRequest
  split
  · rfl
  · rfl

theorem parse_of_error {p : HttpParser} (h : p.state = .error) (data : List UInt8) : (p.parse data).1.state = .error := by
  have hstart : p.startRequest = p := by
    unfold startRequest
    rw [if_neg (by rw [h]; decide)]
  have hrun := Scan.run_of_inactive (s := { parser := p, rest := data }) (by rw [h]; rfl)
  rw [parse, hstart, hrun]
  exact h

theorem feedAll_of_error {p : HttpParser} (h : p.state = .error) (chunks : List (List UInt8)) :
    (feedAll p chunks).state = .error := by
  induction chunks generalizing p with
  | nil => exact h
  | cons c cs ih =>
    simp only [feedAll]
    split_ifs
    · exact ih (parse_of_error h c)
    · exact parse_of_error h c

/-- A completed request has the content type of the lines that its chunks deliver. -/
theorem feedAll_contentType {p : HttpParser} {chunks : List (List UInt8)}
    (hdone : (feedAll p chunks).state = .complete) :
    (feedAll p chunks).currentReq.contentType = p.expectedType (chunks.flatMap marks) := by
  induction chunks generalizing p with
  | nil =>
    have hstate : p.state = .complete := hdone
    simp only [feedAll, expectedType, hstate]
  | cons c cs ih =>
    have hrun := Scan.run_expectedType { parser := p.startRequest, rest := c } (cs.flatMap marks)
    rw [startRequest_expectedType] at hrun
    simp only [feedAll] at hdone ⊢
    split_ifs at hdone ⊢ with hall
    · have hrest : (Scan.run { parser := p.startRequest, rest := c }).rest = [] := by
        have hcons := Scan.run_consumed { parser := p.startRequest, rest := c }
        have hall' : (Scan.run { parser := p.startRequest, rest := c }).consumed = c.length := hall
        apply List.length_eq_zero_iff.mp
        dsimp only at hcons
        omega
      have herr : (p.parse c).1.state ≠ .error := by
        intro herr
        rw [feedAll_of_error herr] at hdone
        cases hdone
      rw [ih hdone, List.flatMap_cons, ← hrun herr, hrest]
      rfl
    · have hstate : (Scan.run { parser := p.startRequest, rest := c }).parser.state = .complete := hdone
      rw [List.flatMap_cons, ← hrun (by rw [hstate]; decide)]
      simp only [expectedType, hstate]
      rfl

/-- The content type of a request that a reset parser completes. -/
theorem complete_contentType {p : HttpParser} {chunks : List (List UInt8)}
    (hdone : (feedAll p.reset chunks).state = .complete) :
    (feedAll p.reset chunks).currentReq.contentType = ((contentTypeLine chunks).map fieldValue).getD [] := by
  rw [feedAll_contentType hdone]
  exact contentTypeFrom_eq [] _

end HttpParser
end ModernTcp
