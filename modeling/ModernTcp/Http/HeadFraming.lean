import ModernTcp.Http.HeadFields

/-! # The framing of a request

Of the lines of a text the first is the request line, and header lines follow up to the first empty one.
The body has as many bytes as the last content length among them says.
-/
namespace ModernTcp

def headLines (lines : List (List UInt8)) : List (List UInt8) := (lines.drop 1).takeWhile (· ≠ [])

def HeadEnds (lines : List (List UInt8)) : Prop := [] ∈ lines.drop 1

/-- The request line, the header lines and the empty line, with their line ends. -/
def headLength (lines : List (List UInt8)) : ℕ := linesLength (lines.take 1 ++ headLines lines ++ [[]])

def bodyLength (lines : List (List UInt8)) : ℕ := lastLength (headLines lines)

/-- The lines of the head that are there are accepted. -/
def LinesAccepted (lines : List (List UInt8)) : Prop :=
  (∀ line ∈ lines.head?, AcceptedRequestLine line) ∧ ∀ line ∈ headLines lines, ValidHeader line

/-- A request with all its parts in a text of that many bytes. -/
def WholeRequest (lines : List (List UInt8)) (length : ℕ) : Prop :=
  LinesAccepted lines ∧ HeadEnds lines ∧ headLength lines + bodyLength lines ≤ length

def headRequest (lines : List (List UInt8)) : SimpleHttpRequest :=
  SimpleHttpRequest.ofHead (lines.head?.getD []) (headLines lines)

theorem headRequest_contentLength (lines : List (List UInt8)) : (headRequest lines).contentLength = bodyLength lines :=
  SimpleHttpRequest.ofHead_contentLength _ _

namespace HttpParser
open SimpleHttpRequest
variable {lines pre post : List (List UInt8)} {line : List UInt8}

theorem framing_open (hopen : (({} : Head).reads lines).state.readsLine = true) :
    LinesAccepted lines ∧ ¬ HeadEnds lines := by
  obtain ⟨hrequest,hheaders⟩ := (Head.open_fresh_iff _).mp hopen
  refine ⟨⟨hrequest,?_⟩,fun hblank => (hheaders _ hblank).ne_nil rfl⟩
  intro x hx
  exact hheaders x ((List.takeWhile_prefix _).subset hx)

theorem headLines_of_valid {l : List UInt8} {ls rest : List (List UInt8)} (hvalid : ∀ x ∈ ls, ValidHeader x) :
    headLines (l :: ls ++ rest) = ls ++ rest.takeWhile (· ≠ []) := by
  have hkeep : ∀ x ∈ ls, decide (x ≠ []) = true := fun x hx => decide_eq_true (hvalid x hx).ne_nil
  rw [headLines, List.cons_append, List.drop_one, List.tail_cons, List.takeWhile_append_of_pos hkeep]

theorem framing_refused (hopen : (({} : Head).reads pre).state.readsLine = true)
    (herr : ((({} : Head).reads pre).read line).state = .error) : ¬ LinesAccepted (pre ++ line :: post) := by
  rintro ⟨hrequest,hheaders⟩
  cases pre with
  | nil =>
    have hline := hrequest line rfl
    rw [Head.reads_nil, Head.read_requestLine line hline] at herr
    cases herr
  | cons l ls =>
    obtain ⟨hl,hls⟩ := (Head.open_fresh_iff _).mp hopen
    have hl' : AcceptedRequestLine l := hl l rfl
    have hls' : ∀ x ∈ ls, ValidHeader x := hls
    rw [Head.reads_fresh hl' hls'] at herr
    have hne : line ≠ [] := by
      rintro rfl
      have hread := Head.read_blank_state (h := { state := .expectHeader, request := (ofRequestLine l).setLines ls }) rfl
      rw [herr] at hread
      simp at hread
    have hmem : line ∈ headLines (l :: ls ++ line :: post) := by
      rw [headLines_of_valid hls']
      simp [hne]
    rw [Head.read_valid rfl (hheaders line hmem)] at herr
    cases herr

theorem framing_ended (post : List (List UInt8)) (hhead : (({} : Head).reads pre).state = .expectHeader) :
    LinesAccepted (pre ++ [] :: post) ∧ HeadEnds (pre ++ [] :: post) ∧
      headLength (pre ++ [] :: post) = linesLength (pre ++ [[]]) ∧
      (({} : Head).reads pre).request.checkHeaders = headRequest (pre ++ [] :: post) := by
  obtain ⟨l,ls,rfl⟩ : ∃ l ls, pre = l :: ls := by
    cases pre with
    | nil => cases hhead
    | cons l ls => exact ⟨l,ls,rfl⟩
  obtain ⟨hl,hls⟩ := (Head.open_fresh_iff _).mp (State.readsLine_iff.mpr (Or.inr hhead))
  have hl' : AcceptedRequestLine l := hl l rfl
  have hls' : ∀ x ∈ ls, ValidHeader x := hls
  have hheadLines : headLines (l :: ls ++ [] :: post) = ls := by
    rw [headLines_of_valid hls']
    simp
  refine ⟨⟨hl,?_⟩,by simp [HeadEnds],?_,?_⟩
  · rw [hheadLines]
    exact hls'
  · rw [headLength, hheadLines]
    rfl
  · rw [Head.reads_fresh hl' hls', headRequest, hheadLines]
    rfl

end HttpParser
end ModernTcp
