import ModernTcp.Http.HeadLines

/-! # What the lines of a head make of a request

Header lines that are accepted set their entries one after the other, so of a name that comes more than
once the last line counts.
-/
namespace ModernTcp

namespace HeaderMap

theorem find_assign (m : HeaderMap) (key value name : List UInt8) :
    find name (m.assign key value) = if key = name then some value else find name m := by
  induction m with
  | nil => by_cases h : key = name <;> simp [assign, find, h]
  | cons e m ih =>
    obtain ⟨k,v⟩ := e
    rw [assign]
    by_cases hk : key = k
    · subst hk
      rw [if_pos rfl]
      by_cases hname : key = name <;> simp [find, hname]
    rw [if_neg hk]
    by_cases hlt : key < k
    · rw [if_pos hlt]
      by_cases hname : key = name <;> simp [find, hname]
    rw [if_neg hlt]
    -- behind an entry of another name
    by_cases hkn : k = name
    · have hname : key ≠ name := fun h => hk (h.trans hkn.symm)
      rw [if_neg hname]
      simp [find, hkn]
    · simpa [find, hkn] using ih

end HeaderMap

def IsContentLength (line : List UInt8) : Prop := toLower (fieldName line) = bytes "content-length"

instance : DecidablePred IsContentLength := fun line => inferInstanceAs (Decidable (toLower (fieldName line) = _))

/-- What the last content length among the lines sets. -/
def lastLength (lines : List (List UInt8)) : ℕ :=
  ((lines.filter (fun line => decide (IsContentLength line))).getLast?.map
    (fun line => (stoul (fieldValue line)).getD 0)).getD 0

/-- The value of the last line with that name. -/
def lastValue (lines : List (List UInt8)) (name : List UInt8) : Option (List UInt8) :=
  (lines.filter (fun line => decide (fieldName line = name))).getLast?.map fieldValue

theorem ValidHeader.ne_nil {line : List UInt8} (h : ValidHeader line) : line ≠ [] := List.ne_nil_of_mem h.colon

/-- A line that `parse_request_line` accepts. -/
def AcceptedRequestLine (line : List UInt8) : Prop := (({} : SimpleHttpRequest).parseRequestLine line).1 = true

instance : DecidablePred AcceptedRequestLine := fun _ => inferInstanceAs (Decidable (_ = _))

namespace SimpleHttpRequest

/-- What a request line makes of a new request. -/
def ofRequestLine (line : List UInt8) : SimpleHttpRequest := (({} : SimpleHttpRequest).parseRequestLine line).2

/-- What an accepted header line sets. -/
def setLine (r : SimpleHttpRequest) (line : List UInt8) : SimpleHttpRequest :=
  r.setHeader (fieldName line) (fieldValue line)

def setLines (r : SimpleHttpRequest) (lines : List (List UInt8)) : SimpleHttpRequest := lines.foldl setLine r

@[simp] theorem setLines_nil (r : SimpleHttpRequest) : r.setLines [] = r := rfl
@[simp] theorem setLines_cons (r : SimpleHttpRequest) (line : List UInt8) (lines : List (List UInt8)) :
    r.setLines (line :: lines) = (r.setLine line).setLines lines := rfl

theorem parseRequestLine_frame (r : SimpleHttpRequest) (line : List UInt8) :
    ∃ method path version parserError,
      (r.parseRequestLine line).2 = { r with method, path, version, parserError } := by
  unfold parseRequestLine
  dsimp only
  split
  · exact ⟨_,_,_,_,rfl⟩
  · split
    · exact ⟨_,_,_,_,rfl⟩
    · split
      · exact ⟨_,_,_,_,rfl⟩
      · unfold checkVersion
        split <;> exact ⟨_,_,_,_,rfl⟩

theorem checkHeaders_frame (r : SimpleHttpRequest) : ∃ keepAlive, r.checkHeaders = { r with keepAlive } := by
  unfold checkHeaders
  split
  · exact ⟨_,rfl⟩
  · exact ⟨_,rfl⟩

theorem setLines_field {β : Type*} {f : SimpleHttpRequest → β} {P : List UInt8 → Prop} [DecidablePred P]
    {g : List UInt8 → β} (hset : ∀ r line, f (r.setLine line) = if P line then g line else f r)
    (r : SimpleHttpRequest) (lines : List (List UInt8)) :
    f (r.setLines lines) = ((lines.filter (fun line => decide (P line))).getLast?.map g).getD (f r) := by
  induction lines generalizing r with
  | nil => rfl
  | cons line lines ih =>
    rw [setLines_cons, ih, hset]
    by_cases hline : P line
    · rw [List.filter_cons_of_pos (by simpa using hline), List.getLast?_cons, if_pos hline]
      cases (lines.filter (fun line => decide (P line))).getLast? with
      | none => rfl
      | some last => rfl
    · rw [List.filter_cons_of_neg (by simpa using hline), if_neg hline]

/-- The request behind its blank line. -/
def ofHead (line : List UInt8) (lines : List (List UInt8)) : SimpleHttpRequest :=
  ((ofRequestLine line).setLines lines).checkHeaders

theorem ofHead_contentLength (line : List UInt8) (lines : List (List UInt8)) :
    (ofHead line lines).contentLength = lastLength lines := by
  obtain ⟨keepAlive,hcheck⟩ := checkHeaders_frame ((ofRequestLine line).setLines lines)
  obtain ⟨method,path,version,parserError,hline⟩ := parseRequestLine_frame {} line
  have hlast := setLines_field (f := contentLength) (P := IsContentLength) (fun _ _ => rfl) (ofRequestLine line) lines
  rw [ofHead, hcheck]
  rw [ofRequestLine, hline] at hlast ⊢
  exact hlast

theorem ofHead_find (line : List UInt8) (lines : List (List UInt8)) (name : List UInt8) :
    (ofHead line lines).headers.find name = lastValue lines name := by
  obtain ⟨keepAlive,hcheck⟩ := checkHeaders_frame ((ofRequestLine line).setLines lines)
  obtain ⟨method,path,version,parserError,hline⟩ := parseRequestLine_frame {} line
  have hlast := setLines_field (f := fun r => r.headers.find name) (P := fun line => fieldName line = name)
    (fun r line => HeaderMap.find_assign r.headers (fieldName line) (fieldValue line) name) (ofRequestLine line) lines
  rw [ofHead, hcheck]
  rw [ofRequestLine, hline] at hlast ⊢
  refine hlast.trans ?_
  rw [lastValue]
  cases (lines.filter (fun line => decide (fieldName line = name))).getLast? with
  | none => rfl
  | some last => rfl

theorem ofHead_body (line : List UInt8) (lines : List (List UInt8)) : (ofHead line lines).body = [] := by
  have hset : ∀ r : SimpleHttpRequest, (r.setLines lines).body = r.body := by
    induction lines with
    | nil => exact fun _ => rfl
    | cons line lines ih => exact fun r => ih (r.setLine line)
  rw [ofHead, checkHeaders_body, hset, ofRequestLine, parseRequestLine_body]

end SimpleHttpRequest

namespace HttpParser.Head
open SimpleHttpRequest
variable {h : Head} {line : List UInt8} {lines : List (List UInt8)}

theorem read_valid (hst : h.state = .expectHeader) (hline : ValidHeader line) :
    h.read line = { state := .expectHeader, request := h.request.setLine line } := by
  rw [read_header hst hline.ne_nil, parseHeaderLine_valid _ hline]
  rfl

theorem reads_valid (hst : h.state = .expectHeader) (hlines : ∀ line ∈ lines, ValidHeader line) :
    h.reads lines = { state := .expectHeader, request := h.request.setLines lines } := by
  induction lines generalizing h with
  | nil =>
    rw [reads_nil, setLines_nil, ← hst]
  | cons line lines ih =>
    obtain ⟨hline,hrest⟩ := List.forall_mem_cons.mp hlines
    rw [reads_cons, read_valid hst hline, ih rfl hrest]
    rfl

theorem validHeader_of_open (hst : h.state = .expectHeader) (hopen : (h.read line).state.readsLine = true) :
    ValidHeader line := by
  by_cases hnil : line = []
  · rw [hnil] at hopen
    rcases read_blank_state hst with hread | hread <;> rw [hread] at hopen <;> cases hopen
  · rw [read_header hst hnil] at hopen
    rw [← parseHeaderLine_accepts h.request]
    dsimp only at hopen
    split_ifs at hopen with hok
    · exact hok
    · cases hopen

theorem open_headers_iff (hst : h.state = .expectHeader) :
    (h.reads lines).state.readsLine = true ↔ ∀ line ∈ lines, ValidHeader line := by
  constructor
  · intro hopen
    induction lines generalizing h with
    | nil => simp
    | cons line lines ih =>
      have hline := validHeader_of_open hst (open_of_reads hopen)
      rw [reads_cons, read_valid hst hline] at hopen
      exact List.forall_mem_cons.mpr ⟨hline,ih rfl hopen⟩
  · intro hlines
    rw [reads_valid hst hlines]
    rfl

theorem read_requestLine (line : List UInt8) (hline : AcceptedRequestLine line) :
    ({} : Head).read line = { state := .expectHeader, request := ofRequestLine line } := by
  rw [read_request rfl]
  have hok : (({} : Head).request.parseRequestLine line).1 = true := hline
  rw [if_pos hok]
  rfl

/-- The head of a new request is open behind an accepted request line and accepted headers. -/
theorem open_fresh_iff (lines : List (List UInt8)) : (({} : Head).reads lines).state.readsLine = true ↔
    (∀ line ∈ lines.head?, AcceptedRequestLine line) ∧ ∀ line ∈ lines.drop 1, ValidHeader line := by
  cases lines with
  | nil => simp [State.readsLine]
  | cons line lines =>
    simp only [List.head?_cons, Option.mem_def, Option.some.injEq, forall_eq', List.drop_one, List.tail_cons]
    constructor
    · intro hopen
      have hline : AcceptedRequestLine line := by
        rw [reads_cons] at hopen
        have hread := open_of_reads hopen
        rw [read_request rfl] at hread
        dsimp only at hread
        split_ifs at hread with hok
        · exact hok
        · cases hread
      rw [reads_cons, read_requestLine line hline] at hopen
      exact ⟨hline,(open_headers_iff rfl).mp hopen⟩
    · rintro ⟨hline,hlines⟩
      rw [reads_cons, read_requestLine line hline]
      exact (open_headers_iff rfl).mpr hlines

theorem reads_fresh (hline : AcceptedRequestLine line) (hlines : ∀ line ∈ lines, ValidHeader line) :
    ({} : Head).reads (line :: lines) = { state := .expectHeader, request := (ofRequestLine line).setLines lines } := by
  rw [reads_cons, read_requestLine line hline, reads_valid rfl hlines]

end HttpParser.Head
end ModernTcp
