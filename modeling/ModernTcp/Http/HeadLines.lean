import ModernTcp.Http.HeaderLine

/-! # The head of a request, line by line

The scanning loop cuts its data into lines and reads them one after the other. What it makes of them
depends on the lines only: between two lines a request is the state of the parser and the fields that
are set.
-/
namespace ModernTcp.HttpParser
open SimpleHttpRequest

/-- The states in which a line is read. -/
def State.readsLine : State → Bool
  | .expectRequestLine | .expectHeader => true
  | _ => false

theorem State.readsLine_iff {st : State} :
    st.readsLine = true ↔ st = .expectRequestLine ∨ st = .expectHeader := by
  cases st <;> simp [State.readsLine]

/-- A request between two of its lines. -/
structure Head where
  state : State := .expectRequestLine
  request : SimpleHttpRequest := {}

namespace Head

/-- What the next line does. Behind the head, and behind a line that was refused, none is read. -/
def read (h : Head) (line : List UInt8) : Head :=
  match h.state with
  | .expectRequestLine => match h.request.parseRequestLine line with
    | (false,r) => { state := .error, request := r }
    | (true,r) => { state := .expectHeader, request := r }
  | .expectHeader =>
    if line = [] then
      { state := if 0 < h.request.checkHeaders.contentLength then .expectBody else .complete
        request := h.request.checkHeaders }
    else match h.request.parseHeaderLine line with
      | (false,r) => { state := .error, request := r }
      | (true,r) => { state := .expectHeader, request := r }
  | _ => h

def reads (h : Head) (lines : List (List UInt8)) : Head := lines.foldl read h

variable {h : Head} {line : List UInt8} {lines : List (List UInt8)}

@[simp] theorem reads_nil (h : Head) : h.reads [] = h := rfl
@[simp] theorem reads_cons (h : Head) (line : List UInt8) (lines : List (List UInt8)) :
    h.reads (line :: lines) = (h.read line).reads lines := rfl
@[simp] theorem reads_append (h : Head) (lines lines' : List (List UInt8)) :
    h.reads (lines ++ lines') = (h.reads lines).reads lines' := List.foldl_append

theorem read_closed (hst : h.state.readsLine = false) (line : List UInt8) : h.read line = h := by
  cases hs : h.state <;> simp_all [State.readsLine, read]

theorem reads_closed (hst : h.state.readsLine = false) (lines : List (List UInt8)) : h.reads lines = h := by
  induction lines with
  | nil => rfl
  | cons line lines ih => rw [reads_cons, read_closed hst, ih]

theorem open_of_reads (hst : (h.reads lines).state.readsLine = true) : h.state.readsLine = true := by
  by_contra hclosed
  rw [Bool.not_eq_true] at hclosed
  rw [reads_closed hclosed, hclosed] at hst
  cases hst

theorem read_request (hst : h.state = .expectRequestLine) : h.read line =
    { state := if (h.request.parseRequestLine line).1 then .expectHeader else .error
      request := (h.request.parseRequestLine line).2 } := by
  rcases hparse : h.request.parseRequestLine line with ⟨_ | _,r⟩ <;> simp [read, hst, hparse]

theorem read_header (hst : h.state = .expectHeader) (hne : line ≠ []) : h.read line =
    { state := if (h.request.parseHeaderLine line).1 then .expectHeader else .error
      request := (h.request.parseHeaderLine line).2 } := by
  rcases hparse : h.request.parseHeaderLine line with ⟨_ | _,r⟩ <;> simp [read, hst, hparse, hne]

theorem read_blank (hst : h.state = .expectHeader) : h.read [] =
    { state := if 0 < h.request.checkHeaders.contentLength then .expectBody else .complete
      request := h.request.checkHeaders } := by
  simp [read, hst]

theorem read_blank_state (hst : h.state = .expectHeader) :
    (h.read []).state = .expectBody ∨ (h.read []).state = .complete := by
  rw [read_blank hst]
  dsimp only
  split_ifs
  · exact Or.inl rfl
  · exact Or.inr rfl

/-- Lines leave a head open, up to the first that is refused or that is the blank one. -/
theorem reads_cases (hst : h.state.readsLine = true) (lines : List (List UInt8)) :
    (h.reads lines).state.readsLine = true ∨ ∃ pre line post, lines = pre ++ line :: post ∧
      (h.reads pre).state.readsLine = true ∧ ((h.reads pre).state = .expectHeader ∧ line = [] ∨
        ((h.reads pre).read line).state = .error) := by
  induction lines generalizing h with
  | nil => exact Or.inl hst
  | cons line lines ih =>
    cases hread : (h.read line).state.readsLine with
    | true =>
      rcases ih hread with hopen | ⟨pre,line',post,rfl,hpre,hend⟩
      · exact Or.inl hopen
      · exact Or.inr ⟨line :: pre,line',post,rfl,hpre,hend⟩
    | false =>
      refine Or.inr ⟨[],line,lines,rfl,hst,?_⟩
      rw [reads_nil]
      rcases State.readsLine_iff.mp hst with hs | hs
      · right
        rw [read_request hs] at hread ⊢
        split_ifs at hread ⊢
        · cases hread
        · rfl
      · by_cases hnil : line = []
        · exact Or.inl ⟨hs,hnil⟩
        · right
          rw [read_header hs hnil] at hread ⊢
          split_ifs at hread ⊢
          · cases hread
          · rfl

end Head

/-- Where a parser stands in a head. -/
def head (p : HttpParser) : Head := { state := p.state, request := p.currentReq }

/-- The parser with another head. -/
def withHead (p : HttpParser) (h : Head) : HttpParser := { p with state := h.state, currentReq := h.request }

namespace Scan
variable {s : Scan} {line : List UInt8}

theorem readLine_withHead (hst : s.parser.state.readsLine = true) (line : List UInt8) :
    (s.readLine line).parser = s.parser.withHead (s.parser.head.read line) := by
  rcases State.readsLine_iff.mp hst with hs | hs
  · rw [Head.read_request hs]
    unfold readLine
    rw [if_pos hs]
    rcases hparse : s.parser.currentReq.parseRequestLine line with ⟨_ | _,r⟩
    · simp [head, withHead, hparse, reject, withRequest]
    · simp [head, withHead, hparse, enter, withRequest]
  · have hs' : s.parser.state ≠ .expectRequestLine := by rw [hs]; decide
    unfold readLine
    rw [if_neg hs']
    by_cases hnil : line = []
    · rw [if_pos hnil, hnil, Head.read_blank hs]
      dsimp only
      split_ifs <;> simp_all [head, withHead, enter, finish, withRequest]
    · rw [if_neg hnil, Head.read_header hs hnil]
      rcases hparse : s.parser.currentReq.parseHeaderLine line with ⟨_ | _,r⟩
      · simp [head, withHead, hparse, reject, withRequest]
      · simp [head, withHead, hparse, withRequest, hs]

theorem readLine_result (hst : s.parser.state.readsLine = true) (line : List UInt8) :
    (s.readLine line).result = match (s.parser.head.read line).state with
      | .error => { s.result with hasError := true }
      | .complete => { s.result with
          isComplete := true
          requestStartIndex := s.parser.currentRequestStartIndex
          requestTotalLen := s.consumed - s.parser.currentRequestStartIndex }
      | _ => s.result := by
  rcases State.readsLine_iff.mp hst with hs | hs
  · rw [Head.read_request hs]
    unfold readLine
    rw [if_pos hs]
    rcases hparse : s.parser.currentReq.parseRequestLine line with ⟨_ | _,r⟩
    · simp [head, hparse, reject, withRequest]
    · simp [head, hparse, enter, withRequest]
  · have hs' : s.parser.state ≠ .expectRequestLine := by rw [hs]; decide
    unfold readLine
    rw [if_neg hs']
    by_cases hnil : line = []
    · rw [if_pos hnil, hnil, Head.read_blank hs]
      dsimp only
      split_ifs <;> simp_all [head, enter, finish, withRequest]
    · rw [if_neg hnil, Head.read_header hs hnil]
      rcases hparse : s.parser.currentReq.parseHeaderLine line with ⟨_ | _,r⟩
      · simp [head, hparse, reject, withRequest]
      · simp [head, hparse, withRequest]

/-- The lines that the scan will cut. -/
def lines (s : Scan) : List (List UInt8) := terminated s.parser.tempBuffer (marks s.rest)

/-- The scan behind some of its lines, when the last of them is still to be read. -/
def behind (s : Scan) (pre : List (List UInt8)) (line : List UInt8) : Scan :=
  let taken := linesLength (pre ++ [line]) - s.parser.tempBuffer.length
  { s with
    parser := { s.parser.withHead (s.parser.head.reads pre) with tempBuffer := [] }
    rest := s.rest.drop taken
    consumed := s.consumed + taken }

theorem lines_of_none (h : findCrlf s.rest = none) : s.lines = [] := terminated_of_none _ h

theorem lines_of_some {n : ℕ} (h : findCrlf s.rest = some n) : s.lines = s.lineAt n :: (s.takeLine n).lines := by
  rw [lines, terminated_of_some _ h, lines, takeLine_rest, takeLine_temp]
  rfl

theorem exists_lineAt {ls : List (List UInt8)} (h : s.lines = line :: ls) :
    ∃ n, findCrlf s.rest = some n ∧ s.lineAt n = line ∧ (s.takeLine n).lines = ls ∧
      line.length = s.parser.tempBuffer.length + n := by
  cases hf : findCrlf s.rest with
  | none =>
    rw [lines_of_none hf] at h
    cases h
  | some n =>
    have hbound := findCrlf_bound hf
    rw [lines_of_some hf] at h
    obtain ⟨rfl,rfl⟩ := List.cons.inj h
    refine ⟨n,rfl,rfl,rfl,?_⟩
    rw [lineAt, List.length_append, List.length_take]
    omega

theorem run_takeLine {n : ℕ} (hst : s.parser.state.readsLine = true) (h : findCrlf s.rest = some n) :
    s.run = (s.takeLine n).run := by
  have hne : s.rest ≠ [] := by
    intro hnil
    rw [hnil] at h
    cases h
  rw [run_of_some (round_line hne (State.readsLine_iff.mp hst)), searchLine_of_some h]

theorem takeLine_withHead {n : ℕ} (hst : s.parser.state.readsLine = true) :
    (s.takeLine n).parser = { s.parser.withHead (s.parser.head.read (s.lineAt n)) with tempBuffer := [] } :=
  readLine_withHead (s := s.afterLine n) hst _

theorem takeLine_head {n : ℕ} (hst : s.parser.state.readsLine = true) :
    (s.takeLine n).parser.head = s.parser.head.read (s.lineAt n) := by
  rw [takeLine_withHead hst]
  rfl

theorem readLine_result_open (hst : s.parser.state.readsLine = true)
    (hopen : (s.parser.head.read line).state.readsLine = true) : (s.readLine line).result = s.result := by
  rw [readLine_result hst]
  rcases State.readsLine_iff.mp hopen with hs | hs <;> rw [hs]

theorem takeLine_result_open {n : ℕ} (hst : s.parser.state.readsLine = true)
    (hopen : (s.takeLine n).parser.head.state.readsLine = true) : (s.takeLine n).result = s.result := by
  rw [takeLine_head hst] at hopen
  exact readLine_result_open (s := s.afterLine n) hst hopen

theorem run_lines {pre post : List (List UInt8)} (hlines : s.lines = pre ++ line :: post)
    (hopen : (s.parser.head.reads pre).state.readsLine = true) :
    s.run = ((s.behind pre line).readLine line).run := by
  induction pre generalizing s with
  | nil =>
    have hst : s.parser.state.readsLine = true := hopen
    obtain ⟨n,hf,hline,-,hlength⟩ := exists_lineAt hlines
    have htaken : linesLength ([] ++ [line]) - s.parser.tempBuffer.length = n + 2 := by
      simp only [List.nil_append, linesLength_cons, linesLength_nil]
      omega
    have hbehind : s.behind [] line = s.afterLine n := by
      simp only [behind, htaken]
      rfl
    rw [run_takeLine hst hf, hbehind, takeLine, hline]
  | cons l pre ih =>
    have hst : s.parser.state.readsLine = true := Head.open_of_reads hopen
    obtain ⟨n,hf,hline,hnext,hlength⟩ := exists_lineAt hlines
    have hhead : (s.takeLine n).parser.head = s.parser.head.read l := by rw [takeLine_head hst, hline]
    have hnextOpen : ((s.takeLine n).parser.head.reads pre).state.readsLine = true := by
      rw [hhead]
      exact hopen
    have htaken : linesLength (l :: pre ++ [line]) - s.parser.tempBuffer.length =
        n + 2 + (linesLength (pre ++ [line]) - (s.takeLine n).parser.tempBuffer.length) := by
      rw [takeLine_temp, List.cons_append, linesLength_cons, List.length_nil]
      omega
    have hresult := takeLine_result_open hst (Head.open_of_reads hnextOpen)
    have hbehind : (s.takeLine n).behind pre line = s.behind (l :: pre) line := by
      have hparser := takeLine_withHead (n := n) hst
      simp only [behind, htaken, takeLine_rest, List.drop_drop, takeLine_consumed, hresult, Nat.add_assoc]
      rw [hhead, hparser]
      rfl
    rw [run_takeLine hst hf, ih hnext hnextOpen, hbehind]

/-- The parser at the end of data that leaves the head open. A partial line that is too long is an error. -/
def holding (p : HttpParser) (h : Head) (line : List UInt8) : HttpParser :=
  if maxHttpHeaderSize < line.length then
    { p with
      state := .error
      currentReq := { h.request with parserError := bytes "Header too large" }
      tempBuffer := line }
  else { p.withHead h with tempBuffer := line }

theorem holding_state (p : HttpParser) (h : Head) (line : List UInt8) :
    (holding p h line).state = if maxHttpHeaderSize < line.length then .error else h.state := by
  unfold holding
  split <;> rfl

theorem keepPartial_holding (s : Scan) :
    s.keepPartial.parser = holding s.parser s.parser.head (s.parser.tempBuffer ++ s.rest) := by
  unfold keepPartial
  split
  · rename_i hlong
    exact (if_pos hlong).symm
  · rename_i hshort
    exact (if_neg hshort).symm

theorem keepPartial_result (s : Scan) : s.keepPartial.result = s.result := by
  unfold keepPartial
  split <;> rfl

/-- Data that leaves the head open is read to its end, and its partial line is kept. -/
theorem run_open (hopen : (s.parser.head.reads s.lines).state.readsLine = true) (hne : s.rest ≠ []) :
    s.run.parser = holding s.parser (s.parser.head.reads s.lines) (held s.parser.tempBuffer (marks s.rest)) ∧
      s.run.rest = [] ∧ s.run.result = s.result := by
  generalize hls : s.lines = ls at hopen
  induction ls generalizing s with
  | nil =>
    have hst : s.parser.state.readsLine = true := hopen
    cases hf : findCrlf s.rest with
    | some n =>
      rw [lines_of_some hf] at hls
      cases hls
    | none =>
      have hrun : s.run = s.keepPartial := by
        rw [run_of_some (round_line hne (State.readsLine_iff.mp hst)), searchLine_of_none hf,
          run_nil (keepPartial_rest s)]
      rw [hrun, keepPartial_holding, held_of_none _ hf]
      exact ⟨rfl,keepPartial_rest s,keepPartial_result s⟩
  | cons l ls ih =>
    have hst : s.parser.state.readsLine = true := Head.open_of_reads hopen
    obtain ⟨n,hf,hline,hnext,hlength⟩ := exists_lineAt hls
    have hhead : (s.takeLine n).parser.head = s.parser.head.read l := by rw [takeLine_head hst, hline]
    have hopenNext : ((s.takeLine n).parser.head.reads ls).state.readsLine = true := by
      rw [hhead]
      exact hopen
    have hresult := takeLine_result_open hst (Head.open_of_reads hopenNext)
    have hheld : held s.parser.tempBuffer (marks s.rest) =
        held (s.takeLine n).parser.tempBuffer (marks (s.takeLine n).rest) := by
      rw [marks_of_findCrlf hf, held_append, held, takeLine_temp, takeLine_rest]
    have hparser := takeLine_withHead (n := n) hst
    have hholding : ∀ h line, holding (s.takeLine n).parser h line = holding s.parser h line := by
      intro h line
      rw [hparser]
      rfl
    rw [run_takeLine hst hf, hheld]
    by_cases hend : (s.takeLine n).rest = []
    · have hnil : ls = [] := by
        rw [← hnext, lines, hend]
        rfl
      rw [run_nil hend, hend, takeLine_temp, hnil, Head.reads_cons, Head.reads_nil, ← hholding, ← hhead]
      refine ⟨?_,rfl,hresult⟩
      rw [hparser]
      rfl
    · obtain ⟨hp,hr,hres⟩ := ih hend hnext hopenNext
      rw [hp, hhead, hholding, hres, hresult]
      exact ⟨rfl,hr,rfl⟩

theorem run_refused {pre post : List (List UInt8)} (hlines : s.lines = pre ++ line :: post)
    (hopen : (s.parser.head.reads pre).state.readsLine = true)
    (herr : ((s.parser.head.reads pre).read line).state = .error) :
    s.run.parser.state = .error ∧ s.run.result.hasError = true := by
  have hparser := readLine_withHead (s := s.behind pre line) hopen line
  have hresult := readLine_result (s := s.behind pre line) hopen line
  have hhead : (s.behind pre line).parser.head = s.parser.head.reads pre := rfl
  rw [hhead] at hparser hresult
  rw [herr] at hresult
  have hstate : ((s.behind pre line).readLine line).parser.state = .error := by
    rw [hparser]
    exact herr
  rw [run_lines hlines hopen, run_of_inactive (by rw [hstate]; rfl), hresult]
  exact ⟨hstate,rfl⟩

theorem takeBody_run (hst : s.parser.state = .expectBody) (hne : s.rest ≠ []) : s.run = s.takeBody := by
  rw [run_of_some (round_body hne hst)]
  by_cases hfits : s.parser.currentReq.contentLength - s.parser.bodyReceived ≤ s.rest.length
  · rw [run_of_inactive]
    have htake : s.bodyTake = s.parser.currentReq.contentLength - s.parser.bodyReceived := Nat.min_eq_left hfits
    rw [takeBody, checkBody, if_pos]
    · rfl
    · simp only [appendBody, htake]
      omega
  · have htake : s.bodyTake = s.rest.length := Nat.min_eq_right (not_le.mp hfits).le
    rw [run_nil]
    rw [takeBody_rest, htake, List.drop_length]

theorem run_behind_head (hst : s.parser.state = .expectBody ∨ s.parser.state = .complete) :
    s.run.parser.state = .expectBody ∨ s.run.parser.state = .complete := by
  rcases hst with hst | hst
  · by_cases hne : s.rest = []
    · rw [run_nil hne]
      exact Or.inl hst
    · rw [takeBody_run hst hne]
      exact takeBody_state hst
  · rw [run_of_inactive (by rw [hst]; rfl)]
    exact Or.inr hst

theorem run_body (hst : s.parser.state = .expectBody)
    (hmissing : s.parser.bodyReceived < s.parser.currentReq.contentLength) :
    let need := s.parser.currentReq.contentLength - s.parser.bodyReceived
    s.run.parser = { s.parser with
      state := if need ≤ s.rest.length then .complete else .expectBody
      currentReq := { s.parser.currentReq with body := s.parser.currentReq.body ++ s.rest.take need }
      bodyReceived := s.parser.bodyReceived + min need s.rest.length } ∧
    s.run.rest = s.rest.drop need ∧ s.run.result.hasError = s.result.hasError ∧
    s.run.result.isComplete = (s.result.isComplete || decide (need ≤ s.rest.length)) := by
  dsimp only
  by_cases hne : s.rest = []
  · have hlong : ¬ s.parser.currentReq.contentLength - s.parser.bodyReceived ≤ s.rest.length := by
      rw [hne, List.length_nil]
      omega
    rw [run_nil hne, if_neg hlong, hne, ← hst]
    simp [Nat.sub_eq_zero_iff_le, hmissing]
  rw [takeBody_run hst hne, takeBody_rest]
  have htaken : s.bodyTake = min (s.parser.currentReq.contentLength - s.parser.bodyReceived) s.rest.length := rfl
  have hbody : s.rest.take s.bodyTake = s.rest.take (s.parser.currentReq.contentLength - s.parser.bodyReceived) := by
    rw [htaken, ← List.take_eq_take_min]
  have hdrop : s.rest.drop s.bodyTake = s.rest.drop (s.parser.currentReq.contentLength - s.parser.bodyReceived) := by
    rw [htaken, ← List.drop_eq_drop_min]
  have hdone : (s.appendBody s.bodyTake).parser.currentReq.contentLength ≤
      (s.appendBody s.bodyTake).parser.bodyReceived ↔
        s.parser.currentReq.contentLength - s.parser.bodyReceived ≤ s.rest.length := by
    simp only [appendBody, htaken]
    omega
  refine ⟨?_,hdrop,?_⟩
  · rw [takeBody, checkBody, ← htaken, ← hbody]
    by_cases hfits : s.parser.currentReq.contentLength - s.parser.bodyReceived ≤ s.rest.length
    · rw [if_pos (hdone.mpr hfits), if_pos hfits]
      rfl
    · rw [if_neg (fun h => hfits (hdone.mp h)), if_neg hfits, ← hst]
      rfl
  · rw [takeBody, checkBody]
    by_cases hfits : s.parser.currentReq.contentLength - s.parser.bodyReceived ≤ s.rest.length
    · rw [if_pos (hdone.mpr hfits), decide_eq_true hfits, Bool.or_true]
      exact ⟨rfl,rfl⟩
    · rw [if_neg (fun h => hfits (hdone.mp h)), decide_eq_false hfits, Bool.or_false]
      exact ⟨rfl,rfl⟩

/-- Where the blank line ends the head, the body follows: as much of it as the data has. -/
theorem run_blank {pre post : List (List UInt8)} (hlines : s.lines = pre ++ [] :: post)
    (hhead : (s.parser.head.reads pre).state = .expectHeader) (hfresh : s.parser.bodyReceived = 0) :
    let r := (s.parser.head.reads pre).request.checkHeaders
    let behind := s.rest.drop (linesLength (pre ++ [[]]) - s.parser.tempBuffer.length)
    s.run.parser = { s.parser with
      state := if r.contentLength ≤ behind.length then .complete else .expectBody
      currentReq := { r with body := r.body ++ behind.take r.contentLength }
      tempBuffer := []
      bodyReceived := min r.contentLength behind.length } ∧
    s.run.rest = behind.drop r.contentLength ∧ s.run.result.hasError = s.result.hasError ∧
    s.run.result.isComplete = (s.result.isComplete || decide (r.contentLength ≤ behind.length)) := by
  have hopen : (s.parser.head.reads pre).state.readsLine = true := State.readsLine_iff.mpr (Or.inr hhead)
  obtain ⟨hrest,-⟩ := readLine_rest_consumed (s.behind pre []) []
  have hparser := readLine_withHead (s := s.behind pre []) hopen []
  have hresult := readLine_result (s := s.behind pre []) hopen []
  have hbehind : (s.behind pre []).parser.head = s.parser.head.reads pre := rfl
  rw [hbehind, Head.read_blank hhead] at hparser hresult
  rw [run_lines hlines hopen]
  dsimp only
  generalize (s.behind pre []).readLine [] = t at *
  by_cases hbody : 0 < (s.parser.head.reads pre).request.checkHeaders.contentLength
  · rw [if_pos hbody] at hparser hresult
    have hlength : t.parser.currentReq.contentLength = (s.parser.head.reads pre).request.checkHeaders.contentLength := by
      rw [hparser]
      rfl
    have hreceived : t.parser.bodyReceived = 0 := by
      rw [hparser]
      exact hfresh
    obtain ⟨hp,hr,herr,hcomplete⟩ := run_body (s := t) (by rw [hparser]; rfl) (by omega)
    rw [hreceived, hlength, Nat.sub_zero, hrest] at hp hr hcomplete
    rw [hp, hr, herr, hcomplete, hresult, Nat.zero_add, hparser]
    exact ⟨rfl,rfl,rfl,rfl⟩
  · rw [if_neg hbody] at hparser hresult
    have hzero : (s.parser.head.reads pre).request.checkHeaders.contentLength = 0 := Nat.eq_zero_of_not_pos hbody
    have hfits : ∀ n, (s.parser.head.reads pre).request.checkHeaders.contentLength ≤ n := fun n => hzero ▸ Nat.zero_le n
    have htake : ∀ u : List UInt8, u.take (s.parser.head.reads pre).request.checkHeaders.contentLength = [] := by
      intro u
      rw [hzero, List.take_zero]
    have hdrop : ∀ u : List UInt8, u.drop (s.parser.head.reads pre).request.checkHeaders.contentLength = u := by
      intro u
      rw [hzero, List.drop_zero]
    have hmin : ∀ n, min (s.parser.head.reads pre).request.checkHeaders.contentLength n = s.parser.bodyReceived := by
      intro n
      rw [hzero, hfresh, Nat.zero_min]
    rw [run_of_inactive (by rw [hparser]; rfl), hparser, hresult, hrest, if_pos (hfits _), decide_eq_true (hfits _),
      Bool.or_true, htake, hdrop, hmin, List.append_nil]
    exact ⟨rfl,rfl,rfl,rfl⟩

end Scan

/-- The loop of a call. -/
def scan (p : HttpParser) (data : List UInt8) : Scan := { parser := p.startRequest, rest := data }

@[simp] theorem scan_rest (p : HttpParser) (data : List UInt8) : (p.scan data).rest = data := rfl
@[simp] theorem scan_result (p : HttpParser) (data : List UInt8) : (p.scan data).result = {} := rfl
@[simp] theorem scan_consumed (p : HttpParser) (data : List UInt8) : (p.scan data).consumed = 0 := rfl
@[simp] theorem scan_head (p : HttpParser) (data : List UInt8) : (p.scan data).parser.head = p.head := by
  rw [scan, startRequest]
  split <;> rfl
@[simp] theorem scan_state (p : HttpParser) (data : List UInt8) : (p.scan data).parser.state = p.state :=
  congrArg Head.state (scan_head p data)
@[simp] theorem scan_tempBuffer (p : HttpParser) (data : List UInt8) :
    (p.scan data).parser.tempBuffer = p.tempBuffer := by
  rw [scan, startRequest]
  split <;> rfl
@[simp] theorem scan_bodyReceived (p : HttpParser) (data : List UInt8) :
    (p.scan data).parser.bodyReceived = p.bodyReceived := by
  rw [scan, startRequest]
  split <;> rfl

theorem scan_lines (p : HttpParser) (data : List UInt8) : (p.scan data).lines = terminated p.tempBuffer (marks data) := by
  rw [Scan.lines, scan_tempBuffer, scan_rest]

theorem parse_fst (p : HttpParser) (data : List UInt8) : (p.parse data).1 = (p.scan data).run.parser := rfl
theorem parse_state (p : HttpParser) (data : List UInt8) : (p.parse data).1.state = (p.scan data).run.parser.state := rfl
theorem parse_hasError (p : HttpParser) (data : List UInt8) :
    (p.parse data).2.hasError = (p.scan data).run.result.hasError := rfl
theorem parse_isComplete (p : HttpParser) (data : List UInt8) :
    (p.parse data).2.isComplete = (p.scan data).run.result.isComplete := rfl
theorem parse_consumed (p : HttpParser) (data : List UInt8) :
    (p.parse data).2.consumedBytes = (p.scan data).run.consumed := rfl

variable {p : HttpParser} {c : List UInt8}

/-- The data leaves the head open, with a partial line over the limit. -/
def Oversized (p : HttpParser) (c : List UInt8) : Prop :=
  c ≠ [] ∧ (p.head.reads (terminated p.tempBuffer (marks c))).state.readsLine = true ∧
    maxHttpHeaderSize < (held p.tempBuffer (marks c)).length

instance : Decidable (Oversized p c) := inferInstanceAs (Decidable (_ ∧ _))

theorem oversized_parse (h : Oversized p c) :
    (p.parse c).1.state = .error ∧ (p.parse c).2.hasError = false ∧ (p.parse c).2.isComplete = false := by
  obtain ⟨hne,hopen,hlong⟩ := h
  rw [← scan_lines, ← scan_head p c] at hopen
  obtain ⟨hparser,-,hresult⟩ := Scan.run_open hopen hne
  rw [parse_state, parse_hasError, parse_isComplete, hparser, hresult, Scan.holding_state, scan_tempBuffer, scan_rest,
    if_pos hlong]
  exact ⟨rfl,rfl,rfl⟩

theorem parse_bad_header {n : ℕ} (hst : p.state = .expectHeader) (htemp : p.tempBuffer = [])
    (hn : findCrlf c = some n) (hpos : n ≠ 0) (hcolon : 58 ∉ c.take n) : (p.parse c).2.hasError = true := by
  have hbound := findCrlf_bound hn
  have hne : c.take n ≠ [] := by
    intro hnil
    have hlen := congrArg List.length hnil
    rw [List.length_take, List.length_nil] at hlen
    omega
  have hlines : (p.scan c).lines = [] ++ c.take n :: linesOf (c.drop (n + 2)) := by
    rw [scan_lines, htemp, terminated_of_some [] hn]
    rfl
  have hopen : ((p.scan c).parser.head.reads []).state.readsLine = true := by
    rw [Head.reads_nil, scan_head]
    exact State.readsLine_iff.mpr (Or.inr hst)
  have herr : (((p.scan c).parser.head.reads []).read (c.take n)).state = .error := by
    rw [Head.reads_nil, scan_head, Head.read_header hst hne, parseHeaderLine_def, if_pos hcolon]
    rfl
  exact (Scan.run_refused hlines hopen herr).2

end ModernTcp.HttpParser
