import ModernTcp.Http.HeadFields
import ModernTcp.Http.HttpParserPipeline

/-! # What every call of the parser keeps to

The subtraction for the missing part of a body is one of unsigned words. It is exact because a body that
is being read is always shorter than the content length, and no header line can be read any more.
-/
namespace ModernTcp.HttpParser
open SimpleHttpRequest

namespace Head

/-- How much of the body is there, by the state of the head. -/
structure Framed (h : Head) (received : ℕ) : Prop where
  line : h.state.readsLine = true → h.request.body = [] ∧ received = 0
  body : h.state = .expectBody → received = h.request.body.length ∧
    h.request.body.length < h.request.contentLength
  complete : h.state = .complete → h.request.body.length = h.request.contentLength
  limit : h.state ≠ .error → h.request.contentLength ≤ maxHttpBodySize

variable {h : Head} {received : ℕ}

theorem framed_new : Framed {} 0 where
  line _ := ⟨rfl,rfl⟩
  body hst := by cases hst
  complete hst := by cases hst
  limit _ := Nat.zero_le _

theorem framed_error (hst : h.state = .error) : h.Framed received where
  line hline := by
    rw [hst] at hline
    cases hline
  body hbody := by
    rw [hst] at hbody
    cases hbody
  complete hdone := by
    rw [hst] at hdone
    cases hdone
  limit hne := absurd hst hne

/-- In front of the body only the content length matters. -/
theorem framed_header {r : SimpleHttpRequest} (hbody : r.body = []) (hlimit : r.contentLength ≤ maxHttpBodySize) :
    Framed { state := .expectHeader, request := r } 0 where
  line _ := ⟨hbody,rfl⟩
  body hst := by cases hst
  complete hst := by cases hst
  limit _ := hlimit

theorem framed_blank {r : SimpleHttpRequest} (hbody : r.body = []) (hlimit : r.contentLength ≤ maxHttpBodySize) :
    Framed { state := if 0 < r.contentLength then .expectBody else .complete, request := r } 0 where
  line hline := by
    split_ifs at hline <;> cases hline
  body hst := by
    split_ifs at hst with hpos
    rw [hbody]
    exact ⟨rfl,hpos⟩
  complete hst := by
    split_ifs at hst with hpos
    rw [hbody]
    exact (Nat.eq_zero_of_not_pos hpos).symm
  limit _ := hlimit

theorem setHeader_limit {r : SimpleHttpRequest} {line : List UInt8} (hline : ValidHeader line)
    (hlimit : r.contentLength ≤ maxHttpBodySize) :
    (r.setHeader (fieldName line) (fieldValue line)).contentLength ≤ maxHttpBodySize := by
  rw [setHeader]
  dsimp only
  split_ifs with hname
  · obtain ⟨n,hn,hle⟩ := hline.length hname
    rw [Option.mem_def] at hn
    rw [hn]
    exact hle
  · exact hlimit

theorem framed_read (hst : h.state.readsLine = true) (hf : h.Framed received) (line : List UInt8) :
    (h.read line).Framed received := by
  obtain ⟨hbody,rfl⟩ := hf.line hst
  rcases State.readsLine_iff.mp hst with hs | hs
  · have hlimit := hf.limit (by rw [hs]; decide)
    obtain ⟨method,path,version,parserError,hline⟩ := parseRequestLine_frame h.request line
    rw [read_request hs]
    split_ifs
    · apply framed_header
      · rw [hline]
        exact hbody
      · rw [hline]
        exact hlimit
    · exact framed_error rfl
  · have hlimit := hf.limit (by rw [hs]; decide)
    by_cases hnil : line = []
    · obtain ⟨keepAlive,hcheck⟩ := checkHeaders_frame h.request
      rw [hnil, read_blank hs, hcheck]
      exact framed_blank hbody hlimit
    · rw [read_header hs hnil]
      split_ifs with hok
      · have hline := (parseHeaderLine_accepts h.request line).mp hok
        rw [parseHeaderLine_valid _ hline]
        exact framed_header hbody (setHeader_limit hline hlimit)
      · exact framed_error rfl

end Head

/-- What holds of a parser between two calls, and in every round. -/
structure Framed (p : HttpParser) : Prop where
  head : p.head.Framed p.bodyReceived
  temp : p.state = .expectBody ∨ p.state = .complete → p.tempBuffer = []

namespace Scan

/-- `content_length - body_received_` in words of 64 bits. -/
def wordNeed (s : Scan) : ℕ :=
  (2 ^ 64 + s.parser.currentReq.contentLength - s.parser.bodyReceived) % 2 ^ 64

def wordTake (s : Scan) : ℕ := min s.wordNeed s.rest.length

/-- One round of the loop of `parse`, with the subtraction of words. -/
def wordRound (s : Scan) : Option Scan :=
  if s.rest = [] then none
  else match s.parser.state with
    | .complete | .error => none
    | .expectRequestLine | .expectHeader => some s.searchLine
    | .expectBody => some (s.appendBody s.wordTake).checkBody

/-- The rest of a body: its length is counted, and something is missing and will be taken. -/
structure Needs (s : Scan) : Prop where
  received : s.parser.bodyReceived = s.body.length
  missing : s.body.length < s.parser.currentReq.contentLength
  exact : s.wordNeed = s.parser.currentReq.contentLength - s.parser.bodyReceived
  take : s.rest ≠ [] → 1 ≤ s.wordTake

variable {s t : Scan}

theorem wordNeed_eq (hlt : s.parser.bodyReceived < s.parser.currentReq.contentLength)
    (hlimit : s.parser.currentReq.contentLength ≤ maxHttpBodySize) :
    s.wordNeed = s.parser.currentReq.contentLength - s.parser.bodyReceived := by
  have hmax : maxHttpBodySize < 2 ^ 64 := by decide
  unfold wordNeed
  generalize maxHttpBodySize = limit at *
  omega

theorem needs_of_framed (hf : s.parser.Framed) (hst : s.parser.state = .expectBody) : s.Needs := by
  obtain ⟨hreceived,hmissing⟩ := hf.head.body hst
  have hlimit := hf.head.limit (show s.parser.state ≠ .error by rw [hst]; decide)
  have hexact : s.wordNeed = s.parser.currentReq.contentLength - s.parser.bodyReceived :=
    wordNeed_eq (hreceived.trans_lt hmissing) hlimit
  refine ⟨hreceived,hmissing,hexact,?_⟩
  intro hne
  have hpos : 0 < s.rest.length := List.length_pos_of_ne_nil hne
  have hlt : s.parser.bodyReceived < s.parser.currentReq.contentLength := hreceived.trans_lt hmissing
  rw [wordTake, hexact]
  omega

theorem wordRound_eq (hf : s.parser.Framed) : s.wordRound = s.round := by
  unfold wordRound round
  by_cases hst : s.parser.state = .expectBody
  · have htake : s.wordTake = s.bodyTake := by rw [wordTake, bodyTake, (needs_of_framed hf hst).exact]
    rw [htake]
    rfl
  · cases hs : s.parser.state <;> first | rfl | exact absurd hs hst

theorem framed_keepPartial (hf : s.parser.Framed) (hst : s.parser.state.readsLine = true) :
    s.keepPartial.parser.Framed := by
  unfold keepPartial
  split
  · exact ⟨Head.framed_error rfl,by simp [enter]⟩
  · refine ⟨hf.head,?_⟩
    rcases State.readsLine_iff.mp hst with hs | hs <;> simp [absorb, hs]

theorem framed_takeLine (hf : s.parser.Framed) (hst : s.parser.state.readsLine = true) (n : ℕ) :
    (s.takeLine n).parser.Framed := by
  refine ⟨?_,fun _ => takeLine_temp s n⟩
  rw [takeLine_withHead hst]
  exact Head.framed_read hst hf.head (s.lineAt n)

theorem framed_takeBody (hf : s.parser.Framed) (hst : s.parser.state = .expectBody) :
    s.takeBody.parser.Framed := by
  obtain ⟨hreceived,hmissing⟩ := hf.head.body hst
  have hlimit := hf.head.limit (show s.parser.state ≠ .error by rw [hst]; decide)
  have hneed : s.bodyTake ≤ s.parser.currentReq.contentLength - s.parser.bodyReceived := Nat.min_le_left _ _
  have hlength : (s.body ++ s.rest.take s.bodyTake).length = s.parser.bodyReceived + s.bodyTake := by
    rw [List.length_append, List.length_take, Nat.min_eq_left (bodyTake_le s), hreceived]
    rfl
  have hle : s.parser.bodyReceived + s.bodyTake ≤ s.parser.currentReq.contentLength := by
    have hlt : s.parser.bodyReceived < s.parser.currentReq.contentLength := hreceived.trans_lt hmissing
    omega
  have htemp := hf.temp (Or.inl hst)
  unfold takeBody checkBody
  split_ifs with hdone
  · refine ⟨?_,fun _ => htemp⟩
    exact {
      line hline := by cases hline
      body hbody := by cases hbody
      complete _ := hlength.trans (le_antisymm hle hdone)
      limit _ := hlimit }
  · refine ⟨?_,fun _ => htemp⟩
    exact {
      line hline := by
        have hopen : s.parser.state.readsLine = true := hline
        rw [hst] at hopen
        cases hopen
      body _ := ⟨hlength.symm,hlength.trans_lt (lt_of_not_ge hdone)⟩
      complete hcomplete := by
        have hend : s.parser.state = .complete := hcomplete
        rw [hst] at hend
        cases hend
      limit _ := hlimit }

theorem framed_round (hf : s.parser.Framed) (h : s.round = some t) : t.parser.Framed := by
  obtain ⟨-,⟨hst,⟨-,rfl⟩ | ⟨n,-,rfl⟩⟩ | ⟨hst,rfl⟩⟩ := round_cases h
  · exact framed_keepPartial hf (State.readsLine_iff.mpr hst)
  · exact framed_takeLine hf (State.readsLine_iff.mpr hst) n
  · exact framed_takeBody hf hst

end Scan

/-- The calls that a user of the parser makes. -/
inductive Call
  | parse (data : List UInt8)
  | getRequest

/-- The parser behind a call. -/
def call (p : HttpParser) : Call → HttpParser
  | .parse data => (p.parse data).1
  | .getRequest => p.getRequest.2

def calls (p : HttpParser) (cs : List Call) : HttpParser := cs.foldl call p

variable {p : HttpParser}

theorem framed_new : Framed {} := ⟨Head.framed_new,fun _ => rfl⟩

theorem framed_scan (hf : p.Framed) (data : List UInt8) : (p.scan data).parser.Framed := by
  constructor
  · rw [scan_head, scan_bodyReceived]
    exact hf.head
  · rw [scan_state, scan_tempBuffer]
    exact hf.temp

theorem framed_run (hf : p.Framed) (data : List UInt8) : (p.scan data).run.parser.Framed :=
  Loop.run_invariant Scan.round_decreases (I := fun s => s.parser.Framed) (fun _ _ hs h => Scan.framed_round hs h)
    (framed_scan hf data)

theorem framed_call (hf : p.Framed) (c : Call) : (p.call c).Framed := by
  cases c with
  | parse data => exact framed_run hf data
  | getRequest => exact ⟨Head.framed_new,fun _ => rfl⟩

theorem framed_calls (hf : p.Framed) (cs : List Call) : (p.calls cs).Framed := by
  induction cs generalizing p with
  | nil => exact hf
  | cons c cs ih => exact ih (framed_call hf c)

/-- A call that is entered before the end of a request reports that end when it reaches it. -/
theorem flagsAgree_run (hf : p.Framed) (hactive : p.state.active = true) (data : List UInt8) :
    (p.scan data).run.FlagsAgree := by
  apply Scan.run_flagsAgree
  refine ⟨iff_of_false Bool.false_ne_true ?_,(fun herror => by cases herror),(framed_scan hf data).temp⟩
  rw [scan_state]
  intro hst
  rw [hst] at hactive
  cases hactive

/-- What a call of `parse` keeps to, whatever the data. -/
structure Progress (p : HttpParser) (data : List UInt8) : Prop where
  returns : ∃ n, (Loop.iterate Scan.wordRound n (p.scan data)).wordRound = none ∧
    Loop.iterate Scan.wordRound n (p.scan data) = (p.scan data).run
  body : ∀ n, (Loop.iterate Scan.wordRound n (p.scan data)).parser.state = .expectBody →
    (Loop.iterate Scan.wordRound n (p.scan data)).Needs
  bound : (p.parse data).2.consumedBytes ≤ data.length
  consumed : p.state.active = true → (p.parse data).2.isComplete = false → (p.parse data).1.state ≠ .error →
    (p.parse data).2.consumedBytes = data.length
  complete : (p.parse data).2.isComplete = true →
    (p.parse data).1.currentReq.body.length = (p.parse data).1.currentReq.contentLength ∧
      (p.parse data).1.currentReq.contentLength ≤ maxHttpBodySize

theorem parse_bound (p : HttpParser) (data : List UInt8) : (p.parse data).2.consumedBytes ≤ data.length := by
  have hsum := Scan.run_consumed (p.scan data)
  rw [scan_consumed, scan_rest] at hsum
  rw [parse_consumed]
  omega

/-- A call that is not at the end of a request, and was not refused, has taken all of the data. -/
theorem parse_consumes (hf : p.Framed) {data : List UInt8} (hactive : p.state.active = true)
    (hopen : (p.parse data).2.isComplete = false) (hne : (p.parse data).1.state ≠ .error) :
    (p.parse data).2.consumedBytes = data.length := by
  have hsum := Scan.run_consumed (p.scan data)
  have hflag := (flagsAgree_run hf hactive data).complete_iff
  rw [← parse_isComplete, hopen, ← parse_state] at hflag
  rw [scan_consumed, scan_rest] at hsum
  rw [parse_consumed]
  rcases Scan.run_stops (p.scan data) with hrest | hstop
  · rw [hrest, List.length_nil] at hsum
    omega
  · rw [← parse_state] at hstop
    cases hst : (p.parse data).1.state with
    | complete => exact absurd (hflag.mpr hst) Bool.false_ne_true
    | error => exact absurd hst hne
    | expectRequestLine | expectHeader | expectBody =>
      rw [hst] at hstop
      cases hstop

/-- A complete request is reported in the call that completes it only. -/
theorem complete_of_isComplete (hf : p.Framed) {data : List UInt8} (hdone : (p.parse data).2.isComplete = true) :
    (p.parse data).1.state = .complete := by
  by_cases hactive : p.state.active = true
  · exact (flagsAgree_run hf hactive data).complete_iff.mp hdone
  · rw [parse_isComplete, Scan.run_of_inactive (by rw [scan_state]; exact Bool.eq_false_of_not_eq_true hactive)] at hdone
    cases hdone

theorem progress_of_framed (hf : p.Framed) (data : List UInt8) : p.Progress data where
  returns := by
    refine ⟨(p.scan data).measure,?_⟩
    have hrun : Loop.iterate Scan.wordRound (p.scan data).measure (p.scan data) = (p.scan data).run :=
      Loop.iterate_congr (I := fun s => s.parser.Framed) (fun _ _ hs h => Scan.framed_round hs h)
        (fun _ hs => Scan.wordRound_eq hs) (framed_scan hf data) _
    rw [hrun, Scan.wordRound_eq (framed_run hf data)]
    exact ⟨Loop.body_run Scan.round_decreases _,rfl⟩
  body n hst := by
    apply Scan.needs_of_framed _ hst
    rw [Loop.iterate_congr (I := fun s => s.parser.Framed) (fun _ _ hs h => Scan.framed_round hs h)
        (fun _ hs => Scan.wordRound_eq hs) (framed_scan hf data)]
    exact Loop.iterate_invariant (I := fun s => s.parser.Framed) (fun _ _ hs h => Scan.framed_round hs h)
      (framed_scan hf data) n
  bound := parse_bound p data
  consumed hactive hopen hne := parse_consumes hf hactive hopen hne
  complete hdone := by
    have hst := complete_of_isComplete hf hdone
    have hend := framed_run hf data
    exact ⟨hend.head.complete hst,hend.head.limit (by rw [show (p.scan data).run.parser.head.state = .complete from hst]; decide)⟩

/-- Whatever calls went before, every call of `parse` makes progress and returns, and a body is never
counted beyond its content length. -/
theorem parse_progress (cs : List Call) : ((({} : HttpParser).calls cs).state = .expectBody →
    (({} : HttpParser).calls cs).bodyReceived = (({} : HttpParser).calls cs).currentReq.body.length ∧
      (({} : HttpParser).calls cs).currentReq.body.length < (({} : HttpParser).calls cs).currentReq.contentLength) ∧
    ∀ data, (({} : HttpParser).calls cs).Progress data := by
  have hf : (({} : HttpParser).calls cs).Framed := framed_calls framed_new cs
  exact ⟨hf.head.body,progress_of_framed hf⟩

end ModernTcp.HttpParser
