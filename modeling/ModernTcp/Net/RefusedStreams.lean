import ModernTcp.Http.HeadLines
import ModernTcp.Net.HttpDelivery

/-! # Errors that nobody hears of

A parser reports the line that it refuses. It does not report a partial line that is over the limit,
and it does not report its error again when it is called once more.
-/
namespace ModernTcp
namespace HttpParser
open Scan

variable {p : HttpParser} {c : List UInt8}

/-- The call is not made behind an error, and its data does not end in an oversized line. -/
def Reporting (p : HttpParser) (c : List UInt8) : Prop := p.state ≠ .error ∧ ¬ Oversized p c

instance : Decidable (Reporting p c) := inferInstanceAs (Decidable (_ ∧ _))

theorem parse_error_again (h : p.state = .error) :
    (p.parse c).1.state = .error ∧ (p.parse c).2.hasError = false ∧ (p.parse c).2.isComplete = false := by
  have hstate : (p.scan c).parser.state = .error := by rw [scan_state, h]
  rw [parse_state, parse_hasError, parse_isComplete, run_of_inactive (by rw [hstate]; rfl)]
  exact ⟨hstate,rfl,rfl⟩

theorem parse_reports (h : Reporting p c) (herr : (p.parse c).1.state = .error) : (p.parse c).2.hasError = true := by
  obtain ⟨hno,hshort⟩ := h
  rw [parse_state] at herr
  rw [parse_hasError]
  have hbehind : ∀ s : Scan, s.parser.state = .expectBody ∨ s.parser.state = .complete → s.run.parser.state ≠ .error := by
    intro s hst
    rcases run_behind_head hst with h | h <;> rw [h] <;> decide
  cases hline : p.state.readsLine with
  | false =>
    refine absurd herr (hbehind _ ?_)
    rw [scan_state]
    cases hst : p.state with
    | expectRequestLine | expectHeader =>
      rw [hst] at hline
      cases hline
    | error => exact absurd hst hno
    | complete => exact Or.inr rfl
    | expectBody => exact Or.inl rfl
  | true =>
    rcases Head.reads_cases (h := (p.scan c).parser.head) (by rw [scan_head]; exact hline) (p.scan c).lines with
      hopen | ⟨pre,line,post,hlines,hopen,⟨hst,rfl⟩ | hend⟩
    · by_cases hnil : c = []
      · rw [run_nil hnil, scan_state] at herr
        exact absurd herr hno
      · have hheld : ¬ maxHttpHeaderSize < (held p.tempBuffer (marks c)).length := by
          intro hlong
          rw [scan_lines, scan_head] at hopen
          exact hshort ⟨hnil,hopen,hlong⟩
        obtain ⟨hparser,-,-⟩ := run_open hopen hnil
        rw [hparser, holding_state, scan_tempBuffer, scan_rest, if_neg hheld] at herr
        rw [herr] at hopen
        cases hopen
    · rw [run_lines hlines hopen] at herr
      refine absurd herr (hbehind _ ?_)
      have hparser := readLine_withHead (s := (p.scan c).behind pre []) hopen []
      have hhead : ((p.scan c).behind pre []).parser.head = (p.scan c).parser.head.reads pre := rfl
      rw [hparser, hhead]
      exact Head.read_blank_state hst
    · exact (run_refused hlines hopen hend).2

theorem parse_silent (h : ¬ Reporting p c) :
    (p.parse c).1.state = .error ∧ (p.parse c).2.hasError = false ∧ (p.parse c).2.isComplete = false := by
  by_cases hst : p.state = .error
  · exact parse_error_again hst
  · by_cases hlong : Oversized p c
    · exact oversized_parse hlong
    · exact absurd ⟨hst,hlong⟩ h

theorem parse_reporting_iff (p : HttpParser) (c : List UInt8) :
    ((p.parse c).1.state = .error → (p.parse c).2.hasError = true) ↔ Reporting p c := by
  refine ⟨?_,parse_reports⟩
  intro h
  by_contra hsilent
  obtain ⟨herr,hflag,-⟩ := parse_silent hsilent
  rw [h herr] at hflag
  cases hflag

/-- The calls of `parse` on the chunks of a stream: the parser behind each of them and its result. -/
def replies : HttpParser → List (List UInt8) → List (HttpParser × ParseResult)
  | _, [] => []
  | p, c :: cs => p.parse c :: replies (p.parse c).1 cs

/-- Each call that leaves the parser in an error says so, and none behind it reports a request. -/
structure ErrorsReported (p : HttpParser) (chunks : List (List UInt8)) : Prop where
  reported : ∀ reply ∈ replies p chunks, reply.1.state = .error → reply.2.hasError = true
  final : (replies p chunks).Pairwise (fun reply later => reply.1.state = .error → later.2.isComplete = false)

def EveryCall (P : HttpParser → List UInt8 → Prop) : HttpParser → List (List UInt8) → Prop
  | _, [] => True
  | p, c :: cs => P p c ∧ EveryCall P (p.parse c).1 cs

theorem replies_of_error {chunks : List (List UInt8)} (h : p.state = .error) :
    ∀ reply ∈ replies p chunks, reply.2.isComplete = false := by
  induction chunks generalizing p with
  | nil => simp [replies]
  | cons c cs ih =>
    obtain ⟨herr,-,hcomplete⟩ := parse_error_again (c := c) h
    intro reply hreply
    rcases List.mem_cons.mp hreply with rfl | hlater
    · exact hcomplete
    · exact ih herr reply hlater

theorem replies_final (p : HttpParser) (chunks : List (List UInt8)) :
    (replies p chunks).Pairwise (fun reply later => reply.1.state = .error → later.2.isComplete = false) := by
  induction chunks generalizing p with
  | nil => exact List.Pairwise.nil
  | cons c cs ih => exact List.Pairwise.cons (fun later hlater herr => replies_of_error herr later hlater) (ih _)

theorem errorsReported_iff (p : HttpParser) (chunks : List (List UInt8)) :
    ErrorsReported p chunks ↔ EveryCall Reporting p chunks := by
  have hreported : (∀ reply ∈ replies p chunks, reply.1.state = .error → reply.2.hasError = true) ↔
      EveryCall Reporting p chunks := by
    induction chunks generalizing p with
    | nil => simp [replies, EveryCall]
    | cons c cs ih => rw [EveryCall, ← parse_reporting_iff, ← ih, replies, List.forall_mem_cons]
  rw [← hreported]
  exact ⟨fun h => h.reported,fun h => ⟨h,replies_final p chunks⟩⟩

end HttpParser

namespace EpollConnection.Reading
open HttpParser

/-- The 400 was sent and the connection is closed. -/
def Refused (s : Reading) : Prop := s.conn.running = false ∧ [.send badRequest,.shutdown .badRequest] <:+ s.effects

def LoopState (s t : Reading) : Prop := Relation.ReflTransGen (fun a b : Reading => a.parseRound = some b) s t

theorem queueRequest_state (s : Reading) (result : ParseResult) :
    (s.queueRequest result).conn.httpParser.state = .expectRequestLine := by
  unfold queueRequest
  dsimp only
  split
  · unfold shutdown
    split <;> rfl
  · rfl

theorem exists_parseRound {s : Reading} (hstatus : s.status = .looping) (hne : s.conn.inputBuffer ≠ [])
    (hrun : s.conn.running = true) : ∃ t, s.parseRound = some t := by
  rw [parseRound, if_neg (by simp [hstatus, hne, hrun])]
  exact ⟨_,rfl⟩

/-- A round of the loop of `handle_read` refuses the stream that its parser refuses, if the parser says so. -/
theorem parseRound_refused_iff {s t : Reading} (h : s.parseRound = some t) :
    (t.conn.httpParser.state = .error → Refused t) ↔ Reporting s.conn.httpParser s.conn.inputBuffer := by
  unfold parseRound at h
  split at h
  · cases h
  rename_i hgo
  push Not at hgo
  obtain ⟨-,-,hrun⟩ := hgo
  rw [ne_eq, Bool.not_eq_false] at hrun
  cases h
  rw [← parse_reporting_iff]
  cases hflag : (s.conn.httpParser.parse s.conn.inputBuffer).2.hasError with
  | true =>
    have hne : badRequest ≠ [] := by decide
    simp [parsed, hflag, Refused, leave, shutdown, send, emit, hrun, hne]
  | false =>
    cases hcomplete : (s.conn.httpParser.parse s.conn.inputBuffer).2.isComplete with
    | true =>
      -- the request is taken out and the parser is fresh
      refine iff_of_true ?_ ?_
      · intro herr
        rw [parsed, if_neg (by rw [hflag]; decide), if_pos hcomplete, queueRequest_state] at herr
        cases herr
      · rw [← hflag]
        refine parse_reports ?_
        by_contra hsilent
        rw [(parse_silent hsilent).2.2] at hcomplete
        cases hcomplete
    | false => simp [parsed, hflag, hcomplete, Refused, leave, hrun]

theorem parseLoop_loopState (s : Reading) : LoopState s s.parseLoop := by
  refine Loop.run_invariant parseRound_decreases (I := LoopState s) ?_ Relation.ReflTransGen.refl
  intro t u ht hround
  exact ht.tail hround

/-- The loop refuses what its parser refuses if and only if it makes no silent call. -/
theorem loop_refused_iff {s : Reading} (hs : s.conn.httpParser.state ≠ .error) :
    (∀ t, LoopState s t → t.conn.httpParser.state = .error → Refused t) ↔
      ∀ t, LoopState s t → t.parseRound ≠ none → Reporting t.conn.httpParser t.conn.inputBuffer := by
  constructor
  · intro h t ht hround
    obtain ⟨u,hu⟩ := Option.ne_none_iff_exists'.mp hround
    exact (parseRound_refused_iff hu).mp (h u (ht.tail hu))
  · intro h t ht
    induction ht with
    | refl => exact fun herr => absurd herr hs
    | tail hr hround _ => exact (parseRound_refused_iff hround).mpr (h _ hr (by rw [hround]; simp))

end EpollConnection.Reading

namespace HttpParser
open EpollConnection

/-- Errors are reported in the runs in which no call is made behind an error and no call ends in an oversized
line, and only there; and `handle_read` refuses what its parser refuses under the same condition on its calls. -/
theorem errors_reported_iff (p : HttpParser) (chunks : List (List UInt8)) :
    (ErrorsReported p chunks ↔ EveryCall Reporting p chunks) ∧
    ∀ s : Reading, s.conn.httpParser.state ≠ .error →
      ((∀ t, s.LoopState t → t.conn.httpParser.state = .error → t.Refused) ↔
        ∀ t, s.LoopState t → t.parseRound ≠ none → Reporting t.conn.httpParser t.conn.inputBuffer) :=
  ⟨errorsReported_iff p chunks,fun _ => Reading.loop_refused_iff⟩

/-- A refused line is reported, and the loop of `handle_read` that calls the parser with it refuses it. -/
theorem errors_reported_line : ErrorsReported {} [bytes "GET\r\n"] ∧
    ∀ t, Reading.LoopState { conn := { inputBuffer := bytes "GET\r\n" } } t → t.conn.httpParser.state = .error →
      t.Refused := by
  refine ⟨(errors_reported_iff {} [bytes "GET\r\n"]).1.mpr ⟨by decide,trivial⟩,?_⟩
  let s : Reading := { conn := { inputBuffer := bytes "GET\r\n" } }
  refine ((errors_reported_iff {} []).2 s (by decide)).mpr ?_
  have honce : (s.parseRound.map (fun u => u.parseRound.isNone)) = some true := by decide
  intro t ht hround
  rcases ht.cases_head with rfl | ⟨u,hu,hrest⟩
  · decide
  · have hlast : u.parseRound = none := by simpa [hu] using honce
    rcases hrest.cases_head with rfl | ⟨v,hv,-⟩
    · exact absurd hlast hround
    · rw [hlast] at hv
      cases hv

def longLine : List UInt8 := List.replicate (maxHttpHeaderSize + 1) 65

theorem longLine_ne : longLine ≠ [] := List.ne_nil_of_length_pos (by rw [longLine, List.length_replicate]; omega)

theorem longLine_oversized : Oversized {} longLine := by
  have hfind : findCrlf longLine = none := by
    refine findCrlf_of_not_mem ?_
    intro h
    exact absurd (List.eq_of_mem_replicate h) (by decide)
  refine ⟨longLine_ne,?_,?_⟩
  · rw [terminated_of_none _ hfind]
    rfl
  · rw [held_of_none _ hfind, List.length_append, longLine, List.length_replicate]
    omega

/-- The parser has given up, the result does not say so, and `handle_read` leaves the connection open. -/
theorem errors_not_reported : ¬ ErrorsReported {} [longLine] ∧
    ∃ t : Reading, ({ conn := { inputBuffer := longLine } } : Reading).parseRound = some t ∧
      t.conn.httpParser.state = .error ∧ ¬ t.Refused := by
  have hsilent := oversized_parse longLine_oversized
  refine ⟨?_,?_⟩
  · intro h
    have hflag := h.reported _ List.mem_cons_self hsilent.1
    rw [hsilent.2.1] at hflag
    cases hflag
  · obtain ⟨t,ht⟩ := Reading.exists_parseRound (s := { conn := { inputBuffer := longLine } }) rfl longLine_ne rfl
    have hround := Reading.parseRound_refused_iff ht
    refine ⟨t,ht,?_⟩
    rw [← Classical.not_imp, hround]
    exact fun hreporting => hreporting.2 longLine_oversized

end HttpParser
end ModernTcp
