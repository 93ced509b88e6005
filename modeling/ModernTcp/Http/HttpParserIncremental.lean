import ModernTcp.Http.HttpParserScan

/-! # Feeding the parser in chunks

One parser is fed the chunks of a stream in turn. The outcome is that of one call on
the whole stream as long as no chunk ends between the CR and the LF of a line, or in
the middle of a line that is already over the limit.
-/
namespace ModernTcp.HttpParser
open Scan

/-- What a caller can see of a parser. -/
inductive Outcome
  | complete (request : SimpleHttpRequest)
  | error
  | needMore
deriving DecidableEq

def outcome (p : HttpParser) : Outcome :=
  match p.state with
  | .complete => .complete p.getRequest.1
  | .error => .error
  | _ => .needMore

/-- The caller passes on to the next chunk only after all of the last one was consumed. -/
def feedAll : HttpParser → List (List UInt8) → HttpParser
  | p, [] => p
  | p, c :: cs =>
    let r := p.parse c
    if r.2.consumedBytes = c.length then feedAll r.1 cs else r.1

/-- The cuts between the chunks that are really fed are good ones. -/
def SafeCuts : HttpParser → List (List UInt8) → Prop
  | _, [] => True
  | p, c :: cs => (p.parse c).2.consumedBytes = c.length →
      (cs.flatten ≠ [] → GoodCut (p.parse c).1 cs.flatten) ∧ SafeCuts (p.parse c).1 cs

instance (p : HttpParser) (d : List UInt8) : Decidable (GoodCut p d) :=
  inferInstanceAs (Decidable (_ ∧ _))

instance decidableSafeCuts : ∀ p chunks, Decidable (SafeCuts p chunks)
  | _, [] => inferInstanceAs (Decidable True)
  | p, c :: cs =>
    have := decidableSafeCuts (p.parse c).1 cs
    inferInstanceAs (Decidable (_ → (_ → _) ∧ _))

namespace Scan

/-- Two scans that differ in the bookkeeping of the call only. -/
def Same (s t : Scan) : Prop := s.parser = t.parser ∧ s.rest = t.rest

theorem Same.enter {s t : Scan} (h : Same s t) (st : State) : Same (s.enter st) (t.enter st) :=
  ⟨congrArg (fun p : HttpParser => { p with state := st }) h.1,h.2⟩
theorem Same.withRequest {s t : Scan} (h : Same s t) (r : SimpleHttpRequest) :
    Same (s.withRequest r) (t.withRequest r) :=
  ⟨congrArg (fun p : HttpParser => { p with currentReq := r }) h.1,h.2⟩
theorem Same.finish {s t : Scan} (h : Same s t) : Same s.finish t.finish := h.enter .complete
theorem Same.reject {s t : Scan} (h : Same s t) : Same s.reject t.reject := h.enter .error

theorem Same.keepPartial {s t : Scan} (h : Same s t) : Same s.keepPartial t.keepPartial := by
  have ha : Same s.absorb t.absorb := by simp [Same, absorb, h.1, h.2]
  unfold Scan.keepPartial
  rw [ha.1, h.1]
  split
  · exact (ha.withRequest _).enter _
  · exact ha

theorem Same.readLine {s t : Scan} (h : Same s t) (line : List UInt8) :
    Same (s.readLine line) (t.readLine line) := by
  unfold Scan.readLine
  rw [h.1]
  split
  · split
    · exact (h.withRequest _).reject
    · exact (h.withRequest _).enter _
  · split
    · dsimp only
      split
      · exact (h.withRequest _).enter _
      · exact (h.withRequest _).finish
    · split
      · exact (h.withRequest _).reject
      · exact h.withRequest _

theorem Same.takeLine {s t : Scan} (h : Same s t) (n : ℕ) : Same (s.takeLine n) (t.takeLine n) := by
  have ha : Same (s.afterLine n) (t.afterLine n) := by simp [Same, afterLine, h.1, h.2]
  have hl : s.lineAt n = t.lineAt n := by simp [lineAt, h.1, h.2]
  rw [Scan.takeLine, Scan.takeLine, hl]
  exact ha.readLine _

theorem Same.takeBody {s t : Scan} (h : Same s t) : Same s.takeBody t.takeBody := by
  have ht : s.bodyTake = t.bodyTake := by simp [bodyTake, h.1, h.2]
  have ha : Same (s.appendBody t.bodyTake) (t.appendBody t.bodyTake) := by
    simp [Same, appendBody, h.1, h.2]
  rw [Scan.takeBody, Scan.takeBody, ht]
  unfold checkBody
  rw [ha.1]
  split
  · exact ha.finish
  · exact ha

theorem Same.round {s t u : Scan} (h : Same s t) (hs : s.round = some u) :
    ∃ v, t.round = some v ∧ Same u v := by
  obtain ⟨hne,hround⟩ := round_cases hs
  have hne' : t.rest ≠ [] := h.2 ▸ hne
  rcases hround with ⟨hst,⟨hf,rfl⟩ | ⟨n,hn,rfl⟩⟩ | ⟨hst,rfl⟩
  · refine ⟨_,round_line hne' (h.1 ▸ hst),?_⟩
    rw [searchLine_of_none (h.2 ▸ hf)]
    exact h.keepPartial
  · refine ⟨_,round_line hne' (h.1 ▸ hst),?_⟩
    rw [searchLine_of_some (h.2 ▸ hn)]
    exact h.takeLine n
  · exact ⟨_,round_body hne' (h.1 ▸ hst),h.takeBody⟩

theorem Same.run {s t : Scan} (h : Same s t) : Same s.run t.run := by
  revert t
  refine Loop.run_induction round_decreases (motive := fun s => ∀ {t}, Same s t → Same s.run t.run) ?_ ?_ s
  · intro s hs t h
    have ht : t.round = none := by
      rw [round_eq_none_iff] at hs ⊢
      rwa [← h.1, ← h.2]
    rwa [run_of_none hs, run_of_none ht]
  · intro s u hs ih t h
    obtain ⟨v,hv,huv⟩ := h.round hs
    rw [run_of_some hs, run_of_some hv]
    exact ih huv

theorem run_startIndex (s : Scan) :
    s.run.parser.currentRequestStartIndex = s.parser.currentRequestStartIndex := by
  refine Loop.run_invariant round_decreases
    (I := fun t => t.parser.currentRequestStartIndex = s.parser.currentRequestStartIndex) ?_ rfl
  intro t u ht h
  rw [← ht]
  obtain ⟨hne,⟨hst,⟨_,rfl⟩ | ⟨n,hn,rfl⟩⟩ | ⟨hst,rfl⟩⟩ := round_cases h
  · unfold keepPartial
    split <;> rfl
  · unfold takeLine readLine
    split
    · split <;> rfl
    · split
      · dsimp only
        split <;> rfl
      · split <;> rfl
  · unfold takeBody checkBody
    split <;> rfl

end Scan

/-- Requests start at the front of the data: nothing ever sets another index. -/
def StartsAtZero (p : HttpParser) : Prop := p.currentRequestStartIndex = 0

theorem StartsAtZero.startRequest {p : HttpParser} (h : p.StartsAtZero) : p.startRequest = p := by
  unfold HttpParser.startRequest
  split
  · rw [← show p.currentRequestStartIndex = 0 from h]
  · rfl

theorem StartsAtZero.parse {p : HttpParser} (h : p.StartsAtZero) (data : List UInt8) :
    (p.parse data).1.StartsAtZero := by
  unfold HttpParser.parse
  rw [h.startRequest]
  exact (run_startIndex _).trans h

theorem parse_append {p : HttpParser} (h : p.StartsAtZero) {c d : List UInt8}
    (hcut : (p.parse c).2.consumedBytes = c.length → d ≠ [] → GoodCut (p.parse c).1 d) :
    (p.parse (c ++ d)).1 =
      if (p.parse c).2.consumedBytes = c.length then ((p.parse c).1.parse d).1 else (p.parse c).1 := by
  let s : Scan := { parser := p, rest := c }
  have hp : p.parse c = (s.run.parser,{ s.run.result with consumedBytes := s.run.consumed }) := by
    rw [parse, h.startRequest]
  have hext : (p.parse (c ++ d)).1 = (s.extend d).run.parser := by
    rw [parse, h.startRequest]
    rfl
  have hcons : s.run.consumed + s.run.rest.length = c.length := by
    simpa [s] using run_consumed s
  by_cases hd : d = []
  · subst hd
    rw [List.append_nil]
    split
    · rw [parse.eq_def (p.parse c).1, (h.parse c).startRequest, run_nil rfl]
    · rfl
  · rw [hext]
    by_cases hall : (p.parse c).2.consumedBytes = c.length
    · have hrest : s.run.rest = [] := by
        rw [hp] at hall
        dsimp only at hall
        exact List.length_eq_zero_iff.mp (by omega)
      rw [if_pos hall, run_extend hd (fun _ => by simpa [hp] using hcut hall hd),
        parse, (h.parse c).startRequest]
      refine (Same.run ⟨?_,?_⟩).1
      · rw [hp]
        rfl
      · simp [hrest]
    · have hrest : s.run.rest ≠ [] := by
        intro hnil
        rw [hnil] at hcons
        exact hall (by simpa [hp] using hcons)
      have hstop : (s.run.extend d).round = none := by
        rcases run_stops s with hr | hr
        · exact absurd hr hrest
        · exact round_eq_none_iff.mpr (Or.inr hr)
      rw [if_neg hall, run_extend hd (fun hr => absurd hr hrest), run_of_none hstop, hp]
      rfl

theorem feedAll_eq_parse {p : HttpParser} (h : p.StartsAtZero) {chunks : List (List UInt8)}
    (hs : SafeCuts p chunks) : feedAll p chunks = (p.parse chunks.flatten).1 := by
  induction chunks generalizing p with
  | nil =>
    rw [feedAll, List.flatten_nil, parse, h.startRequest, run_nil rfl]
  | cons c cs ih =>
    rw [List.flatten_cons, parse_append h (fun hall => (hs hall).1)]
    simp only [feedAll]
    split
    · rename_i hall
      exact ih (h.parse c) (hs hall).2
    · rfl

/-- The chunking gives the outcome of the single call. -/
def Incremental (chunks : List (List UInt8)) : Prop :=
  outcome (feedAll {} chunks) = outcome (parse {} chunks.flatten).1

theorem outcome_complete_body {p q : HttpParser} (hp : p.state = .complete)
    (h : outcome q = outcome p) : q.state = .complete ∧ q.currentReq.body = p.currentReq.body := by
  unfold outcome at h
  rw [hp] at h
  cases hq : q.state with
  | complete =>
    simp only [hq, Outcome.complete.injEq] at h
    have hb := congrArg SimpleHttpRequest.body h
    exact ⟨rfl,hb⟩
  | expectRequestLine | expectHeader | expectBody | error => simp [hq] at h

theorem run_cr {s : Scan} (hst : s.parser.state = .expectHeader) (hrest : s.rest = [])
    (htemp : s.parser.tempBuffer = []) : (s.extend [13]).run = (s.extend [13]).absorb := by
  have hr : (s.extend [13]).rest = [13] := by rw [extend_rest, hrest, List.nil_append]
  rw [run_of_some (round_line (s := s.extend [13]) (by simp) (Or.inr hst)),
    searchLine_of_none (by rw [hr]; rfl), run_nil (keepPartial_rest _), keepPartial, if_neg]
  simp only [absorb, parser_extend, htemp, hr]
  decide

/-- With a CR kept from the last chunk, a blank line is not seen for what it is. -/
theorem kept_cr_body {s : Scan} (hst : s.parser.state = .expectHeader) {tail : List UInt8}
    (hrest : s.rest = 10 :: tail) (hbody : s.body = []) (hdone : s.run.parser.state = .complete) :
    s.run.body.length < tail.length := by
  have hround := round_line (s := s) (by simp [hrest]) (Or.inr hst)
  cases hf : findCrlf s.rest with
  | none =>
    rw [run_of_some hround, searchLine_of_none hf, run_nil (keepPartial_rest s)] at hdone
    unfold keepPartial at hdone
    split at hdone
    · cases hdone
    · exact absurd (hst.symm.trans hdone) (by decide)
  | some n =>
    have hb := findCrlf_bound hf
    have hle := run_body_le (s.takeLine n)
    rw [run_of_some hround, searchLine_of_some hf]
    rw [takeLine_body, hbody, takeLine_rest, List.length_drop] at hle
    simp only [hrest, List.length_cons, List.length_nil] at hb hle
    omega

/-- A request cut between the CR and the LF of its blank line is not the same request. -/
theorem blank_line_cut {data : List UInt8} (hdone : (parse {} data).1.state = .complete)
    (hall : (parse {} data).2.consumedBytes = data.length) :
    ∃ chunks : List (List UInt8), chunks.flatten = data ∧ ¬ Incremental chunks := by
  have hzero : StartsAtZero {} := rfl
  let s : Scan := { parser := {}, rest := data }
  have hcons := run_consumed s
  have hend : s.run.rest = [] := by
    apply List.length_eq_zero_iff.mp
    have h' : s.run.consumed = data.length := hall
    rw [h'] at hcons
    simpa [s] using hcons
  obtain ⟨pre,tail,hdata,hv⟩ := exists_blank_line (s := s) (Or.inl rfl) rfl rfl hdone
  let v := (s.withRest pre).run
  obtain ⟨hvrest,hvst,hvtemp,hvbody⟩ : v.rest = [] ∧ v.parser.state = .expectHeader ∧
    v.parser.tempBuffer = [] ∧ v.body = [] := hv
  have hgood : ∀ d, GoodCut v.parser d := by
    intro d
    rw [GoodCut, hvtemp]
    exact ⟨Nat.zero_le _,by simp [SplitsCrlf]⟩
  -- the whole request: the body has the length of the tail
  have hwhole : s.run = (v.extend (13 :: 10 :: tail)).run := by
    have he : s = (s.withRest pre).extend (13 :: 10 :: tail) := by
      simp only [withRest, extend, ← hdata]
    rw [he]
    exact run_extend (by simp) (fun _ => hgood _)
  have hlen : s.run.body.length = tail.length := by
    rw [hwhole] at hend ⊢
    have hrest : (v.extend (13 :: 10 :: tail)).rest = 13 :: 10 :: tail := by
      rw [extend_rest, hvrest, List.nil_append]
    rw [run_blank_body (s := v.extend (13 :: 10 :: tail)) hvst hvtemp hrest hend,
      show (v.extend (13 :: 10 :: tail)).body = [] from hvbody]
    exact Nat.zero_add _
  -- the first chunk ends with the CR, which is kept
  have hkept : (parse {} (pre ++ [13])).1 = (v.extend [13]).absorb.parser ∧
      (parse {} (pre ++ [13])).2.consumedBytes = (pre ++ [13]).length := by
    have hfirst : (s.withRest (pre ++ [13])).run = (v.extend [13]).absorb := by
      have he : s.withRest (pre ++ [13]) = (s.withRest pre).extend [13] := rfl
      rw [he, run_extend (by simp) (fun _ => hgood _)]
      exact run_cr hvst hvrest hvtemp
    have hc := run_consumed (s.withRest (pre ++ [13]))
    rw [hfirst] at hc
    refine ⟨?_,?_⟩
    · exact congrArg Scan.parser hfirst
    · refine (congrArg Scan.consumed hfirst).trans ?_
      simpa [s, withRest, absorb] using hc
  refine ⟨[pre ++ [13],10 :: tail],by simp [← hdata, s],?_⟩
  intro hinc
  have hflat : [pre ++ [13],10 :: tail].flatten = data := by simp [← hdata, s]
  let w : Scan := { parser := (v.extend [13]).absorb.parser, rest := 10 :: tail }
  have hfeed : feedAll {} [pre ++ [13],10 :: tail] = w.run.parser := by
    have hz : StartsAtZero (v.extend [13]).absorb.parser := hkept.1 ▸ hzero.parse _
    simp only [feedAll, hkept.2, ↓reduceIte, hkept.1, ite_self]
    rw [parse, hz.startRequest]
  rw [Incremental, hflat, hfeed] at hinc
  obtain ⟨hst,hbody⟩ := outcome_complete_body hdone hinc
  have hlt := kept_cr_body (s := w) hvst rfl hvbody hst
  have heq : w.run.body.length = s.run.body.length := congrArg List.length hbody
  omega

/-- Safe cuts are enough. And no complete request is safe from all cuts: one chunking of
it, through its blank line, loses it. -/
theorem parser_incremental (chunks : List (List UInt8)) :
    (SafeCuts {} chunks → Incremental chunks) ∧
    ((parse {} chunks.flatten).1.state = .complete →
      (parse {} chunks.flatten).2.consumedBytes = chunks.flatten.length →
      ∃ cuts : List (List UInt8), cuts.flatten = chunks.flatten ∧ ¬ Incremental cuts) := by
  refine ⟨?_,fun hdone hall => blank_line_cut hdone hall⟩
  intro hs
  have hzero : StartsAtZero {} := rfl
  rw [Incremental, feedAll_eq_parse hzero hs]

def threeChunks : List (List UInt8) := [bytes "GET / HT",bytes "TP/1.1\r\nA",bytes ": b\r\n\r\n"]

theorem parser_incremental_request :
    Incremental threeChunks ∧
      ∃ cuts : List (List UInt8), cuts.flatten = bytes "GET / HTTP/1.1\r\nA: b\r\n\r\n" ∧ ¬ Incremental cuts :=
  ⟨(parser_incremental threeChunks).1 (by decide),(parser_incremental threeChunks).2 (by decide) (by decide)⟩

theorem parser_not_incremental : ¬ ∀ chunks, Incremental chunks := by
  intro h
  have hcut := h [bytes "GET / HTTP/1.1\r",bytes "\n\r\n"]
  unfold Incremental at hcut
  revert hcut
  decide

end ModernTcp.HttpParser
