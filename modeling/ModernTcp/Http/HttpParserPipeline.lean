import ModernTcp.Http.HttpParserIncremental

/-! # Requests in front of other bytes

A request that the parser completes is completed in the same way when more bytes
follow it, and the parser is fresh again once the request is taken out.
-/
namespace ModernTcp.HttpParser
open Scan

namespace Scan

/-- The flags of the result say what the state says, and a finished head leaves no
partial line. -/
structure FlagsAgree (s : Scan) : Prop where
  complete_iff : s.result.isComplete = true ↔ s.parser.state = .complete
  error_imp : s.result.hasError = true → s.parser.state = .error
  temp_nil : s.parser.state = .expectBody ∨ s.parser.state = .complete → s.parser.tempBuffer = []

theorem FlagsAgree.not_flagged {s : Scan} (h : s.FlagsAgree) (ha : s.parser.state.active = true) :
    s.result.isComplete = false ∧ s.result.hasError = false := by
  constructor
  · rw [Bool.eq_false_iff]
    intro hc
    rw [h.complete_iff.mp hc] at ha
    cases ha
  · rw [Bool.eq_false_iff]
    intro he
    rw [h.error_imp he] at ha
    cases ha

theorem keepPartial_flagsAgree {s : Scan} (h : s.FlagsAgree)
    (hst : s.parser.state = .expectRequestLine ∨ s.parser.state = .expectHeader) :
    s.keepPartial.FlagsAgree := by
  have hact : s.parser.state.active = true := by rcases hst with hst | hst <;> rw [hst] <;> rfl
  obtain ⟨hc,he⟩ := h.not_flagged hact
  unfold keepPartial
  split
  · constructor <;> simp [Scan.enter, Scan.withRequest, absorb, hc]
  · rcases hst with hst | hst <;> constructor <;> simp [absorb, hc, he, hst]

theorem readLine_flagsAgree {s : Scan} (hc : s.result.isComplete = false) (he : s.result.hasError = false)
    (htemp : s.parser.tempBuffer = [])
    (hst : s.parser.state = .expectRequestLine ∨ s.parser.state = .expectHeader) (line : List UInt8) :
    (s.readLine line).FlagsAgree := by
  unfold readLine
  split
  · split
    · constructor <;> simp [Scan.reject, Scan.withRequest, hc]
    · constructor <;> simp [Scan.enter, Scan.withRequest, hc, he]
  · rename_i hne
    have hst' : s.parser.state = .expectHeader := hst.resolve_left hne
    split
    · dsimp only
      split
      · constructor <;> simp [Scan.enter, Scan.withRequest, hc, he, htemp]
      · constructor <;> simp [Scan.finish, Scan.withRequest, he, htemp]
    · split
      · constructor <;> simp [Scan.reject, Scan.withRequest, hc]
      · constructor <;> simp [Scan.withRequest, hc, he, hst']

theorem takeBody_flagsAgree {s : Scan} (h : s.FlagsAgree) (hst : s.parser.state = .expectBody) :
    s.takeBody.FlagsAgree := by
  obtain ⟨hc,he⟩ := h.not_flagged (by rw [hst]; rfl)
  have htemp := h.temp_nil (Or.inl hst)
  unfold takeBody checkBody
  split
  · constructor <;> simp [Scan.finish, appendBody, he, htemp]
  · constructor <;> simp [appendBody, hc, he, htemp, hst]

theorem round_flagsAgree {s t : Scan} (hs : s.FlagsAgree) (h : s.round = some t) : t.FlagsAgree := by
  obtain ⟨-,⟨hst,⟨_,rfl⟩ | ⟨n,-,rfl⟩⟩ | ⟨hst,rfl⟩⟩ := round_cases h
  · exact keepPartial_flagsAgree hs hst
  · have hact : s.parser.state.active = true := by rcases hst with hst | hst <;> rw [hst] <;> rfl
    obtain ⟨hc,he⟩ := hs.not_flagged hact
    exact readLine_flagsAgree (s := s.afterLine n) hc he rfl hst _
  · exact takeBody_flagsAgree hs hst

theorem run_flagsAgree {s : Scan} (h : s.FlagsAgree) : s.run.FlagsAgree :=
  Loop.run_invariant round_decreases (fun _ _ ht hr => round_flagsAgree ht hr) h

/-- A completed request is located from the start of the data to the scanning position. -/
def Located (s : Scan) : Prop :=
  s.parser.currentRequestStartIndex = 0 ∧ (s.result.isComplete = true →
    s.result.requestStartIndex = 0 ∧ s.result.requestTotalLen = s.consumed)

theorem readLine_located {s : Scan} (hs : s.parser.currentRequestStartIndex = 0)
    (hc : s.result.isComplete = false) (line : List UInt8) : (s.readLine line).Located := by
  unfold readLine
  split
  · split <;> simp [Located, Scan.reject, Scan.enter, Scan.withRequest, hs, hc]
  · split
    · dsimp only
      split <;> simp [Located, Scan.finish, Scan.enter, Scan.withRequest, hs, hc]
    · split <;> simp [Located, Scan.reject, Scan.withRequest, hs, hc]

theorem round_located {s t : Scan} (hs : s.Located) (hf : s.FlagsAgree) (h : s.round = some t) :
    t.Located := by
  obtain ⟨-,⟨hst,⟨_,rfl⟩ | ⟨n,-,rfl⟩⟩ | ⟨hst,rfl⟩⟩ := round_cases h
  · have hc := (hf.not_flagged (by rcases hst with hst | hst <;> rw [hst] <;> rfl)).1
    unfold keepPartial
    split <;> simp [Located, Scan.enter, Scan.withRequest, absorb, hs.1, hc]
  · have hc := (hf.not_flagged (by rcases hst with hst | hst <;> rw [hst] <;> rfl)).1
    exact readLine_located (s := s.afterLine n) hs.1 hc _
  · have hc := (hf.not_flagged (by rw [hst]; rfl)).1
    unfold takeBody checkBody
    split <;> simp [Located, Scan.finish, appendBody, hs.1, hc]

theorem run_located {s : Scan} (hs : s.Located) (hf : s.FlagsAgree) : s.run.Located := by
  refine (Loop.run_invariant round_decreases (I := fun t => t.Located ∧ t.FlagsAgree) ?_ ⟨hs,hf⟩).1
  rintro t u ⟨ht,hft⟩ hr
  exact ⟨round_located ht hft hr,round_flagsAgree hft hr⟩

theorem run_consumed_pos {s : Scan} (hne : s.rest ≠ [])
    (hst : s.parser.state = .expectRequestLine ∨ s.parser.state = .expectHeader) :
    0 < s.run.consumed := by
  have hpos : 0 < s.rest.length := List.length_pos_of_ne_nil hne
  rw [run_of_some (round_line hne hst)]
  have hmono : ∀ t : Scan, t.consumed ≤ t.run.consumed := by
    intro t
    refine Loop.run_invariant round_decreases (I := fun u => t.consumed ≤ u.consumed) ?_ le_rfl
    intro u v hu h
    obtain ⟨-,⟨-,⟨_,rfl⟩ | ⟨n,-,rfl⟩⟩ | ⟨-,rfl⟩⟩ := round_cases h
    · rw [keepPartial_consumed]
      omega
    · rw [takeLine_consumed]
      omega
    · rw [takeBody_consumed]
      omega
  refine lt_of_lt_of_le ?_ (hmono _)
  cases hf : findCrlf s.rest with
  | none =>
    rw [searchLine_of_none hf, keepPartial_consumed]
    omega
  | some n =>
    rw [searchLine_of_some hf, takeLine_consumed]
    omega

end Scan

namespace Scan

/-- The view of a request stays within the bytes that were consumed. -/
def ViewWithin (s : Scan) : Prop :=
  s.parser.currentRequestStartIndex = 0 ∧ s.result.requestStartIndex + s.result.requestTotalLen ≤ s.consumed

theorem finish_viewWithin {s : Scan} (h : s.parser.currentRequestStartIndex = 0) : s.finish.ViewWithin := by
  refine ⟨h,?_⟩
  change s.parser.currentRequestStartIndex + (s.consumed - s.parser.currentRequestStartIndex) ≤ s.consumed
  omega

theorem round_viewWithin {s t : Scan} (hs : s.ViewWithin) (h : s.round = some t) : t.ViewWithin := by
  obtain ⟨hzero,hle⟩ := hs
  obtain ⟨-,⟨-,⟨_,rfl⟩ | ⟨n,-,rfl⟩⟩ | ⟨-,rfl⟩⟩ := round_cases h
  · unfold keepPartial
    split <;> exact ⟨hzero,hle.trans (Nat.le_add_right _ _)⟩
  · have hline : (s.afterLine n).ViewWithin := ⟨hzero,hle.trans (Nat.le_add_right _ _)⟩
    unfold takeLine readLine
    split
    · split <;> exact hline
    · split
      · dsimp only
        split
        · exact hline
        · exact finish_viewWithin hzero
      · split <;> exact hline
  · unfold takeBody checkBody
    split
    · exact finish_viewWithin hzero
    · exact ⟨hzero,hle.trans (Nat.le_add_right _ _)⟩

theorem run_viewWithin {s : Scan} (h : s.ViewWithin) : s.run.ViewWithin :=
  Loop.run_invariant round_decreases (fun _ _ ht hr => round_viewWithin ht hr) h

end Scan

theorem parse_viewWithin {p : HttpParser} (h : p.StartsAtZero) (data : List UInt8) :
    (p.parse data).2.requestStartIndex + (p.parse data).2.requestTotalLen ≤ data.length := by
  have hview : (Scan.run { parser := p.startRequest, rest := data }).ViewWithin := by
    rw [h.startRequest]
    exact run_viewWithin ⟨h,le_rfl⟩
  have hcons := run_consumed { parser := p.startRequest, rest := data }
  simp only [Nat.zero_add] at hcons
  exact hview.2.trans (by omega)

theorem fresh_flagsAgree (data : List UInt8) : FlagsAgree { parser := {}, rest := data } := by
  constructor <;> simp

/-- A fresh parser completes exactly these bytes. -/
structure Accepted (r : List UInt8) : Prop where
  complete : (parse {} r).2.isComplete = true
  consumed : (parse {} r).2.consumedBytes = r.length

instance (r : List UInt8) : Decidable (Accepted r) :=
  decidable_of_iff ((parse {} r).2.isComplete = true ∧ (parse {} r).2.consumedBytes = r.length)
    ⟨fun h => ⟨h.1,h.2⟩,fun h => ⟨h.1,h.2⟩⟩

/-- The request a fresh parser takes out of its bytes. -/
def requestOf (r : List UInt8) : SimpleHttpRequest := (parse {} r).1.getRequest.1

theorem getRequest_fresh {p : HttpParser} (h : p.StartsAtZero) : p.getRequest.2 = {} := by
  unfold getRequest reset
  rw [show p.currentRequestStartIndex = 0 from h]

theorem getRequest_new (data : List UInt8) : (parse {} data).1.getRequest.2 = {} :=
  getRequest_fresh (StartsAtZero.parse (p := {}) rfl data)

theorem Accepted.state {r : List UInt8} (h : Accepted r) : (parse {} r).1.state = .complete :=
  (run_flagsAgree (fresh_flagsAgree r)).complete_iff.mp h.complete

theorem Accepted.no_error {r : List UInt8} (h : Accepted r) : (parse {} r).2.hasError = false := by
  rw [Bool.eq_false_iff]
  intro he
  have hs := (run_flagsAgree (fresh_flagsAgree r)).error_imp he
  exact absurd (h.state.symm.trans hs) (by decide)

theorem Accepted.located {r : List UInt8} (h : Accepted r) :
    (parse {} r).2.requestStartIndex = 0 ∧ (parse {} r).2.requestTotalLen = r.length := by
  have hl : (Scan.run { parser := {}, rest := r }).Located :=
    run_located ⟨rfl,by simp⟩ (fresh_flagsAgree r)
  obtain ⟨hstart,htotal⟩ := hl.2 h.complete
  exact ⟨hstart,htotal.trans h.consumed⟩

theorem Accepted.ne_nil {r : List UInt8} (h : Accepted r) : r ≠ [] := by
  rintro rfl
  exact absurd h.state (by decide)

/-- Bytes behind a request do not change how it is read. -/
theorem Accepted.parse_append {r : List UInt8} (h : Accepted r) (d : List UInt8) :
    parse {} (r ++ d) = parse {} r := by
  by_cases hd : d = []
  · rw [hd, List.append_nil]
  · let s : Scan := { parser := {}, rest := r }
    have hflags := run_flagsAgree (fresh_flagsAgree r)
    have hstate : s.run.parser.state = .complete := h.state
    have hrest : s.run.rest = [] := by
      have hc := run_consumed s
      have ha : s.run.consumed = r.length := h.consumed
      apply List.length_eq_zero_iff.mp
      simp only [s] at hc ha ⊢
      omega
    have hgood : GoodCut s.run.parser d := by
      rw [GoodCut, hflags.temp_nil (Or.inr hstate)]
      exact ⟨Nat.zero_le _,by simp [SplitsCrlf]⟩
    have hrun : (s.extend d).run = s.run.extend d := by
      rw [run_extend hd (fun _ => hgood), run_of_inactive]
      rw [parser_extend, hstate]
      rfl
    have hparse : parse {} (r ++ d) = ((s.extend d).run.parser,
        { (s.extend d).run.result with consumedBytes := (s.extend d).run.consumed }) := rfl
    rw [hparse, hrun]
    rfl

/-- A call that completes has consumed a byte, unless it was waiting for a body. -/
theorem parse_complete_consumed {p : HttpParser} {data : List UInt8} (hne : data ≠ [])
    (hst : p.state ≠ .expectBody) (hp : p.state.active = true) : 0 < (p.parse data).2.consumedBytes := by
  have hstate : p.startRequest.state = p.state := by
    unfold startRequest
    split <;> rfl
  refine run_consumed_pos (s := { parser := p.startRequest, rest := data }) hne ?_
  rw [hstate]
  cases hs : p.state <;> simp_all [State.active]

/-- Taking a request out resets the parser, so either its state or the data shrinks. -/
theorem parse_shrinks {p : HttpParser} {data : List UInt8} (hne : data ≠ []) :
    2 * (data.drop (p.parse data).2.consumedBytes).length + (decide (p.getRequest.2.state ≠ .expectRequestLine)).toNat <
      2 * data.length + (decide (p.state ≠ .expectRequestLine)).toNat := by
  have hlen : 0 < data.length := List.length_pos_of_ne_nil hne
  have hreset : p.getRequest.2.state = .expectRequestLine := rfl
  simp only [hreset, List.length_drop]
  by_cases hstate : p.state = .expectRequestLine
  · have hcons := parse_complete_consumed hne (p := p) (by rw [hstate]; decide) (by rw [hstate]; rfl)
    simp only [hstate, ne_eq, not_true_eq_false, decide_false, Bool.toNat_false]
    omega
  · simp only [hstate, ne_eq, not_true_eq_false, not_false_eq_true, decide_false, decide_true, Bool.toNat_false,
      Bool.toNat_true]
    omega

/-- The request line of an accepted request, fed alone, leaves the parser at the first
header. -/
theorem Accepted.parse_head {r : List UInt8} (h : Accepted r) {n : ℕ} (hn : findCrlf r = some n) :
    ∃ p result, parse {} (r.take (n + 2)) = (p,result) ∧ p.state = .expectHeader ∧
      p.tempBuffer = [] ∧ result.hasError = false ∧ result.isComplete = false ∧ n ≠ 0 := by
  let s : Scan := { parser := {}, rest := r }
  have hrun : s.run = (s.takeLine n).run := by
    rw [run_of_some (round_line h.ne_nil (Or.inl rfl)), searchLine_of_some hn]
  have hhead : (s.withRest (r.take (n + 2))).run = (s.takeLine n).withRest [] := by
    have hw := run_withRest_line (s := s) (Or.inl rfl) hn []
    rw [List.append_nil] at hw
    exact hw.trans (run_nil rfl)
  rcases hline : SimpleHttpRequest.parseRequestLine {} (r.take n) with ⟨ok,req⟩
  have htake : s.takeLine n = if ok then ((s.afterLine n).withRequest req).enter .expectHeader
      else ((s.afterLine n).withRequest req).reject := by
    have hparse : (s.afterLine n).parser.currentReq.parseRequestLine (s.lineAt n) = (ok,req) := hline
    have hstate : (s.afterLine n).parser.state = .expectRequestLine := rfl
    unfold takeLine readLine
    rw [if_pos hstate, hparse]
    cases ok <;> rfl
  cases ok with
  | false =>
    -- a rejected request line is final
    exfalso
    have hst : s.run.parser.state = .error := by
      rw [hrun, htake, run_of_inactive]
      · rfl
      · rfl
    exact absurd (h.state.symm.trans hst) (by decide)
  | true =>
    have hend := hhead.trans (congrArg (withRest · []) htake)
    refine ⟨_,_,rfl,?_,?_,?_,?_,?_⟩
    · exact congrArg (fun t => t.parser.state) hend
    · exact congrArg (fun t => t.parser.tempBuffer) hend
    · exact congrArg (fun t => t.result.hasError) hend
    · exact congrArg (fun t => t.result.isComplete) hend
    · rintro rfl
      have hnil : (SimpleHttpRequest.parseRequestLine {} []).1 = true := congrArg Prod.fst hline
      exact absurd hnil (by decide)

theorem Accepted.after_head {r : List UInt8} (h : Accepted r) {n : ℕ} (hn : findCrlf r = some n) :
    r.drop (n + 2) ≠ [] := by
  intro hnil
  obtain ⟨p,result,hparse,-,-,-,hcomplete,-⟩ := h.parse_head hn
  rw [List.take_of_length_le (List.drop_eq_nil_iff.mp hnil)] at hparse
  exact absurd (h.complete.symm.trans (congrArg (·.2.isComplete) hparse)) (by simp [hcomplete])

end ModernTcp.HttpParser
