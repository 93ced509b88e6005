import ModernTcp.Http.HeadFraming

/-! # The limit on a line

The length of a line is tested when a chunk ends in the middle of it, and only then. So whether a line
over the limit is refused depends on where the chunks end.
-/
namespace ModernTcp.HttpParser
open SimpleHttpRequest Scan

namespace Head
variable {h : Head} {lines pre : List (List UInt8)}

/-- The bytes up to the blank line that ends the head, and the request there. -/
def ending (h : Head) : List (List UInt8) → Option (ℕ × SimpleHttpRequest)
  | [] => none
  | line :: lines =>
    if h.state = .expectHeader ∧ line = [] then some (2,h.request.checkHeaders)
    else (ending (h.read line) lines).map (fun e => (line.length + 2 + e.1,e.2))

theorem ending_closed (hst : h.state.readsLine = false) (lines : List (List UInt8)) : h.ending lines = none := by
  induction lines with
  | nil => rfl
  | cons line lines ih =>
    have hno : ¬ (h.state = .expectHeader ∧ line = []) := by
      rintro ⟨hs,-⟩
      rw [hs] at hst
      cases hst
    rw [ending, if_neg hno, read_closed hst, ih]
    rfl

theorem ending_append (hopen : (h.reads pre).state.readsLine = true) (lines : List (List UInt8)) :
    h.ending (pre ++ lines) = ((h.reads pre).ending lines).map (fun e => (linesLength pre + e.1,e.2)) := by
  induction pre generalizing h with
  | nil => simp
  | cons line pre ih =>
    have hno : ¬ (h.state = .expectHeader ∧ line = []) := by
      rintro ⟨hs,rfl⟩
      rw [reads_cons] at hopen
      have hopen' := open_of_reads hopen
      rcases read_blank_state hs with hread | hread <;> rw [hread] at hopen' <;> cases hopen'
    rw [List.cons_append, ending, if_neg hno, ih hopen, Option.map_map, reads_cons, linesLength_cons]
    congr 1
    funext e
    simp only [Function.comp_apply, Nat.add_assoc]

theorem ending_blank (hst : h.state = .expectHeader) (lines : List (List UInt8)) :
    h.ending ([] :: lines) = some (2,h.request.checkHeaders) := by
  rw [ending, if_pos ⟨hst,rfl⟩]

theorem ending_refused {line : List UInt8} (herr : (h.read line).state = .error)
    (lines : List (List UInt8)) : h.ending (line :: lines) = none := by
  have hno : ¬ (h.state = .expectHeader ∧ line = []) := by
    rintro ⟨hs,rfl⟩
    rcases read_blank_state hs with hread | hread <;> rw [hread] at herr <;> cases herr
  rw [ending, if_neg hno, ending_closed (by rw [herr]; rfl)]
  rfl

/-- The head ends, and its body does, within that many bytes. -/
def Completes (h : Head) (lines : List (List UInt8)) (length : ℕ) : Prop :=
  ∃ e ∈ h.ending lines, e.1 + e.2.contentLength ≤ length

theorem completes_append (hopen : (h.reads pre).state.readsLine = true) (lines : List (List UInt8)) (n : ℕ) :
    h.Completes (pre ++ lines) (linesLength pre + n) ↔ (h.reads pre).Completes lines n := by
  rw [Completes, Completes, ending_append hopen]
  constructor
  · rintro ⟨e,he,hle⟩
    obtain ⟨e',he',rfl⟩ := Option.mem_map.mp he
    exact ⟨e',he',by dsimp only at hle; omega⟩
  · rintro ⟨e,he,hle⟩
    exact ⟨_,Option.mem_map_of_mem _ he,by dsimp only; omega⟩

theorem completes_fresh (lines : List (List UInt8)) (n : ℕ) :
    ({} : Head).Completes lines n ↔ WholeRequest lines n := by
  rcases reads_cases (h := {}) rfl lines with hopen | ⟨pre,line,post,rfl,hopen,⟨hhead,rfl⟩ | herr⟩
  · obtain ⟨-,hno⟩ := framing_open hopen
    refine iff_of_false ?_ (fun h => hno h.2.1)
    rintro ⟨e,he,-⟩
    rw [← List.append_nil lines, ending_append hopen] at he
    cases he
  · obtain ⟨haccepted,hends,hlength,hrequest⟩ := framing_ended post hhead
    rw [Completes, ending_append hopen, ending_blank hhead, hrequest, WholeRequest, hlength, ← headRequest_contentLength]
    simp [haccepted, hends]
  · refine iff_of_false ?_ (fun h => framing_refused hopen herr h.1)
    rintro ⟨e,he,-⟩
    rw [ending_append hopen, ending_refused herr] at he
    cases he

end Head

variable {p : HttpParser} {c : List UInt8} {cs chunks : List (List UInt8)}

theorem feedAll_of_complete (h : p.state = .complete) (chunks : List (List UInt8)) :
    (feedAll p chunks).state = .complete := by
  induction chunks generalizing p with
  | nil => exact h
  | cons c cs ih =>
    have hparse : (p.parse c).1.state = .complete := by
      have hst : (p.scan c).parser.state = .complete := by rw [scan_state, h]
      rw [parse_state, run_of_inactive (by rw [hst]; rfl), hst]
    simp only [feedAll]
    split_ifs
    · exact ih hparse
    · exact hparse

theorem feedAll_cons_complete (h : (p.parse c).1.state = .complete) (cs : List (List UInt8)) :
    (feedAll p (c :: cs)).state = .complete := by
  simp only [feedAll]
  split_ifs
  · exact feedAll_of_complete h cs
  · exact h

theorem feedAll_cons_error (h : (p.parse c).1.state = .error) (cs : List (List UInt8)) :
    (feedAll p (c :: cs)).state = .error := by
  simp only [feedAll]
  split_ifs
  · exact feedAll_of_error h cs
  · exact h

theorem feedAll_cons (h : (p.scan c).run.rest = []) (cs : List (List UInt8)) :
    feedAll p (c :: cs) = feedAll (p.parse c).1 cs := by
  have hcons := run_consumed (p.scan c)
  rw [h, scan_consumed, scan_rest, List.length_nil] at hcons
  have hall : (p.parse c).2.consumedBytes = c.length := by
    rw [parse_consumed]
    omega
  simp only [feedAll, if_pos hall]

theorem feedAll_body (hst : p.state = .expectBody) (hmissing : p.bodyReceived < p.currentReq.contentLength)
    (chunks : List (List UInt8)) : (feedAll p chunks).state = .complete ↔
      p.currentReq.contentLength ≤ p.bodyReceived + chunks.flatten.length := by
  induction chunks generalizing p with
  | nil =>
    rw [feedAll, hst, List.flatten_nil, List.length_nil]
    exact iff_of_false (by decide) (by omega)
  | cons c cs ih =>
    have hreq : (p.scan c).parser.currentReq = p.currentReq := congrArg Head.request (scan_head p c)
    obtain ⟨hparser,hrest,-,-⟩ := run_body (s := p.scan c) (by rw [scan_state, hst]) (by rw [scan_bodyReceived, hreq]; exact hmissing)
    rw [hreq, scan_bodyReceived, scan_rest] at hparser hrest
    rw [← parse_fst] at hparser
    rw [List.flatten_cons, List.length_append]
    by_cases hfits : p.currentReq.contentLength - p.bodyReceived ≤ c.length
    · rw [if_pos hfits] at hparser
      refine iff_of_true (feedAll_cons_complete ?_ cs) (by omega)
      rw [hparser]
    · rw [if_neg hfits] at hparser
      rw [feedAll_cons (by rw [hrest]; exact List.drop_eq_nil_of_le (by omega)), ih, hparser]
      · dsimp only
        omega
      · rw [hparser]
      · rw [hparser]
        dsimp only
        omega

/-- While the head is open, no chunk ends in a line over the limit. -/
def CutsWithin (h : Head) (line : List UInt8) (chunks : List (List UInt8)) : Prop :=
  ∀ pre post, chunks = pre ++ post → (h.reads (terminated line (pre.flatMap marks))).state.readsLine = true →
    (held line (pre.flatMap marks)).length ≤ maxHttpHeaderSize

theorem cutsWithin_cons {h : Head} {line : List UInt8} (hline : line.length ≤ maxHttpHeaderSize) :
    CutsWithin h line (c :: cs) ↔ CutsWithin (h.reads (terminated line (marks c))) (held line (marks c)) cs := by
  constructor
  · rintro hwithin pre post rfl hopen
    have hcut := hwithin (c :: pre) post rfl
    rw [List.flatMap_cons, terminated_append_marks, held_append, Head.reads_append] at hcut
    exact hcut hopen
  · intro hwithin pre post hchunks hopen
    cases pre with
    | nil => exact hline
    | cons c' pre =>
      obtain ⟨rfl,rfl⟩ := List.cons.inj hchunks
      rw [List.flatMap_cons, terminated_append_marks, Head.reads_append] at hopen
      rw [List.flatMap_cons, held_append]
      exact hwithin pre post rfl hopen

theorem cutsWithin_closed {h : Head} {line : List UInt8} (hclosed : h.state.readsLine = false)
    (chunks : List (List UInt8)) : CutsWithin h line chunks := by
  intro pre post _ hopen
  rw [Head.reads_closed hclosed, hclosed] at hopen
  cases hopen

/-- A chunk that leaves the head open, in a line that is not over the limit. -/
theorem parse_open (hopen : (p.head.reads (terminated p.tempBuffer (marks c))).state.readsLine = true)
    (hheld : (held p.tempBuffer (marks c)).length ≤ maxHttpHeaderSize) :
    (p.scan c).run.rest = [] ∧ (p.parse c).1.head = p.head.reads (terminated p.tempBuffer (marks c)) ∧
      (p.parse c).1.tempBuffer = held p.tempBuffer (marks c) ∧ (p.parse c).1.bodyReceived = p.bodyReceived := by
  rw [parse_fst]
  by_cases hnil : c = []
  · subst hnil
    rw [run_nil rfl]
    exact ⟨rfl,scan_head p [],scan_tempBuffer p [],scan_bodyReceived p []⟩
  · rw [← scan_lines, ← scan_head p c] at hopen
    obtain ⟨hparser,hrest,-⟩ := run_open hopen hnil
    rw [scan_lines, scan_head, scan_tempBuffer, scan_rest, holding, if_neg (not_lt.mpr hheld)] at hparser
    rw [hparser]
    exact ⟨hrest,rfl,rfl,scan_bodyReceived p c⟩

theorem tempBuffer_le {s : Scan} {pre post : List (List UInt8)} {line : List UInt8}
    (hlines : s.lines = pre ++ line :: post) : s.parser.tempBuffer.length ≤ linesLength (pre ++ [line]) := by
  cases pre with
  | nil =>
    obtain ⟨n,-,-,-,hlength⟩ := exists_lineAt hlines
    simp only [List.nil_append, linesLength_cons]
    omega
  | cons l pre =>
    obtain ⟨n,-,-,-,hlength⟩ := exists_lineAt hlines
    simp only [List.cons_append, linesLength_cons]
    omega

theorem feedAll_blank {pre post : List (List UInt8)} (hlines : terminated p.tempBuffer (marks c) = pre ++ [] :: post)
    (hhead : (p.head.reads pre).state = .expectHeader) (hfresh : p.bodyReceived = 0) (cs : List (List UInt8)) :
    (feedAll p (c :: cs)).state = .complete ↔ linesLength (pre ++ [[]]) +
      (p.head.reads pre).request.checkHeaders.contentLength ≤ p.tempBuffer.length + (c.length + cs.flatten.length) := by
  have hsum := linesLength_terminated p.tempBuffer c
  rw [← scan_lines] at hlines
  have hfront := tempBuffer_le hlines
  obtain ⟨hparser,hrest,-,-⟩ := run_blank hlines (by rw [scan_head]; exact hhead) (by rw [scan_bodyReceived, hfresh])
  rw [scan_head, scan_tempBuffer, scan_rest, ← parse_fst] at hparser
  rw [scan_head, scan_tempBuffer, scan_rest] at hrest
  rw [scan_tempBuffer] at hfront
  rw [← scan_lines, hlines] at hsum
  have hinside : linesLength (pre ++ [[]]) ≤ p.tempBuffer.length + c.length := by
    simp only [linesLength_append, linesLength_cons, linesLength_nil] at hsum ⊢
    omega
  have hbehind : (c.drop (linesLength (pre ++ [[]]) - p.tempBuffer.length)).length =
      p.tempBuffer.length + c.length - linesLength (pre ++ [[]]) := by
    rw [List.length_drop]
    omega
  rw [hbehind] at hparser
  by_cases hfits : (p.head.reads pre).request.checkHeaders.contentLength ≤
      p.tempBuffer.length + c.length - linesLength (pre ++ [[]])
  · refine iff_of_true (feedAll_cons_complete ?_ cs) (by omega)
    rw [hparser, if_pos hfits]
  · rw [if_neg hfits, Nat.min_eq_right (by omega)] at hparser
    rw [feedAll_cons (by rw [hrest]; exact List.drop_eq_nil_of_le (by omega)), feedAll_body, hparser]
    · dsimp only
      omega
    · rw [hparser]
    · rw [hparser]
      dsimp only
      omega

/-- The chunks of a request complete it when all of it is there, and no chunk ends in a line over the limit. -/
theorem feedAll_line (hst : p.state.readsLine = true) (hfresh : p.bodyReceived = 0)
    (hline : p.tempBuffer.length ≤ maxHttpHeaderSize) (chunks : List (List UInt8)) :
    (feedAll p chunks).state = .complete ↔
      p.head.Completes (terminated p.tempBuffer (chunks.flatMap marks)) (p.tempBuffer.length + chunks.flatten.length) ∧
        CutsWithin p.head p.tempBuffer chunks := by
  induction chunks generalizing p with
  | nil =>
    refine iff_of_false ?_ ?_
    · intro hdone
      rw [show p.state = .complete from hdone] at hst
      cases hst
    · rintro ⟨⟨e,he,-⟩,-⟩
      cases he
  | cons c cs ih =>
    have hsum := linesLength_terminated p.tempBuffer c
    rw [List.flatMap_cons, terminated_append_marks, List.flatten_cons, List.length_append, cutsWithin_cons hline]
    rcases Head.reads_cases (h := p.head) hst (terminated p.tempBuffer (marks c)) with
      hopen | ⟨pre,line,post,hlines,hopen,⟨hhead,rfl⟩ | herr⟩
    · have hbytes : p.tempBuffer.length + (c.length + cs.flatten.length) =
          linesLength (terminated p.tempBuffer (marks c)) + ((held p.tempBuffer (marks c)).length + cs.flatten.length) := by
        omega
      rw [hbytes, Head.completes_append hopen]
      by_cases hheld : (held p.tempBuffer (marks c)).length ≤ maxHttpHeaderSize
      · obtain ⟨hrest,hnext,htemp,hreceived⟩ := parse_open hopen hheld
        have hstate : (p.parse c).1.state = (p.head.reads (terminated p.tempBuffer (marks c))).state :=
          congrArg Head.state hnext
        rw [feedAll_cons hrest, ih (by rw [hstate]; exact hopen) (by rw [hreceived, hfresh]) (by rw [htemp]; exact hheld),
          hnext, htemp]
      · -- the partial line is refused
        have hlong : ¬ CutsWithin (p.head.reads (terminated p.tempBuffer (marks c))) (held p.tempBuffer (marks c)) cs :=
          fun hwithin => hheld (hwithin [] cs rfl hopen)
        have herr : (p.parse c).1.state = .error := by
          refine (oversized_parse ⟨?_,hopen,not_le.mp hheld⟩).1
          rintro rfl
          exact hheld hline
        refine iff_of_false ?_ (fun h => hlong h.2)
        rw [feedAll_cons_error herr]
        decide
    · have hclosed : (p.head.reads (terminated p.tempBuffer (marks c))).state.readsLine = false := by
        rw [hlines, Head.reads_append, Head.reads_cons]
        rcases Head.read_blank_state hhead with hread | hread
        · rw [Head.reads_closed (by rw [hread]; rfl), hread]
          rfl
        · rw [Head.reads_closed (by rw [hread]; rfl), hread]
          rfl
      rw [feedAll_blank hlines hhead hfresh, and_iff_left (cutsWithin_closed hclosed cs), Head.Completes, hlines,
        List.append_assoc, Head.ending_append hopen, List.cons_append, Head.ending_blank hhead]
      simp
    · have hrefused := run_refused (s := p.scan c) (by rw [scan_lines]; exact hlines) (by rw [scan_head]; exact hopen)
        (by rw [scan_head]; exact herr)
      refine iff_of_false ?_ ?_
      · rw [feedAll_cons_error hrefused.1]
        decide
      · rintro ⟨⟨e,he,-⟩,-⟩
        rw [hlines, List.append_assoc, Head.ending_append hopen, List.cons_append, Head.ending_refused herr] at he
        cases he

/-- A line of the head, the request line or a header, is over the limit. -/
def HasLongLine (lines : List (List UInt8)) : Prop :=
  ∃ line ∈ lines.take 1 ++ headLines lines, maxHttpHeaderSize < line.length

/-- One of the chunks ends before the head does, in a line of which it leaves more than the limit. -/
def CutsLongLine (chunks : List (List UInt8)) : Prop :=
  ∃ pre post, chunks = pre ++ post ∧ ¬ HeadEnds (deliveredLines pre) ∧
    maxHttpHeaderSize < (held [] (pre.flatMap marks)).length

theorem open_of_accepted {lines pre post : List (List UInt8)} (h : LinesAccepted lines) (hpre : lines = pre ++ post)
    (hno : ¬ HeadEnds pre) : (({} : Head).reads pre).state.readsLine = true := by
  rcases Head.reads_cases (h := {}) rfl pre with hopen | ⟨front,line,back,rfl,hopen,⟨hhead,rfl⟩ | herr⟩
  · exact hopen
  · exact absurd (framing_ended back hhead).2.1 hno
  · rw [List.append_assoc, List.cons_append] at hpre
    rw [hpre] at h
    exact absurd h (framing_refused hopen herr)

theorem delivered_append (pre post : List (List UInt8)) : deliveredLines (pre ++ post) =
    deliveredLines pre ++ terminated (held [] (pre.flatMap marks)) (post.flatMap marks) := by
  rw [deliveredLines, List.flatMap_append, terminated_append_marks]
  rfl

theorem cutsWithin_iff {chunks : List (List UInt8)} (h : LinesAccepted (deliveredLines chunks)) :
    CutsWithin {} [] chunks ↔ ¬ CutsLongLine chunks := by
  constructor
  · rintro hwithin ⟨pre,post,hchunks,hno,hlong⟩
    have hopen := open_of_accepted h (by rw [hchunks]; exact delivered_append pre post) hno
    exact absurd (hwithin pre post hchunks hopen) (not_le.mpr hlong)
  · intro hno pre post hchunks hopen
    by_contra hlong
    exact hno ⟨pre,post,hchunks,(framing_open hopen).2,not_le.mp hlong⟩

theorem feedAll_complete_iff (p : HttpParser) (chunks : List (List UInt8)) :
    (feedAll p.reset chunks).state = .complete ↔
      WholeRequest (deliveredLines chunks) chunks.flatten.length ∧ ¬ CutsLongLine chunks := by
  have hline := feedAll_line (p := p.reset) rfl rfl (Nat.zero_le _) chunks
  have hhead : p.reset.head = {} := rfl
  have htemp : p.reset.tempBuffer = [] := rfl
  rw [hhead, htemp, List.length_nil, Nat.zero_add, Head.completes_fresh] at hline
  rw [hline]
  refine and_congr_right ?_
  intro hwhole
  exact cutsWithin_iff hwhole.1

/-- A request that is completed has no line over the limit. -/
def LimitKept (p : HttpParser) (chunks : List (List UInt8)) : Prop :=
  (feedAll p.reset chunks).state = .complete → ¬ HasLongLine (deliveredLines chunks)

/-- Whether the text is completed does not depend on how it is cut. -/
def SameAcceptance (p : HttpParser) (s : List UInt8) : Prop :=
  ∀ chunks chunks' : List (List UInt8), chunks.flatten = s → chunks'.flatten = s → CutsNoCrlf chunks →
    CutsNoCrlf chunks' →
    ((feedAll p.reset chunks).state = .complete ↔ (feedAll p.reset chunks').state = .complete)

theorem le_of_terminated {line l : List UInt8} {ms : List (Option UInt8)} {ls : List (List UInt8)}
    (h : terminated line ms = l :: ls) : line.length ≤ l.length := by
  induction ms generalizing line with
  | nil => cases h
  | cons m ms ih =>
    cases m with
    | none =>
      obtain ⟨rfl,-⟩ := List.cons.inj h
      exact le_rfl
    | some b =>
      have hle := ih h
      rw [List.length_append] at hle
      omega

theorem not_cutsLongLine {chunks : List (List UInt8)} (hends : HeadEnds (deliveredLines chunks))
    (hshort : ¬ HasLongLine (deliveredLines chunks)) : ¬ CutsLongLine chunks := by
  rintro ⟨pre,post,rfl,hno,hlong⟩
  rw [delivered_append] at hends hshort
  cases hnext : terminated (held [] (pre.flatMap marks)) (post.flatMap marks) with
  | nil =>
    rw [hnext, List.append_nil] at hends
    exact hno hends
  | cons l ls =>
    have hle := le_of_terminated hnext
    have hne : l ≠ [] := by
      rintro rfl
      rw [List.length_nil] at hle
      omega
    rw [hnext] at hshort
    refine hshort ⟨l,?_,by omega⟩
    cases hfirst : deliveredLines pre with
    | nil => simp
    | cons x xs =>
      rw [hfirst] at hno
      have hkeep : ∀ y ∈ xs, decide (y ≠ []) = true := by
        intro y hy
        have hy' : y ≠ [] := by
          rintro rfl
          exact hno hy
        exact decide_eq_true hy'
      rw [headLines, List.cons_append, List.drop_one, List.tail_cons, List.takeWhile_append_of_pos hkeep]
      simp [hne]

theorem cutsNoCrlf_pair {u v : List UInt8} (h : ¬ SplitsCrlf u v) : CutsNoCrlf [u,v] := by
  intro pre post hchunks hsplit
  rcases pre with _ | ⟨a,_ | ⟨b,pre⟩⟩
  · cases hsplit.1
  · obtain ⟨rfl,rfl⟩ := List.cons.inj hchunks
    simp only [List.flatten_cons, List.flatten_nil, List.append_nil] at hsplit
    exact h hsplit
  · have hpost : post = [] := by
      have hlength := congrArg List.length hchunks
      simp only [List.cons_append, List.length_cons, List.length_append, List.length_nil] at hlength
      exact List.length_eq_zero_iff.mp (by omega)
    rw [hpost] at hsplit
    cases hsplit.2

theorem cutsNoCrlf_single (s : List UInt8) : CutsNoCrlf [s] := by
  intro pre post hchunks hsplit
  rcases pre with _ | ⟨a,pre⟩
  · cases hsplit.1
  · obtain ⟨rfl,hrest⟩ := List.cons.inj hchunks
    rw [(List.append_eq_nil_iff.mp hrest.symm).2] at hsplit
    cases hsplit.2

/-- A line without a line end is not cut within one. -/
theorem not_splitsCrlf_cut {line : List UInt8} (h : findCrlf line = none) {k : ℕ} (hk : 0 < k) (hlong : k ≤ line.length)
    (u t : List UInt8) : ¬ SplitsCrlf (u ++ line.take k) (line.drop k ++ 13 :: 10 :: t) := by
  rintro ⟨hlast,hhead⟩
  have hne : line.take k ≠ [] := List.ne_nil_of_length_pos (by rw [List.length_take]; omega)
  rw [List.getLast?_append_of_ne_nil u hne] at hlast
  obtain ⟨w,hw⟩ := List.getLast?_eq_some_iff.mp hlast
  cases hdrop : line.drop k with
  | nil =>
    rw [hdrop] at hhead
    cases hhead
  | cons b z =>
    rw [hdrop] at hhead
    cases hhead
    refine findCrlf_eq_none_iff_no_crlf.mp h ⟨w,z,?_⟩
    rw [← List.take_append_drop k line, hw, hdrop]
    simp

theorem exists_longLine {lines : List (List UInt8)} (h : HasLongLine lines) :
    ∃ front line back, lines = front ++ line :: back ∧ ¬ HeadEnds front ∧ maxHttpHeaderSize < line.length := by
  obtain ⟨line,hmem,hlong⟩ := h
  cases lines with
  | nil => cases hmem
  | cons x xs =>
    rcases List.mem_append.mp hmem with hfirst | hheader
    · rw [List.take_succ_cons, List.take_zero, List.mem_singleton] at hfirst
      subst hfirst
      exact ⟨[],line,xs,rfl,by simp [HeadEnds],hlong⟩
    · obtain ⟨u,v,huv⟩ := List.mem_iff_append.mp hheader
      have hxs : xs = u ++ line :: (v ++ xs.dropWhile (· ≠ [])) := by
        conv_lhs => rw [← List.takeWhile_append_dropWhile (p := fun l => decide (l ≠ [])) (l := xs)]
        rw [show xs.takeWhile (fun l => decide (l ≠ [])) = u ++ line :: v from huv]
        simp
      refine ⟨x :: u,line,_,congrArg (x :: ·) hxs,?_,hlong⟩
      intro hends
      have hin : [] ∈ headLines (x :: xs) := by
        rw [huv]
        exact List.mem_append_left _ hends
      simpa using List.mem_takeWhile_imp hin

theorem exists_cut {s : List UInt8} (h : HasLongLine (linesOf s)) :
    ∃ chunks : List (List UInt8), chunks.flatten = s ∧ CutsNoCrlf chunks ∧ CutsLongLine chunks := by
  obtain ⟨front,line,back,hlines,hno,hlong⟩ := exists_longLine h
  have hcrlf : ∀ l ∈ front ++ line :: back, findCrlf l = none := fun l hl => findCrlf_of_mem_linesOf (by rw [hlines]; exact hl)
  have hfront : linesOf s = (front ++ [line]) ++ back := by rw [hlines, List.append_assoc, List.singleton_append]
  obtain ⟨t,hs,-⟩ := exists_join hfront
  have hline : findCrlf line = none := hcrlf line (by simp)
  have htake : findCrlf (line.take (maxHttpHeaderSize + 1)) = none :=
    findCrlf_none_of_part (List.take_prefix _ _).isInfix hline
  refine ⟨[joinLines front ++ line.take (maxHttpHeaderSize + 1),line.drop (maxHttpHeaderSize + 1) ++ 13 :: 10 :: t],?_,
    cutsNoCrlf_pair (not_splitsCrlf_cut hline (Nat.succ_pos _) hlong _ _),[_],[_],rfl,?_,?_⟩
  · rw [hs]
    simp only [List.flatten_cons, List.flatten_nil, List.append_nil, List.append_assoc, joinLines, List.flatMap_append,
      List.flatMap_cons, List.flatMap_nil]
    rw [← List.append_assoc (line.take _), List.take_append_drop]
    rfl
  · have hcut : deliveredLines [joinLines front ++ line.take (maxHttpHeaderSize + 1)] = front := by
      have hwithout : ∀ l ∈ front, findCrlf l = none := fun l hl => hcrlf l (List.mem_append_left _ hl)
      rw [deliveredLines, List.flatMap_singleton]
      rw [show terminated [] (marks _) = linesOf _ from rfl, linesOf_join hwithout, linesOf, terminated_of_none [] htake,
        List.append_nil]
    rw [hcut]
    exact hno
  · rw [List.flatMap_singleton, held_join, held_of_none [] htake, List.nil_append, List.length_take]
    omega

theorem feedAll_whole (p : HttpParser) {s : List UInt8} (h : WholeRequest (linesOf s) s.length) :
    (feedAll p.reset [s]).state = .complete := by
  have hlines : deliveredLines [s] = linesOf s := by
    rw [deliveredLines, List.flatMap_singleton]
    rfl
  rw [feedAll_complete_iff, hlines, List.flatten_singleton]
  refine ⟨h,?_⟩
  rintro ⟨pre,post,hchunks,hno,hlong⟩
  rcases pre with _ | ⟨a,pre⟩
  · exact absurd hlong (by decide)
  · obtain ⟨rfl,hrest⟩ := List.cons.inj hchunks
    rw [(List.append_eq_nil_iff.mp hrest.symm).1, hlines] at hno
    exact hno h.2.1

theorem deliveredLines_of_cuts {chunks : List (List UInt8)} (h : CutsNoCrlf chunks) :
    deliveredLines chunks = linesOf chunks.flatten := by
  rw [deliveredLines, h.flatMap_marks]
  rfl

theorem limitKept_iff (p : HttpParser) (chunks : List (List UInt8)) : LimitKept p chunks ↔
    (WholeRequest (deliveredLines chunks) chunks.flatten.length → HasLongLine (deliveredLines chunks) →
      CutsLongLine chunks) := by
  rw [LimitKept, feedAll_complete_iff]
  constructor
  · intro hlimit hwhole hlong
    by_contra hno
    exact hlimit ⟨hwhole,hno⟩ hlong
  · rintro h ⟨hwhole,hno⟩ hlong
    exact hno (h hwhole hlong)

theorem limitKept_all_iff (p : HttpParser) (s : List UInt8) :
    (∀ chunks : List (List UInt8), chunks.flatten = s → CutsNoCrlf chunks → LimitKept p chunks) ↔
      ¬ (WholeRequest (linesOf s) s.length ∧ HasLongLine (linesOf s)) := by
  constructor
  · rintro h ⟨hwhole,hlong⟩
    have hkept := h [s] (List.flatten_singleton) (cutsNoCrlf_single s) (feedAll_whole p hwhole)
    rw [deliveredLines_of_cuts (cutsNoCrlf_single s), List.flatten_singleton] at hkept
    exact hkept hlong
  · rintro h chunks rfl hcuts hdone hlong
    rw [feedAll_complete_iff, deliveredLines_of_cuts hcuts] at hdone
    rw [deliveredLines_of_cuts hcuts] at hlong
    exact h ⟨hdone.1,hlong⟩

theorem sameAcceptance_iff (p : HttpParser) (s : List UInt8) :
    SameAcceptance p s ↔ ¬ (WholeRequest (linesOf s) s.length ∧ HasLongLine (linesOf s)) := by
  constructor
  · rintro h ⟨hwhole,hlong⟩
    obtain ⟨chunks,hflat,hcuts,hcut⟩ := exists_cut hlong
    have hdone := (h [s] chunks List.flatten_singleton hflat (cutsNoCrlf_single s) hcuts).mp (feedAll_whole p hwhole)
    exact ((feedAll_complete_iff p chunks).mp hdone).2 hcut
  · intro h
    have hcomplete : ∀ chunks : List (List UInt8), chunks.flatten = s → CutsNoCrlf chunks →
        ((feedAll p.reset chunks).state = .complete ↔ WholeRequest (linesOf s) s.length) := by
      rintro chunks rfl hcuts
      rw [feedAll_complete_iff, deliveredLines_of_cuts hcuts]
      refine and_iff_left_of_imp ?_
      intro hwhole
      have hshort : ¬ HasLongLine (linesOf chunks.flatten) := fun hlong => h ⟨hwhole,hlong⟩
      rw [← deliveredLines_of_cuts hcuts] at hwhole hshort
      exact not_cutsLongLine hwhole.2.1 hshort
    intro chunks chunks' hflat hflat' hcuts hcuts'
    rw [hcomplete chunks hflat hcuts, hcomplete chunks' hflat' hcuts']

/-- The limit is kept by the chunks that cut a long line behind the limit, if there is one in the head of a whole
request; and a text keeps it however it is cut, and is accepted or not however it is cut, if and only if it does
not begin with such a request. -/
theorem line_limit_iff (p : HttpParser) :
    (∀ chunks, LimitKept p chunks ↔ (WholeRequest (deliveredLines chunks) chunks.flatten.length →
      HasLongLine (deliveredLines chunks) → CutsLongLine chunks)) ∧
    ∀ s, ((∀ chunks : List (List UInt8), chunks.flatten = s → CutsNoCrlf chunks → LimitKept p chunks) ↔
        ¬ (WholeRequest (linesOf s) s.length ∧ HasLongLine (linesOf s))) ∧
      (SameAcceptance p s ↔ ¬ (WholeRequest (linesOf s) s.length ∧ HasLongLine (linesOf s))) :=
  ⟨limitKept_iff p,fun s => ⟨limitKept_all_iff p s,sameAcceptance_iff p s⟩⟩

/-- A header over the limit. -/
def longHeader : List UInt8 := 65 :: 58 :: List.replicate maxHttpHeaderSize 66

def longRequest : List UInt8 := joinLines [bytes "GET / HTTP/1.1",longHeader,[]]

theorem fieldName_longHeader : fieldName longHeader = [65] := rfl

theorem validHeader_longHeader : ValidHeader longHeader := by
  refine ⟨by simp [longHeader],?_,?_⟩
  · rw [fieldName_longHeader]
    decide
  · rw [fieldName_longHeader]
    intro hname
    exact absurd hname (by decide)

section Header
variable {header : List UInt8}

theorem linesOf_header (hheader : findCrlf header = none) :
    linesOf (joinLines [bytes "GET / HTTP/1.1",header,[]]) = [bytes "GET / HTTP/1.1",header,[]] := by
  have hlines : ∀ line ∈ [bytes "GET / HTTP/1.1",header,[]], findCrlf line = none := by
    intro line hline
    simp only [List.mem_cons, List.not_mem_nil, or_false] at hline
    rcases hline with rfl | rfl | rfl
    · decide
    · exact hheader
    · rfl
  have hjoin := linesOf_join hlines []
  rwa [List.append_nil, show linesOf [] = [] from rfl, List.append_nil] at hjoin

theorem wholeRequest_header (hheader : ValidHeader header) (hother : ¬ IsContentLength header) :
    WholeRequest [bytes "GET / HTTP/1.1",header,[]] (joinLines [bytes "GET / HTTP/1.1",header,[]]).length := by
  have hheaders : headLines [bytes "GET / HTTP/1.1",header,[]] = [header] := by simp [headLines, hheader.ne_nil]
  rw [length_joinLines]
  refine ⟨⟨?_,?_⟩,by simp [HeadEnds],?_⟩
  · intro line hline
    cases hline
    decide
  · rw [hheaders]
    exact List.forall_mem_singleton.mpr hheader
  · rw [headLength, bodyLength, hheaders]
    simp [lastLength, hother]

theorem hasLongLine_header (hne : header ≠ []) (hlong : maxHttpHeaderSize < header.length) :
    HasLongLine [bytes "GET / HTTP/1.1",header,[]] := ⟨header,by simp [headLines, hne],hlong⟩

end Header

theorem linesOf_longRequest : linesOf longRequest = [bytes "GET / HTTP/1.1",longHeader,[]] := by
  apply linesOf_header
  apply findCrlf_of_not_mem
  simp [longHeader, List.mem_replicate]

theorem wholeRequest_longRequest : WholeRequest (linesOf longRequest) longRequest.length := by
  have hother : ¬ IsContentLength longHeader := by
    rw [IsContentLength, fieldName_longHeader]
    decide
  rw [linesOf_longRequest]
  exact wholeRequest_header validHeader_longHeader hother

theorem length_longHeader : maxHttpHeaderSize < longHeader.length := by
  rw [longHeader, List.length_cons, List.length_cons, List.length_replicate]
  omega

/-- In one piece the long header is not seen. -/
theorem line_limit_missed : ¬ LimitKept {} [longRequest] := by
  intro h
  have hlong := h (feedAll_whole {} wholeRequest_longRequest)
  rw [deliveredLines_of_cuts (cutsNoCrlf_single longRequest), List.flatten_singleton, linesOf_longRequest] at hlong
  exact hlong (hasLongLine_header validHeader_longHeader.ne_nil length_longHeader)

end ModernTcp.HttpParser
