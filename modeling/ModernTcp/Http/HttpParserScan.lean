import ModernTcp.Http.HttpTypes

/-! # How the scanning loop extends over more input

Every byte is consumed once, and what the loop has done on the data it saw is not
changed by data behind it. The exception is a partial line: the loop looks for its
terminator in the new data only, and it measures the line only while it is partial.
-/
namespace ModernTcp

namespace SimpleHttpRequest

theorem parseRequestLine_body (r : SimpleHttpRequest) (line : List UInt8) :
    (r.parseRequestLine line).2.body = r.body := by
  unfold parseRequestLine
  dsimp only
  split
  · rfl
  · split
    · rfl
    · split
      · rfl
      · unfold checkVersion
        split <;> rfl

theorem parseHeaderLine_body (r : SimpleHttpRequest) (line : List UInt8) :
    (r.parseHeaderLine line).2.body = r.body := by
  unfold parseHeaderLine
  split
  · rfl
  · dsimp only
    split
    · rfl
    · split
      · unfold setContentLength
        split
        · rfl
        · split <;> rfl
      · split
        · rfl
        · split
          · rfl
          · split
            · rfl
            · split <;> rfl

theorem checkHeaders_body (r : SimpleHttpRequest) : r.checkHeaders.body = r.body := by
  unfold checkHeaders
  split <;> rfl

end SimpleHttpRequest

namespace HttpParser.Scan
open SimpleHttpRequest

@[simp] theorem keepPartial_rest (s : Scan) : s.keepPartial.rest = [] := by
  unfold keepPartial
  split <;> rfl

@[simp] theorem keepPartial_consumed (s : Scan) :
    s.keepPartial.consumed = s.consumed + s.rest.length := by
  unfold keepPartial
  split <;> rfl

/-- Reading a line touches the parser and the flags of the result only. -/
theorem readLine_rest_consumed (s : Scan) (line : List UInt8) :
    (s.readLine line).rest = s.rest ∧ (s.readLine line).consumed = s.consumed := by
  unfold readLine
  split
  · split <;> exact ⟨rfl,rfl⟩
  · split
    · dsimp only
      split <;> exact ⟨rfl,rfl⟩
    · split <;> exact ⟨rfl,rfl⟩

theorem takeLine_rest (s : Scan) (n : ℕ) : (s.takeLine n).rest = s.rest.drop (n + 2) :=
  (readLine_rest_consumed _ _).1

theorem takeLine_consumed (s : Scan) (n : ℕ) : (s.takeLine n).consumed = s.consumed + (n + 2) :=
  (readLine_rest_consumed _ _).2

theorem checkBody_rest_consumed (s : Scan) : s.checkBody.rest = s.rest ∧ s.checkBody.consumed = s.consumed := by
  unfold checkBody
  split <;> exact ⟨rfl,rfl⟩

theorem takeBody_rest (s : Scan) : s.takeBody.rest = s.rest.drop s.bodyTake :=
  (checkBody_rest_consumed _).1

theorem takeBody_consumed (s : Scan) : s.takeBody.consumed = s.consumed + s.bodyTake :=
  (checkBody_rest_consumed _).2

theorem bodyTake_le (s : Scan) : s.bodyTake ≤ s.rest.length := Nat.min_le_right _ _

theorem searchLine_of_none {s : Scan} (h : findCrlf s.rest = none) : s.searchLine = s.keepPartial := by
  rw [searchLine, h]

theorem searchLine_of_some {s : Scan} {n : ℕ} (h : findCrlf s.rest = some n) :
    s.searchLine = s.takeLine n := by
  rw [searchLine, h]

/-- The rounds of the loop, by the state that runs them. -/
theorem round_cases {s t : Scan} (h : s.round = some t) : s.rest ≠ [] ∧
    ((s.parser.state = .expectRequestLine ∨ s.parser.state = .expectHeader) ∧
      ((findCrlf s.rest = none ∧ t = s.keepPartial) ∨ ∃ n, findCrlf s.rest = some n ∧ t = s.takeLine n) ∨
    s.parser.state = .expectBody ∧ t = s.takeBody) := by
  unfold round at h
  split at h
  · cases h
  · rename_i hne
    refine ⟨hne,?_⟩
    cases hst : s.parser.state with
    | complete => simp [hst] at h
    | error => simp [hst] at h
    | expectBody =>
      simp only [hst, Option.some.injEq] at h
      exact Or.inr ⟨rfl,h.symm⟩
    | expectRequestLine | expectHeader =>
      left
      refine ⟨by simp,?_⟩
      simp only [hst, Option.some.injEq] at h
      subst h
      cases hf : findCrlf s.rest with
      | none => exact Or.inl ⟨rfl,searchLine_of_none hf⟩
      | some n => exact Or.inr ⟨n,rfl,searchLine_of_some hf⟩

theorem round_line {s : Scan} (hne : s.rest ≠ [])
    (hst : s.parser.state = .expectRequestLine ∨ s.parser.state = .expectHeader) :
    s.round = some s.searchLine := by
  unfold round
  rw [if_neg hne]
  rcases hst with hst | hst <;> simp only [hst]

theorem round_body {s : Scan} (hne : s.rest ≠ []) (hst : s.parser.state = .expectBody) :
    s.round = some s.takeBody := by
  simp [round, hne, hst]

theorem round_eq_none_iff {s : Scan} :
    s.round = none ↔ s.rest = [] ∨ s.parser.state.active = false := by
  unfold round
  by_cases hne : s.rest = []
  · simp [hne]
  · cases hst : s.parser.state <;> simp [hne, State.active]

theorem takeBody_active {s : Scan} (hzero : s.bodyTake = 0) (hne : s.rest ≠ []) :
    s.takeBody.parser.state.active = false := by
  have hpos : 0 < s.rest.length := List.length_pos_of_ne_nil hne
  have hdone : s.parser.currentReq.contentLength ≤ s.parser.bodyReceived := by
    unfold bodyTake at hzero
    omega
  have hle : (s.appendBody s.bodyTake).parser.currentReq.contentLength ≤
      (s.appendBody s.bodyTake).parser.bodyReceived := hdone.trans (Nat.le_add_right _ _)
  rw [takeBody, checkBody, if_pos hle]
  rfl

/-- A round consumes a byte, or a body of which nothing is missing is finished. -/
theorem round_decreases : Loop.Decreases round measure := by
  intro s t h
  obtain ⟨hne,⟨hst,⟨_,rfl⟩ | ⟨n,hn,rfl⟩⟩ | ⟨hst,rfl⟩⟩ := round_cases h
  · have hpos : 0 < s.rest.length := List.length_pos_of_ne_nil hne
    have ha := Bool.toNat_le s.keepPartial.parser.state.active
    simp only [measure, keepPartial_rest, List.length_nil]
    omega
  · have hb := findCrlf_bound hn
    have ha := Bool.toNat_le (s.takeLine n).parser.state.active
    simp only [measure, takeLine_rest, List.length_drop]
    omega
  · have ha := Bool.toNat_le s.takeBody.parser.state.active
    have hle := bodyTake_le s
    simp only [measure, takeBody_rest, List.length_drop, hst]
    by_cases hz : s.bodyTake = 0
    · rw [takeBody_active hz hne, hz]
      simp [State.active]
    · omega

theorem run_of_none {s : Scan} (h : s.round = none) : s.run = s := Loop.run_of_none h
theorem run_of_some {s t : Scan} (h : s.round = some t) : s.run = t.run :=
  Loop.run_of_some round_decreases h

theorem run_nil {s : Scan} (h : s.rest = []) : s.run = s := run_of_none (round_eq_none_iff.mpr (Or.inl h))

/-- The loop stops at the end of the data or in a final state. -/
theorem run_stops (s : Scan) : s.run.rest = [] ∨ s.run.parser.state.active = false :=
  round_eq_none_iff.mp (Loop.body_run round_decreases s)

/-- The loop neither skips nor repeats a byte. -/
theorem run_consumed (s : Scan) : s.run.consumed + s.run.rest.length = s.consumed + s.rest.length := by
  refine Loop.run_invariant round_decreases
    (I := fun t => t.consumed + t.rest.length = s.consumed + s.rest.length) ?_ rfl
  intro t u ht h
  obtain ⟨hne,⟨hst,⟨_,rfl⟩ | ⟨n,hn,rfl⟩⟩ | ⟨hst,rfl⟩⟩ := round_cases h
  · simp only [keepPartial_rest, keepPartial_consumed, List.length_nil]
    omega
  · have hb := findCrlf_bound hn
    rw [takeLine_rest, takeLine_consumed, List.length_drop]
    omega
  · have hle := bodyTake_le t
    rw [takeBody_rest, takeBody_consumed, List.length_drop]
    omega

/-- The same scan with more data behind what it has. -/
def extend (s : Scan) (d : List UInt8) : Scan := { s with rest := s.rest ++ d }

@[simp] theorem parser_extend (s : Scan) (d : List UInt8) : (s.extend d).parser = s.parser := rfl
@[simp] theorem extend_rest (s : Scan) (d : List UInt8) : (s.extend d).rest = s.rest ++ d := rfl
/-- The scan of a prefix of the data. -/
def withRest (s : Scan) (rest : List UInt8) : Scan := { s with rest }

theorem readLine_withRest (s : Scan) (line rest : List UInt8) :
    (s.withRest rest).readLine line = (s.readLine line).withRest rest := by
  unfold readLine withRest
  dsimp only
  split
  · split <;> rfl
  · split
    · split <;> rfl
    · split <;> rfl

theorem readLine_extend (s : Scan) (line d : List UInt8) :
    (s.extend d).readLine line = (s.readLine line).extend d := by
  refine (readLine_withRest s line (s.rest ++ d)).trans ?_
  rw [← (readLine_rest_consumed s line).1]
  rfl

theorem takeLine_extend {s : Scan} {n : ℕ} (hn : n + 2 ≤ s.rest.length) (d : List UInt8) :
    (s.extend d).takeLine n = (s.takeLine n).extend d := by
  have hline : (s.extend d).lineAt n = s.lineAt n := by
    simp only [lineAt, extend, List.take_append_of_le_length (show n ≤ s.rest.length by omega)]
  have hafter : (s.extend d).afterLine n = (s.afterLine n).extend d := by
    simp only [afterLine, extend, List.drop_append_of_le_length hn]
  rw [takeLine, hline, hafter, readLine_extend, takeLine]

/-- A partial line that was kept, and then finished, is the line found in one piece. -/
theorem absorb_takeLine (s : Scan) (d : List UInt8) (n : ℕ) :
    (s.extend d).takeLine (n + s.rest.length) = (s.absorb.extend d).takeLine n := by
  have hline : (s.extend d).lineAt (n + s.rest.length) = (s.absorb.extend d).lineAt n := by
    simp only [lineAt, extend, absorb, List.nil_append, List.append_assoc]
    rw [List.take_append, List.take_of_length_le (by omega), Nat.add_sub_cancel]
  have hdrop : (s.rest ++ d).drop (n + s.rest.length + 2) = d.drop (n + 2) := by
    rw [List.drop_append, List.drop_eq_nil_of_le (by omega), List.nil_append]
    congr 1
    omega
  have hafter : (s.extend d).afterLine (n + s.rest.length) = (s.absorb.extend d).afterLine n := by
    simp only [afterLine, extend, absorb, List.nil_append, hdrop]
    congr 1
    omega
  rw [takeLine, hline, hafter, takeLine]

theorem absorb_absorb (s : Scan) (d : List UInt8) : (s.extend d).absorb = (s.absorb.extend d).absorb := by
  simp only [extend, absorb, List.nil_append, List.append_assoc, List.length_append, Nat.add_assoc]

theorem absorb_keepPartial (s : Scan) (d : List UInt8) :
    (s.extend d).keepPartial = (s.absorb.extend d).keepPartial := by
  unfold keepPartial
  rw [absorb_absorb]
  rfl

theorem checkBody_extend (s : Scan) (d : List UInt8) : (s.extend d).checkBody = s.checkBody.extend d := by
  unfold checkBody
  rw [parser_extend]
  split <;> rfl

theorem takeBody_extend {s : Scan}
    (hn : s.parser.currentReq.contentLength - s.parser.bodyReceived ≤ s.rest.length) (d : List UInt8) :
    (s.extend d).takeBody = s.takeBody.extend d := by
  have hle := bodyTake_le s
  have htake : (s.extend d).bodyTake = s.bodyTake := by
    simp only [bodyTake, extend, List.length_append]
    omega
  have happ : (s.extend d).appendBody s.bodyTake = (s.appendBody s.bodyTake).extend d := by
    simp only [appendBody, extend, List.take_append_of_le_length hle, List.drop_append_of_le_length hle]
  rw [takeBody, htake, happ, takeBody, checkBody_extend]

/-- A body that ends behind the data: all of it is taken, and the rest follows. -/
theorem takeBody_extend_short {s : Scan}
    (hn : s.rest.length < s.parser.currentReq.contentLength - s.parser.bodyReceived) (d : List UInt8) :
    s.takeBody = s.appendBody s.rest.length ∧
      (s.extend d).takeBody = ((s.appendBody s.rest.length).extend d).takeBody := by
  have htake : s.bodyTake = s.rest.length := by
    unfold bodyTake
    omega
  constructor
  · rw [takeBody, htake, checkBody, if_neg]
    simp only [appendBody]
    omega
  · have hsum : (s.extend d).bodyTake = s.rest.length + ((s.appendBody s.rest.length).extend d).bodyTake := by
      simp only [bodyTake, extend, appendBody, List.drop_length, List.nil_append, List.length_append]
      omega
    have happ : ∀ k, (s.extend d).appendBody (s.rest.length + k) =
        ((s.appendBody s.rest.length).extend d).appendBody k := by
      intro k
      simp only [appendBody, extend, List.take_append, List.drop_append, List.take_length,
        List.drop_length, List.nil_append, Nat.add_sub_cancel_left, List.append_assoc, Nat.add_assoc,
        List.take_of_length_le (Nat.le_add_right _ _), List.drop_eq_nil_of_le (Nat.le_add_right _ _)]
    rw [takeBody, hsum, happ, takeBody]

/-- More data may follow a consumed chunk: the kept line is within the limit, and the
cut is not between CR and LF. -/
def GoodCut (p : HttpParser) (d : List UInt8) : Prop :=
  p.tempBuffer.length ≤ maxHttpHeaderSize ∧ ¬ SplitsCrlf p.tempBuffer d

theorem splitsCrlf_append {s t d : List UInt8} (ht : t ≠ []) (h : SplitsCrlf t d) :
    SplitsCrlf (s ++ t) d := by
  obtain ⟨hl,hh⟩ := h
  refine ⟨?_,hh⟩
  rw [List.getLast?_append_of_ne_nil s ht, hl]

/-- Scanning `d` behind the rest is scanning `d` after the rest was scanned. -/
theorem run_extend {s : Scan} {d : List UInt8} (hd : d ≠ [])
    (hcut : s.run.rest = [] → GoodCut s.run.parser d) :
    (s.extend d).run = (s.run.extend d).run := by
  revert hcut
  refine Loop.run_induction round_decreases (motive := fun s =>
    (s.run.rest = [] → GoodCut s.run.parser d) → (s.extend d).run = (s.run.extend d).run) ?_ ?_ s
  · intro s hs _
    rw [run_of_none hs]
  · intro s t h ih hcut
    rw [run_of_some h] at hcut ⊢
    obtain ⟨hne,hround⟩ := round_cases h
    have hne' : (s.extend d).rest ≠ [] := by simp [hne]
    rcases hround with ⟨hst,⟨hf,rfl⟩ | ⟨n,hn,rfl⟩⟩ | ⟨hst,rfl⟩
    · -- the partial line: the terminator is searched once in two pieces
      have hrun : s.keepPartial.run = s.keepPartial := run_nil (keepPartial_rest s)
      rw [hrun] at hcut ⊢
      obtain ⟨hsize,hsplit⟩ := hcut (keepPartial_rest s)
      have hkeep : s.keepPartial = s.absorb := by
        unfold keepPartial at hsize ⊢
        split
        · rename_i hlong
          rw [if_pos hlong] at hsize
          exact absurd hlong (Nat.not_lt.mpr hsize)
        · rfl
      rw [hkeep] at hsplit ⊢
      have hsplit' : ¬ SplitsCrlf s.rest d := fun hc => hsplit (splitsCrlf_append hne hc)
      have hfind : findCrlf (s.extend d).rest = (findCrlf d).map (· + s.rest.length) :=
        findCrlf_append_of_none hf hsplit'
      have hrest : (s.absorb.extend d).rest = d := List.nil_append d
      have hne2 : (s.absorb.extend d).rest ≠ [] := by rwa [hrest]
      have hst2 : (s.absorb.extend d).parser.state = .expectRequestLine ∨
          (s.absorb.extend d).parser.state = .expectHeader := hst
      rw [run_of_some (round_line hne' hst), run_of_some (round_line hne2 hst2)]
      cases hfd : findCrlf d with
      | none =>
        rw [hfd, Option.map_none] at hfind
        rw [searchLine_of_none hfind, searchLine_of_none (by rw [hrest, hfd]), absorb_keepPartial]
      | some n =>
        rw [hfd, Option.map_some] at hfind
        rw [searchLine_of_some hfind, searchLine_of_some (by rw [hrest, hfd]), absorb_takeLine]
    · have hfind : findCrlf (s.extend d).rest = some n := findCrlf_append_of_some hn d
      rw [run_of_some (round_line hne' hst), searchLine_of_some hfind,
        takeLine_extend (findCrlf_bound hn)]
      exact ih hcut
    · by_cases hneed : s.parser.currentReq.contentLength - s.parser.bodyReceived ≤ s.rest.length
      · rw [run_of_some (round_body hne' hst), takeBody_extend hneed]
        exact ih hcut
      · obtain ⟨hbody,hext⟩ := takeBody_extend_short (Nat.lt_of_not_le hneed) d
        have hnil : (s.appendBody s.rest.length).rest = [] := List.drop_length
        have hne2 : ((s.appendBody s.rest.length).extend d).rest ≠ [] := by
          rw [extend_rest, hnil]
          exact hd
        have hst2 : ((s.appendBody s.rest.length).extend d).parser.state = .expectBody := hst
        rw [run_of_some (round_body hne' hst), hext, hbody, run_nil hnil,
          ← run_of_some (round_body hne2 hst2)]

/-- The bytes of body collected so far. -/
abbrev body (s : Scan) : List UInt8 := s.parser.currentReq.body

theorem readLine_body (s : Scan) (line : List UInt8) : (s.readLine line).body = s.body := by
  have hr := parseRequestLine_body s.parser.currentReq line
  have hh := parseHeaderLine_body s.parser.currentReq line
  have hc := checkHeaders_body s.parser.currentReq
  unfold readLine
  split
  · split <;> rename_i heq <;> rw [heq] at hr <;> exact hr
  · split
    · dsimp only
      split <;> exact hc
    · split <;> rename_i heq <;> rw [heq] at hh <;> exact hh

theorem takeLine_body (s : Scan) (n : ℕ) : (s.takeLine n).body = s.body := readLine_body _ _

theorem keepPartial_body (s : Scan) : s.keepPartial.body = s.body := by
  unfold keepPartial
  split <;> rfl

theorem takeBody_body (s : Scan) : s.takeBody.body = s.body ++ s.rest.take s.bodyTake := by
  unfold takeBody checkBody
  split <;> rfl

/-- Every byte of a body was a byte of the data. -/
theorem run_body_le (s : Scan) :
    s.run.body.length + s.run.rest.length ≤ s.body.length + s.rest.length := by
  refine Loop.run_invariant round_decreases
    (I := fun t => t.body.length + t.rest.length ≤ s.body.length + s.rest.length) ?_ le_rfl
  intro t u ht h
  obtain ⟨hne,⟨hst,⟨_,rfl⟩ | ⟨n,hn,rfl⟩⟩ | ⟨hst,rfl⟩⟩ := round_cases h
  · rw [keepPartial_body, keepPartial_rest, List.length_nil]
    omega
  · rw [takeLine_body, takeLine_rest, List.length_drop]
    omega
  · have hle := bodyTake_le t
    rw [takeBody_body, takeBody_rest, List.length_append, List.length_take, List.length_drop]
    omega

theorem takeLine_temp (s : Scan) (n : ℕ) : (s.takeLine n).parser.tempBuffer = [] := by
  unfold takeLine readLine
  split
  · split <;> rfl
  · split
    · dsimp only
      split <;> rfl
    · split <;> rfl

/-- A line is refused, leads on to the next header line, or is the blank one. -/
theorem takeLine_state (s : Scan) (n : ℕ)
    (hst : s.parser.state = .expectRequestLine ∨ s.parser.state = .expectHeader) :
    (s.takeLine n).parser.state = .error ∨ (s.takeLine n).parser.state = .expectHeader ∨
      (s.parser.state = .expectHeader ∧ s.lineAt n = []) := by
  unfold takeLine readLine
  rcases hst with hst | hst
  · rw [if_pos (show (s.afterLine n).parser.state = .expectRequestLine from hst)]
    split
    · exact Or.inl rfl
    · exact Or.inr (Or.inl rfl)
  · rw [if_neg (show (s.afterLine n).parser.state ≠ .expectRequestLine by
      rw [show (s.afterLine n).parser.state = .expectHeader from hst]; decide)]
    split
    · rename_i hline
      exact Or.inr (Or.inr ⟨hst,hline⟩)
    · split
      · exact Or.inl rfl
      · exact Or.inr (Or.inl hst)

theorem run_of_inactive {s : Scan} (h : s.parser.state.active = false) : s.run = s :=
  run_of_none (round_eq_none_iff.mpr (Or.inr h))

theorem run_withRest_line {s : Scan} {n : ℕ}
    (hst : s.parser.state = .expectRequestLine ∨ s.parser.state = .expectHeader)
    (hn : findCrlf s.rest = some n) (pre : List UInt8) :
    (s.withRest (s.rest.take (n + 2) ++ pre)).run = ((s.takeLine n).withRest pre).run := by
  have hb := findCrlf_bound hn
  have hlen : (s.rest.take (n + 2)).length = n + 2 := by
    rw [List.length_take]
    omega
  let u := s.withRest (s.rest.take (n + 2) ++ pre)
  have hfind : findCrlf u.rest = some n := findCrlf_append_of_some (findCrlf_take hn) pre
  have hne : u.rest ≠ [] := by
    intro hnil
    rw [hnil] at hfind
    cases hfind
  have hline : u.lineAt n = s.lineAt n := by
    simp only [lineAt, u, withRest]
    rw [List.take_append_of_le_length (by omega), List.take_take, Nat.min_eq_left (by omega)]
  have hafter : u.afterLine n = (s.afterLine n).withRest pre := by
    simp only [afterLine, u, withRest]
    rw [List.drop_append_of_le_length (by omega), List.drop_eq_nil_of_le (by omega), List.nil_append]
  rw [run_of_some (round_line hne hst), searchLine_of_some hfind, takeLine, hline, hafter,
    readLine_withRest, takeLine]

/-- A request that completes has its blank line, and the parser reaches it. -/
theorem exists_blank_line {s : Scan}
    (hst : s.parser.state = .expectRequestLine ∨ s.parser.state = .expectHeader)
    (htemp : s.parser.tempBuffer = []) (hbody : s.body = []) (hdone : s.run.parser.state = .complete) :
    ∃ pre tail, s.rest = pre ++ 13 :: 10 :: tail ∧ (s.withRest pre).run.rest = [] ∧
      (s.withRest pre).run.parser.state = .expectHeader ∧
      (s.withRest pre).run.parser.tempBuffer = [] ∧ (s.withRest pre).run.body = [] := by
  revert hst htemp hbody hdone
  refine Loop.run_induction round_decreases (motive := fun s =>
    s.parser.state = .expectRequestLine ∨ s.parser.state = .expectHeader → s.parser.tempBuffer = [] →
    s.body = [] → s.run.parser.state = .complete →
    ∃ pre tail, s.rest = pre ++ 13 :: 10 :: tail ∧ (s.withRest pre).run.rest = [] ∧
      (s.withRest pre).run.parser.state = .expectHeader ∧
      (s.withRest pre).run.parser.tempBuffer = [] ∧ (s.withRest pre).run.body = []) ?_ ?_ s
  · intro s hs hst _ _ hdone
    rw [run_of_none hs] at hdone
    rcases hst with hst | hst <;> rw [hst] at hdone <;> cases hdone
  · intro s t hround ih hst htemp hbody hdone
    rw [run_of_some hround] at hdone
    obtain ⟨hne,⟨-,⟨hf,rfl⟩ | ⟨n,hn,rfl⟩⟩ | ⟨hst',-⟩⟩ := round_cases hround
    · rw [run_nil (keepPartial_rest s)] at hdone
      unfold keepPartial at hdone
      split at hdone
      · cases hdone
      · rcases hst with hst | hst <;> exact absurd (hst.symm.trans hdone) (by decide)
    · rcases takeLine_state s n hst with herr | hhead | ⟨hhead,hline⟩
      · rw [run_of_inactive (by rw [herr]; rfl), herr] at hdone
        cases hdone
      · obtain ⟨pre,tail,hrest,hpre⟩ := ih (Or.inr hhead) (takeLine_temp s n)
          ((takeLine_body s n).trans hbody) hdone
        refine ⟨s.rest.take (n + 2) ++ pre,tail,?_,?_⟩
        · rw [takeLine_rest] at hrest
          rw [List.append_assoc, ← hrest, List.take_append_drop]
        · rw [run_withRest_line hst hn]
          exact hpre
      · rw [lineAt, htemp, List.nil_append] at hline
        have hn0 : n = 0 := by
          have hb := findCrlf_bound hn
          have hl := congrArg List.length hline
          rw [List.length_take, List.length_nil] at hl
          omega
        subst hn0
        obtain ⟨tail,htail⟩ := findCrlf_zero hn
        have hnil : (s.withRest []).run = s.withRest [] := run_nil rfl
        exact ⟨[],tail,htail,by rw [hnil]; rfl,by rw [hnil]; exact hhead,by rw [hnil]; exact htemp,
          by rw [hnil]; exact hbody⟩
    · rcases hst with hst | hst <;> exact absurd (hst.symm.trans hst') (by decide)

theorem takeBody_state {s : Scan} (hst : s.parser.state = .expectBody) :
    s.takeBody.parser.state = .expectBody ∨ s.takeBody.parser.state = .complete := by
  unfold takeBody checkBody
  split
  · exact Or.inr rfl
  · exact Or.inl hst

/-- In the body no byte is dropped. -/
theorem run_body_eq {s : Scan} (hst : s.parser.state = .expectBody) :
    s.run.body.length + s.run.rest.length = s.body.length + s.rest.length := by
  refine (Loop.run_invariant round_decreases
    (I := fun t => (t.parser.state = .expectBody ∨ t.parser.state = .complete) ∧
      t.body.length + t.rest.length = s.body.length + s.rest.length) ?_ ⟨Or.inl hst,rfl⟩).2
  rintro t u ⟨htst,hsum⟩ h
  obtain ⟨hne,⟨hline,-⟩ | ⟨hbody,rfl⟩⟩ := round_cases h
  · rcases htst with htst | htst <;> rw [htst] at hline <;> simp at hline
  · have hle := bodyTake_le t
    refine ⟨takeBody_state hbody,?_⟩
    rw [takeBody_body, takeBody_rest, List.length_append, List.length_take, List.length_drop]
    omega

/-- Behind the blank line all that follows is body. -/
theorem run_blank_body {s : Scan} (hst : s.parser.state = .expectHeader)
    (htemp : s.parser.tempBuffer = []) {tail : List UInt8} (hrest : s.rest = 13 :: 10 :: tail)
    (hend : s.run.rest = []) : s.run.body.length = s.body.length + tail.length := by
  have hfind : findCrlf s.rest = some 0 := by simp [hrest, findCrlf]
  have hrun : s.run = (s.takeLine 0).run := by
    rw [run_of_some (round_line (by simp [hrest]) (Or.inr hst)), searchLine_of_some hfind]
  have hbody := takeLine_body s 0
  have htail : (s.takeLine 0).rest = tail := by simp [takeLine_rest, hrest]
  have hline : s.lineAt 0 = [] := by simp [lineAt, htemp]
  have hstate : (s.takeLine 0).parser.state = .expectBody ∨
      (s.takeLine 0).parser.state = .complete := by
    rw [takeLine, readLine, hline, if_neg (show ¬ (s.afterLine 0).parser.state = .expectRequestLine by
      rw [show (s.afterLine 0).parser.state = .expectHeader from hst]; decide), if_pos rfl]
    dsimp only
    split
    · exact Or.inl rfl
    · exact Or.inr rfl
  rw [hrun] at hend ⊢
  rcases hstate with h | h
  · have hsum := run_body_eq h
    rw [hend, htail, hbody] at hsum
    simpa using hsum
  · rw [run_of_inactive (by rw [h]; rfl)] at hend ⊢
    rw [htail] at hend
    rw [hbody, hend]
    rfl

end HttpParser.Scan
end ModernTcp
