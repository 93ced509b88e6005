import ModernTcp.Http.HeadLines
import ModernTcp.Net.EpollConnection

/-! # Delivery of HTTP requests

A connection that is read at request boundaries hands its requests on as if all of them had
come in one read. A read that ends inside a request leaves the bytes both in the parser
and in `input_buffer_`, and the next read parses them a second time.
-/
namespace ModernTcp.EpollConnection
open HttpParser
namespace Reading

theorem shutdown_pendingRequests (s : Reading) (why : CloseReason) :
    (s.shutdown why).conn.pendingRequests = s.conn.pendingRequests := by
  unfold shutdown
  split <;> rfl

theorem send_conn (s : Reading) (data : List UInt8) : (s.send data).conn = s.conn := by
  unfold send
  split <;> rfl

theorem parseRound_decreases : Loop.Decreases parseRound parseMeasure := by
  intro s t h
  unfold parseRound at h
  split at h
  · cases h
  rename_i hgo
  simp only [not_or, not_not, Bool.not_eq_false] at hgo
  obtain ⟨hstatus,hne,-⟩ := hgo
  cases h
  have hpos : 0 < parseMeasure s := by
    unfold parseMeasure
    rw [if_pos hstatus]
    omega
  unfold parsed
  split
  · exact hpos
  split
  · unfold queueRequest
    dsimp only
    split
    · exact hpos
    · have hlt := parse_shrinks (p := s.conn.httpParser) hne
      unfold parseMeasure
      rw [if_pos hstatus, if_pos hstatus]
      change 1 + 2 * (s.conn.inputBuffer.drop _).length +
        (decide (s.conn.httpParser.getRequest.2.state ≠ _)).toNat < _
      omega
  · exact hpos

theorem parseLoop_of_none {s : Reading} (h : s.parseRound = none) : s.parseLoop = s :=
  Loop.run_of_none h

theorem parseLoop_of_some {s t : Reading} (h : s.parseRound = some t) : s.parseLoop = t.parseLoop :=
  Loop.run_of_some parseRound_decreases h

/-- The state with requests queued and only `tail` unread. -/
def queued (s : Reading) (rs : List (List UInt8)) (tail : List UInt8) : Reading :=
  { s with conn := { s.conn with
    inputBuffer := tail
    pendingRequests := s.conn.pendingRequests ++ rs.map (fun r => (requestOf r,r))
    pipelineDepth := s.conn.pipelineDepth + rs.length } }

/-- The parse loop can go on with a request at the front of its input. -/
structure Parsing (s : Reading) : Prop where
  status : s.status = .looping
  running : s.conn.running = true
  fresh : s.conn.httpParser = {}

theorem Parsing.queued {s : Reading} (h : s.Parsing) (rs : List (List UInt8)) (tail : List UInt8) :
    (s.queued rs tail).Parsing := ⟨h.status,h.running,h.fresh⟩

theorem parseRound_accepted {s : Reading} (hs : s.Parsing) {r tail : List UInt8} (hr : Accepted r)
    (hin : s.conn.inputBuffer = r ++ tail) (hdepth : s.conn.pipelineDepth + 1 ≤ maxHttpPipeline) :
    s.parseRound = some { s.queued [r] tail with shouldClose := s.shouldClose || !(requestOf r).keepAlive } := by
  have hne : s.conn.inputBuffer ≠ [] := by
    rw [hin]
    exact List.append_ne_nil_of_left_ne_nil hr.ne_nil tail
  have hparse : s.conn.httpParser.parse s.conn.inputBuffer = parse {} r := by
    rw [hs.fresh, hin, hr.parse_append]
  unfold parseRound
  rw [if_neg (by simp [hs.status, hne, hs.running]), hparse]
  simp only [parsed, hr.no_error, hr.complete, Bool.false_eq_true, if_false, if_true, queueRequest]
  rw [if_neg (by omega), hr.located.1, hr.located.2, hr.consumed, hin, getRequest_new]
  simp only [List.drop_zero, List.take_left, List.drop_left]
  simp [Reading.queued, hs.fresh, requestOf]

theorem parseRound_request {s : Reading} (hs : s.Parsing) {r tail : List UInt8} (hr : Accepted r)
    (hkeep : (requestOf r).keepAlive = true) (hin : s.conn.inputBuffer = r ++ tail)
    (hdepth : s.conn.pipelineDepth + 1 ≤ maxHttpPipeline) :
    s.parseRound = some (s.queued [r] tail) := by
  rw [parseRound_accepted hs hr hin hdepth, hkeep]
  simp [Reading.queued]

theorem parseLoop_requests {s : Reading} (hs : s.Parsing) {rs : List (List UInt8)} {tail : List UInt8}
    (hrs : ∀ r ∈ rs, Accepted r ∧ (requestOf r).keepAlive = true)
    (hin : s.conn.inputBuffer = rs.flatten ++ tail)
    (hdepth : s.conn.pipelineDepth + rs.length ≤ maxHttpPipeline) :
    s.parseLoop = (s.queued rs tail).parseLoop := by
  induction rs generalizing s with
  | nil =>
    have hsame : s.queued [] tail = s := by
      simp only [List.flatten_nil, List.nil_append] at hin
      simp [Reading.queued, ← hin]
    rw [hsame]
  | cons r rs ih =>
    rw [List.length_cons] at hdepth
    obtain ⟨hr,hkeep⟩ := hrs r List.mem_cons_self
    have hround := parseRound_request hs hr hkeep
      (by rw [hin, List.flatten_cons, List.append_assoc]) (by omega)
    have hnext := ih (hs.queued [r] (rs.flatten ++ tail)) (fun q hq => hrs q (List.mem_cons_of_mem _ hq))
      rfl (by simp only [Reading.queued, List.length_cons, List.length_nil]; omega)
    rw [parseLoop_of_some hround, hnext]
    congr 1
    simp [Reading.queued]
    omega

theorem dispatch_pendingRequests (h : Handlers) (s : Reading) (req : SimpleHttpRequest)
    (raw : List UInt8) : (s.dispatch h req raw).conn.pendingRequests = s.conn.pendingRequests := by
  have hcall : (s.callHandler h req).conn.pendingRequests = s.conn.pendingRequests := by
    unfold callHandler
    dsimp only
    split <;> split <;> simp [send_conn, shutdown_pendingRequests, emit]
  unfold dispatch
  split
  · split
    · rfl
    · unfold closeIfDone
      split
      · rw [shutdown_pendingRequests, hcall]
      · exact hcall
  · rfl

theorem dispatchRound_decreases (h : Handlers) :
    Loop.Decreases (dispatchRound h) (fun s => s.conn.pendingRequests.length) := by
  intro s t hr
  unfold dispatchRound at hr
  split at hr
  · cases hr
  · cases hp : s.conn.pendingRequests with
    | nil => simp [hp] at hr
    | cons p rest =>
      simp only [hp, Option.some.injEq] at hr
      subst hr
      dsimp only
      rw [dispatch_pendingRequests]
      simp [popRequest, hp]

end Reading

/-- Neither closes the connection nor throws. -/
def Quiet (h : Handlers) : Prop := ∀ req, (h.http req).closes = false ∧ (h.http req).throws = false

/-- What handing one request on looks like from outside. -/
def handOn (h : Handlers) (httpHandler : Bool) (p : SimpleHttpRequest × List UInt8) : List Effect :=
  if httpHandler then
    if h.workerPool then [.submit p.1 p.2 (!p.1.keepAlive)] else [.handle p.1]
  else []

namespace Reading

theorem dispatch_quiet {h : Handlers} (hq : Quiet h) {s : Reading} (hclose : s.shouldClose = false)
    (req : SimpleHttpRequest) (raw : List UInt8) :
    s.dispatch h req raw = { s with effects := s.effects ++ handOn h s.conn.httpHandler (req,raw) } := by
  obtain ⟨hcl,hth⟩ := hq req
  unfold dispatch handOn
  split
  · split
    · rfl
    · have hcall : s.callHandler h req = s.emit (.handle req) := by
        simp [callHandler, hcl, hth]
      rw [hcall]
      unfold closeIfDone
      rw [if_neg (by simp [emit, hclose])]
      rfl
  · simp

theorem dispatchLoop_quiet {h : Handlers} (hq : Quiet h) {s : Reading} (hclose : s.shouldClose = false)
    (hstatus : s.status ≠ .returned) (hrun : s.conn.running = true) :
    s.dispatchLoop h = { s with
      conn := { s.conn with
        pendingRequests := []
        pipelineDepth := s.conn.pipelineDepth - s.conn.pendingRequests.length }
      effects := s.effects ++ s.conn.pendingRequests.flatMap (handOn h s.conn.httpHandler) } := by
  obtain ⟨n,hn⟩ : ∃ n, s.conn.pendingRequests.length = n := ⟨_,rfl⟩
  induction n generalizing s with
  | zero =>
    have hnil := List.length_eq_zero_iff.mp hn
    have hround : dispatchRound h s = none := by
      unfold dispatchRound
      rw [hnil]
      simp
    unfold dispatchLoop
    rw [Loop.run_of_none hround]
    rcases s with ⟨⟨_,_,_,_,_,pending,_,_,_⟩,_,_,_⟩
    have hpending : pending = [] := hnil
    simp [hpending]
  | succ n ih =>
    obtain ⟨p,rest,hp⟩ := List.exists_cons_of_length_eq_add_one hn
    have hround : dispatchRound h s = some (s.popRequest.dispatch h p.1 p.2) := by
      unfold dispatchRound
      rw [hp]
      simp [hstatus, hrun]
    have hdisp := dispatch_quiet hq (s := s.popRequest) hclose p.1 p.2
    rw [dispatchLoop, Loop.run_of_some (dispatchRound_decreases h) hround, hdisp]
    have hrest := ih (s := { s.popRequest with
      effects := s.popRequest.effects ++ handOn h s.popRequest.conn.httpHandler p })
      hclose hstatus hrun (by simp [popRequest, hp] at hn ⊢; omega)
    rw [dispatchLoop] at hrest
    rw [hrest]
    simp [popRequest, hp]
    omega

end Reading

/-- Between two reads of an HTTP connection nothing is half done. -/
structure AtBoundary (c : EpollConnection) : Prop where
  running : c.running = true
  input : c.inputBuffer = []
  parser : c.httpParser = {}
  pending : c.pendingRequests = []
  depth : c.pipelineDepth = 0

/-- The connection speaks HTTP, or does so as soon as it sees the chunk. -/
def SelectsHttp (c : EpollConnection) (chunk : List UInt8) : Prop :=
  c.protocol = some .http ∨ c.protocol = none ∧ looksLikeHttp chunk = true

theorem protocolDetected_http {c : EpollConnection} (hin : c.inputBuffer = []) {chunk : List UInt8}
    (hne : chunk ≠ []) (hsel : c.SelectsHttp chunk) :
    { c with inputBuffer := c.inputBuffer ++ chunk }.protocolDetected =
      { c with inputBuffer := chunk, protocol := some .http } := by
  rw [hin, List.nil_append]
  unfold protocolDetected
  rcases hsel with hsel | ⟨hnone,hlook⟩
  · rw [if_neg (by simp [hsel])]
    rw [← hsel]
  · rw [if_pos ⟨hnone,hne⟩]
    simp [ModernTcp.protocolDetected, hlook]

theorem handleRead_http {h : Handlers} {c : EpollConnection} (hc : c.AtBoundary) {chunk : List UInt8}
    (hne : chunk ≠ []) (hsel : c.SelectsHttp chunk) :
    c.handleRead h chunk =
      Reading.handleHttp h { conn := { c with inputBuffer := chunk, protocol := some .http } } := by
  unfold handleRead
  rw [if_neg (by simp [hc.running]), if_neg hne, protocolDetected_http hc.input hne hsel]
  unfold Reading.handleProtocol
  rw [if_pos (Or.inl rfl)]

theorem handleRead_requests {h : Handlers} (hq : Quiet h) {c : EpollConnection} (hc : c.AtBoundary)
    {rs : List (List UInt8)} (hrs : ∀ r ∈ rs, Accepted r ∧ (requestOf r).keepAlive = true)
    (hlen : rs.length ≤ maxHttpPipeline) (hne : rs.flatten ≠ []) (hsel : c.SelectsHttp rs.flatten) :
    c.handleRead h rs.flatten = {
      conn := { c with protocol := some .http }
      effects := rs.flatMap (fun r => handOn h c.httpHandler (requestOf r,r)) } := by
  let s : Reading := { conn := { c with inputBuffer := rs.flatten, protocol := some .http } }
  have hs : s.Parsing := ⟨rfl,hc.running,hc.parser⟩
  have hparse : s.parseLoop = s.queued rs [] := by
    have hin : s.conn.inputBuffer = rs.flatten ++ [] := (List.append_nil _).symm
    rw [Reading.parseLoop_requests hs hrs hin (by simp [s, hc.depth, hlen]), Reading.parseLoop_of_none]
    simp [Reading.parseRound, Reading.queued]
  have hdisp := Reading.dispatchLoop_quiet hq (s := s.queued rs []) rfl (by simp [Reading.queued, s])
    hc.running
  rw [handleRead_http hc hne hsel, Reading.handleHttp, hparse, hdisp]
  simp [Reading.queued, s, hc.pending, hc.depth, ← hc.input, List.flatMap_map]

/-- Requests that the parser accepts, all of them keep-alive and few enough for one pipeline. -/
structure KeepAliveStream (rs : List (List UInt8)) : Prop where
  request : ∀ r ∈ rs, Accepted r ∧ (requestOf r).keepAlive = true
  length_le : rs.length ≤ maxHttpPipeline

theorem KeepAliveStream.sublist {rs qs : List (List UInt8)} (h : KeepAliveStream rs)
    (hsub : qs.Sublist rs) : KeepAliveStream qs :=
  ⟨fun r hr => h.request r (hsub.subset hr),le_trans hsub.length_le h.length_le⟩

theorem reads_groups {h : Handlers} (hq : Quiet h) {c : EpollConnection} (hc : c.AtBoundary)
    {groups : List (List (List UInt8))} (hrs : KeepAliveStream groups.flatten)
    (hne : ∀ g ∈ groups, g.flatten ≠ []) (hsel : ∀ g ∈ groups.head?, c.SelectsHttp g.flatten) :
    (reads h c (groups.map List.flatten)).2 =
      groups.flatten.flatMap (fun r => handOn h c.httpHandler (requestOf r,r)) := by
  induction groups generalizing c with
  | nil => rfl
  | cons g rest ih =>
    have hg : KeepAliveStream g := hrs.sublist (List.sublist_append_left g rest.flatten)
    have hread := handleRead_requests hq hc hg.request hg.length_le (hne g List.mem_cons_self)
      (hsel g rfl)
    have hlater := ih (c := { c with protocol := some .http })
      ⟨hc.running,hc.input,hc.parser,hc.pending,hc.depth⟩
      (hrs.sublist (List.sublist_append_right g rest.flatten))
      (fun g' hg' => hne g' (List.mem_cons_of_mem _ hg')) (fun _ _ => Or.inl rfl)
    rw [List.map_cons, reads]
    dsimp only
    rw [hread, hlater, List.flatten_cons, List.flatMap_append]

/-- The requests handed to the HTTP handler, by the IO thread or through the worker pool. -/
def delivered (log : List Effect) : List SimpleHttpRequest :=
  log.filterMap (fun e => match e with
    | .handle r => some r
    | .submit r _ _ => some r
    | _ => none)

/-- The chunks deliver what a single read of all their bytes delivers, without a 400. -/
structure SameDelivery (h : Handlers) (chunks : List (List UInt8)) : Prop where
  same : delivered (reads h {} chunks).2 = delivered (reads h {} [chunks.flatten]).2
  no_badRequest : Effect.send badRequest ∉ (reads h {} chunks).2

/-- Every chunk is made of whole requests of the stream. -/
def CutBetween (rs chunks : List (List UInt8)) : Prop :=
  ∃ groups : List (List (List UInt8)), groups.flatten = rs ∧ chunks = groups.map List.flatten

theorem new_atBoundary : AtBoundary {} := ⟨rfl,rfl,rfl,rfl,rfl⟩

theorem badRequest_not_handOn (h : Handlers) (b : Bool) (rs : List (List UInt8)) :
    Effect.send badRequest ∉ rs.flatMap (fun r => handOn h b (requestOf r,r)) := by
  intro hmem
  obtain ⟨r,-,hr⟩ := List.mem_flatMap.mp hmem
  unfold handOn at hr
  split at hr
  · split at hr <;> simp at hr
  · simp at hr

theorem sameDelivery_of_cutBetween {h : Handlers} (hq : Quiet h) {rs chunks : List (List UInt8)}
    (hrs : KeepAliveStream rs) (hne : ∀ c ∈ chunks, c ≠ [])
    (hhttp : ∀ c ∈ chunks.head?, looksLikeHttp c = true) (hcut : CutBetween rs chunks) :
    SameDelivery h chunks := by
  obtain ⟨groups,rfl,rfl⟩ := hcut
  have hparts := reads_groups hq new_atBoundary hrs
    (fun g hg => hne g.flatten (List.mem_map_of_mem hg))
    (fun g hg => Or.inr ⟨rfl,hhttp g.flatten (by rw [List.head?_map, hg]; rfl)⟩)
  refine ⟨?_,?_⟩
  · rw [hparts]
    cases groups with
    | nil => rfl
    | cons g rest =>
      have hfirst : looksLikeHttp g.flatten = true := hhttp g.flatten rfl
      have hgne : g.flatten ≠ [] := hne g.flatten List.mem_cons_self
      have hall : (g :: rest).flatten.flatten = g.flatten ++ rest.flatten.flatten := by
        rw [List.flatten_cons, List.flatten_append]
      have hwhole := handleRead_requests hq new_atBoundary hrs.request hrs.length_le
        (by rw [hall]; exact List.append_ne_nil_of_left_ne_nil hgne _)
        (by rw [hall]; exact Or.inr ⟨rfl,looksLikeHttp_append hfirst _⟩)
      rw [← List.flatten_flatten, reads, hwhole]
      simp [reads]
  · rw [hparts]
    exact badRequest_not_handOn h true _

/-- A read that ends with a request line keeps that line in the buffer although the parser
has taken it. -/
theorem handleRead_head {h : Handlers} (hq : Quiet h) {c : EpollConnection} (hc : c.AtBoundary)
    {pre : List (List UInt8)} (hpre : KeepAliveStream pre) {r : List UInt8} (hr : Accepted r) {n : ℕ}
    (hn : findCrlf r = some n) (hsel : c.SelectsHttp (pre.flatten ++ r.take (n + 2))) :
    let after := (c.handleRead h (pre.flatten ++ r.take (n + 2))).conn
    after.running = true ∧ after.protocol = some .http ∧ after.inputBuffer = r.take (n + 2) ∧
      after.httpParser.state = .expectHeader ∧ after.httpParser.tempBuffer = [] ∧ n ≠ 0 := by
  obtain ⟨p,result,hparse,hstate,htemp,herr,hcomplete,hpos⟩ := hr.parse_head hn
  have hb := findCrlf_bound hn
  have hhead : r.take (n + 2) ≠ [] := by
    intro hnil
    have hl := congrArg List.length hnil
    rw [List.length_take, List.length_nil] at hl
    omega
  let s : Reading :=
    { conn := { c with inputBuffer := pre.flatten ++ r.take (n + 2), protocol := some .http } }
  have hs : s.Parsing := ⟨rfl,hc.running,hc.parser⟩
  let u : Reading := s.queued pre (r.take (n + 2))
  let v : Reading := Reading.leave { u with conn := { u.conn with httpParser := p } } .broken
  have hround : u.parseRound = some v := by
    have hu : u.conn.httpParser = {} := hc.parser
    have hin : u.conn.inputBuffer = r.take (n + 2) := rfl
    unfold Reading.parseRound
    rw [if_neg (by simp [hhead, u, s, Reading.queued, hc.running]), hu, hin, hparse]
    simp [Reading.parsed, herr, hcomplete, v]
  have hloop : s.parseLoop = v := by
    rw [Reading.parseLoop_requests hs hpre.request rfl (by simp [s, hc.depth, hpre.length_le]),
      Reading.parseLoop_of_some hround, Reading.parseLoop_of_none]
    simp [Reading.parseRound, v, Reading.leave]
  have hdisp := Reading.dispatchLoop_quiet hq (s := v) rfl (by simp [v, Reading.leave]) hc.running
  intro after
  have hafter : after = ((s.parseLoop).dispatchLoop h).conn := by
    simp only [after]
    rw [handleRead_http hc (List.append_ne_nil_of_right_ne_nil _ hhead) hsel]
    rfl
  rw [hafter, hloop, hdisp]
  exact ⟨hc.running,rfl,rfl,hstate,htemp,hpos⟩

theorem handleRead_repeated_head {h : Handlers} {c : EpollConnection} (hrun : c.running = true)
    (hhttp : c.protocol = some .http) {chunk : List UInt8} (hne : chunk ≠ []) {n : ℕ}
    (hstate : c.httpParser.state = .expectHeader) (htemp : c.httpParser.tempBuffer = [])
    (hn : findCrlf (c.inputBuffer ++ chunk) = some n) (hpos : n ≠ 0)
    (hcolon : 58 ∉ (c.inputBuffer ++ chunk).take n) :
    Effect.send badRequest ∈ (c.handleRead h chunk).effects := by
  let s : Reading := { conn := { c with inputBuffer := c.inputBuffer ++ chunk } }
  have hbad := parse_bad_header hstate htemp hn hpos hcolon
  have hread : c.handleRead h chunk = s.handleHttp h := by
    have hdet : s.conn.protocolDetected = s.conn := by
      unfold protocolDetected
      rw [if_neg (by simp [s, hhttp])]
    unfold handleRead
    rw [if_neg (by simp [hrun]), if_neg hne]
    change Reading.handleProtocol h { conn := s.conn.protocolDetected } = _
    rw [hdet]
    unfold Reading.handleProtocol
    rw [if_pos (Or.inl hhttp)]
  let p := c.httpParser.parse (c.inputBuffer ++ chunk)
  let t : Reading := Reading.parsed { s with conn := { s.conn with httpParser := p.1 } } p.2
  have ht : s.parseRound = some t := by
    unfold Reading.parseRound
    rw [if_neg (by simp [s, hne, hrun])]
  have hret : t.status = .returned := by simp [t, p, Reading.parsed, hbad, Reading.leave]
  have heff : t.effects = [.send badRequest,.shutdown .badRequest] := by
    have hsend : badRequest ≠ [] := by decide
    simp [t, p, s, Reading.parsed, hbad, Reading.leave, Reading.shutdown, Reading.send, Reading.emit,
      hrun, hsend]
  have hloop : s.parseLoop = t := by
    rw [Reading.parseLoop_of_some ht, Reading.parseLoop_of_none]
    simp [Reading.parseRound, hret]
  have hdisp : t.dispatchLoop h = t := Loop.run_of_none (by simp [Reading.dispatchRound, hret])
  rw [hread, Reading.handleHttp, hloop, hdisp, heff]
  exact List.mem_cons_self

theorem head_cut_not_sameDelivery {h : Handlers} (hq : Quiet h) {pre post : List (List UInt8)}
    {r : List UInt8} (hrs : KeepAliveStream (pre ++ r :: post)) {n : ℕ} (hn : findCrlf r = some n)
    (hcolon : 58 ∉ r.take n) (hhttp : looksLikeHttp (pre.flatten ++ r.take (n + 2)) = true) :
    ¬ SameDelivery h [pre.flatten ++ r.take (n + 2),r.drop (n + 2) ++ post.flatten] := by
  intro hsame
  have hr := (hrs.request r (by simp)).1
  have hb := findCrlf_bound hn
  obtain ⟨hrun,hproto,hin,hstate,htemp,hpos⟩ := handleRead_head hq new_atBoundary
    (hrs.sublist (List.sublist_append_left pre (r :: post))) hr hn (Or.inr ⟨rfl,hhttp⟩)
  have hwhole : r.take (n + 2) ++ (r.drop (n + 2) ++ post.flatten) = r ++ post.flatten := by
    rw [← List.append_assoc, List.take_append_drop]
  apply hsame.no_badRequest
  have hrest := List.append_ne_nil_of_left_ne_nil (hr.after_head hn) post.flatten
  have hbad := handleRead_repeated_head (h := h) hrun hproto hrest hstate htemp (n := n)
    (by rw [hin, hwhole]; exact findCrlf_append_of_some hn _) hpos
    (by rw [hin, hwhole, List.take_append_of_le_length (by omega)]; exact hcolon)
  simp only [reads, List.mem_append]
  exact Or.inr (Or.inl hbad)

/-- Cuts between requests do not show. A cut behind a request line does: the line comes back
as a header and, unless it has a colon, is answered with a 400. -/
theorem delivery_independent_of_segmentation {h : Handlers} (hq : Quiet h) :
    (∀ rs chunks, KeepAliveStream rs → (∀ c ∈ chunks, c ≠ []) →
      (∀ c ∈ chunks.head?, looksLikeHttp c = true) → CutBetween rs chunks → SameDelivery h chunks) ∧
    ∀ pre r post n, KeepAliveStream (pre ++ r :: post) → findCrlf r = some n → 58 ∉ r.take n →
      looksLikeHttp (pre.flatten ++ r.take (n + 2)) = true →
      ¬ SameDelivery h [pre.flatten ++ r.take (n + 2),r.drop (n + 2) ++ post.flatten] :=
  ⟨fun _ _ hrs hne hhttp hcut => sameDelivery_of_cutBetween hq hrs hne hhttp hcut,
    fun _ _ _ _ hrs hn hcolon hhttp => head_cut_not_sameDelivery hq hrs hn hcolon hhttp⟩

theorem delivery_two_requests :
    SameDelivery Handlers.silent [bytes "GET /a HTTP/1.1\r\n\r\n",bytes "GET /b HTTP/1.1\r\n\r\n"] :=
  (delivery_independent_of_segmentation (h := Handlers.silent) (fun _ => ⟨rfl,rfl⟩)).1
    [bytes "GET /a HTTP/1.1\r\n\r\n",bytes "GET /b HTTP/1.1\r\n\r\n"] _
    ⟨by decide,by decide⟩ (by decide) (by decide)
    ⟨[[bytes "GET /a HTTP/1.1\r\n\r\n"],[bytes "GET /b HTTP/1.1\r\n\r\n"]],rfl,rfl⟩

/-- One request in two chunks, cut behind its request line, is answered with a 400 and never
reaches the handler. -/
theorem delivery_lost_request :
    Accepted (bytes "GET / HTTP/1.1\r\n\r\n") ∧
    (requestOf (bytes "GET / HTTP/1.1\r\n\r\n")).keepAlive = true ∧
    looksLikeHttp (bytes "GET / HTTP/1.1\r\n") = true ∧
    (reads Handlers.silent {} [bytes "GET / HTTP/1.1\r\n",bytes "\r\n"]).2 =
      [.send badRequest,.shutdown .badRequest] ∧
    delivered (reads Handlers.silent {} [bytes "GET / HTTP/1.1\r\n\r\n"]).2 =
      [requestOf (bytes "GET / HTTP/1.1\r\n\r\n")] ∧
    ¬ SameDelivery Handlers.silent [bytes "GET / HTTP/1.1\r\n",bytes "\r\n"] := by
  refine ⟨by decide,by decide,by decide,by decide,by decide,?_⟩
  intro hsame
  exact absurd hsame.no_badRequest (by decide)

end ModernTcp.EpollConnection
