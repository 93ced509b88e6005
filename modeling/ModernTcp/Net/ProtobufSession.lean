import ModernTcp.Lib.Pipeline
import ModernTcp.Net.ProtobufEcho
import ModernTcp.Net.Transfers

/-! # A protobuf client and the server

`TcpClient::send_protobuf`, the connection in protobuf mode, and `TcpClient::receive_protobuf`, with the network
between them. As with lines, everybody cuts the streams as they like. A payload of one to three bytes may stay in
the buffer of the server until more bytes come; then the server is not idle. The protobuf library is a parameter. The buffers of the server are byte sequences, and
none of its appends writes past the vector.
-/
namespace ModernTcp.ProtobufSession
open EpollConnection NetUtils Pipeline ProtobufEcho TcpClient Wire

/-- What the server answers to a payload. -/
def respond (pb : Protobuf) (payload : List UInt8) : Response :=
  match pb.parseRequest payload with
  | none => { code := 400, message := bytes "Invalid Protobuf" }
  | some req =>
    if req.method = bytes "PING" then { code := 200, message := bytes "PONG" }
    else if req.method = bytes "ECHO" then { code := 200, message := bytes "Echo: " ++ req.body, data := req.body }
    else { code := 404, message := bytes "Unknown method: " ++ req.method }

/-- The frame of a response, if it can be serialized. -/
def frameOf (pb : Protobuf) (resp : Response) : List UInt8 :=
  match pb.serializeResponse resp with
  | none => []
  | some serialized => frame (if serialized = [] then bytes "empty" else serialized)

def reply (pb : Protobuf) (payload : List UInt8) : List UInt8 := frameOf pb (respond pb payload)

/-- The loop of `handle_protobuf`, with the output side of the connection beside it. -/
structure Serving where
  reading : Reading
  out : Output

/-- A round decodes at most one payload. Its answer may close the connection. -/
def serveRound (pb : Protobuf) (s : Serving) : Option Serving :=
  s.reading.protobufRound.map (fun r =>
    let out := (r.effects.drop s.reading.effects.length).foldl (perform pb) s.out
    { reading := if out.running then r else r.shutdown .overflow, out })

def serve (pb : Protobuf) (s : Serving) : Serving :=
  Loop.run (serveRound pb) (fun s => s.reading.protobufMeasure) s

structure Server where
  conn : EpollConnection
  out : Output := {}

/-- A connection whose protocol is known to be protobuf. -/
def Server.inProtobufMode : Server := { conn := { protocol := some .protobuf, httpHandler := false } }

def Server.read (pb : Protobuf) (s : Server) (chunk : List UInt8) : Server :=
  let t := serve pb { reading := { conn := { s.conn with inputBuffer := s.conn.inputBuffer ++ chunk } }, out := s.out }
  { conn := t.reading.conn, out := t.out }

def Server.step (pb : Protobuf) (s : Server) : ServerAct → List UInt8 → Option (Server × List UInt8)
  | .read, chunk => if s.conn.running = true ∧ chunk ≠ [] then some (s.read pb chunk,[]) else none
  | .write n, [] =>
    if s.out.running = true ∧ n ≤ s.out.outputBuffer.length then
      some ({ s with out := { s.out with outputBuffer := s.out.outputBuffer.drop n } },s.out.outputBuffer.take n)
    else none
  | .close why, [] => some ({ conn := (Reading.shutdown { conn := s.conn } why).conn, out := s.out.shutdown },[])
  | _, _ => none

/-- No whole payload waits in the buffer, and no answer. -/
def Server.Idle (s : Server) : Prop :=
  s.conn.running = true ∧ s.out.outputBuffer = [] ∧
    (s.conn.lengthRead = true → s.conn.inputBuffer.length < s.conn.expectedLength)

def server (pb : Protobuf) : Component UInt8 UInt8 where
  State := Server
  Act := ServerAct
  start := .inProtobufMode
  step := Server.step pb
  Idle := Server.Idle

/-- `send_protobuf` of serialized requests. -/
def sendPayload (c : Client) (script : List SysResult) : List (List UInt8) → Option (Client × List UInt8)
  | [payload] => (sendProtobuf c payload script).map (fun r => (r.1,r.2.1))
  | _ => none

def sender : Component (List UInt8) UInt8 where
  State := Client
  Act := List SysResult
  start := { socket := [] }
  Idle c := c.connected = true
  step := sendPayload

def results : Except Failure (Reply Response) → List (Option Response)
  | .ok (.response _ _ value) => [some value]
  | .error .parseFailed => [none]
  | _ => []

/-- A call of `receive_protobuf`, which takes from the socket just what its calls of `read` return. -/
def nextResponse (pb : Protobuf) (c : Client) (rs : List Recv) (chunk : List UInt8) :
    Option (Client × List (Option Response)) :=
  if c.connected = false then none
  else match { c with socket := chunk }.receiveProtobuf pb.parseResponse rs with
    | some (d,outcome) => if d.socket = [] then some (d,results outcome) else none
    | none => none

def receiver (pb : Protobuf) : Component UInt8 (Option Response) where
  State := Client
  Act := List Recv
  start := { socket := [] }
  Idle c := c.connected = true
  step := nextResponse pb

/-- From the serialized requests of the client to what its calls of `receive_protobuf` return. -/
def session (pb : Protobuf) : Component (List UInt8) (Option Response) :=
  comp sender (comp (channel UInt8) (comp (server pb) (comp (channel UInt8) (receiver pb))))

/-- The payloads of the frames at the front of a stream, up to the first one that is too large or not complete. -/
def payloads (max : ℕ) (s : List UInt8) : List (List UInt8) :=
  if s.length < 4 ∨ max < Reading.be32 s ∨ (s.drop 4).length < Reading.be32 s then []
  else (s.drop 4).take (Reading.be32 s) :: payloads max ((s.drop 4).drop (Reading.be32 s))
termination_by s.length
decreasing_by
  simp only [List.length_drop]
  omega

/-- An answer that is larger than the output buffer closes the connection. -/
def Fits (pb : Protobuf) (payload : List UInt8) : Prop := (reply pb payload).length ≤ maxBufferSize

instance (pb : Protobuf) : DecidablePred (Fits pb) := fun _ => inferInstanceAs (Decidable (_ ≤ _))

/-- What the server answers to a stream. -/
def served (pb : Protobuf) (s : List UInt8) : List UInt8 :=
  ((payloads Reading.maxProtobufSize s).takeWhile (fun p => decide (Fits pb p))).flatMap (reply pb)

/-- An empty payload is not parsed. -/
def parsed (pb : Protobuf) (payload : List UInt8) : Option Response :=
  if payload = [] then some default else pb.parseResponse payload

/-- What the client makes of a stream. -/
def responses (pb : Protobuf) (s : List UInt8) : List (Option Response) :=
  (payloads Client.maxResponseSize s).map (parsed pb)

section Streams
variable {pb : Protobuf} {max : ℕ}

theorem htonl_be32 {s : List UInt8} (h : 4 ≤ s.length) : htonl (Reading.be32 s) ++ s.drop 4 = s := by
  match s, h with
  | a :: b :: c :: d :: rest, _ =>
    have ha := a.toNat_lt
    have hb := b.toNat_lt
    have hc := c.toNat_lt
    have hd := d.toNat_lt
    have hbe : Reading.be32 (a :: b :: c :: d :: rest) =
        256 * (256 * (256 * a.toNat + b.toNat) + c.toNat) + d.toNat := by
      simp [Reading.be32]
    rw [hbe]
    simp only [htonl, List.cons_append, List.nil_append, List.drop_succ_cons, List.drop_zero, List.cons.injEq,
      and_true, ← UInt8.toNat_inj, UInt8.toNat_ofNat']
    omega

theorem payloads_frame {p : List UInt8} (hp : p.length < 2 ^ 32) (rest : List UInt8) :
    payloads max (frame p ++ rest) = if p.length ≤ max then p :: payloads max rest else [] := by
  have hbe : Reading.be32 (frame p ++ rest) = p.length := by
    rw [frame, List.append_assoc]
    exact be32_htonl hp _
  have hdrop : (frame p ++ rest).drop 4 = p ++ rest := by
    rw [frame, List.append_assoc]
    rfl
  have hlen : (frame p ++ rest).length = 4 + (p ++ rest).length := by
    rw [frame, List.append_assoc, List.length_append, htonl_length]
  rw [payloads, hbe, hdrop, hlen, List.take_left, List.drop_left, List.length_append]
  by_cases hmax : p.length ≤ max
  · rw [if_pos hmax, if_neg (by omega)]
  · rw [if_neg hmax, if_pos (by omega)]

theorem payloads_frames {ps : List (List UInt8)} (hps : ∀ p ∈ ps, p.length ≤ max) (hmax : max < 2 ^ 32)
    (rest : List UInt8) : payloads max (frames ps ++ rest) = ps ++ payloads max rest := by
  induction ps with
  | nil => rfl
  | cons p ps ih =>
    have hp := hps p List.mem_cons_self
    rw [frames, List.flatMap_cons, List.append_assoc, payloads_frame (lt_of_le_of_lt hp hmax), if_pos hp, ← frames,
      ih (fun q hq => hps q (List.mem_cons_of_mem p hq)), List.cons_append]

theorem payloads_frames_takeWhile {ps : List (List UInt8)} (hps : ∀ p ∈ ps, p.length < 2 ^ 32) :
    payloads max (frames ps) = ps.takeWhile (fun p => decide (p.length ≤ max)) := by
  induction ps with
  | nil => rw [payloads, if_pos (Or.inl (by decide)), List.takeWhile_nil]
  | cons p ps ih =>
    rw [frames, List.flatMap_cons, payloads_frame (hps p List.mem_cons_self), ← frames,
      ih (fun q hq => hps q (List.mem_cons_of_mem p hq)), List.takeWhile_cons]
    simp only [decide_eq_true_eq]

theorem payloads_monotone : Monotone (payloads max) := by
  intro s more
  induction s using payloads.induct max with
  | case1 s h =>
    rw [payloads, if_pos h]
    exact List.nil_prefix
  | case2 s h ih =>
    have hbe : Reading.be32 (s ++ more) = Reading.be32 s := by
      rw [Reading.be32, List.take_append_of_le_length (by omega), Reading.be32]
    have hdrop : (s ++ more).drop 4 = s.drop 4 ++ more := List.drop_append_of_le_length (by omega)
    rw [payloads, if_neg h, payloads.eq_1 max (s ++ more), hbe, hdrop, if_neg (by simp only [List.length_append]; omega),
      List.take_append_of_le_length (by omega), List.drop_append_of_le_length (by omega)]
    exact List.cons_prefix_cons.mpr ⟨rfl,ih⟩

theorem takeWhile_mono {α : Type*} {q : α → Bool} {xs ys : List α} (h : xs <+: ys) :
    xs.takeWhile q <+: ys.takeWhile q := by
  obtain ⟨more,rfl⟩ := h
  rw [List.takeWhile_append]
  split
  · exact (List.takeWhile_prefix q).trans (List.prefix_append _ _)
  · exact List.prefix_rfl

theorem served_monotone : Monotone (served pb) :=
  fun xs more => (takeWhile_mono (payloads_monotone xs more)).flatMap (reply pb)

theorem responses_monotone (pb : Protobuf) : Monotone (responses pb) := fun xs more => (payloads_monotone xs more).map (parsed pb)

end Streams
section Server
variable {pb : Protobuf} {xs ys : List UInt8} {c : EpollConnection} {out : Output}

theorem respond_code (pb : Protobuf) (payload : List UInt8) :
    (respond pb payload).code = 200 ∨ (respond pb payload).code = 400 ∨ (respond pb payload).code = 404 := by
  unfold respond
  split
  · exact Or.inr (Or.inl rfl)
  · split_ifs
    · exact Or.inl rfl
    · exact Or.inl rfl
    · exact Or.inr (Or.inr rfl)

theorem respond_message (payload : List UInt8) : (respond pb payload).message ≠ [] := by
  unfold respond
  split
  · exact (by decide)
  · split_ifs
    · exact (by decide : bytes "PONG" ≠ [])
    · exact List.append_ne_nil_of_left_ne_nil (by decide) _
    · exact List.append_ne_nil_of_left_ne_nil (by decide) _

theorem sendProtobuf_frameOf {resp : Response} (hcode : resp.code ≠ 0) (hmessage : resp.message ≠ []) :
    ProtobufEcho.sendProtobuf pb out resp = out.send (frameOf pb resp) := by
  unfold ProtobufEcho.sendProtobuf frameOf
  dsimp only
  rw [if_neg hcode, if_neg hmessage]
  cases pb.serializeResponse resp with
  | none => simp [Output.send]
  | some serialized => rfl

theorem handlePayload_eq (payload : List UInt8) : handlePayload pb out payload = out.send (reply pb payload) := by
  have hcode : (respond pb payload).code ≠ 0 := by
    rcases respond_code pb payload with h | h | h <;> rw [h] <;> decide
  rw [reply, ← sendProtobuf_frameOf hcode (respond_message payload)]
  unfold handlePayload respond
  cases pb.parseRequest payload with
  | none => rfl
  | some req =>
    simp only [handleProtobufRequest]

/-- The stream from the length on that is due. -/
def pending (c : EpollConnection) : List UInt8 :=
  if c.lengthRead then htonl c.expectedLength ++ c.inputBuffer else c.inputBuffer

/-- Whole frames are answered on the wire or in the output buffer. -/
structure Live (pb : Protobuf) (xs ys : List UInt8) (c : EpollConnection) (out : Output) : Prop where
  running : c.running = true
  sending : out.running = true
  due : c.lengthRead = true → c.expectedLength ≤ Reading.maxProtobufSize
  stream : ∃ done, xs = frames done ++ pending c ∧ (∀ p ∈ done, p.length ≤ Reading.maxProtobufSize ∧ Fits pb p) ∧
    ys ++ out.outputBuffer = done.flatMap (reply pb)

structure Dead (c : EpollConnection) (out : Output) : Prop where
  running : c.running = false
  sending : out.running = false

/-- A whole payload does not wait. -/
def Drained (c : EpollConnection) : Prop :=
  (c.lengthRead = false → c.inputBuffer.length < 4) ∧
    (c.lengthRead = true → c.inputBuffer.length < 4 ∨ c.inputBuffer.length < c.expectedLength)

/-- A state of the loop. -/
def InLoop (pb : Protobuf) (xs ys : List UInt8) (s : Serving) : Prop :=
  Live pb xs ys s.reading.conn s.out ∧ (s.reading.status = .looping ∨ s.reading.status = .broken ∧
    s.reading.conn.lengthRead = true ∧ s.reading.conn.inputBuffer.length < s.reading.conn.expectedLength) ∨
  Dead s.reading.conn s.out

theorem readLength_cases {s : Reading} (hrun : s.conn.running = true)
    (hdue : s.conn.lengthRead = true → s.conn.expectedLength ≤ Reading.maxProtobufSize)
    (hlen : 4 ≤ s.conn.inputBuffer.length) :
    (s.readLength.conn.running = true ∧ s.readLength.conn.lengthRead = true ∧
      s.readLength.conn.expectedLength ≤ Reading.maxProtobufSize ∧ pending s.readLength.conn = pending s.conn ∧
      s.readLength.effects = s.effects ∧ s.readLength.status = s.status) ∨
    (s.readLength.conn.running = false ∧ s.readLength.effects = s.effects ++ [.shutdown .frameLength] ∧
      s.readLength.status = .returned) := by
  unfold Reading.readLength
  split_ifs with hread
  · exact Or.inl ⟨hrun,hread,hdue hread,rfl,rfl,rfl⟩
  · dsimp only
    split_ifs with hmax
    · right
      simp [Reading.shutdown, Reading.leave, Reading.emit, hrun]
    · refine Or.inl ⟨hrun,rfl,not_lt.mp hmax,?_,rfl,rfl⟩
      simp only [pending, hread, if_true]
      exact htonl_be32 hlen

theorem shutdown_running (s : Reading) (why : CloseReason) : (s.shutdown why).conn.running = false := by
  unfold Reading.shutdown
  split
  · rfl
  · rename_i hrun
    simpa using hrun

theorem serveRound_inLoop {s t : Serving} (hs : InLoop pb xs ys s) (h : serveRound pb s = some t) :
    InLoop pb xs ys t := by
  obtain ⟨r,hr,rfl⟩ := Option.map_eq_some_iff.mp h
  unfold Reading.protobufRound at hr
  split at hr
  · cases hr
  rename_i hgo
  simp only [not_or, not_not, not_lt, Bool.not_eq_false] at hgo
  obtain ⟨hstatus,hlen,hrun⟩ := hgo
  cases hr
  rcases hs with ⟨hlive,-⟩ | hdead
  · obtain ⟨done,hxs,hdone,hout⟩ := hlive.stream
    rcases readLength_cases hlive.running hlive.due hlen with ⟨hrun',hread,hmax,hpending,heff,hst⟩ | ⟨hclosed,heff,hst⟩
    · unfold Reading.takePayload
      rw [hst, hstatus, if_neg (by decide)]
      split_ifs with hwhole
      · have hsplit : pending s.reading.readLength.conn =
            frame (s.reading.readLength.conn.inputBuffer.take s.reading.readLength.conn.expectedLength) ++
              s.reading.readLength.conn.inputBuffer.drop s.reading.readLength.conn.expectedLength := by
          rw [pending, if_pos hread, frame, List.length_take_of_le hwhole, List.append_assoc, List.take_append_drop]
        have hsize : (s.reading.readLength.conn.inputBuffer.take s.reading.readLength.conn.expectedLength).length ≤
            Reading.maxProtobufSize := by
          rwa [List.length_take_of_le hwhole]
        rw [hpending] at hsplit
        simp only [Reading.emit, heff, List.drop_left, List.foldl_cons, List.foldl_nil, perform, handlePayload_eq]
        generalize s.reading.readLength.conn.inputBuffer.take s.reading.readLength.conn.expectedLength = payload
          at hsplit hsize ⊢
        rcases Output.send_cases hlive.sending (reply pb payload) with ⟨hfits,hsent⟩ | hclosed
        · left
          rw [hsent]
          simp only [hlive.sending, if_true]
          refine ⟨⟨hrun',rfl,by simp,done ++ [payload],?_,?_,?_⟩,Or.inl trivial⟩
          · rw [hxs, hsplit, frames_append, List.append_assoc]
            simp [frames, pending]
          · intro p hp
            rcases List.mem_append.mp hp with hp | hp
            · exact hdone p hp
            · rw [List.mem_singleton.mp hp]
              exact ⟨hsize,hfits⟩
          · rw [← List.append_assoc, hout, List.flatMap_append, List.flatMap_singleton]
        · right
          simp only [hclosed]
          exact ⟨shutdown_running _ _,hclosed⟩
      · left
        simp only [Reading.leave, heff, List.drop_length, List.foldl_nil, hlive.sending, if_true]
        exact ⟨⟨hrun',hlive.sending,fun _ => hmax,done,hpending ▸ hxs,hdone,hout⟩,
          Or.inr ⟨trivial,hread,not_le.mp hwhole⟩⟩
    · right
      have htake : s.reading.readLength.takePayload = s.reading.readLength := by
        unfold Reading.takePayload
        rw [if_pos hst]
      have hclose : (perform pb s.out (.shutdown .frameLength)).running = false := Output.shutdown_running _
      simp only [htake, heff, List.drop_left, List.foldl_cons, List.foldl_nil, hclose]
      exact ⟨shutdown_running _ _,hclose⟩
  · rw [hdead.running] at hrun
    cases hrun

theorem serveRound_decreases (pb : Protobuf) :
    Loop.Decreases (serveRound pb) (fun s => s.reading.protobufMeasure) := by
  intro s t h
  obtain ⟨r,hr,rfl⟩ := Option.map_eq_some_iff.mp h
  have hless := Reading.protobufRound_decreases _ _ hr
  have hshutdown : (r.shutdown .overflow).protobufMeasure ≤ r.protobufMeasure := by
    unfold Reading.shutdown Reading.protobufMeasure
    split
    · by_cases hloop : r.status = .looping
      · simp only [Reading.emit, hloop, if_true, List.length_nil]
        omega
      · simp [Reading.emit, hloop]
    · exact le_rfl
  dsimp only
  split
  · exact hless
  · exact lt_of_le_of_lt hshutdown hless

/-- A read decodes and answers the whole frames there are, or the connection is closed. -/
theorem serve_live (hlive : Live pb xs ys c out) :
    (Live pb xs ys (serve pb { reading := { conn := c }, out }).reading.conn (serve pb { reading := { conn := c }, out }).out ∧
      Drained (serve pb { reading := { conn := c }, out }).reading.conn) ∨
    Dead (serve pb { reading := { conn := c }, out }).reading.conn (serve pb { reading := { conn := c }, out }).out := by
  have hdec := serveRound_decreases pb
  have hend := Loop.run_invariant hdec (fun _ _ hs h => serveRound_inLoop hs h)
    (Or.inl ⟨hlive,Or.inl rfl⟩ : InLoop pb xs ys { reading := { conn := c }, out })
  have hlast := Loop.body_run hdec { reading := { conn := c }, out }
  refine hend.imp_left (fun ⟨hlive,hstatus⟩ => ⟨hlive,?_⟩)
  have hshort : ∀ {s : Serving}, serveRound pb s = none → s.reading.status = .looping → s.reading.conn.running = true →
      s.reading.conn.inputBuffer.length < 4 := by
    intro s hnone hlooping hrun
    by_contra hlen
    simp [serveRound, Reading.protobufRound, hlooping, hrun, hlen] at hnone
  rcases hstatus with hlooping | ⟨-,hread,hless⟩
  · have hlen := hshort hlast hlooping hlive.running
    exact ⟨fun _ => hlen,fun _ => Or.inl hlen⟩
  · exact ⟨fun hfresh => absurd hread (by rw [serve] at hfresh; simp [hfresh]),fun _ => Or.inr hless⟩

theorem protobufRound_grows {s t : Reading} (h : s.protobufRound = some t) : s.effects <+: t.effects := by
  have hread : s.effects <+: s.readLength.effects := by
    unfold Reading.readLength
    split_ifs
    · exact List.prefix_rfl
    · dsimp only
      split_ifs
      · unfold Reading.shutdown
        split
        · exact List.prefix_append _ _
        · exact List.prefix_rfl
      · exact List.prefix_rfl
  unfold Reading.protobufRound at h
  split at h
  · cases h
  cases h
  unfold Reading.takePayload
  split_ifs
  · exact hread
  · exact hread.trans (List.prefix_append _ _)
  · exact hread

theorem handleProtobuf_grows (s : Reading) : s.effects <+: s.handleProtobuf.effects :=
  Loop.run_invariant Reading.protobufRound_decreases (I := fun t => s.effects <+: t.effects)
    (fun _ _ hs h => hs.trans (protobufRound_grows h)) List.prefix_rfl

theorem perform_closed (h : out.running = false) (e : Effect) : perform pb out e = out := by
  cases e with
  | decode payload => exact (handlePayload_eq payload).trans (Output.send_closed h _)
  | shutdown why => simp [perform, Output.shutdown, h]
  | _ => rfl

theorem foldl_perform_closed (h : out.running = false) (log : List Effect) : log.foldl (perform pb) out = out := by
  induction log with
  | nil => rfl
  | cons e log ih => rw [List.foldl_cons, perform_closed h, ih]

theorem serve_closed {s : Serving} (h : s.out.running = false) : (serve pb s).out.running = false :=
  Loop.run_invariant (serveRound_decreases pb) (I := fun t : Serving => t.out.running = false)
    (fun s t hs ht => by
      obtain ⟨r,-,rfl⟩ := Option.map_eq_some_iff.mp ht
      simp only [foldl_perform_closed hs, hs]) h

/-- Unless an answer overflows the output buffer, the loop is that of `handle_protobuf`, and the answers are sent
behind it. -/
theorem serve_eq (s : Serving) : (serve pb s).out.running = true → (serve pb s).reading = s.reading.handleProtobuf ∧
    (serve pb s).out = (s.reading.handleProtobuf.effects.drop s.reading.effects.length).foldl (perform pb) s.out := by
  refine Loop.run_induction (serveRound_decreases pb) (motive := fun s => (serve pb s).out.running = true →
    (serve pb s).reading = s.reading.handleProtobuf ∧
    (serve pb s).out = (s.reading.handleProtobuf.effects.drop s.reading.effects.length).foldl (perform pb) s.out) ?_ ?_ s
  · intro s hnone hopen
    have hleft : s.reading.protobufRound = none := Option.map_eq_none_iff.mp hnone
    rw [serve, Loop.run_of_none hnone, Reading.handleProtobuf, Loop.run_of_none hleft, List.drop_length]
    exact ⟨rfl,rfl⟩
  · intro s t hround ih hopen
    have hstep : serve pb s = serve pb t := Loop.run_of_some (serveRound_decreases pb) hround
    rw [hstep] at hopen ⊢
    have htout : t.out.running = true := by
      by_contra hclosed
      rw [serve_closed (by simpa using hclosed)] at hopen
      cases hopen
    obtain ⟨hreading,hout⟩ := ih hopen
    obtain ⟨r,hr,ht⟩ := Option.map_eq_some_iff.mp hround
    have hsent : t.out = (r.effects.drop s.reading.effects.length).foldl (perform pb) s.out := by rw [← ht]
    have hsame : t.reading = r := by
      rw [← ht]
      exact if_pos (hsent ▸ htout)
    have hloop : s.reading.handleProtobuf = r.handleProtobuf := Loop.run_of_some Reading.protobufRound_decreases hr
    rw [hsame] at hreading hout
    refine ⟨hreading.trans hloop.symm,hout.trans ?_⟩
    obtain ⟨new,hnew⟩ := protobufRound_grows hr
    obtain ⟨later,hlater⟩ := handleProtobuf_grows r
    rw [hloop, ← hlater, List.drop_left, hsent, ← hnew, List.drop_left, List.append_assoc, List.drop_left,
      List.foldl_append]

/-- So a read of the session is one of `handle_read`. -/
theorem read_eq {s : Server} {h : Handlers} {chunk : List UInt8} (hrun : s.conn.running = true) (hchunk : chunk ≠ [])
    (hprotocol : s.conn.protocol = some .protobuf) (hhttp : s.conn.httpHandler = false)
    (hopen : (s.read pb chunk).out.running = true) : s.read pb chunk =
      { conn := (s.conn.handleRead h chunk).conn, out := (s.conn.handleRead h chunk).effects.foldl (perform pb) s.out } := by
  have hread : s.conn.handleRead h chunk =
      Reading.handleProtobuf { conn := { s.conn with inputBuffer := s.conn.inputBuffer ++ chunk } } := by
    unfold handleRead EpollConnection.protocolDetected Reading.handleProtocol
    simp [hrun, hprotocol, hhttp, hchunk]
  obtain ⟨hreading,hout⟩ := serve_eq _ hopen
  rw [hread, Server.read, hreading, hout, List.length_nil, List.drop_zero]

theorem payloads_pending (hmax : c.lengthRead = true → c.expectedLength ≤ Reading.maxProtobufSize)
    (hfresh : c.lengthRead = false → c.inputBuffer.length < 4)
    (hread : c.lengthRead = true → c.inputBuffer.length < c.expectedLength) :
    payloads Reading.maxProtobufSize (pending c) = [] := by
  unfold pending
  split_ifs with hlength
  · have hbe := be32_htonl (lt_of_le_of_lt (hmax hlength) (by decide)) c.inputBuffer
    have hdrop : (htonl c.expectedLength ++ c.inputBuffer).drop 4 = c.inputBuffer := rfl
    rw [payloads, hbe, hdrop, if_pos (Or.inr (Or.inr (hread hlength)))]
  · rw [payloads, if_pos (Or.inl (hfresh (by simpa using hlength)))]

theorem Live.served_eq (hlive : Live pb xs ys c out) : ∃ later, served pb xs = ys ++ out.outputBuffer ++ later ∧
    (payloads Reading.maxProtobufSize (pending c) = [] → later = []) := by
  obtain ⟨done,hxs,hdone,hout⟩ := hlive.stream
  have hall : (payloads Reading.maxProtobufSize xs).takeWhile (fun p => decide (Fits pb p)) =
      done ++ (payloads Reading.maxProtobufSize (pending c)).takeWhile (fun p => decide (Fits pb p)) := by
    rw [hxs, payloads_frames (fun p hp => (hdone p hp).1) (by decide)]
    exact List.takeWhile_append_of_pos (fun p hp => decide_eq_true (hdone p hp).2)
  refine ⟨((payloads Reading.maxProtobufSize (pending c)).takeWhile (fun p => decide (Fits pb p))).flatMap (reply pb),
    ?_,fun hnone => ?_⟩
  · rw [served, hall, List.flatMap_append, hout]
  · rw [hnone]
    rfl

theorem Live.more (hlive : Live pb xs ys c out) (chunk : List UInt8) :
    Live pb (xs ++ chunk) ys { c with inputBuffer := c.inputBuffer ++ chunk } out := by
  obtain ⟨done,hxs,hdone,hout⟩ := hlive.stream
  refine ⟨hlive.running,hlive.sending,hlive.due,done,?_,hdone,hout⟩
  rw [hxs, List.append_assoc]
  unfold pending
  split_ifs <;> simp

/-- The frames the server has read are answered on the wire or in the output buffer, unless the connection is closed. -/
structure Serves (pb : Protobuf) (xs ys : List UInt8) (s : Server) : Prop where
  wire : ys <+: served pb xs
  open_ : s.conn.running = true → Live pb xs ys s.conn s.out ∧ Drained s.conn
  closed : s.conn.running = false → s.out.running = false

theorem step_serves {chunk o : List UInt8} {s t : Server} {act : ServerAct} (hs : Serves pb xs ys s)
    (h : s.step pb act chunk = some (t,o)) : Serves pb (xs ++ chunk) (ys ++ o) t := by
  cases act with
  | read =>
    simp only [Server.step] at h
    split_ifs at h with hgo
    cases h
    have hlive := (hs.open_ hgo.1).1.more chunk
    have hwire := hs.wire.trans (served_monotone xs chunk)
    rw [List.append_nil]
    rcases serve_live hlive with ⟨hlive,hdrained⟩ | hdead
    · exact ⟨hwire,fun _ => ⟨hlive,hdrained⟩,fun hclosed => absurd (hlive.running.symm.trans hclosed) (by decide)⟩
    · exact ⟨hwire,fun hopen => absurd (hdead.running.symm.trans hopen) (by decide),fun _ => hdead.sending⟩
  | write n =>
    cases chunk with
    | cons _ _ => cases h
    | nil =>
      simp only [Server.step] at h
      split_ifs at h with hgo
      cases h
      have hopen : s.conn.running = true := by
        by_contra hclosed
        rw [hs.closed (by simpa using hclosed)] at hgo
        cases hgo.1
      obtain ⟨hlive,hdrained⟩ := hs.open_ hopen
      obtain ⟨done,hxs,hdone,hout⟩ := hlive.stream
      have hmoved : ys ++ s.out.outputBuffer.take n ++ s.out.outputBuffer.drop n = ys ++ s.out.outputBuffer := by
        rw [List.append_assoc, List.take_append_drop]
      rw [List.append_nil]
      refine ⟨?_,fun _ => ⟨⟨hopen,hgo.1,hlive.due,done,hxs,hdone,hmoved.trans hout⟩,hdrained⟩,fun hclosed => ?_⟩
      · obtain ⟨later,hserved,-⟩ := hlive.served_eq
        rw [hserved, ← hmoved, List.append_assoc _ _ later]
        exact List.prefix_append _ _
      · exact absurd (hopen.symm.trans hclosed) (by decide)
  | close why =>
    cases chunk with
    | cons _ _ => cases h
    | nil =>
      cases h
      rw [List.append_nil, List.append_nil]
      refine ⟨hs.wire,fun hopen => ?_,fun _ => Output.shutdown_running _⟩
      exact absurd ((shutdown_running _ _).symm.trans hopen) (by decide)

theorem server_realizes (pb : Protobuf) : Realizes (server pb) (served pb) := by
  refine realizes_of_invariant (Serves pb) ⟨List.nil_prefix,fun _ => ⟨⟨rfl,rfl,fun h => (by cases h),[],rfl,by simp,rfl⟩,?_⟩,
    fun h => (by cases h)⟩ (fun _ _ _ _ _ _ _ hs h => step_serves hs h) ?_
  · exact ⟨fun _ => (by decide : ([] : List UInt8).length < 4),fun h => (by cases h)⟩
  · intro xs ys s hs
    refine ⟨hs.wire,?_⟩
    rintro ⟨hrun,hempty,hwaits⟩
    obtain ⟨hlive,hdrained⟩ := hs.open_ hrun
    obtain ⟨later,hserved,hnone⟩ := hlive.served_eq
    rw [hserved, hempty, List.append_nil, hnone (payloads_pending hlive.due hdrained.1 hwaits), List.append_nil]

end Server

section Client
variable {pb : Protobuf} {c d : Client} {rs : List Recv}

theorem sendPayload_wire {ps chunk : List (List UInt8)} {wire o : List UInt8} {script : List SysResult}
    (hs : c.connected = true → wire = frames ps) (hconnected : wire <+: frames ps)
    (h : sendPayload c script chunk = some (d,o)) :
    wire ++ o <+: frames (ps ++ chunk) ∧ (d.connected = true → wire ++ o = frames (ps ++ chunk)) := by
  unfold sendPayload at h
  split at h
  · rename_i payload
    obtain ⟨⟨d',o',outcome⟩,hsent,heq⟩ := Option.map_eq_some_iff.mp h
    cases heq
    rw [frames_append]
    by_cases hopen : c.connected = true
    · obtain ⟨hfront,hall,hstill⟩ := sendProtobuf_spec hopen hsent
      rw [hs hopen]
      have hone : frames [payload] = frame payload := by simp [frames]
      rw [hone]
      exact ⟨(List.prefix_append_right_inj _).mpr hfront,fun hd => by rw [hall.mp (hstill.mp hd)]⟩
    · rw [NetUtils.sendProtobuf, if_pos (by simpa using hopen)] at hsent
      cases hsent
      rw [List.append_nil]
      exact ⟨hconnected.trans (List.prefix_append _ _),fun hd => absurd hd hopen⟩
  · cases h

theorem sender_realizes : Realizes sender frames :=
  realizes_of_invariant (fun ps wire (c : Client) => wire <+: frames ps ∧ (c.connected = true → wire = frames ps))
    ⟨List.prefix_rfl,fun _ => rfl⟩ (fun _ _ _ _ _ _ _ hs h => sendPayload_wire hs.2 hs.1 h) (fun _ _ _ hs => hs)

theorem receiveProtobuf_takes {outcome : Except Failure (Reply Response)}
    (h : c.receiveProtobuf pb.parseResponse rs = some (d,outcome)) :
    (∃ payload, payload.length ≤ Client.maxResponseSize ∧ frame payload ++ d.socket = c.socket ∧
      results outcome = [parsed pb payload]) ∨ d.connected = false ∧ results outcome = [] := by
  unfold Client.receiveProtobuf at h
  split at h
  · cases h
  · cases h
    exact Or.inr ⟨rfl,rfl⟩
  · rename_i read rest length hlength
    obtain ⟨_,rfl,hfour,hsocket,-⟩ := Client.readn_spec hlength
    have hlength' : htonl (Reading.be32 length) = length := by
      have hsplit := htonl_be32 hfour.ge
      rwa [List.drop_eq_nil_of_le hfour.le, List.append_nil] at hsplit
    unfold Client.receivePayload at h
    dsimp only at h
    split_ifs at h with hlarge hempty
    · cases h
      exact Or.inr ⟨rfl,rfl⟩
    · cases h
      refine Or.inl ⟨[],Nat.zero_le _,?_,rfl⟩
      rw [frame, List.length_nil, List.append_nil, ← hempty, hlength', hsocket]
    · split at h
      · cases h
      · cases h
        exact Or.inr ⟨rfl,rfl⟩
      · rename_i d' _ payload hpayload
        obtain ⟨_,rfl,hlen,hrest,-⟩ := Client.readn_spec hpayload
        have hframe : frame payload = length ++ payload := by rw [frame, hlen, hlength']
        have htaken : frame payload ++ d'.socket = c.socket := by rw [hframe, List.append_assoc, hrest, hsocket]
        have hparsed : parsed pb payload = pb.parseResponse payload := if_neg (by
          rintro rfl
          exact hempty hlen.symm)
        left
        cases hvalue : pb.parseResponse payload with
        | none =>
          rw [hvalue] at h
          cases h
          exact ⟨payload,hlen.le.trans (not_lt.mp hlarge),htaken,by rw [hparsed, hvalue]; rfl⟩
        | some value =>
          rw [hvalue] at h
          cases h
          exact ⟨payload,hlen.le.trans (not_lt.mp hlarge),htaken,by rw [hparsed, hvalue]; rfl⟩

theorem responses_frame {payload : List UInt8} (hmax : payload.length ≤ Client.maxResponseSize) (rest : List UInt8) :
    responses pb (frame payload ++ rest) = parsed pb payload :: responses pb rest := by
  rw [responses, payloads_frame (lt_of_le_of_lt hmax (by decide)), if_pos hmax, List.map_cons, responses]

/-- While the client is connected, what it has read ends with a whole frame. -/
def Receives (pb : Protobuf) (xs : List UInt8) (outcomes : List (Option Response)) (c : Client) : Prop :=
  outcomes <+: responses pb xs ∧
    (c.connected = true → ∀ rest, responses pb (xs ++ rest) = outcomes ++ responses pb rest)

theorem nextResponse_receives {xs chunk : List UInt8} {outcomes o : List (Option Response)} (hs : Receives pb xs outcomes c)
    (h : nextResponse pb c rs chunk = some (d,o)) : Receives pb (xs ++ chunk) (outcomes ++ o) d := by
  unfold nextResponse at h
  split_ifs at h with hclosed
  have hall := hs.2 (by simpa using hclosed)
  split at h
  · rename_i d' outcome hcall
    split_ifs at h with hsocket
    cases h
    rcases receiveProtobuf_takes hcall with ⟨payload,hmax,htaken,hresult⟩ | ⟨hdisconnected,hnone⟩
    · rw [hsocket, List.append_nil] at htaken
      have hlater : ∀ rest, responses pb (xs ++ chunk ++ rest) = outcomes ++ results outcome ++ responses pb rest := by
        intro rest
        change frame payload = chunk at htaken
        rw [List.append_assoc, hall, ← htaken, responses_frame hmax, hresult, List.append_assoc, List.singleton_append]
      refine ⟨?_,fun _ => hlater⟩
      have hnow := hlater []
      rw [List.append_nil] at hnow
      exact hnow ▸ List.prefix_append _ _
    · rw [hnone, List.append_nil]
      refine ⟨hs.1.trans (responses_monotone pb xs chunk),fun hopen => ?_⟩
      exact absurd (hdisconnected.symm.trans hopen) (by decide)
  · cases h

theorem receiver_realizes (pb : Protobuf) : Realizes (receiver pb) (responses pb) := by
  have hnil : responses pb [] = [] := by
    rw [responses, payloads, if_pos (Or.inl (by decide)), List.map_nil]
  refine realizes_of_invariant (Receives pb) ⟨List.nil_prefix,fun _ _ => rfl⟩
    (fun _ _ _ _ _ _ _ hs h => nextResponse_receives hs h) ?_
  intro xs outcomes c hs
  refine ⟨hs.1,fun hopen => ?_⟩
  have hall := hs.2 hopen []
  rw [List.append_nil, hnil, List.append_nil] at hall
  exact hall.symm

end Client

/-- The server takes a payload and its answer fits into the output buffer. -/
def Accepts (pb : Protobuf) (payload : List UInt8) : Prop :=
  payload.length ≤ Reading.maxProtobufSize ∧ Fits pb payload

instance (pb : Protobuf) : DecidablePred (Accepts pb) := fun _ => inferInstanceAs (Decidable (_ ∧ _))

/-- What comes back for a payload: nothing if the response cannot be serialized. -/
def answer (pb : Protobuf) (payload : List UInt8) : List (Option Response) :=
  (pb.serializeResponse (respond pb payload)).toList.map pb.parseResponse

/-- The payloads are answered up to the first one that the server does not accept. -/
def answers (pb : Protobuf) (ps : List (List UInt8)) : List (Option Response) :=
  (ps.takeWhile (fun p => decide (Accepts pb p))).flatMap (answer pb)

section Session
variable {pb : Protobuf}

theorem serialized_ne_nil (hpb : pb.Standard) {payload serialized : List UInt8}
    (h : pb.serializeResponse (respond pb payload) = some serialized) : serialized ≠ [] := by
  rintro rfl
  have hsize := hpb.size _ _ h
  have hpos : 0 < (respond pb payload).byteSize := by
    have hcode : (respond pb payload).code ≠ 0 := by
      rcases respond_code pb payload with h | h | h <;> rw [h] <;> decide
    unfold Response.byteSize
    rw [if_neg hcode]
    omega
  rw [List.length_nil] at hsize
  omega

theorem responses_reply (hpb : pb.Standard) {payload : List UInt8} (hfits : Fits pb payload) (rest : List UInt8) :
    responses pb (reply pb payload ++ rest) = answer pb payload ++ responses pb rest := by
  unfold Fits reply frameOf at hfits
  unfold reply frameOf answer
  cases hser : pb.serializeResponse (respond pb payload) with
  | none => rfl
  | some serialized =>
    have hne := serialized_ne_nil hpb hser
    rw [hser] at hfits
    dsimp only at hfits ⊢
    rw [if_neg hne] at hfits ⊢
    have hmax : serialized.length ≤ Client.maxResponseSize := by
      rw [frame, List.length_append, maxBufferSize] at hfits
      rw [Client.maxResponseSize]
      omega
    rw [responses_frame hmax, parsed, if_neg hne]
    rfl

theorem responses_replies (hpb : pb.Standard) {ps : List (List UInt8)} (hfits : ∀ p ∈ ps, Fits pb p) :
    responses pb (ps.flatMap (reply pb)) = ps.flatMap (answer pb) := by
  induction ps with
  | nil =>
    rw [List.flatMap_nil, List.flatMap_nil, responses, payloads, if_pos (Or.inl (by decide)), List.map_nil]
  | cons p ps ih =>
    rw [List.flatMap_cons, responses_reply hpb (hfits p List.mem_cons_self),
      ih (fun q hq => hfits q (List.mem_cons_of_mem p hq)), List.flatMap_cons]

theorem responses_served_frames (hpb : pb.Standard) {ps : List (List UInt8)} (hps : ∀ p ∈ ps, p.length < 2 ^ 32) :
    responses pb (served pb (frames ps)) = answers pb ps := by
  have hall : (payloads Reading.maxProtobufSize (frames ps)).takeWhile (fun p => decide (Fits pb p)) =
      ps.takeWhile (fun p => decide (Accepts pb p)) := by
    rw [payloads_frames_takeWhile hps, List.takeWhile_takeWhile]
    congr
    funext p
    exact decide_eq_decide.mpr (by simp only [decide_eq_true_eq, Accepts, and_comm])
  rw [served, hall, answers]
  refine responses_replies hpb (fun p hp => ?_)
  have haccepts := List.mem_takeWhile_imp hp
  exact (of_decide_eq_true haccepts).2

theorem session_realizes (pb : Protobuf) : Realizes (session pb) (responses pb ∘ served pb ∘ frames) := by
  have hanswers := (channel_realizes UInt8).comp (receiver_realizes pb) (responses_monotone pb)
  have hmono := (responses_monotone pb).comp (monotone_id (I := UInt8))
  have hserved := (server_realizes pb).comp hanswers hmono
  have hsent := (channel_realizes UInt8).comp hserved (hmono.comp served_monotone)
  exact sender_realizes.comp hsent ((hmono.comp served_monotone).comp monotone_id)

theorem answers_eq (hpb : pb.Standard) {ps : List (List UInt8)} (h : ∀ p ∈ ps, ValidUtf8 (respond pb p).message) :
    answers pb ps = (ps.takeWhile (fun p => decide (Accepts pb p))).map (fun p => some (respond pb p)) := by
  have hone : ∀ p ∈ ps, answer pb p = [some (respond pb p)] := by
    intro p hp
    have hlow : -2 ^ 31 ≤ (respond pb p).code ∧ (respond pb p).code < 2 ^ 31 := by
      rcases respond_code pb p with h | h | h <;> rw [h] <;> decide
    obtain ⟨serialized,hser,hparse⟩ := hpb.undoes _ hlow.1 hlow.2 (h p hp)
    rw [answer, hser, Option.toList_some, List.map_singleton, hparse]
  rw [answers, List.flatMap_congr (fun p hp => hone p ((List.takeWhile_prefix _).subset hp)), List.map_eq_flatMap]

/-- However the steps of client, server and network are interleaved and the streams are cut: what the calls of
`receive_protobuf` have returned are the answers to the payloads, in order and from the first one on. When nothing is
under way and both ends are connected, they are all of them. -/
theorem protobuf_session (hpb : pb.Standard) {as : List ((session pb).Act × List (List UInt8))} {t : (session pb).State}
    {outcomes : List (Option Response)} (hps : ∀ p ∈ input as, p.length < 2 ^ 32)
    (h : run (session pb) (session pb).start as = some (t,outcomes)) :
    outcomes <+: answers pb (input as) ∧ ((session pb).Idle t → outcomes = answers pb (input as)) ∧
    ((∀ p ∈ input as, ValidUtf8 (respond pb p).message) → answers pb (input as) =
      ((input as).takeWhile (fun p => decide (Accepts pb p))).map (fun p => some (respond pb p))) := by
  obtain ⟨hpre,hidle⟩ := session_realizes pb as t outcomes h
  rw [Function.comp_apply, Function.comp_apply, responses_served_frames hpb hps] at hpre hidle
  exact ⟨hpre,hidle,answers_eq hpb⟩

end Session

section Ping

def ping : List UInt8 := [0x0a,4] ++ bytes "PING"

def pong : List UInt8 := [8,200,1,18,4] ++ bytes "PONG"

/-- The generated classes, with their values for one request looked up. -/
def tabled : Protobuf where
  parseRequest s := if s = ping then some { method := bytes "PING" } else generated.parseRequest s
  serializeResponse resp :=
    if resp = { code := 200, message := bytes "PONG" } then some pong else generated.serializeResponse resp
  parseResponse s := if s = pong then some { code := 200, message := bytes "PONG" } else generated.parseResponse s

theorem generated_pong : generated.serializeResponse { code := 200, message := bytes "PONG" } = some pong := by
  have hcode : varint (int32Bits 200) = [200,1] := by
    rw [int32Bits, varint, if_neg (by decide), varint, if_pos (by decide)]
    rfl
  have hsmall : ∀ {n : ℕ}, n < 128 → varint n = [UInt8.ofNat n] := fun h => by rw [varint, if_pos h]
  change some (encodeField (1,.varint (int32Bits 200)) ++ (encodeField (2,.bytes (bytes "PONG")) ++ [])) = some pong
  simp only [encodeField, hcode, hsmall (show 8 * 1 < 128 by decide), hsmall (show 8 * 2 + 2 < 128 by decide),
    hsmall (show (bytes "PONG").length < 128 by decide)]
  rfl

theorem tabled_eq : tabled = generated := by
  have hvalid : ∀ word : List UInt8, word.all (· < 128) = true → ValidUtf8 word :=
    fun _ h => validUtf8_ascii (by simpa using h)
  have hping : generated.parseRequest ping = some { method := bytes "PING" } := by
    have hdecode : decode ping = some [(1,.bytes (bytes "PING"))] := by decide
    have hparse : ∀ s, generated.parseRequest s = (decode s).bind (fun fs => fs.foldlM readRequestField {}) := fun _ => rfl
    rw [hparse, hdecode]
    simp [readRequestField, hvalid (bytes "PING") (by decide)]
  have hpong : generated.parseResponse pong = some { code := 200, message := bytes "PONG" } := by
    obtain ⟨serialized,hser,hparse⟩ := generated_standard.undoes { code := 200, message := bytes "PONG" }
      (show (-2 ^ 31 : ℤ) ≤ 200 by norm_num) (show (200 : ℤ) < 2 ^ 31 by norm_num) (hvalid (bytes "PONG") (by decide))
    rw [generated_pong] at hser
    cases hser
    exact hparse
  unfold tabled
  congr
  · funext s
    split_ifs with h
    · exact ((congrArg generated.parseRequest h).trans hping).symm
    · rfl
  · funext resp
    split_ifs with h
    · exact ((congrArg generated.serializeResponse h).trans generated_pong).symm
    · rfl
  · funext s
    split_ifs with h
    · exact ((congrArg generated.parseResponse h).trans hpong).symm
    · rfl

/-- The frame of a request is cut inside of its length and inside of its payload. -/
def pinged : List ((session tabled).Act × List (List UInt8)) :=
  [(.both [.moved 4,.interrupted,.moved 6] (.left (.pass 0)),[ping]),
    (.right (.both (.pass 3) (.left .read)),[]),
    (.right (.both (.pass 5) (.left .read)),[]),
    (.right (.both (.pass 2) (.left .read)),[]),
    (.right (.right (.both (.write 5) (.left (.pass 0)))),[]),
    (.right (.right (.both (.write 8) (.left (.pass 0)))),[]),
    (.right (.right (.right (.both (.pass 13) [.bytes 4,.eintr,.bytes 9]))),[])]

theorem protobuf_session_ping : tabled = generated ∧ ∃ t, run (session tabled) (session tabled).start pinged =
      some (t,[some { code := 200, message := bytes "PONG" }]) ∧ (session tabled).Idle t ∧
    [some { code := 200, message := bytes "PONG" }] = answers tabled (input pinged) := by
  have hrun : ∃ t, run (session tabled) (session tabled).start pinged =
      some (t,[some { code := 200, message := bytes "PONG" }]) ∧ (session tabled).Idle t :=
    ⟨_,rfl,rfl,rfl,⟨rfl,rfl,fun h => (by cases h)⟩,rfl,rfl⟩
  obtain ⟨t,ht,hidle⟩ := hrun
  have hstandard : tabled.Standard := tabled_eq ▸ generated_standard
  exact ⟨tabled_eq,t,ht,hidle,(protobuf_session hstandard (by decide) ht).2.1 hidle⟩

end Ping

end ModernTcp.ProtobufSession
