import ModernTcp.Lib.Wire
import ModernTcp.Net.ProtobufRecognition
import ModernTcp.Net.TcpClient

/-! # The echo over protobuf

From the frame of an `ECHO` request through `handle_protobuf_request`, `send_protobuf` and `send` to
`TcpClient::receive_protobuf`. The answer carries the body twice, as bytes in `data` and as text in
`message`, behind `Echo: `. So it is larger than the limit of the request allows for, and its
`message` is text only if the body is. The protobuf library is a parameter.
-/
namespace ModernTcp.ProtobufEcho
open EpollConnection TcpClient Wire

/-- The fields of `moderncpp::Request` that the server reads. -/
structure Request where
  method : List UInt8 := []
  body : List UInt8 := []
deriving DecidableEq

structure Response where
  code : ℤ := 0
  message : List UInt8 := []
  data : List UInt8 := []
deriving DecidableEq, Inhabited

/-- `ParseFromString` and `SerializeToString` of the generated classes. -/
structure Protobuf where
  parseRequest : List UInt8 → Option Request
  serializeResponse : Response → Option (List UInt8)
  parseResponse : List UInt8 → Option Response

/-- The output side of the connection, with the contents of `output_buffer_` as a byte sequence. -/
structure Output where
  running : Bool := true
  outputBuffer : List UInt8 := []
deriving DecidableEq

def Output.shutdown (c : Output) : Output :=
  if c.running then { running := false, outputBuffer := [] } else c

/-- At an overflow `shutdown` is called with `buffer_mutex_` held: `running_` is cleared, and the lock fails or waits
for ever before `output_buffer_` is. The bytes that stay there are written by nobody any more, and are dropped here. -/
def Output.send (c : Output) (data : List UInt8) : Output :=
  if c.running = false ∨ data = [] then c
  else if maxBufferSize < c.outputBuffer.length + data.length then c.shutdown
  else { c with outputBuffer := c.outputBuffer ++ data }

section Output
variable {out : Output}

@[simp] theorem Output.shutdown_running (out : Output) : out.shutdown.running = false := by
  unfold Output.shutdown
  split
  · rfl
  · rename_i hrun
    simpa using hrun

theorem Output.send_closed (h : out.running = false) (data : List UInt8) : out.send data = out := by
  rw [Output.send, if_pos (Or.inl h)]

theorem Output.send_cases (hsending : out.running = true) (data : List UInt8) :
    (data.length ≤ maxBufferSize ∧ out.send data = { out with outputBuffer := out.outputBuffer ++ data }) ∨
    (out.send data).running = false := by
  unfold Output.send
  by_cases hempty : data = []
  · left
    rw [if_pos (Or.inr hempty), hempty, List.append_nil]
    exact ⟨Nat.zero_le _,rfl⟩
  · rw [if_neg (by simp [hsending, hempty])]
    split_ifs with hfull
    · right
      simp [Output.shutdown, hsending]
    · exact Or.inl ⟨by omega,rfl⟩

end Output

/-- What the connection does next. A write takes that many bytes from the output buffer. -/
inductive ServerAct
  | read
  | write (n : ℕ)
  | close (why : CloseReason)
deriving DecidableEq

section Server
variable (pb : Protobuf)

def sendProtobuf (c : Output) (respIn : Response) : Output :=
  let coded := if respIn.code = 0 then { respIn with code := 200 } else respIn
  let resp := if coded.message = [] then { coded with message := bytes "OK" } else coded
  match pb.serializeResponse resp with
  | none => c
  | some serialized =>
    let nonempty := if serialized = [] then bytes "empty" else serialized
    c.send (htonl nonempty.length ++ nonempty)

def sendProtobufError (c : Output) (code : ℤ) (msg : List UInt8) : Output :=
  sendProtobuf pb c { code := code, message := msg }

def handleProtobufRequest (c : Output) (req : Request) : Output :=
  let resp : Response := { code := 200, message := bytes "OK" }
  sendProtobuf pb c
    (if req.method = bytes "PING" then { resp with message := bytes "PONG" }
    else if req.method = bytes "ECHO" then { resp with data := req.body, message := bytes "Echo: " ++ req.body }
    else { resp with code := 404, message := bytes "Unknown method: " ++ req.method })

/-- What the loop of `handle_protobuf` does with a payload. -/
def handlePayload (c : Output) (payload : List UInt8) : Output :=
  match pb.parseRequest payload with
  | none => sendProtobufError pb c 400 (bytes "Invalid Protobuf")
  | some req => handleProtobufRequest pb c req

def perform (c : Output) : Effect → Output
  | .decode payload => handlePayload pb c payload
  | .shutdown _ => c.shutdown
  | _ => c

/-- A read of a connection in protobuf mode. -/
def serve (c : Output) (chunk : List UInt8) : Output :=
  (protobufStart.feedProtobuf chunk).effects.foldl (perform pb) c

end Server

/-- The size of a field with a number below 16, which is left out when it has its default. -/
def bytesFieldSize (b : List UInt8) : ℕ := if b = [] then 0 else 1 + varintSize b.length + b.length

/-- An `int32` is sent with the sign extended to 64 bits. -/
def int32Bits (code : ℤ) : ℕ := (code % 2 ^ 64).toNat

def Response.byteSize (resp : Response) : ℕ :=
  (if resp.code = 0 then 0 else 1 + varintSize (int32Bits resp.code)) + bytesFieldSize resp.message +
    bytesFieldSize resp.data

/-- What the generated code does with responses: `ParseFromString` undoes `SerializeToString` when the
string is UTF-8 and refuses the message when it is not, and the sizes are those of the wire format. -/
structure Protobuf.Standard (pb : Protobuf) : Prop where
  undoes : ∀ resp : Response, -2 ^ 31 ≤ resp.code → resp.code < 2 ^ 31 → ValidUtf8 resp.message →
    ∃ serialized, pb.serializeResponse resp = some serialized ∧ pb.parseResponse serialized = some resp
  refuses : ∀ resp serialized, ¬ ValidUtf8 resp.message → pb.serializeResponse resp = some serialized →
    pb.parseResponse serialized = none
  size : ∀ resp serialized, pb.serializeResponse resp = some serialized → serialized.length = resp.byteSize

/-- No error and no end of the stream while the client reads. -/
def Delivers (rs : List Recv) : Prop := ∀ r ∈ rs, r = .eintr ∨ ∃ n, r = .bytes n

/-- One frame is queued and the connection lives; whatever pieces the client reads it in,
`receive_protobuf` returns a response with code 200 and the body. -/
structure EchoAnswered (pb : Protobuf) (c : Output) (body : List UInt8) : Prop where
  alive : c.running = true
  queued : ∃ serialized, c.outputBuffer = frame serialized
  received : ∀ rs, Delivers rs → ∀ client outcome,
    Client.receiveProtobuf pb.parseResponse { socket := c.outputBuffer } rs = some (client,outcome) →
      ∃ length payload resp, outcome = .ok (.response length payload resp) ∧ resp.code = 200 ∧ resp.data = body
  returns : ∃ rs client outcome, Delivers rs ∧
    Client.receiveProtobuf pb.parseResponse { socket := c.outputBuffer } rs = some (client,outcome)

section Reading
variable {c d : Client} {rs rest : List Recv}

/-- Reading goes on until the bytes asked for are there, in whatever pieces they come. -/
theorem readn_delivers (got : List UInt8) {new later : List UInt8} {count : ℕ} (hrs : Delivers rs)
    (hsocket : c.socket = new ++ later) (hcount : new.length = count) :
    c.readn got count rs = none ∨ ∃ d rest, c.readn got count rs = some (d,rest,some (got ++ new)) ∧
      d.socket = later ∧ Delivers rest := by
  induction rs generalizing c got new count with
  | nil =>
    cases count with
    | zero =>
      obtain rfl := List.length_eq_zero_iff.mp hcount
      exact Or.inr ⟨c,[],by simp [Client.readn],hsocket,hrs⟩
    | succ count => exact Or.inl rfl
  | cons r rs ih =>
    have htail : Delivers rs := fun x hx => hrs x (List.mem_cons_of_mem r hx)
    cases count with
    | zero =>
      obtain rfl := List.length_eq_zero_iff.mp hcount
      exact Or.inr ⟨c,r :: rs,by simp [Client.readn],hsocket,hrs⟩
    | succ count =>
      rcases hrs r List.mem_cons_self with rfl | ⟨n,rfl⟩
      · simp only [Client.readn]
        exact ih got htail hsocket hcount
      · simp only [Client.readn]
        split_ifs with hoffers
        · obtain ⟨-,hn,-⟩ := hoffers
          have htake : c.socket.take n = new.take n := by
            rw [hsocket, List.take_append_of_le_length (by omega)]
          have hdrop : c.socket.drop n = new.drop n ++ later := by
            rw [hsocket, List.drop_append_of_le_length (by omega)]
          have hparts : got ++ c.socket.take n ++ new.drop n = got ++ new := by
            rw [htake, List.append_assoc, List.take_append_drop]
          rw [← hparts]
          exact ih _ htail hdrop (by rw [List.length_drop, hcount])
        · exact Or.inl rfl

variable {serialized : List UInt8}

theorem be32_htonl_alone {n : ℕ} (hn : n < 2 ^ 32) : Reading.be32 (htonl n) = n := by
  have hbe := be32_htonl hn []
  rwa [List.append_nil] at hbe

/-- What `receive_protobuf` makes of a frame, if it gets to the end of it. -/
theorem receiveProtobuf_frame (pb : Protobuf) (hrs : Delivers rs) (hsocket : c.socket = frame serialized) (hne : serialized ≠ [])
    (hmax : serialized.length ≤ Client.maxResponseSize) :
    c.receiveProtobuf pb.parseResponse rs = none ∨ ∃ d, c.receiveProtobuf pb.parseResponse rs =
      some (d,match pb.parseResponse serialized with
        | none => .error .parseFailed
        | some value => .ok (.response (htonl serialized.length) serialized value)) := by
  have hbe : Reading.be32 (htonl serialized.length) = serialized.length :=
    be32_htonl_alone (lt_of_le_of_lt hmax (by decide))
  have hpos : serialized.length ≠ 0 := fun h => hne (List.length_eq_zero_iff.mp h)
  unfold Client.receiveProtobuf
  rcases readn_delivers [] hrs hsocket rfl with hnone | ⟨d,rest,hread,hlater,hrest⟩
  · rw [htonl_length] at hnone
    rw [hnone]
    exact Or.inl rfl
  · rw [htonl_length, List.nil_append] at hread
    rw [hread]
    dsimp only [Client.receivePayload]
    rw [hbe, if_neg (not_lt.mpr hmax), if_neg hpos]
    have hsocket' : d.socket = serialized ++ [] := by rw [hlater, List.append_nil]
    rcases readn_delivers [] hrest hsocket' rfl with hnone | ⟨e,_,hpayload,-,-⟩
    · rw [hnone]
      exact Or.inl rfl
    · rw [List.nil_append] at hpayload
      rw [hpayload]
      dsimp only
      cases pb.parseResponse serialized with
      | none => exact Or.inr ⟨e,rfl⟩
      | some value => exact Or.inr ⟨e,rfl⟩

/-- One `read` gives all that was asked for. -/
theorem readn_at_once (got : List UInt8) {n : ℕ} (hpos : 0 < n) (havail : n ≤ c.socket.length) (rs : List Recv) :
    c.readn got n (.bytes n :: rs) = some ({ c with socket := c.socket.drop n },rs,some (got ++ c.socket.take n)) := by
  obtain ⟨m,rfl⟩ := Nat.exists_eq_succ_of_ne_zero (Nat.pos_iff_ne_zero.mp hpos)
  simp only [Client.readn]
  rw [if_pos ⟨hpos,le_refl _,havail⟩, Nat.sub_self, Client.readn]

theorem receiveProtobuf_returns (pb : Protobuf) (hsocket : c.socket = frame serialized) (hne : serialized ≠ [])
    (hmax : serialized.length ≤ Client.maxResponseSize) :
    ∃ rs d outcome, Delivers rs ∧ c.receiveProtobuf pb.parseResponse rs = some (d,outcome) := by
  have hrs : Delivers [.bytes 4,.bytes serialized.length] := by simp [Delivers]
  have hpos : 0 < serialized.length := List.length_pos_of_ne_nil hne
  have hlength : c.readn [] 4 [.bytes 4,.bytes serialized.length] =
      some ({ c with socket := serialized },[.bytes serialized.length],some (htonl serialized.length)) := by
    rw [readn_at_once [] (by decide) (by rw [hsocket, frame, List.length_append, htonl_length]; omega), hsocket]
    rfl
  have hsome : c.receiveProtobuf pb.parseResponse [.bytes 4,.bytes serialized.length] ≠ none := by
    unfold Client.receiveProtobuf
    rw [hlength]
    dsimp only [Client.receivePayload]
    rw [be32_htonl_alone (lt_of_le_of_lt hmax (by decide)), if_neg (not_lt.mpr hmax), if_neg hpos.ne',
      readn_at_once [] hpos (le_refl _)]
    dsimp only
    split <;> simp
  obtain ⟨⟨d,outcome⟩,heq⟩ := Option.ne_none_iff_exists'.mp hsome
  exact ⟨_,d,outcome,hrs,heq⟩

theorem answered_iff_parses (pb : Protobuf) (body : List UInt8) (hne : serialized ≠ [])
    (hmax : serialized.length ≤ Client.maxResponseSize) :
    EchoAnswered pb { outputBuffer := frame serialized } body ↔
      ∃ resp, pb.parseResponse serialized = some resp ∧ resp.code = 200 ∧ resp.data = body := by
  have hframe := fun (rs : List Recv) (hrs : Delivers rs) =>
    receiveProtobuf_frame (c := { socket := frame serialized }) pb hrs rfl hne hmax
  constructor
  · intro h
    obtain ⟨rs,d,outcome,hrs,heq⟩ := h.returns
    obtain ⟨_,_,resp,rfl,hcode,hdata⟩ := h.received rs hrs d outcome heq
    rcases hframe rs hrs with hblocked | ⟨e,hparsed⟩
    · rw [hblocked] at heq
      cases heq
    · rw [hparsed] at heq
      cases hresp : pb.parseResponse serialized with
      | none =>
        rw [hresp] at heq
        cases heq
      | some value =>
        rw [hresp] at heq
        cases heq
        exact ⟨resp,rfl,hcode,hdata⟩
  · rintro ⟨resp,hresp,hcode,hdata⟩
    refine ⟨rfl,⟨serialized,rfl⟩,?_,receiveProtobuf_returns pb rfl hne hmax⟩
    intro rs hrs client outcome heq
    rcases hframe rs hrs with hblocked | ⟨e,hparsed⟩
    · rw [hblocked] at heq
      cases heq
    · rw [hparsed, hresp] at heq
      cases heq
      exact ⟨_,_,resp,rfl,hcode,hdata⟩

end Reading

section Answer
variable {pb : Protobuf}

theorem feedProtobuf_frame {payload : List UInt8} (hmax : payload.length ≤ Reading.maxProtobufSize) :
    (protobufStart.feedProtobuf (frame payload)).effects = [.decode payload] := by
  have hstart : Stopped [payload] [] (frame payload ++ []) [] protobufStart := by
    rw [List.append_nil, ← frames_singleton]
    exact protobufStart_stopped
  have hend := feedProtobuf_stopped (by simpa using hmax) (by simp [frames]) hstart
  have hdecoded : decoded (protobufStart.feedProtobuf (frame payload)).effects = [payload] := by
    rcases stopped_end hend with ⟨hall,-,-⟩ | ⟨ps,p,hlast,-,seen,hseen,hlo,hhi⟩
    · exact hall
    · -- the read ends neither before the length nor inside the payload
      exfalso
      rw [List.nil_append] at hseen
      cases seen with
      | nil =>
        simp only [List.flatten_nil, List.length_nil] at hlo
        omega
      | cons chunk seen =>
        obtain ⟨rfl,hrest⟩ := List.cons_prefix_cons.mp hseen
        rw [List.prefix_nil.mp hrest, List.flatten_singleton, frames_singleton] at hhi
        exact lt_irrefl _ hhi
  rw [(feedProtobuf_onlyDecodes _ _ hend.1).eq_map, hdecoded]
  rfl

/-- The response to an `ECHO`. -/
def echoResponse (body : List UInt8) : Response := { code := 200, message := bytes "Echo: " ++ body, data := body }

theorem serve_echo {payload : List UInt8} {req : Request} (hmax : payload.length ≤ Reading.maxProtobufSize)
    (hparse : pb.parseRequest payload = some req) (hmethod : req.method = bytes "ECHO") :
    serve pb {} (frame payload) = sendProtobuf pb {} (echoResponse req.body) := by
  unfold serve
  rw [feedProtobuf_frame hmax, List.foldl_cons, List.foldl_nil, perform, handlePayload, hparse]
  dsimp only [handleProtobufRequest]
  rw [hmethod, if_neg (by decide), if_pos rfl]
  rfl

theorem echo_byteSize (body : List UInt8) : (echoResponse body).byteSize =
    10 + varintSize (body.length + 6) + body.length + bytesFieldSize body := by
  have hcode : 1 + varintSize (int32Bits 200) = 3 := by decide
  have hmessage : bytesFieldSize (bytes "Echo: " ++ body) = 1 + varintSize (body.length + 6) + (body.length + 6) := by
    have hlen : (bytes "Echo: " ++ body).length = body.length + 6 := by
      rw [List.length_append, add_comm]
      rfl
    rw [bytesFieldSize, if_neg (by simp [bytes]), hlen]
  simp only [Response.byteSize, echoResponse, hmessage, hcode]
  rw [if_neg (by decide)]
  omega

/-- The bound on the body that the limit of `send` leaves. -/
theorem echo_size_le_iff (body : List UInt8) :
    4 + (echoResponse body).byteSize ≤ maxBufferSize ↔ body.length ≤ 2097141 := by
  rw [echo_byteSize, bytesFieldSize, maxBufferSize]
  constructor
  · intro hle
    by_contra hlong
    -- from 128 ^ 2 on a length takes three bytes
    have hmessage : 2 < varintSize (body.length + 6) := lt_varintSize (by omega)
    have hdata : 2 < varintSize body.length := lt_varintSize (by omega)
    have hne : body ≠ [] := by
      rintro rfl
      exact hlong (Nat.zero_le _)
    rw [if_neg hne] at hle
    omega
  · intro hshort
    have hmessage : varintSize (body.length + 6) ≤ 3 := varintSize_le (by decide) (by omega)
    have hdata : varintSize body.length ≤ 3 := varintSize_le (by decide) (by omega)
    split_ifs
    · omega
    · omega

theorem echo_message_valid (body : List UInt8) : ValidUtf8 (echoResponse body).message ↔ ValidUtf8 body :=
  validUtf8_ascii_append (by simp [bytes])

/-- What `send_protobuf` does with the response: nothing is queued when it cannot be serialized, the
connection is closed when it is too large, and else one frame is queued. -/
theorem sendProtobuf_echo (hpb : pb.Standard) (body : List UInt8) :
    (pb.serializeResponse (echoResponse body) = none ∧ sendProtobuf pb {} (echoResponse body) = {}) ∨
    ∃ serialized, pb.serializeResponse (echoResponse body) = some serialized ∧ serialized ≠ [] ∧
      serialized.length = (echoResponse body).byteSize ∧
      sendProtobuf pb {} (echoResponse body) =
        if 2097141 < body.length then { running := false } else { outputBuffer := frame serialized } := by
  have hmessage : (echoResponse body).message ≠ [] := by simp [echoResponse, bytes]
  have hcode : (echoResponse body).code ≠ 0 := by simp [echoResponse]
  unfold sendProtobuf
  dsimp only
  rw [if_neg hcode, if_neg hmessage]
  cases hser : pb.serializeResponse (echoResponse body) with
  | none => exact Or.inl ⟨rfl,rfl⟩
  | some serialized =>
    have hsize := hpb.size _ _ hser
    have hne : serialized ≠ [] := by
      rintro rfl
      rw [echo_byteSize, List.length_nil] at hsize
      omega
    refine Or.inr ⟨serialized,rfl,hne,hsize,?_⟩
    dsimp only
    rw [if_neg hne, ← frame]
    have hframe : (frame serialized).length = 4 + (echoResponse body).byteSize := by
      rw [frame, List.length_append, htonl_length, hsize]
    have hnil : frame serialized ≠ [] := by
      rw [← List.length_pos_iff, hframe]
      omega
    unfold Output.send
    rw [if_neg (by simp [hnil])]
    simp only [List.length_nil, Nat.zero_add, hframe]
    by_cases hlong : 2097141 < body.length
    · rw [if_pos hlong, if_pos (not_le.mp (mt (echo_size_le_iff body).mp (not_le.mpr hlong)))]
      rfl
    · rw [if_neg hlong, if_neg (not_lt.mpr ((echo_size_le_iff body).mpr (not_lt.mp hlong)))]
      rfl

theorem echo_undone (hpb : pb.Standard) {body : List UInt8} (hvalid : ValidUtf8 body) : ∃ serialized,
    pb.serializeResponse (echoResponse body) = some serialized ∧
      pb.parseResponse serialized = some (echoResponse body) :=
  hpb.undoes (echoResponse body) (show (-2 ^ 31 : ℤ) ≤ 200 by norm_num) (show (200 : ℤ) < 2 ^ 31 by norm_num)
    ((echo_message_valid body).mpr hvalid)

/-- A response that `send` takes is far below the limit of the client. -/
theorem le_maxResponseSize {serialized body : List UInt8} (hsize : serialized.length = (echoResponse body).byteSize)
    (hshort : body.length ≤ 2097141) : serialized.length ≤ Client.maxResponseSize := by
  have hfits := (echo_size_le_iff body).mpr hshort
  rw [← hsize, maxBufferSize] at hfits
  rw [Client.maxResponseSize]
  omega

/-- The answer is too large for `send`, or cannot be parsed by the client. -/
theorem not_answered (hpb : pb.Standard) {body : List UInt8} (h : ¬ (ValidUtf8 body ∧ body.length ≤ 2097141)) :
    ¬ EchoAnswered pb (sendProtobuf pb {} (echoResponse body)) body := by
  intro hanswered
  rcases sendProtobuf_echo hpb body with ⟨-,hsent⟩ | ⟨serialized,hser,hne,hsize,hsent⟩
  · obtain ⟨serialized,hframe⟩ := hanswered.queued
    have hlen := congrArg List.length hframe
    rw [hsent, frame, List.length_append, htonl_length, List.length_nil] at hlen
    omega
  · rw [hsent] at hanswered
    by_cases hlong : 2097141 < body.length
    · rw [if_pos hlong] at hanswered
      cases hanswered.alive
    · rw [if_neg hlong] at hanswered
      have hinvalid : ¬ ValidUtf8 body := fun hvalid => h ⟨hvalid,not_lt.mp hlong⟩
      obtain ⟨resp,hparsed,-,-⟩ :=
        (answered_iff_parses pb body hne (le_maxResponseSize hsize (not_lt.mp hlong))).mp hanswered
      rw [hpb.refuses _ _ (mt (echo_message_valid body).mp hinvalid) hser] at hparsed
      cases hparsed

theorem answered (hpb : pb.Standard) {body : List UInt8} (hvalid : ValidUtf8 body) (hshort : body.length ≤ 2097141) :
    EchoAnswered pb (sendProtobuf pb {} (echoResponse body)) body := by
  obtain ⟨_,hsome,hundone⟩ := echo_undone hpb hvalid
  rcases sendProtobuf_echo hpb body with ⟨hser,-⟩ | ⟨serialized,hser,hne,hsize,hsent⟩
  · rw [hser] at hsome
    cases hsome
  · obtain rfl := Option.some.inj (hser.symm.trans hsome)
    rw [hsent, if_neg (not_lt.mpr hshort), answered_iff_parses pb body hne (le_maxResponseSize hsize hshort)]
    exact ⟨_,hundone,rfl,rfl⟩

/-- An `ECHO` of a body comes back exactly when the body is UTF-8 and not longer than 2097141 bytes. -/
theorem echo_round_trip_iff (hpb : pb.Standard) {payload : List UInt8} {req : Request}
    (hmax : payload.length ≤ Reading.maxProtobufSize) (hparse : pb.parseRequest payload = some req)
    (hmethod : req.method = bytes "ECHO") :
    EchoAnswered pb (serve pb {} (frame payload)) req.body ↔ ValidUtf8 req.body ∧ req.body.length ≤ 2097141 := by
  rw [serve_echo hmax hparse hmethod]
  constructor
  · intro hanswered
    by_contra h
    exact not_answered hpb h hanswered
  · rintro ⟨hvalid,hshort⟩
    exact answered hpb hvalid hshort

end Answer

section Generated

def responseFields (resp : Response) : List (ℕ × Value) :=
  (if resp.code = 0 then [] else [(1,.varint (int32Bits resp.code))]) ++
    (if resp.message = [] then [] else [(2,.bytes resp.message)]) ++
    (if resp.data = [] then [] else [(3,.bytes resp.data)])

/-- The low 32 bits, with their sign. -/
def int32OfBits (n : ℕ) : ℤ := if n % 2 ^ 32 < 2 ^ 31 then (n % 2 ^ 32 : ℕ) else (n % 2 ^ 32 : ℕ) - 2 ^ 32

/-- Unknown fields are skipped. -/
def readResponseField (resp : Response) : ℕ × Value → Option Response
  | (1,.varint n) => some { resp with code := int32OfBits n }
  | (2,.bytes b) => if ValidUtf8 b then some { resp with message := b } else none
  | (3,.bytes b) => some { resp with data := b }
  | _ => some resp

def readRequestField (req : Request) : ℕ × Value → Option Request
  | (1,.bytes b) => if ValidUtf8 b then some { req with method := b } else none
  | (2,.bytes b) => if ValidUtf8 b then some req else none
  | (3,.bytes b) => some { req with body := b }
  | _ => some req

/-- The classes `protoc` generates, on the wire format. -/
def generated : Protobuf where
  parseRequest s := (decode s).bind (fun fs => fs.foldlM readRequestField {})
  serializeResponse resp := some (encode (responseFields resp))
  parseResponse s := (decode s).bind (fun fs => fs.foldlM readResponseField {})

theorem int32OfBits_int32Bits {code : ℤ} (hlow : -2 ^ 31 ≤ code) (hhigh : code < 2 ^ 31) :
    int32OfBits (int32Bits code) = code := by
  unfold int32OfBits int32Bits
  omega

theorem read_some_code (code : ℤ) : ∃ n,
    (if code = 0 then [] else [(1,Value.varint (int32Bits code))]).foldlM readResponseField {} = some { code := n } := by
  split_ifs
  · exact ⟨0,rfl⟩
  · exact ⟨_,rfl⟩

theorem read_code {resp : Response} (hlow : -2 ^ 31 ≤ resp.code) (hhigh : resp.code < 2 ^ 31) :
    (if resp.code = 0 then [] else [(1,Value.varint (int32Bits resp.code))]).foldlM readResponseField {} =
      some { code := resp.code } := by
  split_ifs with hzero
  · rw [hzero]
    rfl
  · simp [readResponseField, int32OfBits_int32Bits hlow hhigh]

theorem read_message (resp : Response) {text : List UInt8} (htext : resp.message = []) :
    (if text = [] then [] else [(2,Value.bytes text)]).foldlM readResponseField resp =
      if ValidUtf8 text then some { resp with message := text } else none := by
  split_ifs with hnil hvalid hvalid
  · rw [hnil, ← htext]
    rfl
  · exact absurd (hnil ▸ validUtf8_nil) hvalid
  · simp [readResponseField, hvalid]
  · simp [readResponseField, hvalid]

theorem read_data (resp : Response) {data : List UInt8} (hdata : resp.data = []) :
    (if data = [] then [] else [(3,Value.bytes data)]).foldlM readResponseField resp = some { resp with data := data } := by
  split_ifs with hnil
  · rw [hnil, ← hdata]
    rfl
  · rfl

theorem generated_parse (resp : Response) : generated.parseResponse (encode (responseFields resp)) =
    (responseFields resp).foldlM readResponseField {} := by
  change (decode (encode (responseFields resp))).bind _ = _
  rw [decode_encode, Option.bind_some]

theorem encode_bytes_length {number : ℕ} (hnumber : 8 * number + 2 < 128) (b : List UInt8) :
    (encode (if b = [] then [] else [(number,.bytes b)])).length = bytesFieldSize b := by
  have htag : varintSize (8 * number + 2) = 1 := by rw [varintSize, Nat.log_of_lt hnumber]
  unfold bytesFieldSize
  split_ifs
  · rfl
  · simp only [encode, List.flatMap_singleton, encodeField, List.length_append, varint_length, htag]
    omega

theorem encode_varint_length (code : ℤ) : (encode (if code = 0 then [] else [(1,.varint (int32Bits code))])).length =
    if code = 0 then 0 else 1 + varintSize (int32Bits code) := by
  have htag : varintSize (8 * 1) = 1 := by decide
  split_ifs
  · rfl
  · simp only [encode, List.flatMap_singleton, encodeField, List.length_append, varint_length, htag]

theorem generated_standard : generated.Standard := by
  refine ⟨?_,?_,?_⟩
  · intro resp hlow hhigh hvalid
    refine ⟨_,rfl,?_⟩
    rw [generated_parse, responseFields, List.foldlM_append, List.foldlM_append, read_code hlow hhigh]
    change ((if resp.message = [] then [] else [(2,Value.bytes resp.message)]).foldlM readResponseField
      { code := resp.code }).bind _ = _
    rw [read_message _ rfl, if_pos hvalid, Option.bind_some, read_data _ rfl]
  · intro resp serialized hinvalid hser
    cases hser
    obtain ⟨n,hn⟩ := read_some_code resp.code
    rw [generated_parse, responseFields, List.foldlM_append, List.foldlM_append, hn]
    change ((if resp.message = [] then [] else [(2,Value.bytes resp.message)]).foldlM readResponseField
      { code := n }).bind _ = _
    rw [read_message _ rfl, if_neg hinvalid]
    rfl
  · intro resp serialized hser
    cases hser
    unfold responseFields Response.byteSize
    rw [encode, List.flatMap_append, List.flatMap_append, List.length_append, List.length_append]
    change (encode _).length + (encode _).length + (encode _).length = _
    rw [encode_varint_length, encode_bytes_length (by decide), encode_bytes_length (by decide)]

theorem generated_request {s : List UInt8} {body : List UInt8}
    (h : decode s = some [(1,.bytes (bytes "ECHO")),(3,.bytes body)]) :
    generated.parseRequest s = some { method := bytes "ECHO", body } := by
  have hvalid : ValidUtf8 (bytes "ECHO") := validUtf8_ascii (by simp [bytes])
  change (decode s).bind _ = _
  rw [h]
  simp [readRequestField, hvalid]

/-- The echo of a word. -/
theorem echo_round_trip_word :
    generated.parseRequest ([0x0a,4] ++ bytes "ECHO" ++ [0x1a,2] ++ bytes "hi") =
      some { method := bytes "ECHO", body := bytes "hi" } ∧
    EchoAnswered generated (serve generated {} (frame ([0x0a,4] ++ bytes "ECHO" ++ [0x1a,2] ++ bytes "hi"))) (bytes "hi") := by
  have hparse : generated.parseRequest ([0x0a,4] ++ bytes "ECHO" ++ [0x1a,2] ++ bytes "hi") =
      some { method := bytes "ECHO", body := bytes "hi" } := generated_request (by decide)
  exact ⟨hparse,(echo_round_trip_iff generated_standard (by decide) hparse rfl).mpr
    ⟨validUtf8_ascii (by simp [bytes]),by decide⟩⟩

/-- A body of one byte that is not text. -/
theorem echo_of_binary_lost :
    generated.parseRequest ([0x0a,4] ++ bytes "ECHO" ++ [0x1a,1,0x80]) =
      some { method := bytes "ECHO", body := [0x80] } ∧
    ¬ EchoAnswered generated (serve generated {} (frame ([0x0a,4] ++ bytes "ECHO" ++ [0x1a,1,0x80]))) [0x80] := by
  have hparse : generated.parseRequest ([0x0a,4] ++ bytes "ECHO" ++ [0x1a,1,0x80]) =
      some { method := bytes "ECHO", body := [0x80] } := generated_request (by decide)
  refine ⟨hparse,?_⟩
  rw [serve_echo (by decide) hparse rfl]
  exact not_answered generated_standard (fun h => not_validUtf8_continuation (by decide) (by decide) h.1)

end Generated

end ModernTcp.ProtobufEcho
