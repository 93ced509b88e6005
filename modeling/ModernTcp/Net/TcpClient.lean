import ModernTcp.Lib.Execution
import ModernTcp.Net.EpollConnection

/-! # The receiving side of the client

`receive_line`, `receive` and `receive_protobuf` of `TcpClient` on one blocking socket. What a call
of `recv` or `read` returns is up to the kernel, so a call of the client comes with the results its
system calls have, in order. `receive_line` keeps what it has read too much in `recv_buf_`, a byte
sequence here. `receive` looks there first, but `receive_protobuf` goes to the socket.
-/
namespace ModernTcp.TcpClient
open Execution

inductive Recv
  | bytes (n : ℕ)
  | eintr
  | eagain
  | error
  | closed
deriving DecidableEq

inductive Failure
  | notConnected | recvFailed | connectionClosed | bufferOverflow
  | lengthPrefix | tooLarge (length : ℕ) | incompleteBody | parseFailed
deriving DecidableEq

/-- `socket` holds what the server sends and no system call has returned yet. -/
structure Client where
  connected : Bool := true
  recvBuf : List UInt8 := []
  socket : List UInt8
deriving DecidableEq

variable {Response : Type*}

/-- What a call returns, with the bytes of the stream it stands for: the terminator of the line,
the length and the payload of the response. -/
inductive Reply (Response : Type*)
  | line (text terminator : List UInt8)
  | string (text : List UInt8)
  | response (length payload : List UInt8) (value : Response)
deriving DecidableEq

def Reply.accounted : Reply Response → List UInt8
  | .line text terminator => text ++ terminator
  | .string text => text
  | .response length payload _ => length ++ payload

abbrev Outcome (Response : Type*) := Client × Except Failure (Reply Response)

namespace Client

def Offers (c : Client) (count n : ℕ) : Prop := 0 < n ∧ n ≤ count ∧ n ≤ c.socket.length

instance (c : Client) (count n : ℕ) : Decidable (c.Offers count n) := inferInstanceAs (Decidable (_ ∧ _))

def disconnect (c : Client) (why : Failure) : Outcome Response := ({ c with connected := false },.error why)

def takeLine (c : Client) : Outcome Response :=
  let raw := c.recvBuf.takeWhile (· ≠ 10)
  ({ c with recvBuf := (c.recvBuf.dropWhile (· ≠ 10)).drop 1 },
    .ok (.line (EpollConnection.Reading.stripCr raw) (if raw.getLast? = some 13 then [13,10] else [10])))

/-- `none` when the results do not last until the call returns. -/
def receiveLine (c : Client) : List Recv → Option (Outcome Response)
  | [] => if 10 ∈ c.recvBuf then some c.takeLine else none
  | r :: rs =>
    if 10 ∈ c.recvBuf then some c.takeLine
    else match r with
      | .bytes n =>
        if c.Offers 4096 n then
          let read := { c with recvBuf := c.recvBuf ++ c.socket.take n, socket := c.socket.drop n }
          if maxBufferSize < read.recvBuf.length then some (read,.error .bufferOverflow)
          else read.receiveLine rs
        else none
      | .eintr => c.receiveLine rs
      | .eagain | .error => some (c.disconnect .recvFailed)
      | .closed => some (c.disconnect .connectionClosed)

/-- `recv_buf_` first, and the socket only when that is empty. -/
def receive (c : Client) (maxLen : ℕ) : List Recv → Option (Outcome Response)
  | [] =>
    if c.recvBuf ≠ [] then some ({ c with recvBuf := c.recvBuf.drop maxLen },.ok (.string (c.recvBuf.take maxLen)))
    else none
  | r :: rs =>
    if c.recvBuf ≠ [] then some ({ c with recvBuf := c.recvBuf.drop maxLen },.ok (.string (c.recvBuf.take maxLen)))
    else match r with
      | .bytes n =>
        if c.Offers maxLen n then some ({ c with socket := c.socket.drop n },.ok (.string (c.socket.take n)))
        else none
      | .eintr => c.receive maxLen rs
      | .eagain | .error => some (c.disconnect .recvFailed)
      | .closed => some (c.disconnect .connectionClosed)

/-- `readn` of `net_utils.h`: all that was asked for, or less, with the results that are left. -/
def readn (c : Client) (got : List UInt8) : ℕ → List Recv → Option (Client × List Recv × Option (List UInt8))
  | 0, rs => some (c,rs,some got)
  | _ + 1, [] => none
  | count + 1, r :: rs =>
    match r with
    | .bytes n =>
      if c.Offers (count + 1) n then
        readn { c with socket := c.socket.drop n } (got ++ c.socket.take n) (count + 1 - n) rs
      else none
    | .eintr => c.readn got (count + 1) rs
    | .eagain | .error | .closed => some (c,rs,none)

def maxResponseSize : ℕ := 10 * 1024 * 1024

variable [Inhabited Response]

/-- The payload behind the length; an empty one is not parsed. -/
def receivePayload (parse : List UInt8 → Option Response) (c : Client) (length : List UInt8) (rs : List Recv) :
    Option (Outcome Response) :=
  let respLen := EpollConnection.Reading.be32 length
  if maxResponseSize < respLen then some (c.disconnect (.tooLarge respLen))
  else if respLen = 0 then some (c,.ok (.response length [] default))
  else match c.readn [] respLen rs with
    | none => none
    | some (read,_,none) => some (read.disconnect .incompleteBody)
    | some (read,_,some payload) =>
      match parse payload with
      | none => some (read,.error .parseFailed)
      | some value => some (read,.ok (.response length payload value))

def receiveProtobuf (parse : List UInt8 → Option Response) (c : Client) (rs : List Recv) : Option (Outcome Response) :=
  match c.readn [] 4 rs with
  | none => none
  | some (read,_,none) => some (read.disconnect .lengthPrefix)
  | some (read,rest,some length) => read.receivePayload parse length rest

end Client

def Reply.Faithful : Reply Response → Prop
  | .line text terminator => 10 ∉ text ∧ (terminator = [10] ∨ terminator = [13,10])
  | .string _ => True
  | .response length payload _ => length.length = 4 ∧ EpollConnection.Reading.be32 length = payload.length

/-- The bytes of the stream that the client has not returned yet. -/
def Client.unread (c : Client) : List UInt8 := c.recvBuf ++ c.socket

namespace Client
variable {c d : Client} {rs : List Recv} {reply : Reply Response}

theorem unread_read {n : ℕ} :
    unread { c with recvBuf := c.recvBuf ++ c.socket.take n, socket := c.socket.drop n } = c.unread := by
  simp only [unread, List.append_assoc, List.take_append_drop]

theorem takeLine_spec (hmem : 10 ∈ c.recvBuf) (h : c.takeLine = (d,.ok reply)) :
    reply.Faithful ∧ reply.accounted ++ d.unread = c.unread := by
  unfold takeLine at h
  cases h
  refine ⟨⟨?_,?_⟩,?_⟩
  · intro htext
    have hraw : 10 ∈ c.recvBuf.takeWhile (· ≠ 10) := mem_of_mem_rtrimCc htext
    exact not_mem_takeWhile_ne 10 _ hraw
  · split_ifs
    · exact Or.inr rfl
    · exact Or.inl rfl
  · simp only [Reply.accounted, unread]
    rw [EpollConnection.Reading.stripCr, rtrimCc_append, ← List.append_assoc, List.append_assoc (c.recvBuf.takeWhile _), List.singleton_append,
      takeWhile_append_first hmem]

theorem receiveLine_spec (h : c.receiveLine rs = some (d,.ok reply)) :
    reply.Faithful ∧ reply.accounted ++ d.unread = c.unread := by
  induction rs generalizing c with
  | nil =>
    unfold receiveLine at h
    split_ifs at h with hmem
    exact takeLine_spec hmem (Option.some.inj h)
  | cons r rs ih =>
    unfold receiveLine at h
    split_ifs at h with hmem
    · exact takeLine_spec hmem (Option.some.inj h)
    · cases r with
      | bytes n =>
        dsimp only at h
        split_ifs at h with hoffers hfull
        · cases h
        · have hread := ih h
          rwa [unread_read] at hread
      | eintr => exact ih h
      | eagain | error | closed => cases h

theorem receive_spec {maxLen : ℕ} (h : c.receive maxLen rs = some (d,.ok reply)) :
    reply.Faithful ∧ reply.accounted ++ d.unread = c.unread := by
  have hbuffered : ∀ {c : Client},
      some (({ c with recvBuf := c.recvBuf.drop maxLen },.ok (.string (c.recvBuf.take maxLen))) : Outcome Response) =
        some (d,.ok reply) → reply.Faithful ∧ reply.accounted ++ d.unread = c.unread := by
    intro c h
    cases h
    refine ⟨trivial,?_⟩
    rw [Reply.accounted, unread, ← List.append_assoc, List.take_append_drop, unread]
  induction rs generalizing c with
  | nil =>
    unfold receive at h
    split_ifs at h with hfull
    exact hbuffered h
  | cons r rs ih =>
    unfold receive at h
    split_ifs at h with hfull
    · exact hbuffered h
    · cases r with
      | bytes n =>
        dsimp only at h
        split_ifs at h with hoffers
        cases h
        refine ⟨trivial,?_⟩
        simp only [Reply.accounted, unread, not_not.mp hfull, List.nil_append, List.take_append_drop]
      | eintr => exact ih h
      | eagain | error | closed => cases h

theorem readn_spec {got bytes : List UInt8} {count : ℕ} {rest : List Recv}
    (h : c.readn got count rs = some (d,rest,some bytes)) : ∃ new, bytes = got ++ new ∧ new.length = count ∧
      new ++ d.socket = c.socket ∧ d.recvBuf = c.recvBuf := by
  induction rs generalizing c got count with
  | nil =>
    cases count with
    | zero =>
      cases h
      exact ⟨[],by simp⟩
    | succ count => cases h
  | cons r rs ih =>
    cases count with
    | zero =>
      cases h
      exact ⟨[],by simp⟩
    | succ count =>
      unfold readn at h
      cases r with
      | bytes n =>
        dsimp only at h
        split_ifs at h with hoffers
        obtain ⟨hpos,hcount,havail⟩ := hoffers
        obtain ⟨new,hbytes,hlen,hsocket,hbuf⟩ := ih h
        refine ⟨c.socket.take n ++ new,by rw [hbytes, List.append_assoc],?_,?_,hbuf⟩
        · rw [List.length_append, List.length_take, hlen]
          omega
        · rw [List.append_assoc, hsocket, List.take_append_drop]
      | eintr => exact ih h
      | eagain | error | closed => cases h

variable {parse : List UInt8 → Option Response} [Inhabited Response]

/-- The frame comes from the socket, whatever is left in `recv_buf_`. -/
theorem receiveProtobuf_spec (h : c.receiveProtobuf parse rs = some (d,.ok reply)) :
    reply.Faithful ∧ reply.accounted ++ d.socket = c.socket ∧ d.recvBuf = c.recvBuf := by
  unfold receiveProtobuf at h
  split at h
  · cases h
  · cases h
  · rename_i read rest length hlength
    obtain ⟨_,rfl,hfour,hsocket,hbuf⟩ := readn_spec hlength
    unfold receivePayload at h
    dsimp only at h
    split_ifs at h with hlarge hempty
    · cases h
    · cases h
      refine ⟨⟨hfour,by simpa using hempty⟩,?_,hbuf⟩
      simpa [Reply.accounted] using hsocket
    · split at h
      · cases h
      · cases h
      · rename_i payload hpayload
        obtain ⟨_,rfl,hlen,hrest,hkeep⟩ := readn_spec hpayload
        split at h
        · cases h
        · cases h
          refine ⟨⟨hfour,by simpa using hlen.symm⟩,?_,hkeep.trans hbuf⟩
          simp only [Reply.accounted, List.append_assoc] at hsocket ⊢
          rw [hrest, hsocket]

end Client

variable [Inhabited Response]

inductive Call
  | receiveLine
  | receive (maxLen : ℕ)
  | receiveProtobuf
deriving DecidableEq

def call (parse : List UInt8 → Option Response) (c : Client) (rs : List Recv) : Call → Option (Outcome Response)
  | .receiveLine => if c.connected then c.receiveLine rs else some (c,.error .notConnected)
  | .receive maxLen => if c.connected then c.receive maxLen rs else some (c,.error .notConnected)
  | .receiveProtobuf => if c.connected then c.receiveProtobuf parse rs else some (c,.error .notConnected)

structure Session (Response : Type*) where
  client : Client
  replies : List (Reply Response) := []

/-- One call that returns; a run ends with the first exception. -/
def step (parse : List UInt8 → Option Response) (s : Session Response) (a : Call × List Recv) :
    Option (Session Response) :=
  match call parse s.client a.2 a.1 with
  | some (client,.ok reply) => some { client, replies := s.replies ++ [reply] }
  | some (_,.error _) => none
  | none => none

variable {parse : List UInt8 → Option Response} {stream : List UInt8}

/-- What has been returned and what is left make up the stream. -/
structure InStep (stream : List UInt8) (s : Session Response) : Prop where
  total : s.replies.flatMap Reply.accounted ++ s.client.unread = stream
  faithful : ∀ reply ∈ s.replies, reply.Faithful

/-- No `receive_protobuf` while bytes of an earlier read wait in `recv_buf_`. -/
def FramesFromSocket (s : Session Response) (a : Call × List Recv) : Prop :=
  a.1 = .receiveProtobuf → s.client.recvBuf = []

instance (s : Session Response) (a : Call × List Recv) : Decidable (FramesFromSocket s a) :=
  inferInstanceAs (Decidable (_ → _))

theorem call_spec {c d : Client} {rs : List Recv} {a : Call} {reply : Reply Response}
    (hsocket : a = .receiveProtobuf → c.recvBuf = []) (h : call parse c rs a = some (d,.ok reply)) :
    reply.Faithful ∧ reply.accounted ++ d.unread = c.unread := by
  cases a with
  | receiveLine =>
    simp only [call] at h
    split_ifs at h
    · exact Client.receiveLine_spec h
    · cases h
  | receive maxLen =>
    simp only [call] at h
    split_ifs at h
    · exact Client.receive_spec h
    · cases h
  | receiveProtobuf =>
    simp only [call] at h
    split_ifs at h
    · obtain ⟨hfaithful,htaken,hbuf⟩ := Client.receiveProtobuf_spec h
      refine ⟨hfaithful,?_⟩
      rw [Client.unread, hbuf, hsocket rfl, List.nil_append, htaken, Client.unread, hsocket rfl, List.nil_append]
    · cases h

theorem step_inStep {s t : Session Response} {a : Call × List Recv} (hs : InStep stream s)
    (hsocket : FramesFromSocket s a) (h : step parse s a = some t) : InStep stream t := by
  unfold step at h
  split at h
  · rename_i client reply hcall
    cases h
    obtain ⟨hfaithful,htaken⟩ := call_spec hsocket hcall
    refine ⟨?_,?_⟩
    · rw [List.flatMap_append, List.flatMap_singleton, List.append_assoc, htaken]
      exact hs.total
    · intro r hr
      rcases List.mem_append.mp hr with hr | hr
      · exact hs.faithful r hr
      · rw [List.mem_singleton.mp hr]
        exact hfaithful
  · cases h
  · cases h

/-- Calls that all return share the stream, if no frame is read past bytes in `recv_buf_`. -/
theorem receives_share_stream {as : List (Call × List Recv)} {s : Session Response}
    (hsocket : Along (step parse) FramesFromSocket { client := { socket := stream } } as)
    (h : exec (step parse) { client := { socket := stream } } as = some s) :
    s.replies.flatMap Reply.accounted <+: stream ∧ ∀ reply ∈ s.replies, reply.Faithful := by
  have hs : InStep stream s := exec_invariant (I := InStep stream) (fun _ _ _ hI hP hstep => step_inStep hI hP hstep)
    ⟨rfl,by simp⟩ hsocket h
  exact ⟨⟨_,hs.total⟩,hs.faithful⟩

/-- `ParseFromString` on a response that has a code below 128 and nothing else. -/
def parseCode : List UInt8 → Option ℕ
  | [8,code] => if code < 128 then some code.toNat else none
  | _ => none

/-- A line, two bytes read with it, and a frame that arrives in three parts. -/
theorem receives_share_stream_mixed : ∃ s : Session ℕ,
    exec (step parseCode) { client := { socket := bytes "a\r\nbc" ++ [0,0,0,2,8,7] ++ bytes "d" } }
      [(.receiveLine,[.eintr,.bytes 5]),(.receive 10,[]),(.receiveProtobuf,[.bytes 3,.bytes 1,.eintr,.bytes 2])] = some s ∧
    s.replies = [.line (bytes "a") [13,10],.string (bytes "bc"),.response [0,0,0,2] [8,7] 7] ∧
    s.replies.flatMap Reply.accounted <+: bytes "a\r\nbc" ++ [0,0,0,2,8,7] ++ bytes "d" ∧
    ∀ reply ∈ s.replies, reply.Faithful := by
  have hrun : (exec (step parseCode) { client := { socket := bytes "a\r\nbc" ++ [0,0,0,2,8,7] ++ bytes "d" } }
      [(.receiveLine,[.eintr,.bytes 5]),(.receive 10,[]),
        (.receiveProtobuf,[.bytes 3,.bytes 1,.eintr,.bytes 2])]).map Session.replies =
      some [.line (bytes "a") [13,10],.string (bytes "bc"),.response [0,0,0,2] [8,7] 7] := by
    decide
  obtain ⟨s,hs,hreplies⟩ := Option.map_eq_some_iff.mp hrun
  exact ⟨s,hs,hreplies,receives_share_stream (by decide) hs⟩

/-- The second line is in `recv_buf_` when the frame behind it is read. -/
theorem receive_protobuf_skips : ∃ s : Session ℕ,
    exec (step parseCode) { client := { socket := bytes "a\nb\n" ++ [0,0,0,2,8,7] } }
      [(.receiveLine,[.bytes 4]),(.receiveProtobuf,[.bytes 4,.bytes 2])] = some s ∧
    s.replies.flatMap Reply.accounted = bytes "a\n" ++ [0,0,0,2,8,7] ∧
    ¬ s.replies.flatMap Reply.accounted <+: bytes "a\nb\n" ++ [0,0,0,2,8,7] := by
  have hrun : (exec (step parseCode) { client := { socket := bytes "a\nb\n" ++ [0,0,0,2,8,7] } }
      [(.receiveLine,[.bytes 4]),(.receiveProtobuf,[.bytes 4,.bytes 2])]).map
      (fun s => s.replies.flatMap Reply.accounted) = some (bytes "a\n" ++ [0,0,0,2,8,7]) := by
    decide
  obtain ⟨s,hs,haccounted⟩ := Option.map_eq_some_iff.mp hrun
  exact ⟨s,hs,haccounted,by rw [haccounted]; decide⟩

end ModernTcp.TcpClient
