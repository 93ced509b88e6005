import ModernTcp.Lib.Pipeline
import ModernTcp.Net.LineProtocol
import ModernTcp.Net.ProtobufEcho
import ModernTcp.Net.Transfers

/-! # A text client and the echo server

`TcpClient::send_message`, the connection in line mode with the message handler of `main.cpp`, and
`TcpClient::receive_line`, with the network between them. The network, the calls of `write`, `handle_read` and
`handle_write` cut the streams wherever they like, and the connection may be closed at any time. An answer that
does not fit into the output buffer closes it as well. Both buffers of the server are their contents, as byte
sequences: the append that writes past the vector of a `Buffer` is left out.
-/
namespace ModernTcp.TextSession
open EpollConnection NetUtils Pipeline ProtobufEcho TcpClient

/-- What the message handler of the server sends for a line. -/
def answer (msg : List UInt8) : List UInt8 := rtrimCc msg ++ [10]

/-- The lines of a stream that end with a newline, without one trailing CR. -/
def textLines (s : List UInt8) : List (List UInt8) := (s.splitOn 10).dropLast.map Reading.stripCr

/-- The answers to a stream of lines. -/
def echo (s : List UInt8) : List UInt8 := (messagesOf s).flatMap answer

def perform (c : Output) : Effect → Output
  | .message line => c.send (answer line)
  | .shutdown _ => c.shutdown
  | _ => c

/-- The handler sends one answer, and closes the connection if that overflows the output buffer. -/
def handler (out : Output) (log : List Effect) (line : List UInt8) : HandlerRun where
  sends := [answer line]
  closes := (log.foldl perform out).running && !((log.foldl perform out).send (answer line)).running

def handlers (out : Output) : Handlers where
  workerPool := true
  http _ := {}
  message := some (handler out)

/-- The connection on its reactor thread, and what `send` and `handle_write` see of it. -/
structure Server where
  conn : EpollConnection
  out : Output := {}
deriving DecidableEq

/-- A connection whose protocol is known to be that of lines. -/
def Server.inLineMode : Server := { conn := { protocol := some .line, httpHandler := false } }

def Server.read (s : Server) (chunk : List UInt8) : Server :=
  let r := s.conn.handleRead (handlers s.out) chunk
  { conn := r.conn, out := r.effects.foldl perform s.out }

def Server.step (s : Server) : ServerAct → List UInt8 → Option (Server × List UInt8)
  | .read, chunk => if s.conn.running = true ∧ chunk ≠ [] then some (s.read chunk,[]) else none
  | .write n, [] =>
    if s.out.running = true ∧ n ≤ s.out.outputBuffer.length then
      some ({ s with out := { s.out with outputBuffer := s.out.outputBuffer.drop n } },s.out.outputBuffer.take n)
    else none
  | .close why, [] => some ({ conn := (Reading.shutdown { conn := s.conn } why).conn, out := s.out.shutdown },[])
  | _, _ => none

def server : Component UInt8 UInt8 where
  State := Server
  Act := ServerAct
  start := .inLineMode
  step := Server.step
  Idle s := s.conn.running = true ∧ s.out.outputBuffer = []

/-- `send_message` with the results of its calls of `write`. A message that is not sent as a whole is the last one. -/
def sendMessage (connected : Bool) (script : List SysResult) : List (List UInt8) → Option (Bool × List UInt8)
  | [msg] =>
    if connected then
      (writen (msg ++ [10]) (msg ++ [10]).length script).map
        (fun w => (decide (w.result = (msg ++ [10]).length),w.wire))
    else none
  | _ => none

def sender : Component (List UInt8) UInt8 where
  State := Bool
  Act := List SysResult
  start := true
  Idle connected := connected = true
  step := sendMessage

def texts {Response : Type*} : Except Failure (Reply Response) → List (List UInt8)
  | .ok (.line text _) => [text]
  | _ => []

/-- A call of `receive_line`, which takes from the socket just what its calls of `recv` return. -/
def nextLine (c : Client) (rs : List Recv) (chunk : List UInt8) : Option (Client × List (List UInt8)) :=
  if c.connected = false then none
  else match ({ c with socket := chunk }.receiveLine rs : Option (Outcome Unit)) with
    | some (d,outcome) => if d.socket = [] then some (d,texts outcome) else none
    | none => none

def receiver : Component UInt8 (List UInt8) where
  State := Client
  Act := List Recv
  start := { socket := [] }
  Idle c := 10 ∉ c.recvBuf
  step := nextLine

/-- From the messages of one side of the client to the lines on the other side of it. -/
def session : Component (List UInt8) (List UInt8) :=
  comp sender (comp (channel UInt8) (comp server (comp (channel UInt8) receiver)))

section Lines
variable {s line : List UInt8}

theorem messagesOf_eq (s : List UInt8) : messagesOf s = (textLines s).filter (· ≠ []) := rfl

theorem textLines_of_not_mem (h : 10 ∉ s) : textLines s = [] := by
  rw [textLines, List.splitOn_eq_singleton h]
  rfl

theorem textLines_line (h : 10 ∉ line) (rest : List UInt8) :
    textLines (line ++ 10 :: rest) = Reading.stripCr line :: textLines rest := by
  have hne : rest.splitOn 10 ≠ [] := List.splitOn_ne_nil 10 rest
  rw [textLines, List.splitOn_append_cons_self_of_not_mem h, List.dropLast_cons_of_ne_nil hne, List.map_cons, textLines]

theorem line_induction {P : List UInt8 → Prop} (last : ∀ s, 10 ∉ s → P s)
    (line : ∀ line rest, 10 ∉ line → P rest → P (line ++ 10 :: rest)) (s : List UInt8) : P s := by
  induction hn : s.length using Nat.strong_induction_on generalizing s with
  | _ n ih =>
    by_cases h : 10 ∈ s
    · rw [← takeWhile_append_first h]
      exact line _ _ (not_mem_takeWhile_ne 10 s) (ih _ (hn ▸ dropWhile_newline_length h) _ rfl)
    · exact last s h

theorem textLines_append (s t : List UInt8) : textLines (s ++ t) = textLines s ++ textLines (remainder s ++ t) := by
  induction s using line_induction with
  | last s h => rw [textLines_of_not_mem h, (messagesOf_of_not_mem h).2, List.nil_append]
  | line line rest h ih =>
    rw [List.append_assoc, List.cons_append, textLines_line h, textLines_line h, (messagesOf_line h rest).2, ih,
      List.cons_append]

theorem textLines_clean {msgs : List (List UInt8)} (h : ∀ m ∈ msgs, 10 ∉ m) :
    textLines (msgs.flatMap (· ++ [10])) = msgs.map Reading.stripCr := by
  induction msgs with
  | nil => rfl
  | cons m msgs ih =>
    rw [List.flatMap_cons, List.append_assoc, List.singleton_append, textLines_line (h m List.mem_cons_self),
      ih (fun x hx => h x (List.mem_cons_of_mem m hx)), List.map_cons]

theorem not_mem_textLines (s : List UInt8) : ∀ line ∈ textLines s, 10 ∉ line := by
  induction s using line_induction with
  | last s h => simp [textLines_of_not_mem h]
  | line line rest h ih =>
    rw [textLines_line h]
    intro x hx
    rcases List.mem_cons.mp hx with rfl | hx
    · exact fun hmem => h (mem_of_mem_rtrimCc hmem)
    · exact ih x hx

theorem textLines_echo (s : List UInt8) :
    textLines (echo s) = (messagesOf s).map (fun line => Reading.stripCr (rtrimCc line)) := by
  have hclean : ∀ m ∈ (messagesOf s).map rtrimCc, 10 ∉ m := by
    intro m hm
    obtain ⟨line,hline,rfl⟩ := List.mem_map.mp hm
    exact fun hmem => not_mem_textLines s line (List.mem_of_mem_filter hline) (mem_of_mem_rtrimCc hmem)
  have hflat : echo s = ((messagesOf s).map rtrimCc).flatMap (· ++ [10]) := by
    rw [List.flatMap_map]
    rfl
  rw [hflat, textLines_clean hclean, List.map_map]
  rfl

theorem textLines_monotone : Monotone textLines := by
  intro xs more
  rw [textLines_append]
  exact List.prefix_append _ _

theorem echo_append (s t : List UInt8) : echo (s ++ t) = echo s ++ echo (remainder s ++ t) := by
  rw [echo, (messagesOf_append s t).1, List.flatMap_append]
  rfl

theorem echo_monotone : Monotone echo := by
  intro xs more
  rw [echo_append]
  exact List.prefix_append _ _

theorem echo_line (h : 10 ∉ line) (rest : List UInt8) :
    echo (line ++ 10 :: rest) =
      (if Reading.stripCr line = [] then [] else answer (Reading.stripCr line)) ++ echo rest := by
  rw [echo, (messagesOf_line h rest).1, List.flatMap_append]
  split_ifs with hempty
  · simp [hempty, echo]
  · simp [hempty, echo]

end Lines

section Server
variable {out : Output} {input : List UInt8} {s t : Reading}

theorem answer_ne_nil (line : List UInt8) : answer line ≠ [] := by simp [answer]

/-- `send` on a live connection: the answer is appended, or the connection is closed. -/
theorem send_answer {c : Output} (hrun : c.running = true) (line : List UInt8) :
    ((c.send (answer line)).running = true ∧
      c.send (answer line) = { running := true, outputBuffer := c.outputBuffer ++ answer line }) ∨
    c.send (answer line) = { running := false, outputBuffer := [] } := by
  unfold Output.send
  rw [if_neg (by simp [hrun, answer_ne_nil])]
  split_ifs
  · exact Or.inr (by rw [Output.shutdown, if_pos hrun])
  · exact Or.inl ⟨hrun,by rw [hrun]⟩

/-- The rest of the input has its answers behind those that are in the output buffer already. -/
structure Live (out : Output) (input : List UInt8) (s : Reading) : Prop where
  running : s.conn.running = true
  sending : (s.effects.foldl perform out).running = true
  answers : (s.effects.foldl perform out).outputBuffer ++ echo s.conn.inputBuffer = out.outputBuffer ++ echo input
  rest : remainder s.conn.inputBuffer = remainder input
  protocol : s.conn.protocol = some .line
  httpHandler : s.conn.httpHandler = false
  status : s.status = .looping

structure Dead (out : Output) (s : Reading) : Prop where
  running : s.conn.running = false
  input : s.conn.inputBuffer = []
  closed : s.effects.foldl perform out = { running := false, outputBuffer := [] }

theorem call_echo (hrun : s.conn.running = true) (hsend : (s.effects.foldl perform out).running = true)
    (line : List UInt8) :
    (s.callMessageHandler (handlers out) line = s.emit (.message line) ∧
      (s.emit (.message line)).effects.foldl perform out =
        ⟨true,(s.effects.foldl perform out).outputBuffer ++ answer line⟩) ∨
    Dead out (s.callMessageHandler (handlers out) line) := by
  have hfold : (s.emit (.message line)).effects.foldl perform out =
      (s.effects.foldl perform out).send (answer line) := by
    rw [Reading.emit, List.foldl_append]
    rfl
  have hcall : s.callMessageHandler (handlers out) line =
      if (handler out s.effects line).closes then (s.emit (.message line)).shutdown .handler
      else s.emit (.message line) := by
    simp [Reading.callMessageHandler, handlers, handler]
  have hcloses : (handler out s.effects line).closes = !((s.effects.foldl perform out).send (answer line)).running := by
    rw [handler, hsend, Bool.true_and]
  rw [hcall, hcloses]
  rcases send_answer hsend line with ⟨hsent,heq⟩ | heq
  · left
    rw [hsent, hfold]
    exact ⟨rfl,heq⟩
  · right
    rw [heq]
    have hcalled : (s.emit (.message line)).conn.running = true := hrun
    have hlast : ((s.emit (.message line)).shutdown .handler).effects.foldl perform out =
        ((s.effects.foldl perform out).send (answer line)).shutdown := by
      rw [Reading.shutdown, if_pos hcalled, Reading.emit, List.foldl_append, hfold]
      rfl
    refine ⟨?_,?_,?_⟩
    · simp [Reading.shutdown, Reading.emit, hrun]
    · simp [Reading.shutdown, Reading.emit, hrun]
    · exact hlast.trans (by rw [heq]; rfl)

theorem lineRound_echo (hs : Live out input s ∨ Dead out s) (h : s.lineRound (handlers out) = some t) :
    Live out input t ∨ Dead out t := by
  unfold Reading.lineRound at h
  split at h
  · cases h
  rename_i hgo
  rcases hs with hs | hs
  · have hmem : 10 ∈ s.conn.inputBuffer := by
      by_contra hmem
      exact hgo (Or.inr hmem)
    have hnot : 10 ∉ s.conn.inputBuffer.takeWhile (· ≠ 10) := not_mem_takeWhile_ne 10 _
    have hsplit := takeWhile_append_first hmem
    have hanswers := hs.answers
    have hrest := hs.rest
    rw [← hsplit, echo_line hnot] at hanswers
    rw [← hsplit, (messagesOf_line hnot _).2] at hrest
    cases h
    dsimp only at hanswers hrest ⊢
    generalize Reading.stripCr (s.conn.inputBuffer.takeWhile (· ≠ 10)) = line at hanswers ⊢
    generalize (s.conn.inputBuffer.dropWhile (· ≠ 10)).drop 1 = rest at hanswers hrest ⊢
    split
    · rename_i hempty
      rw [if_pos hempty, List.nil_append] at hanswers
      exact Or.inl ⟨hs.running,hs.sending,hanswers,hrest,hs.protocol,hs.httpHandler,hs.status⟩
    · rename_i hne
      rw [if_neg hne, ← List.append_assoc] at hanswers
      rcases call_echo (s := { s with conn := { s.conn with inputBuffer := rest } }) hs.running hs.sending line with
        ⟨hcall,hfold⟩ | hdead
      · left
        rw [hcall]
        refine ⟨hs.running,by rw [hfold],?_,hrest,hs.protocol,hs.httpHandler,hs.status⟩
        rw [hfold]
        exact hanswers
      · exact Or.inr hdead
  · exact absurd (Or.inr (by simp [hs.input])) hgo

/-- One call of `handle_line_protocol` answers all complete lines, or the connection is closed. -/
theorem handleLineProtocol_echo {c : EpollConnection} (hrun : c.running = true) (hout : out.running = true)
    (hprotocol : c.protocol = some .line) (hhttp : c.httpHandler = false) :
    (Live out c.inputBuffer (Reading.handleLineProtocol (handlers out) { conn := c }) ∧
      10 ∉ (Reading.handleLineProtocol (handlers out) { conn := c }).conn.inputBuffer) ∨
    Dead out (Reading.handleLineProtocol (handlers out) { conn := c }) := by
  have hdec := Reading.lineRound_decreases (handlers out)
  have hstart : Live out c.inputBuffer { conn := c } := ⟨hrun,hout,rfl,rfl,hprotocol,hhttp,rfl⟩
  have hend := Loop.run_invariant hdec (I := fun s => Live out c.inputBuffer s ∨ Dead out s)
    (fun _ _ hs h => lineRound_echo hs h) (Or.inl hstart)
  have hlast := Loop.body_run hdec { conn := c }
  refine hend.imp_left (fun hlive => ⟨hlive,?_⟩)
  intro hmem
  have hgo : ∀ s : Reading, s.status = .looping → 10 ∈ s.conn.inputBuffer → s.lineRound (handlers out) ≠ none := by
    intro s hstatus hmem
    simp [Reading.lineRound, hstatus, hmem]
  exact hgo _ hlive.status hmem hlast

theorem handleRead_line {c : EpollConnection} {h : Handlers} {chunk : List UInt8} (hrun : c.running = true)
    (hprotocol : c.protocol = some .line) (hhttp : c.httpHandler = false) (hchunk : chunk ≠ []) :
    c.handleRead h chunk = Reading.handleLineProtocol h { conn := { c with inputBuffer := c.inputBuffer ++ chunk } } := by
  unfold handleRead EpollConnection.protocolDetected Reading.handleProtocol
  simp [hrun, hprotocol, hhttp, hchunk]

/-- What the server has read is answered on the wire or in the output buffer, unless the connection is closed. -/
structure Serves (xs ys : List UInt8) (s : Server) : Prop where
  wire : ys <+: echo xs
  open_ : s.conn.running = true → s.out.running = true ∧ s.conn.protocol = some .line ∧
    s.conn.httpHandler = false ∧ s.conn.inputBuffer = remainder xs ∧ ys ++ s.out.outputBuffer = echo xs
  closed : s.conn.running = false → s.out.running = false

theorem remainder_append (s t : List UInt8) : remainder (s ++ t) = remainder (remainder s ++ t) :=
  (messagesOf_append s t).2

theorem read_serves {xs ys chunk : List UInt8} {s : Server} (hs : Serves xs ys s) (hrun : s.conn.running = true)
    (hchunk : chunk ≠ []) : Serves (xs ++ chunk) ys (s.read chunk) := by
  obtain ⟨hout,hprotocol,hhttp,hinput,hall⟩ := hs.open_ hrun
  have hwire : ys <+: echo (xs ++ chunk) := hs.wire.trans (echo_monotone xs chunk)
  unfold Server.read
  rw [handleRead_line hrun hprotocol hhttp hchunk]
  rcases @handleLineProtocol_echo s.out { s.conn with inputBuffer := s.conn.inputBuffer ++ chunk }
    hrun hout hprotocol hhttp with ⟨hlive,hnone⟩ | hdead
  · have hrest := hlive.rest
    have hanswers := hlive.answers
    have hnil := messagesOf_of_not_mem hnone
    rw [hnil.2] at hrest
    rw [echo, hnil.1, List.flatMap_nil, List.append_nil] at hanswers
    refine ⟨hwire,fun _ => ⟨hlive.sending,hlive.protocol,hlive.httpHandler,?_,?_⟩,fun hclosed => ?_⟩
    · exact hrest.trans (by rw [hinput, ← remainder_append])
    · rw [echo_append, ← hall, ← hinput, List.append_assoc]
      exact congrArg (ys ++ ·) hanswers
    · exact absurd hlive.running (by rw [hclosed]; decide)
  · refine ⟨hwire,fun hopen => ?_,fun _ => congrArg Output.running hdead.closed⟩
    exact absurd hdead.running (by rw [hopen]; decide)

theorem step_serves {xs ys chunk o : List UInt8} {s t : Server} {act : ServerAct} (hs : Serves xs ys s)
    (h : s.step act chunk = some (t,o)) : Serves (xs ++ chunk) (ys ++ o) t := by
  cases act with
  | read =>
    simp only [Server.step] at h
    split_ifs at h with hgo
    cases h
    rw [List.append_nil]
    exact read_serves hs hgo.1 hgo.2
  | write n =>
    cases chunk with
    | cons _ _ => cases h
    | nil =>
      simp only [Server.step] at h
      split_ifs at h with hgo
      cases h
      have hmoved : ys ++ s.out.outputBuffer.take n ++ s.out.outputBuffer.drop n = ys ++ s.out.outputBuffer := by
        rw [List.append_assoc, List.take_append_drop]
      have hopen : s.conn.running = true := by
        by_contra hclosed
        rw [hs.closed (by simpa using hclosed)] at hgo
        cases hgo.1
      obtain ⟨hout,hprotocol,hhttp,hinput,hall⟩ := hs.open_ hopen
      rw [List.append_nil]
      refine ⟨?_,fun _ => ⟨hout,hprotocol,hhttp,hinput,hmoved.trans hall⟩,fun hclosed => ?_⟩
      · rw [← hall, ← hmoved]
        exact List.prefix_append _ _
      · exact absurd hopen (by rw [hclosed]; decide)
  | close why =>
    cases chunk with
    | cons _ _ => cases h
    | nil =>
      cases h
      have hclosed : (Reading.shutdown { conn := s.conn } why).conn.running = false := by
        unfold Reading.shutdown
        split
        · rfl
        · rename_i hrun
          simpa using hrun
      have hout : s.out.shutdown.running = false := by
        unfold Output.shutdown
        split
        · rfl
        · rename_i hrun
          simpa using hrun
      rw [List.append_nil, List.append_nil]
      refine ⟨hs.wire,fun hopen => ?_,fun _ => hout⟩
      exact absurd hclosed (by rw [hopen]; decide)

theorem server_realizes : Realizes server echo := by
  refine realizes_of_invariant Serves ⟨List.prefix_rfl,fun _ => ⟨rfl,rfl,rfl,rfl,rfl⟩,fun h => by cases h⟩
    (fun _ _ _ _ _ _ _ hs h => step_serves hs h) ?_
  intro xs ys s hs
  refine ⟨hs.wire,?_⟩
  rintro ⟨hrun,hempty⟩
  obtain ⟨-,-,-,-,hall⟩ := hs.open_ hrun
  rwa [hempty, List.append_nil] at hall

/-- A new connection is in line mode as soon as its first bytes are taken for lines. -/
theorem step_detected {chunk : List UInt8} (h : protocolDetected chunk = .line) :
    Server.step { conn := {} } .read chunk = Server.inLineMode.step .read chunk := by
  by_cases hchunk : chunk = []
  · simp [Server.step, hchunk]
  · have hdetected : EpollConnection.protocolDetected { inputBuffer := chunk } =
        { protocol := some .line, httpHandler := false, inputBuffer := chunk } := by
      simp [EpollConnection.protocolDetected, hchunk, h]
    have hread : ∀ hs : Handlers, handleRead hs {} chunk =
        handleRead hs { protocol := some .line, httpHandler := false } chunk := by
      intro hs
      have hline := handleRead_line (c := { protocol := some .line, httpHandler := false }) (h := hs) rfl rfl rfl hchunk
      rw [hline, handleRead, if_neg (by decide), if_neg hchunk]
      exact congrArg (fun c => Reading.handleProtocol hs { conn := c }) hdetected
    simp only [Server.step, Server.read, Server.inLineMode, hread]

end Server

section Client

theorem sendMessage_wire {messages chunk : List (List UInt8)} {wire o : List UInt8} {connected still : Bool}
    {script : List SysResult} (hs : connected = true → wire = messages.flatMap (· ++ [10]))
    (h : sendMessage connected script chunk = some (still,o)) :
    wire ++ o <+: (messages ++ chunk).flatMap (· ++ [10]) ∧
      (still = true → wire ++ o = (messages ++ chunk).flatMap (· ++ [10])) := by
  unfold sendMessage at h
  split at h
  · rename_i msg
    split_ifs at h with hconnected
    obtain ⟨w,hw,heq⟩ := Option.map_eq_some_iff.mp h
    cases heq
    obtain ⟨used,-,hwrote⟩ := writen_spec le_rfl hw
    have hfront := hwrote.front
    have hall := hwrote.all_iff
    rw [List.take_length] at hfront hall
    rw [List.flatMap_append, List.flatMap_singleton, hs hconnected]
    refine ⟨(List.prefix_append_right_inj _).mpr hfront,?_⟩
    intro hsent
    rw [hall.mp (of_decide_eq_true hsent)]
  · cases h

theorem sender_realizes : Realizes sender (fun messages => messages.flatMap (· ++ [10])) :=
  realizes_of_invariant (fun (messages : List (List UInt8)) wire (connected : Bool) =>
    wire <+: messages.flatMap (· ++ [10]) ∧ (connected = true → wire = messages.flatMap (· ++ [10])))
    ⟨List.prefix_rfl,fun _ => rfl⟩ (fun _ _ _ _ _ _ _ hs h => sendMessage_wire hs.2 h) (fun _ _ _ hs => hs)

variable {c d : Client} {rs : List Recv}

/-- A line that is returned is the first one of what was left over and what was read behind it. -/
theorem receiveLine_line {outcome : Except Failure (Reply Unit)} (h : c.receiveLine rs = some (d,outcome)) :
    (∃ raw terminator, 10 ∉ raw ∧ outcome = .ok (.line (Reading.stripCr raw) terminator) ∧
      raw ++ 10 :: d.unread = c.unread) ∨ texts outcome = [] ∧ d.unread = c.unread := by
  have htake : ∀ {c : Client}, 10 ∈ c.recvBuf → some (c.takeLine : Outcome Unit) = some (d,outcome) →
      ∃ raw terminator, 10 ∉ raw ∧ outcome = .ok (.line (Reading.stripCr raw) terminator) ∧
        raw ++ 10 :: d.unread = c.unread := by
    intro c hmem h
    cases h
    refine ⟨_,_,not_mem_takeWhile_ne 10 c.recvBuf,rfl,?_⟩
    rw [Client.unread, Client.unread, ← List.cons_append, ← List.append_assoc, takeWhile_append_first hmem]
  induction rs generalizing c with
  | nil =>
    unfold Client.receiveLine at h
    split_ifs at h with hmem
    exact Or.inl (htake hmem h)
  | cons r rs ih =>
    unfold Client.receiveLine at h
    split_ifs at h with hmem
    · exact Or.inl (htake hmem h)
    · cases r with
      | bytes n =>
        dsimp only at h
        split_ifs at h with hoffers hfull
        · cases h
          exact Or.inr ⟨rfl,Client.unread_read⟩
        · have hread := ih h
          rwa [Client.unread_read] at hread
      | eintr => exact ih h
      | eagain | error | closed =>
        cases h
        exact Or.inr ⟨rfl,rfl⟩

theorem nextLine_textLines {xs chunk : List UInt8} {lines o : List (List UInt8)}
    (hlines : lines ++ textLines c.recvBuf = textLines xs) (hrest : remainder c.recvBuf = remainder xs)
    (h : nextLine c rs chunk = some (d,o)) :
    lines ++ o ++ textLines d.recvBuf = textLines (xs ++ chunk) ∧ remainder d.recvBuf = remainder (xs ++ chunk) := by
  have htext : lines ++ textLines (c.recvBuf ++ chunk) = textLines (xs ++ chunk) := by
    rw [textLines_append, textLines_append xs, ← List.append_assoc, hlines, hrest]
  have hlast : remainder (c.recvBuf ++ chunk) = remainder (xs ++ chunk) := by
    rw [remainder_append, remainder_append xs, hrest]
  unfold nextLine at h
  split_ifs at h
  split at h
  · rename_i d' outcome hcall
    split_ifs at h with hsocket
    cases h
    rcases receiveLine_line hcall with ⟨raw,terminator,hraw,rfl,hunread⟩ | ⟨hnone,hunread⟩
    · rw [Client.unread, Client.unread, hsocket, List.append_nil] at hunread
      rw [← hunread, textLines_line hraw] at htext
      rw [← hunread, (messagesOf_line hraw _).2] at hlast
      refine ⟨?_,hlast⟩
      rw [List.append_assoc]
      exact htext
    · rw [Client.unread, Client.unread, hsocket, List.append_nil] at hunread
      rw [hnone, List.append_nil, hunread]
      exact ⟨htext,hlast⟩
  · cases h

theorem receiver_realizes : Realizes receiver textLines := by
  refine realizes_of_invariant (fun xs lines (c : Client) => lines ++ textLines c.recvBuf = textLines xs ∧
    remainder c.recvBuf = remainder xs) ⟨rfl,rfl⟩
    (fun _ _ _ _ _ _ _ hs h => nextLine_textLines hs.1 hs.2 h) ?_
  intro xs lines c hs
  refine ⟨hs.1 ▸ List.prefix_append _ _,?_⟩
  intro hidle
  have hall := hs.1
  rw [textLines_of_not_mem hidle, List.append_nil] at hall
  exact hall

end Client

/-- The lines a client gets for its messages: of each nonempty one, without one CR at the end for each of the three
places that take one off. -/
def echoes (messages : List (List UInt8)) : List (List UInt8) :=
  (messagesOf (messages.flatMap (· ++ [10]))).map (fun line => Reading.stripCr (rtrimCc line))

theorem echoes_eq {messages : List (List UInt8)} (h : ∀ m ∈ messages, 10 ∉ m) : echoes messages =
    ((messages.map Reading.stripCr).filter (· ≠ [])).map (fun line => Reading.stripCr (rtrimCc line)) := by
  rw [echoes, messagesOf_eq, textLines_clean h]

theorem session_realizes : Realizes session echoes := by
  have hanswers := ((channel_realizes UInt8).comp receiver_realizes textLines_monotone)
  have hserved := server_realizes.comp hanswers (textLines_monotone.comp monotone_id)
  have hsent := (channel_realizes UInt8).comp hserved ((textLines_monotone.comp monotone_id).comp echo_monotone)
  have hall := sender_realizes.comp hsent
    (((textLines_monotone.comp monotone_id).comp echo_monotone).comp monotone_id)
  intro as t lines h
  have hrun := hall as t lines h
  simp only [Function.comp, id] at hrun
  rwa [textLines_echo] at hrun

/-- However the steps of client, server and network are interleaved and the streams are cut: the lines that
`receive_line` has returned are those that answer the messages, from the first one on, and when nothing is under way
and the connection is open they are all of them. -/
theorem text_session {as : List (session.Act × List (List UInt8))} {t : session.State} {lines : List (List UInt8)}
    (h : run session session.start as = some (t,lines)) :
    lines <+: echoes (input as) ∧ (session.Idle t → lines = echoes (input as)) ∧
    ((∀ m ∈ input as, 10 ∉ m) → echoes (input as) =
      (((input as).map Reading.stripCr).filter (· ≠ [])).map (fun line => Reading.stripCr (rtrimCc line))) := by
  obtain ⟨hpre,hidle⟩ := session_realizes as t lines h
  exact ⟨hpre,hidle,echoes_eq⟩

/-- Two messages, of which the second one is empty. The first one gets to the server in two parts, cut before its CR,
and its answer comes back in two parts as well. -/
def hello : List (session.Act × List (List UInt8)) :=
  [(.both [.moved 1,.interrupted,.moved 3] (.left (.pass 0)),[bytes "hi\r"]),
    (.both [.moved 1] (.left (.pass 0)),[[]]),
    (.right (.both (.pass 2) (.left .read)),[]),
    (.right (.both (.pass 3) (.left .read)),[]),
    (.right (.right (.both (.write 1) (.left (.pass 0)))),[]),
    (.right (.right (.both (.write 2) (.left (.pass 0)))),[]),
    (.right (.right (.right (.both (.pass 3) [.eintr,.bytes 2,.bytes 1]))),[])]

theorem text_session_hello : ∃ t, run session session.start hello = some (t,[bytes "hi"]) ∧ session.Idle t ∧
    [bytes "hi"] = echoes (input hello) := by
  have hrun : ∃ t, run session session.start hello = some (t,[bytes "hi"]) ∧ session.Idle t :=
    ⟨_,rfl,rfl,rfl,⟨rfl,rfl⟩,rfl,(by decide : 10 ∉ ([] : List UInt8))⟩
  obtain ⟨t,ht,hidle⟩ := hrun
  exact ⟨t,ht,hidle,(text_session ht).2.1 hidle⟩

end ModernTcp.TextSession
