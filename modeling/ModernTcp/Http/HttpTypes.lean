import Mathlib.Tactic
import ModernTcp.Common.StringUtils
import ModernTcp.Lib.Loop

/-! # The HTTP request parser

`SimpleHttpRequest` and `HttpParser` of `http_types.{h,cpp}`. The scanning loop of
`parse` is a measured loop over the bytes not yet consumed. Its early returns set
`consumed_bytes` to what the normal exit would set, and leave the parser in a state, or
the data at an end, that the loop condition rejects, so they are rounds like the others.
-/
namespace ModernTcp

/-- `std::map<std::string, std::string>`: one entry a key, in key order. -/
abbrev HeaderMap := List (List UInt8 × List UInt8)

namespace HeaderMap

/-- `headers[key] = value`. -/
def assign (key value : List UInt8) : HeaderMap → HeaderMap
  | [] => [(key,value)]
  | (k,v) :: rest =>
    if key = k then (key,value) :: rest
    else if key < k then (key,value) :: (k,v) :: rest
    else (k,v) :: assign key value rest

def find (key : List UInt8) (m : HeaderMap) : Option (List UInt8) :=
  (List.find? (fun e => e.1 == key) m).map Prod.snd

end HeaderMap

structure SimpleHttpRequest where
  method : List UInt8 := []
  path : List UInt8 := []
  version : List UInt8 := []
  headers : HeaderMap := []
  keepAlive : Bool := true
  contentLength : ℕ := 0
  host : List UInt8 := []
  userAgent : List UInt8 := []
  contentType : List UInt8 := []
  body : List UInt8 := []
  parseSuccess : Bool := false
  parserError : List UInt8 := []
deriving DecidableEq

namespace SimpleHttpRequest

def fail (r : SimpleHttpRequest) (message : List UInt8) : Bool × SimpleHttpRequest :=
  (false,{ r with parserError := message })

/-- The version test lets every token shorter than five bytes through. -/
def checkVersion (r : SimpleHttpRequest) : Bool × SimpleHttpRequest :=
  if 5 ≤ r.version.length ∧ r.version.take 5 ≠ bytes "HTTP/" then
    r.fail (bytes "Invalid HTTP version")
  else (true,r)

def parseRequestLine (r : SimpleHttpRequest) (line : List UInt8) : Bool × SimpleHttpRequest :=
  let cleanedLine := if line.getLast? = some 13 then line.dropLast else line
  match extractWord cleanedLine with
  | none => r.fail (bytes "Invalid request line")
  | some (method,afterMethod) =>
    match extractWord afterMethod with
    | none => { r with method }.fail (bytes "Invalid request line")
    | some (path,afterPath) =>
      match extractWord afterPath with
      | none => { r with method, path }.fail (bytes "Invalid request line")
      | some (version,_) => { r with method, path, version }.checkVersion

/-- The `content-length` branch of `parse_header_line`. -/
def setContentLength (r : SimpleHttpRequest) (value : List UInt8) : Bool × SimpleHttpRequest :=
  match stoul value with
  | none => r.fail (bytes "Invalid content-length")
  | some n =>
    if maxHttpBodySize < n then { r with contentLength := n }.fail (bytes "Content too large")
    else (true,{ r with contentLength := n })

def parseHeaderLine (r : SimpleHttpRequest) (line : List UInt8) : Bool × SimpleHttpRequest :=
  if 58 ∉ line then r.fail (bytes "Invalid HTTP header line: " ++ line)
  else
    let key := trim (line.takeWhile (· ≠ 58))
    let value := trim ((line.dropWhile (· ≠ 58)).drop 1)
    if key = [] then r.fail (bytes "Empty header key")
    else
      let r := { r with headers := r.headers.assign key value }
      let keyLower := toLower key
      if keyLower = bytes "content-length" then r.setContentLength value
      else if keyLower = bytes "connection" then
        (true,{ r with keepAlive := toLower value ≠ bytes "close" })
      else if keyLower = bytes "host" then (true,{ r with host := value })
      else if keyLower = bytes "user-agent" then (true,{ r with userAgent := value })
      else if keyLower = bytes "content-type" then (true,{ r with contentType := value })
      else (true,r)

/-- HTTP/1.0 closes unless the header spelled exactly `Connection` says otherwise. -/
def checkHeaders (r : SimpleHttpRequest) : SimpleHttpRequest :=
  if r.version = bytes "HTTP/1.0" then
    { r with keepAlive := match r.headers.find (bytes "Connection") with
      | none => false
      | some value => toLower value = bytes "keep-alive" }
  else r

end SimpleHttpRequest

namespace HttpParser

inductive State
  | expectRequestLine | expectHeader | expectBody | complete | error
deriving DecidableEq

/-- The states in which the scanning loop goes on. -/
def State.active : State → Bool
  | .complete | .error => false
  | _ => true

end HttpParser

structure HttpParser where
  state : HttpParser.State := .expectRequestLine
  currentReq : SimpleHttpRequest := {}
  tempBuffer : List UInt8 := []
  bodyReceived : ℕ := 0
  currentRequestStartIndex : ℕ := 0
deriving DecidableEq

namespace HttpParser

def reset (p : HttpParser) : HttpParser :=
  { p with state := .expectRequestLine, currentReq := {}, tempBuffer := [], bodyReceived := 0 }

def getRequest (p : HttpParser) : SimpleHttpRequest × HttpParser :=
  ({ p.currentReq with parseSuccess := p.state = .complete },p.reset)

structure ParseResult where
  consumedBytes : ℕ := 0
  hasError : Bool := false
  isComplete : Bool := false
  requestStartIndex : ℕ := 0
  requestTotalLen : ℕ := 0
deriving DecidableEq

/-- Loop state of `parse`: the bytes from `data + consumed` on, and how many went before. -/
structure Scan where
  parser : HttpParser
  rest : List UInt8
  consumed : ℕ := 0
  result : ParseResult := {}
deriving DecidableEq

namespace Scan

/-- Leave the loop with `is_complete`. -/
def finish (s : Scan) : Scan :=
  { s with
    parser := { s.parser with state := .complete }
    result := { s.result with
      isComplete := true
      requestStartIndex := s.parser.currentRequestStartIndex
      requestTotalLen := s.consumed - s.parser.currentRequestStartIndex } }

/-- Leave the loop with `has_error`. -/
def reject (s : Scan) : Scan :=
  { s with
    parser := { s.parser with state := .error }
    result := { s.result with hasError := true } }

def withRequest (s : Scan) (r : SimpleHttpRequest) : Scan :=
  { s with parser := { s.parser with currentReq := r } }

def enter (s : Scan) (state : State) : Scan := { s with parser := { s.parser with state } }

/-- Everything left goes to the partial line. -/
def absorb (s : Scan) : Scan :=
  { s with
    parser := { s.parser with tempBuffer := s.parser.tempBuffer ++ s.rest }
    rest := []
    consumed := s.consumed + s.rest.length }

/-- No terminator in sight. A partial line that is too long is an error that the result
does not report. -/
def keepPartial (s : Scan) : Scan :=
  if maxHttpHeaderSize < s.absorb.parser.tempBuffer.length then
    (s.absorb.withRequest
      { s.parser.currentReq with parserError := bytes "Header too large" }).enter .error
  else s.absorb

/-- The line that ends `n` bytes on, with what earlier calls kept of it. -/
def lineAt (s : Scan) (n : ℕ) : List UInt8 := s.parser.tempBuffer ++ s.rest.take n

def afterLine (s : Scan) (n : ℕ) : Scan :=
  { s with
    parser := { s.parser with tempBuffer := [] }
    rest := s.rest.drop (n + 2)
    consumed := s.consumed + (n + 2) }

/-- What a complete line does, by the state it is read in. -/
def readLine (s : Scan) (line : List UInt8) : Scan :=
  if s.parser.state = .expectRequestLine then
    match s.parser.currentReq.parseRequestLine line with
    | (false,r) => (s.withRequest r).reject
    | (true,r) => (s.withRequest r).enter .expectHeader
  else if line = [] then
    let r := s.parser.currentReq.checkHeaders
    if 0 < r.contentLength then (s.withRequest r).enter .expectBody
    else (s.withRequest r).finish
  else
    match s.parser.currentReq.parseHeaderLine line with
    | (false,r) => (s.withRequest r).reject
    | (true,r) => s.withRequest r

def takeLine (s : Scan) (n : ℕ) : Scan := (s.afterLine n).readLine (s.lineAt n)

/-- How many bytes a round in the body takes. -/
def bodyTake (s : Scan) : ℕ :=
  min (s.parser.currentReq.contentLength - s.parser.bodyReceived) s.rest.length

def appendBody (s : Scan) (take : ℕ) : Scan :=
  { s with
    parser := { s.parser with
      currentReq := { s.parser.currentReq with body := s.parser.currentReq.body ++ s.rest.take take }
      bodyReceived := s.parser.bodyReceived + take }
    rest := s.rest.drop take
    consumed := s.consumed + take }

def checkBody (s : Scan) : Scan :=
  if s.parser.currentReq.contentLength ≤ s.parser.bodyReceived then s.finish else s

def takeBody (s : Scan) : Scan := (s.appendBody s.bodyTake).checkBody

def searchLine (s : Scan) : Scan :=
  match findCrlf s.rest with
  | none => s.keepPartial
  | some n => s.takeLine n

/-- One round of the loop of `parse`. -/
def round (s : Scan) : Option Scan :=
  if s.rest = [] then none
  else match s.parser.state with
    | .complete | .error => none
    | .expectRequestLine | .expectHeader => some s.searchLine
    | .expectBody => some s.takeBody

def measure (s : Scan) : ℕ := 2 * s.rest.length + s.parser.state.active.toNat

def run (s : Scan) : Scan := Loop.run round measure s

end Scan

/-- The parser with which the loop is entered. -/
def startRequest (p : HttpParser) : HttpParser :=
  if p.state = .expectRequestLine then { p with currentRequestStartIndex := 0 } else p

def parse (p : HttpParser) (data : List UInt8) : HttpParser × ParseResult :=
  let s := Scan.run { parser := p.startRequest, rest := data }
  (s.parser,{ s.result with consumedBytes := s.consumed })

end HttpParser
end ModernTcp
