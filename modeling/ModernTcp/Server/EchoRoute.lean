import ModernTcp.Http.HttpParserLines
import ModernTcp.Server.Routes

/-! # The head of an echoed response

`POST /echo` sends the content type of the request back. The parser ends a line at a CRLF that lies
in one chunk; the CR and the LF of a line end that is cut by a chunk boundary become part of the
value, and to the receiver of the response they end a line.
-/
namespace ModernTcp.Routes
open HttpParser

/-- The head has a line for each of the three headers `to_string` writes, and no other line between
the status line and the empty one. -/
structure OneLineEach (head : List UInt8) : Prop where
  contentType : ((linesOf head).filter (fun line => line.takeWhile (· ≠ 58) = bytes "Content-Type")).length = 1
  known : ∀ line ∈ (linesOf head).drop 1, line = [] ∨
    line.takeWhile (· ≠ 58) ∈ [bytes "Content-Type",bytes "Content-Length",bytes "Connection"]
  noMore : (linesOf head).length = 5

theorem not_mem_decimal (n : ℕ) : 13 ∉ decimal n := by
  intro hmem
  obtain ⟨c,hc,heq⟩ := List.mem_map.mp hmem
  have hdigit := Nat.isDigit_of_mem_toDigits (by decide) (by decide) hc
  have hrange : 48 ≤ c.toNat ∧ c.toNat ≤ 57 := Char.isDigit_iff_toNat.mp hdigit
  have hval := congrArg UInt8.toNat heq
  rw [UInt8.toNat_ofNat_of_lt' (Nat.lt_of_le_of_lt hrange.2 (by decide))] at hval
  have h13 : c.toNat = 13 := hval
  omega

def contentTypeHeader (value : List UInt8) : List UInt8 := bytes "Content-Type: " ++ value

def contentLengthHeader (n : ℕ) : List UInt8 := bytes "Content-Length: " ++ decimal n

theorem head_eq (body contentType : List UInt8) :
    SimpleHttpResponse.head { body, contentType } = bytes "HTTP/1.1 200 OK" ++ 13 :: 10 ::
      (contentTypeHeader contentType ++ 13 :: 10 :: (contentLengthHeader body.length ++ 13 :: 10 ::
        (bytes "Connection: keep-alive" ++ 13 :: 10 :: ([] ++ 13 :: 10 :: [])))) := by
  have hcode : signedDecimal 200 = bytes "200" := by decide
  simp [SimpleHttpResponse.head, SimpleHttpResponse.headerLine, contentTypeHeader, contentLengthHeader, hcode, crlf,
    bytes]

theorem findCrlf_contentTypeHeader {value : List UInt8} :
    findCrlf (contentTypeHeader value) = none ↔ findCrlf value = none := by
  have hmarks : marks (contentTypeHeader value) = marks (bytes "Content-Type: ") ++ marks value :=
    marks_append (by simp [SplitsCrlf, bytes])
  have hkey : none ∉ marks (bytes "Content-Type: ") := by decide
  simp [findCrlf_eq_none_iff, hmarks, hkey]

theorem oneLineEach_head {body contentType : List UInt8} (h : findCrlf contentType = none) :
    OneLineEach (SimpleHttpResponse.head { body, contentType }) := by
  have hlength : findCrlf (contentLengthHeader body.length) = none := by
    refine findCrlf_of_not_mem ?_
    simp [contentLengthHeader, not_mem_decimal, bytes]
  have hlines : linesOf (SimpleHttpResponse.head { body, contentType }) =
      [bytes "HTTP/1.1 200 OK",contentTypeHeader contentType,contentLengthHeader body.length,
        bytes "Connection: keep-alive",[]] := by
    rw [head_eq, linesOf_crlf _ (by decide), linesOf_crlf _ (findCrlf_contentTypeHeader.mpr h),
      linesOf_crlf _ hlength, linesOf_crlf _ (by decide), linesOf_crlf _ rfl]
    rfl
  have htype : (contentTypeHeader contentType).takeWhile (· ≠ 58) = bytes "Content-Type" := rfl
  have hlen : (contentLengthHeader body.length).takeWhile (· ≠ 58) = bytes "Content-Length" := rfl
  have hconn : (bytes "Connection: keep-alive").takeWhile (· ≠ 58) = bytes "Connection" := by decide
  constructor
  · rw [hlines]
    rfl
  · rw [hlines]
    intro line hline
    simp only [List.drop_one, List.tail_cons, List.mem_cons, List.not_mem_nil, or_false] at hline
    rcases hline with rfl | rfl | rfl | rfl
    · exact .inr (by rw [htype]; decide)
    · exact .inr (by rw [hlen]; decide)
    · exact .inr (by rw [hconn]; decide)
    · exact .inl rfl
  · rw [hlines]
    rfl

theorem findCrlf_of_oneLineEach {body contentType : List UInt8}
    (h : OneLineEach (SimpleHttpResponse.head { body, contentType })) : findCrlf contentType = none := by
  have hcount := h.noMore
  rw [head_eq] at hcount
  simp only [length_linesOf_crlf] at hcount
  rw [← findCrlf_contentTypeHeader, findCrlf_eq_none_iff, ← List.count_eq_zero]
  omega

theorem oneLineEach_head_iff {body contentType : List UInt8} :
    OneLineEach (SimpleHttpResponse.head { body, contentType }) ↔ findCrlf contentType = none :=
  ⟨findCrlf_of_oneLineEach,oneLineEach_head⟩

variable {ω : Type*}

/-- The routes have this request handled by `echo`. -/
def IsEcho (req : SimpleHttpRequest) : Prop :=
  HttpRouter.routeKey req.method req.path = HttpRouter.routeKey (bytes "POST") (bytes "/echo")

instance : DecidablePred IsEcho := fun _ => inferInstanceAs (Decidable (_ = _))

theorem setRoutes_echo (process : Process ω) {req : SimpleHttpRequest} (hroute : IsEcho req) :
    (setRoutes process {}).route req = some echo := by
  rw [HttpRouter.route, hroute]
  rfl

/-- The response of the routes to the request that a parser has completed. -/
def respond (process : Process ω) (world : ω) (p : HttpParser) : SimpleHttpResponse :=
  ((setRoutes process {}).handle p.getRequest.1 world).response

theorem respond_echo (process : Process ω) (world : ω) {p : HttpParser} (hroute : IsEcho p.getRequest.1) :
    respond process world p = {
      body := p.currentReq.body
      contentType := if p.currentReq.contentType = [] then textPlain else p.currentReq.contentType } := by
  have hterminal : (setRoutes process {}).terminal p.getRequest.1 = echo p.getRequest.1 := by
    unfold HttpRouter.terminal
    rw [setRoutes_echo process hroute]
    rfl
  -- the counting middleware passes the response on as it is
  have hchain : (setRoutes process {}).handle p.getRequest.1 world =
      countRequests process p.getRequest.1 (echo p.getRequest.1) world {} := by
    rw [HttpRouter.handle, hterminal]
    rfl
  rw [respond, hchain]
  rfl

/-- No CRLF stands in the value of the line that gives the content type, as the chunks deliver it. -/
def CleanContentType (chunks : List (List UInt8)) : Prop :=
  ∀ line ∈ contentTypeLine chunks, findCrlf (fieldValue line) = none

instance : DecidablePred CleanContentType := fun _ => inferInstanceAs (Decidable (∀ _ ∈ _, _))

/-- A CRLF comes into a value only where a chunk boundary cuts it. -/
theorem cleanContentType_of_cutsNoCrlf {chunks : List (List UInt8)} (h : CutsNoCrlf chunks) :
    CleanContentType chunks := by
  intro line hline
  have hmem : line ∈ deliveredLines chunks := by
    have hlast := List.mem_of_getLast? hline
    have hheader := (List.takeWhile_prefix _).subset (List.mem_of_mem_filter hlast)
    exact List.mem_of_mem_drop hheader
  have hvalue : fieldValue line <:+: line :=
    (trim_part _).trans ((List.drop_suffix 1 _).isInfix.trans (List.dropWhile_suffix _).isInfix)
  exact findCrlf_none_of_part hvalue (h.findCrlf_line hmem)

/-- The echo route adds no line to the head of its response unless a chunk boundary hides a line end
in the content type. -/
theorem echo_head_iff (process : Process ω) (world : ω) (p : HttpParser) (chunks : List (List UInt8))
    (hdone : (feedAll p.reset chunks).state = .complete)
    (hroute : IsEcho (feedAll p.reset chunks).getRequest.1) :
    (OneLineEach (respond process world (feedAll p.reset chunks)).head ↔ CleanContentType chunks) ∧
      (CutsNoCrlf chunks → CleanContentType chunks) := by
  refine ⟨?_,cleanContentType_of_cutsNoCrlf⟩
  rw [respond_echo process world hroute, oneLineEach_head_iff, complete_contentType hdone, CleanContentType]
  cases hline : contentTypeLine chunks with
  | none => simp [show findCrlf textPlain = none by decide]
  | some line =>
    simp only [Option.map_some, Option.getD_some, Option.mem_def, Option.some.injEq, forall_eq']
    split_ifs with hnil
    · -- an empty value is replaced, and neither text holds a CRLF
      rw [hnil]
      decide
    · rfl

/-- A process whose world is the number of requests. -/
def counting : Process ℕ where
  countRequest := (· + 1)
  metricsJson := decimal
  sleepFor := fun _ world => world

def cutInName : List (List UInt8) := [bytes "POST /echo HTTP/1.1\r\nContent-Ty",bytes "pe: a/b\r\n\r\n"]

theorem echo_head_cutInName :
    contentTypeLine cutInName = some (bytes "Content-Type: a/b") ∧
      OneLineEach (respond counting 0 (feedAll (reset {}) cutInName)).head :=
  ⟨by decide +kernel,
    (echo_head_iff counting 0 {} cutInName (by decide +kernel) (by decide +kernel)).1.mpr (by decide +kernel)⟩

/-- A chunk ends between the CR and the LF behind `a`. -/
def cutInLineEnd : List (List UInt8) :=
  [bytes "POST /echo HTTP/1.1\r\nContent-Type: a\r",bytes "\nX-Evil: 1\r\n\r\n"]

theorem echo_head_split :
    (feedAll (reset {}) cutInLineEnd).state = .complete ∧ IsEcho (feedAll (reset {}) cutInLineEnd).getRequest.1 ∧
      bytes "X-Evil: 1" ∈ linesOf (respond counting 0 (feedAll (reset {}) cutInLineEnd)).head ∧
      ¬ OneLineEach (respond counting 0 (feedAll (reset {}) cutInLineEnd)).head := by
  refine ⟨by decide +kernel,by decide +kernel,by decide +kernel,?_⟩
  intro h
  have hlength := h.noMore
  revert hlength
  decide +kernel

end ModernTcp.Routes
