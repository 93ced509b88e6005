import ModernTcp.Common.LetterCase
import ModernTcp.Http.HttpRouter
import ModernTcp.Net.ProtocolDetect

/-! # Reading a response back

A receiver cuts `to_string()` at the first empty line, the head at its line ends and each header at
its first `": "`. Names and values may begin or end with a lone CR or LF; only a CRLF would end a line.
-/
namespace ModernTcp

section Search
variable {line rest : List UInt8}

theorem findSub_of_not_mem {b : UInt8} {pat s : List UInt8} (h : b ∉ s) (t : List UInt8) :
    findSub (b :: pat) (s ++ b :: pat ++ t) = some s.length := by
  induction s with
  | nil => simp [findSub]
  | cons c s ih =>
    have hcs := List.not_mem_of_not_mem_cons h
    have hne : ¬ b :: pat <+: c :: (s ++ b :: pat ++ t) := fun hpre =>
      h ((List.cons_prefix_cons.mp hpre).1 ▸ List.mem_cons_self)
    simp only [List.cons_append] at hne ih ⊢
    rw [findSub, if_neg hne, ih hcs]
    rfl

def blankLine : List UInt8 := crlf ++ crlf

/-- Behind the end of a line that is followed by a further line the search starts anew. -/
theorem findSub_blankLine_skip (hrest : ¬ crlf <+: rest) :
    findSub blankLine (13 :: 10 :: rest) = (findSub blankLine rest).map (· + 2) := by
  have hcr : ¬ blankLine <+: 13 :: 10 :: rest := fun hpre =>
    hrest (List.cons_prefix_cons.mp (List.cons_prefix_cons.mp hpre).2).2
  have hlf : ¬ blankLine <+: 10 :: rest := fun hpre => absurd (List.cons_prefix_cons.mp hpre).1 (by decide)
  rw [findSub, if_neg hcr, findSub, if_neg hlf, Option.map_map]
  rfl

theorem findSub_blankLine_line (h : findCrlf line = none) :
    findSub blankLine (line ++ 13 :: 10 :: rest) = (findSub blankLine (13 :: 10 :: rest)).map (· + line.length) := by
  induction line with
  | nil => simp
  | cons c line ih =>
    have hline : findCrlf line = none := findCrlf_none_of_part (List.suffix_cons c line).isInfix h
    have hne : ¬ blankLine <+: c :: (line ++ 13 :: 10 :: rest) := by
      intro hpre
      obtain ⟨hc,htail⟩ := List.cons_prefix_cons.mp hpre
      cases line with
      | nil => exact absurd (List.cons_prefix_cons.mp htail).1 (by decide)
      | cons d line =>
        have hd := (List.cons_prefix_cons.mp htail).1
        simp [findCrlf, ← hc, ← hd] at h
    rw [List.cons_append, findSub, if_neg hne, ih hline, Option.map_map]
    rfl

theorem crlf_not_prefix (h : findCrlf line = none) (hne : line ≠ []) : ¬ crlf <+: line ++ 13 :: 10 :: rest := by
  intro hpre
  cases line with
  | nil => exact hne rfl
  | cons c line =>
    obtain ⟨hc,htail⟩ := List.cons_prefix_cons.mp hpre
    cases line with
    | nil => exact absurd (List.cons_prefix_cons.mp htail).1 (by decide)
    | cons d line =>
      have hd := (List.cons_prefix_cons.mp htail).1
      simp [findCrlf, ← hc, ← hd] at h

theorem findSub_blankLine_join {lines : List (List UInt8)} (hne : lines ≠ [])
    (h : ∀ line ∈ lines, line ≠ [] ∧ findCrlf line = none) (body : List UInt8) :
    ∃ pre, joinLines lines = pre ++ crlf ∧ findSub blankLine (joinLines lines ++ 13 :: 10 :: body) = some pre.length := by
  induction lines with
  | nil => exact absurd rfl hne
  | cons line lines ih =>
    obtain ⟨⟨-,hline⟩,hlines⟩ := List.forall_mem_cons.mp h
    rw [joinLines_cons, List.append_assoc, List.cons_append, List.cons_append, findSub_blankLine_line hline]
    cases lines with
    | nil =>
      refine ⟨line,rfl,?_⟩
      simp [findSub, blankLine, crlf]
    | cons line' lines =>
      obtain ⟨pre,hpre,hfind⟩ := ih (List.cons_ne_nil _ _) hlines
      obtain ⟨hne',hline'⟩ := hlines line' List.mem_cons_self
      have hnext : ¬ crlf <+: joinLines (line' :: lines) ++ 13 :: 10 :: body := by
        rw [joinLines_cons, List.append_assoc, List.cons_append, List.cons_append]
        exact crlf_not_prefix hline' hne'
      refine ⟨line ++ 13 :: 10 :: pre,by rw [hpre]; simp,?_⟩
      rw [findSub_blankLine_skip hnext, hfind]
      simp only [Option.map_some, List.length_append, List.length_cons]
      congr 1
      omega

end Search

/-- A response as a receiver sees it. `keepAlive` is `none` for any other word. -/
structure DecodedResponse where
  statusLine : List UInt8
  contentType : Option (List UInt8)
  contentLength : Option ℕ
  keepAlive : Option Bool
  headers : List (List UInt8 × List UInt8)
  body : List UInt8
deriving DecidableEq

namespace DecodedResponse

def splitHeader (line : List UInt8) : Option (List UInt8 × List UInt8) :=
  (findSub (bytes ": ") line).map (fun n => (line.take n,line.drop (n + 2)))

/-- The headers that `to_string` writes by itself. -/
def ownNames : List (List UInt8) := [bytes "content-type",bytes "content-length",bytes "connection"]

def field (name : List UInt8) (fields : List (List UInt8 × List UInt8)) : Option (List UInt8) :=
  (fields.find? (fun f => toLower f.1 = name)).map Prod.snd

def connectionFlag (value : List UInt8) : Option Bool :=
  if value = bytes "keep-alive" then some true else if value = bytes "close" then some false else none

def ofFields (statusLine : List UInt8) (fields : List (List UInt8 × List UInt8)) (body : List UInt8) :
    DecodedResponse where
  statusLine
  contentType := field (bytes "content-type") fields
  contentLength := (field (bytes "content-length") fields).map digitsValue
  keepAlive := (field (bytes "connection") fields).bind connectionFlag
  headers := fields.filter (fun f => toLower f.1 ∉ ownNames)
  body

def decode (data : List UInt8) : Option DecodedResponse :=
  (findSub blankLine data).bind fun n =>
    match linesOf (data.take n ++ crlf) with
    | [] => none
    | statusLine :: lines => (lines.mapM splitHeader).map (fun fields => ofFields statusLine fields (data.drop (n + 4)))

end DecodedResponse

namespace SimpleHttpResponse
open DecodedResponse

def statusLine (r : SimpleHttpResponse) : List UInt8 :=
  bytes "HTTP/1.1 " ++ signedDecimal r.statusCode ++ bytes " " ++ r.statusText

/-- All headers, in the order in which `to_string` writes them. -/
def fields (r : SimpleHttpResponse) : List (List UInt8 × List UInt8) :=
  [(bytes "Content-Type",r.contentType),(bytes "Content-Length",decimal r.body.length),
    (bytes "Connection",if r.keepAlive then bytes "keep-alive" else bytes "close")] ++ r.headers

def fieldLine (f : List UInt8 × List UInt8) : List UInt8 := f.1 ++ bytes ": " ++ f.2

/-- The texts of the response have no CRLF in them, and a header has a name of its own without a colon. -/
structure Encodable (r : SimpleHttpResponse) : Prop where
  statusText : findCrlf r.statusText = none
  contentType : findCrlf r.contentType = none
  headers : ∀ h ∈ r.headers, findCrlf h.1 = none ∧ findCrlf h.2 = none ∧ 58 ∉ h.1 ∧ toLower h.1 ∉ ownNames

variable {r : SimpleHttpResponse}

theorem toString_eq (r : SimpleHttpResponse) :
    r.toString = joinLines (r.statusLine :: r.fields.map fieldLine) ++ 13 :: 10 :: r.body := by
  have hheaders : joinLines (r.headers.map fieldLine) = r.headers.flatMap (fun h => headerLine h.1 h.2) := by
    rw [joinLines, List.flatMap_map]
    rfl
  simp only [toString, head, statusLine, fields, joinLines_cons, List.map_cons, List.cons_append, List.nil_append,
    hheaders]
  simp [headerLine, fieldLine, crlf]

theorem findCrlf_append_none {s t : List UInt8} (hs : findCrlf s = none) (ht : findCrlf t = none)
    (hcut : ¬ SplitsCrlf s t) : findCrlf (s ++ t) = none := by
  rw [findCrlf_append_of_none hs hcut, ht]
  rfl

theorem findCrlf_statusLine (h : r.Encodable) : findCrlf r.statusLine = none := by
  have hcode : 13 ∉ bytes "HTTP/1.1 " ++ signedDecimal r.statusCode ++ bytes " " := by
    simp only [signedDecimal, List.mem_append, not_or]
    refine ⟨⟨by decide,?_,fun hmem => ?_⟩,by decide⟩
    · split_ifs <;> decide
    · have hdigit := (digit_of_mem_decimal hmem).1
      exact absurd hdigit (by decide)
  exact findCrlf_append_none (findCrlf_of_not_mem hcode) h.statusText fun hcut => hcode (List.mem_of_getLast? hcut.1)

theorem findCrlf_fieldLine {f : List UInt8 × List UInt8} (hname : findCrlf f.1 = none) (hvalue : findCrlf f.2 = none) :
    findCrlf (fieldLine f) = none := by
  refine findCrlf_append_none (findCrlf_append_none hname (by decide) ?_) hvalue ?_
  · simp [SplitsCrlf, bytes]
  · simp [SplitsCrlf, bytes]

theorem fields_clean (h : r.Encodable) : ∀ f ∈ r.fields, findCrlf f.1 = none ∧ findCrlf f.2 = none ∧ 58 ∉ f.1 := by
  have hlength : findCrlf (decimal r.body.length) = none := by
    refine findCrlf_of_not_mem fun hmem => ?_
    exact absurd (digit_of_mem_decimal hmem).1 (by decide)
  have hword : findCrlf (if r.keepAlive then bytes "keep-alive" else bytes "close") = none := by
    split_ifs <;> decide
  have hnames : ∀ name ∈ [bytes "Content-Type",bytes "Content-Length",bytes "Connection"],
      findCrlf name = none ∧ 58 ∉ name := by decide
  intro f hf
  simp only [fields, List.mem_append, List.mem_cons, List.not_mem_nil, or_false] at hf
  rcases hf with (rfl | rfl | rfl) | hf
  · exact ⟨(hnames _ (by simp)).1,h.contentType,(hnames _ (by simp)).2⟩
  · exact ⟨(hnames _ (by simp)).1,hlength,(hnames _ (by simp)).2⟩
  · exact ⟨(hnames _ (by simp)).1,hword,(hnames _ (by simp)).2⟩
  · obtain ⟨hname,hvalue,hcolon,-⟩ := h.headers f hf
    exact ⟨hname,hvalue,hcolon⟩

theorem splitHeader_fieldLine {f : List UInt8 × List UInt8} (hcolon : 58 ∉ f.1) :
    splitHeader (fieldLine f) = some f := by
  have hfind : findSub (bytes ": ") (fieldLine f) = some f.1.length := findSub_of_not_mem hcolon f.2
  rw [splitHeader, hfind]
  simp [fieldLine, bytes]

theorem mapM_splitHeader {fs : List (List UInt8 × List UInt8)} (h : ∀ f ∈ fs, 58 ∉ f.1) :
    (fs.map fieldLine).mapM splitHeader = some fs := by
  induction fs with
  | nil => rfl
  | cons f fs ih =>
    obtain ⟨hf,hfs⟩ := List.forall_mem_cons.mp h
    rw [List.map_cons, List.mapM_cons, splitHeader_fieldLine hf, ih hfs]
    rfl

/-- The headers of the response are apart from the three that `to_string` adds. -/
theorem ofFields_fields (h : r.Encodable) (body : List UInt8) : ofFields r.statusLine r.fields body = {
    statusLine := r.statusLine
    contentType := some r.contentType
    contentLength := some r.body.length
    keepAlive := some r.keepAlive
    headers := r.headers
    body } := by
  have hown : toLower (bytes "Content-Type") = bytes "content-type" ∧
      toLower (bytes "Content-Length") = bytes "content-length" ∧ toLower (bytes "Connection") = bytes "connection" := by
    decide
  have htype : field (bytes "content-type") r.fields = some r.contentType := by
    simp [field, fields, hown]
  have hlength : field (bytes "content-length") r.fields = some (decimal r.body.length) := by
    simp [field, fields, hown, show bytes "content-type" ≠ bytes "content-length" by decide]
  have hconnection : field (bytes "connection") r.fields =
      some (if r.keepAlive then bytes "keep-alive" else bytes "close") := by
    simp [field, fields, hown, show bytes "content-type" ≠ bytes "connection" by decide,
      show bytes "content-length" ≠ bytes "connection" by decide]
  have hflag : connectionFlag (if r.keepAlive then bytes "keep-alive" else bytes "close") = some r.keepAlive := by
    cases r.keepAlive <;> decide
  have hheaders : r.fields.filter (fun f => toLower f.1 ∉ ownNames) = r.headers := by
    have hkept : r.headers.filter (fun f => toLower f.1 ∉ ownNames) = r.headers :=
      List.filter_eq_self.mpr fun f hf => by simpa using (h.headers f hf).2.2.2
    rw [fields, List.filter_append, hkept]
    simp [hown, ownNames]
  simp only [ofFields, htype, hlength, hconnection, hheaders, hflag, Option.map_some, Option.bind_some,
    digitsValue_decimal]

/-- What `to_string` wrote is read back, whatever the body and in whichever order the headers come. -/
theorem decode_toString (r : SimpleHttpResponse) (h : r.Encodable) : decode r.toString = some {
    statusLine := bytes "HTTP/1.1 " ++ signedDecimal r.statusCode ++ bytes " " ++ r.statusText
    contentType := some r.contentType
    contentLength := some r.body.length
    keepAlive := some r.keepAlive
    headers := r.headers
    body := r.body } := by
  have hlines : ∀ line ∈ r.statusLine :: r.fields.map fieldLine, line ≠ [] ∧ findCrlf line = none := by
    refine List.forall_mem_cons.mpr ⟨⟨by simp [statusLine, bytes],findCrlf_statusLine h⟩,?_⟩
    intro line hline
    obtain ⟨f,hf,rfl⟩ := List.mem_map.mp hline
    obtain ⟨hname,hvalue,-⟩ := fields_clean h f hf
    exact ⟨by simp [fieldLine, bytes],findCrlf_fieldLine hname hvalue⟩
  obtain ⟨pre,hpre,hfind⟩ := findSub_blankLine_join (List.cons_ne_nil _ _) hlines r.body
  have hhead : linesOf (pre ++ crlf) = r.statusLine :: r.fields.map fieldLine := by
    have hjoin := linesOf_join (fun line hline => (hlines line hline).2) []
    rwa [List.append_nil, hpre, show linesOf [] = [] from rfl, List.append_nil] at hjoin
  have htake : (joinLines (r.statusLine :: r.fields.map fieldLine) ++ 13 :: 10 :: r.body).take pre.length = pre := by
    rw [hpre, List.append_assoc, List.take_left]
  have hdrop : (joinLines (r.statusLine :: r.fields.map fieldLine) ++ 13 :: 10 :: r.body).drop (pre.length + 4) =
      r.body := by
    rw [hpre, List.append_assoc, ← List.drop_drop, List.drop_left]
    rfl
  rw [decode, toString_eq, hfind]
  simp only [Option.bind_some, htake, hdrop, hhead]
  rw [mapM_splitHeader fun f hf => (fields_clean h f hf).2.2, Option.map_some, ofFields_fields h]
  rfl

/-- Lone CRs and LFs at the ends of a value, and an empty line in the body. -/
theorem decode_toString_lone : decode (SimpleHttpResponse.toString {
      statusCode := -7
      contentType := bytes "\ntext/html\r"
      body := bytes "a\r\n\r\nb"
      headers := [(bytes "X-A",bytes "\r"),(bytes "\nX-B",bytes ": \n")]
      keepAlive := false }) = some {
    statusLine := bytes "HTTP/1.1 -7 OK"
    contentType := some (bytes "\ntext/html\r")
    contentLength := some 6
    keepAlive := some false
    headers := [(bytes "X-A",bytes "\r"),(bytes "\nX-B",bytes ": \n")]
    body := bytes "a\r\n\r\nb" } :=
  decode_toString _ ⟨by decide,by decide,by decide⟩

end SimpleHttpResponse
end ModernTcp
