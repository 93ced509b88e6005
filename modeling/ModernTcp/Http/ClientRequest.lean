import ModernTcp.Http.ContentLength
import ModernTcp.Http.HeaderNames
import ModernTcp.Http.RequestLine
import ModernTcp.Http.ResponseDecode

/-! # Requests as a client writes them

Three words, headers, and a body whose length the client adds as a header. The parser reads it back as it was written;
of a name that comes more than once the last header counts.
-/
namespace ModernTcp
open HttpParser SimpleHttpRequest SimpleHttpResponse

/-- The value of the last header whose name is of that kind. -/
def lastField (P : List UInt8 → Prop) [DecidablePred P] (fields : List (List UInt8 × List UInt8)) : Option (List UInt8) :=
  (fields.filter (fun f => decide (P f.1))).getLast?.map Prod.snd

/-- The headers with that name in any case. -/
def Named (name : List UInt8) (key : List UInt8) : Prop := toLower key = name

instance (name : List UInt8) : DecidablePred (Named name) := fun _ => inferInstanceAs (Decidable (_ = _))

structure ClientRequest where
  method : List UInt8
  path : List UInt8
  version : List UInt8
  headers : List (List UInt8 × List UInt8) := []
  body : List UInt8 := []
deriving DecidableEq

namespace ClientRequest

/-- A body comes with its length. -/
def fields (r : ClientRequest) : List (List UInt8 × List UInt8) :=
  r.headers ++ if r.body = [] then [] else [(bytes "Content-Length",decimal r.body.length)]

def requestLine (r : ClientRequest) : List UInt8 := r.method ++ 32 :: (r.path ++ 32 :: r.version)

def encode (r : ClientRequest) : List UInt8 := requestText r.requestLine (r.fields.map fieldLine) r.body

def IsWord (w : List UInt8) : Prop := w ≠ [] ∧ ∀ c ∈ w, isSpace c = false

instance : DecidablePred IsWord := fun w =>
  decidable_of_iff (w ≠ [] ∧ w.all (fun c => !isSpace c) = true) (by simp [IsWord])

/-- A header without white space around its two parts, and without a colon in its name. -/
structure CleanField (f : List UInt8 × List UInt8) : Prop where
  ne_nil : f.1 ≠ []
  name : trim f.1 = f.1
  value : trim f.2 = f.2
  colon : 58 ∉ f.1
  nameLine : findCrlf f.1 = none
  valueLine : findCrlf f.2 = none

instance : DecidablePred CleanField := fun f =>
  decidable_of_iff (f.1 ≠ [] ∧ trim f.1 = f.1 ∧ trim f.2 = f.2 ∧ 58 ∉ f.1 ∧ findCrlf f.1 = none ∧ findCrlf f.2 = none)
    ⟨fun ⟨h1,h2,h3,h4,h5,h6⟩ => ⟨h1,h2,h3,h4,h5,h6⟩,
      fun h => ⟨h.ne_nil,h.name,h.value,h.colon,h.nameLine,h.valueLine⟩⟩

/-- A request that can be written. The length of its body is not for the caller to say. -/
structure Writable (r : ClientRequest) : Prop where
  method : IsWord r.method
  path : IsWord r.path
  version : IsWord r.version
  http : bytes "HTTP/" <+: r.version
  headers : ∀ f ∈ r.headers, CleanField f ∧ ¬ Named (bytes "content-length") f.1
  body : r.body.length ≤ maxHttpBodySize

instance : DecidablePred Writable := fun r =>
  decidable_of_iff (IsWord r.method ∧ IsWord r.path ∧ IsWord r.version ∧ bytes "HTTP/" <+: r.version ∧
      (∀ f ∈ r.headers, CleanField f ∧ ¬ Named (bytes "content-length") f.1) ∧ r.body.length ≤ maxHttpBodySize)
    ⟨fun ⟨h1,h2,h3,h4,h5,h6⟩ => ⟨h1,h2,h3,h4,h5,h6⟩,
      fun h => ⟨h.method,h.path,h.version,h.http,h.headers,h.body⟩⟩

/-- An HTTP/1.0 request is kept open by a header in this spelling only, another one by all that do not close it. -/
def keepAlive (r : ClientRequest) : Bool :=
  if r.version = bytes "HTTP/1.0" then
    (lastField (· = bytes "Connection") r.fields).any (fun value => toLower value = bytes "keep-alive")
  else (lastField (Named (bytes "connection")) r.fields).all (fun value => toLower value ≠ bytes "close")

/-- The request as the handlers should get it. -/
def received (r : ClientRequest) : SimpleHttpRequest where
  method := r.method
  path := r.path
  version := r.version
  headers := r.fields.foldl (fun m f => m.assign f.1 f.2) []
  keepAlive := r.keepAlive
  contentLength := r.body.length
  host := (lastField (Named (bytes "host")) r.fields).getD []
  userAgent := (lastField (Named (bytes "user-agent")) r.fields).getD []
  contentType := (lastField (Named (bytes "content-type")) r.fields).getD []
  body := r.body
  parseSuccess := true

end ClientRequest

section Fields
variable {P : List UInt8 → Prop} [DecidablePred P] {fields : List (List UInt8 × List UInt8)}

theorem lastField_cons (f : List UInt8 × List UInt8) :
    lastField P (f :: fields) = (lastField P fields).or (if P f.1 then some f.2 else none) := by
  unfold lastField
  by_cases hf : P f.1
  · rw [List.filter_cons_of_pos (by simpa using hf), List.getLast?_cons, if_pos hf]
    cases (fields.filter (fun f => decide (P f.1))).getLast? with
    | none => rfl
    | some last => rfl
  · rw [List.filter_cons_of_neg (by simpa using hf), if_neg hf, Option.or_none]

theorem lastField_append (more : List (List UInt8 × List UInt8)) :
    lastField P (fields ++ more) = (lastField P more).or (lastField P fields) := by
  induction fields with
  | nil => simp [lastField]
  | cons f fields ih => rw [List.cons_append, lastField_cons, ih, lastField_cons, Option.or_assoc]

theorem find_assigned (m : HeaderMap) (name : List UInt8) :
    HeaderMap.find name (fields.foldl (fun m f => m.assign f.1 f.2) m) =
      (lastField (· = name) fields).or (m.find name) := by
  induction fields generalizing m with
  | nil => rfl
  | cons f fields ih =>
    rw [List.foldl_cons, ih, HeaderMap.find_assign, lastField_cons, Option.or_assoc]
    split_ifs <;> rfl

theorem getD_lastField_cons {β : Type*} (f : List UInt8 × List UInt8) (g : List UInt8 → β) (value : β) :
    ((lastField P (f :: fields)).map g).getD value =
      ((lastField P fields).map g).getD (if P f.1 then g f.2 else value) := by
  rw [lastField_cons]
  cases lastField P fields with
  | none => split_ifs <;> rfl
  | some last => rfl

end Fields

namespace SimpleHttpRequest

/-- What headers make of a request, field by field. -/
def setFields (r : SimpleHttpRequest) (fields : List (List UInt8 × List UInt8)) : SimpleHttpRequest :=
  { r with
    headers := fields.foldl (fun m f => m.assign f.1 f.2) r.headers
    contentLength := ((lastField (Named (bytes "content-length")) fields).map fun v => (stoul v).getD 0).getD r.contentLength
    keepAlive := ((lastField (Named (bytes "connection")) fields).map fun v =>
      decide (toLower v ≠ bytes "close")).getD r.keepAlive
    host := ((lastField (Named (bytes "host")) fields).map id).getD r.host
    userAgent := ((lastField (Named (bytes "user-agent")) fields).map id).getD r.userAgent
    contentType := ((lastField (Named (bytes "content-type")) fields).map id).getD r.contentType }

theorem setLines_fields {fields : List (List UInt8 × List UInt8)} (r : SimpleHttpRequest)
    (h : ∀ f ∈ fields, fieldName (fieldLine f) = f.1 ∧ fieldValue (fieldLine f) = f.2) :
    r.setLines (fields.map fieldLine) = r.setFields fields := by
  induction fields generalizing r with
  | nil => rfl
  | cons f fields ih =>
    obtain ⟨⟨hname,hvalue⟩,hfields⟩ := List.forall_mem_cons.mp h
    rw [List.map_cons, setLines_cons, ih _ hfields, setLine, hname, hvalue]
    simp only [setFields, getD_lastField_cons, List.foldl_cons, setHeader]
    rfl

end SimpleHttpRequest

namespace ClientRequest
variable {r : ClientRequest} {f : List UInt8 × List UInt8}

theorem fieldLine_eq (f : List UInt8 × List UInt8) : fieldLine f = f.1 ++ 58 :: 32 :: f.2 := by simp [fieldLine, bytes]

theorem CleanField.read (h : CleanField f) : fieldName (fieldLine f) = f.1 ∧ fieldValue (fieldLine f) = f.2 := by
  have hkeep : ∀ c ∈ f.1, decide (c ≠ 58) = true := by
    intro c hc
    have hne : c ≠ 58 := by
      rintro rfl
      exact h.colon hc
    exact decide_eq_true hne
  constructor
  · rw [fieldName, fieldLine_eq, takeWhile_ne_append h.colon]
    simpa using h.name
  · rw [fieldValue, fieldLine_eq, List.dropWhile_append_of_pos hkeep]
    have hblank : ∀ c ∈ [(32 : UInt8)], isSpace c = true := List.forall_mem_singleton.mpr rfl
    have hpad := trim_pad hblank (List.forall_mem_nil _) h.value
    simpa using hpad

theorem trim_word {w : List UInt8} (h : ∀ c ∈ w, isSpace c = false) : trim w = w := by
  have hdrop : ∀ s : List UInt8, (∀ c ∈ s, isSpace c = false) → s.dropWhile isSpace = s := by
    intro s hs
    cases s with
    | nil => rfl
    | cons c s => exact List.dropWhile_cons_of_neg (by simp [hs c List.mem_cons_self])
  rw [trim, hdrop w h, hdrop w.reverse (fun c hc => h c (List.mem_reverse.mp hc)), List.reverse_reverse]

theorem cleanField_length (n : ℕ) : CleanField (bytes "Content-Length",decimal n) where
  ne_nil := show bytes "Content-Length" ≠ [] by decide
  name := show trim (bytes "Content-Length") = bytes "Content-Length" by decide
  value := trim_word fun _ hc => isSpace_digit (isDigit_of_mem_decimal hc)
  colon := show 58 ∉ bytes "Content-Length" by decide
  nameLine := show findCrlf (bytes "Content-Length") = none by decide
  valueLine := findCrlf_of_not_mem fun hmem => absurd (digit_of_mem_decimal hmem).1 (by decide)

theorem strictLength_decimal (h : r.body.length ≤ maxHttpBodySize) : StrictLength (decimal r.body.length) :=
  ⟨decimal_ne_nil _,fun _ hc => isDigit_of_mem_decimal hc,by rwa [digitsValue_decimal]⟩

theorem Writable.fields (h : r.Writable) : ∀ f ∈ r.fields, CleanField f ∧ ValidHeader (fieldLine f) ∧
    findCrlf (fieldLine f) = none := by
  have hline : ∀ {f : List UInt8 × List UInt8}, CleanField f →
      (Named (bytes "content-length") f.1 → AllowedLength f.2) →
      CleanField f ∧ ValidHeader (fieldLine f) ∧ findCrlf (fieldLine f) = none := by
    intro f hf hlength
    obtain ⟨hname,hvalue⟩ := hf.read
    refine ⟨hf,⟨?_,?_,?_⟩,findCrlf_fieldLine hf.nameLine hf.valueLine⟩
    · simp [fieldLine_eq]
    · rw [hname]
      exact hf.ne_nil
    · rw [hname, hvalue]
      exact hlength
  intro f hf
  rcases List.mem_append.mp hf with hf | hf
  · obtain ⟨hclean,hother⟩ := h.headers f hf
    exact hline hclean (fun hnamed => absurd hnamed hother)
  · split_ifs at hf
    · cases hf
    · obtain rfl := List.mem_singleton.mp hf
      refine hline (cleanField_length _) fun _ => ?_
      exact (allowedLength_digits fun _ hc => isDigit_of_mem_decimal hc).mpr (strictLength_decimal h.body)

theorem words_requestLine (h : r.Writable) : words (cleanedLine r.requestLine) = [r.method,r.path,r.version] := by
  have hspace : isSpace 32 = true := by decide
  have hlast : r.requestLine.getLast? ≠ some 13 := by
    intro hcr
    have hmem : 13 ∈ r.version := by
      have hversion := List.getLast?_append_of_ne_nil (r.method ++ 32 :: (r.path ++ [32])) h.version.1
      have heq : r.method ++ 32 :: (r.path ++ [32]) ++ r.version = r.requestLine := by simp [requestLine]
      rw [heq, hcr] at hversion
      exact List.mem_of_getLast? hversion.symm
    exact absurd (h.version.2 13 hmem) (by decide)
  rw [cleanedLine, rtrimCc, if_neg hlast, requestLine, words_word h.method.1 h.method.2 (Or.inr ⟨32,_,rfl,hspace⟩),
    words_space hspace, words_word h.path.1 h.path.2 (Or.inr ⟨32,_,rfl,hspace⟩), words_space hspace]
  have hthird : words (r.version ++ []) = r.version :: words [] := words_word h.version.1 h.version.2 (Or.inl rfl)
  rw [List.append_nil] at hthird
  rw [hthird]
  rfl

theorem parse_requestLine (h : r.Writable) : AcceptedRequestLine r.requestLine ∧
    ofRequestLine r.requestLine = { method := r.method, path := r.path, version := r.version } := by
  rcases parseRequestLine_cases {} r.requestLine with ⟨hshort,-⟩ | ⟨method,path,version,rest,hwords,heq⟩
  · rw [words_requestLine h] at hshort
    exact absurd hshort (by simp)
  rw [words_requestLine h] at hwords
  cases hwords
  obtain ⟨haccept,hsame⟩ := checkVersion_eq
    { ({} : SimpleHttpRequest) with method := r.method, path := r.path, version := r.version }
  have hok := haccept.mpr (Or.inr h.http)
  rw [AcceptedRequestLine, ofRequestLine, heq]
  exact ⟨hok,hsame hok⟩

theorem Writable.length (h : r.Writable) :
    ((lastField (Named (bytes "content-length")) r.fields).map fun v => (stoul v).getD 0).getD 0 = r.body.length := by
  have hnone : lastField (Named (bytes "content-length")) r.headers = none := by
    have hfilter : r.headers.filter (fun f => decide (Named (bytes "content-length") f.1)) = [] :=
      List.filter_eq_nil_iff.mpr fun f hf => by simpa using (h.headers f hf).2
    rw [lastField, hfilter]
    rfl
  have hown : Named (bytes "content-length") (bytes "Content-Length") := by decide
  rw [ClientRequest.fields, lastField_append, hnone, Option.or_none]
  split_ifs with hbody
  · rw [hbody]
    rfl
  · have hlast : lastField (Named (bytes "content-length")) [(bytes "Content-Length",decimal r.body.length)] =
        some (decimal r.body.length) := by
      rw [lastField_cons, if_pos hown]
      rfl
    rw [hlast, Option.map_some, Option.getD_some, stoul_strict (strictLength_decimal h.body), digitsValue_decimal]

theorem ofHead_received (h : r.Writable) : ofHead r.requestLine (r.fields.map fieldLine) =
    { r.received with body := [], parseSuccess := false } := by
  have hfind : HeaderMap.find (bytes "Connection") (r.fields.foldl (fun m f => m.assign f.1 f.2) []) =
      lastField (· = bytes "Connection") r.fields := by
    rw [find_assigned]
    exact Option.or_none
  rw [ofHead, (parse_requestLine h).2, setLines_fields _ fun f hf => (h.fields f hf).1.read]
  simp only [setFields, received, keepAlive, checkHeaders, h.length, Option.map_id, id]
  split_ifs with hversion
  · rw [hfind]
    cases lastField (· = bytes "Connection") r.fields <;> rfl
  · cases lastField (Named (bytes "connection")) r.fields <;> rfl

theorem lastLength_fields (h : r.Writable) : lastLength (r.fields.map fieldLine) = r.body.length := by
  rw [← ofHead_contentLength r.requestLine, ofHead_received h]
  rfl

theorem parse_encode (h : r.Writable) : Accepted r.encode ∧ requestOf r.encode = r.received := by
  have hlines : ∀ l ∈ r.fields.map fieldLine, ValidHeader l ∧ findCrlf l = none := by
    intro l hl
    obtain ⟨f,hf,rfl⟩ := List.mem_map.mp hl
    exact (h.fields f hf).2
  have hlast := lastLength_fields h
  have hclean : findCrlf r.requestLine = none := by
    have hno : ∀ {w}, IsWord w → 13 ∉ w := fun hw hmem => absurd (hw.2 13 hmem) (by decide)
    refine findCrlf_of_not_mem ?_
    simp [requestLine, hno h.method, hno h.path, hno h.version]
  obtain ⟨hcomplete,hconsumed,hcurrent⟩ :=
    parse_requestText (parse_requestLine h).1 hclean hlines (show lastLength _ ≤ r.body.length from hlast.le)
  have haccepted : Accepted r.encode := by
    refine ⟨hcomplete,hconsumed.trans ?_⟩
    rw [encode, requestText, List.length_append, length_joinLines, hlast]
  have hstate : (parse {} r.encode).1.state = .complete := haccepted.state
  refine ⟨haccepted,?_⟩
  rw [requestOf, getRequest]
  dsimp only
  rw [hstate, encode, hcurrent, ofHead_received h, hlast, List.take_length]
  rfl

/-- A request is accepted as it was written, byte for byte, and read as it was meant. -/
theorem request_round_trip (h : r.Writable) : Accepted r.encode ∧ requestOf r.encode = r.received ∧
    ∀ name, (requestOf r.encode).headers.find name = lastField (· = name) r.fields := by
  obtain ⟨haccepted,hrequest⟩ := parse_encode h
  refine ⟨haccepted,hrequest,fun name => ?_⟩
  rw [hrequest]
  exact (find_assigned [] name).trans Option.or_none

/-- Two headers of one name, and a name in another case. -/
def twice : ClientRequest where
  method := bytes "PUT"
  path := bytes "/a?b"
  version := bytes "HTTP/1.0"
  headers := [(bytes "X",bytes "1"),(bytes "hOST",bytes "h: \nx"),(bytes "X",[]),(bytes "connection",bytes "keep-alive")]
  body := bytes "\r\n\r\n"

theorem request_round_trip_twice : requestOf twice.encode = {
      method := bytes "PUT"
      path := bytes "/a?b"
      version := bytes "HTTP/1.0"
      headers := [(bytes "Content-Length",bytes "4"),(bytes "X",[]),(bytes "connection",bytes "keep-alive"),
        (bytes "hOST",bytes "h: \nx")]
      keepAlive := false
      contentLength := 4
      host := bytes "h: \nx"
      body := bytes "\r\n\r\n"
      parseSuccess := true } :=
  (request_round_trip (by decide)).2.1.trans (by decide)

end ClientRequest
end ModernTcp
