import ModernTcp.Common.LetterCase
import ModernTcp.Http.HeaderOrder

/-! # The case of header names

The fields of a request are set by the names of its headers in any case. But at the end of the head of an
HTTP/1.0 request `check_headers` looks for `Connection` in this spelling only.
-/
namespace ModernTcp

/-- The same header line, but for the case of letters in its name. -/
structure Recased (header header' : List UInt8) : Prop where
  name : toLower (header'.takeWhile (· ≠ 58)) = toLower (header.takeWhile (· ≠ 58))
  value : header'.dropWhile (· ≠ 58) = header.dropWhile (· ≠ 58)

variable {header header' : List UInt8} {headers headers' : List (List UInt8)}

namespace Recased

theorem fieldName (h : Recased header header') : toLower (fieldName header') = toLower (ModernTcp.fieldName header) := by
  rw [ModernTcp.fieldName, toLower_trim, h.name, ← toLower_trim]
  rfl

theorem fieldValue (h : Recased header header') : fieldValue header' = ModernTcp.fieldValue header := by
  rw [ModernTcp.fieldValue, h.value]
  rfl

theorem toLower_eq (h : Recased header header') : toLower header' = toLower header := by
  rw [← List.takeWhile_append_dropWhile (p := fun c => decide (c ≠ 58)) (l := header'), toLower_append, h.name, h.value,
    ← toLower_append, List.takeWhile_append_dropWhile]

theorem findCrlf_eq (h : Recased header header') : findCrlf header' = findCrlf header := by
  rw [← findCrlf_toLower, h.toLower_eq, findCrlf_toLower]

theorem length_eq (h : Recased header header') : header'.length = header.length := by
  rw [← length_toLower, h.toLower_eq, length_toLower]

theorem validHeader (h : Recased header header') (hvalid : ValidHeader header) : ValidHeader header' := by
  refine ⟨?_,?_,?_⟩
  · rw [← colon_mem_toLower, h.toLower_eq, colon_mem_toLower]
    exact hvalid.colon
  · intro hnil
    have hname := h.fieldName
    rw [hnil] at hname
    exact hvalid.name (List.map_eq_nil_iff.mp hname.symm)
  · rw [h.fieldName, h.fieldValue]
    exact hvalid.length

end Recased

theorem exists_recased (hvalid : ValidHeader header) {w : List UInt8} (hw : toLower w = toLower (fieldName header)) :
    ∃ header', Recased header header' ∧ fieldName header' = w := by
  obtain ⟨x,hx,htrim⟩ := exists_recase hw
  have hcolon : 58 ∉ x := by
    rw [← colon_mem_toLower, hx, colon_mem_toLower]
    exact not_mem_takeWhile_ne 58 header
  have hkeep : ∀ c ∈ x, decide (c ≠ 58) = true := by
    intro c hc
    have hne : c ≠ 58 := by
      rintro rfl
      exact hcolon hc
    exact decide_eq_true hne
  have hrest : header.dropWhile (· ≠ 58) = 58 :: (header.dropWhile (· ≠ 58)).drop 1 := by
    have hfirst := takeWhile_append_first hvalid.colon
    conv_rhs at hfirst => rw [← List.takeWhile_append_dropWhile (p := fun c => decide (c ≠ 58)) (l := header)]
    exact (List.append_cancel_left hfirst).symm
  have hname : (x ++ header.dropWhile (· ≠ 58)).takeWhile (· ≠ 58) = x := by
    rw [List.takeWhile_append_of_pos hkeep, hrest]
    simp
  have hvalue : (x ++ header.dropWhile (· ≠ 58)).dropWhile (· ≠ 58) = header.dropWhile (· ≠ 58) := by
    rw [List.dropWhile_append_of_pos hkeep, List.dropWhile_idempotent]
  refine ⟨x ++ header.dropWhile (· ≠ 58),⟨?_,hvalue⟩,?_⟩
  · rw [hname, hx]
  · rw [fieldName, hname, htrim]

/-- Headers under the spellings that `g` gives to their names. -/
theorem exists_recased_all {g : List UInt8 → List UInt8} (hg : ∀ header, toLower (g header) = toLower (fieldName header))
    (hvalid : ∀ header ∈ headers, ValidHeader header) :
    ∃ headers', List.Forall₂ (fun header header' => Recased header header' ∧ fieldName header' = g header) headers headers' := by
  induction headers with
  | nil => exact ⟨[],List.Forall₂.nil⟩
  | cons header headers ih =>
    obtain ⟨hheader,hheaders⟩ := List.forall_mem_cons.mp hvalid
    obtain ⟨header',hrecased⟩ := exists_recased hheader (hg header)
    obtain ⟨headers',hall⟩ := ih hheaders
    exact ⟨header' :: headers',List.Forall₂.cons hrecased hall⟩

namespace SimpleHttpRequest

/-- Two requests that differ in the map of their headers only. -/
def SameButMap (r r' : SimpleHttpRequest) : Prop := r' = { r with headers := r'.headers }

theorem SameButMap.field {β : Type*} {f : SimpleHttpRequest → β} (hf : ∀ r m, f { r with headers := m } = f r)
    {r r' : SimpleHttpRequest} (h : SameButMap r r') : f r' = f r := by
  rw [h]
  exact hf _ _

theorem SameButMap.setLine {r r' : SimpleHttpRequest} (h : SameButMap r r') (hcase : Recased header header') :
    SameButMap (r.setLine header) (r'.setLine header') := by
  rw [SameButMap] at h ⊢
  simp only [SimpleHttpRequest.setLine, setHeader, hcase.fieldName, hcase.fieldValue]
  rw [h]

theorem SameButMap.setLines {r r' : SimpleHttpRequest} (h : SameButMap r r')
    (hcase : List.Forall₂ Recased headers headers') : SameButMap (r.setLines headers) (r'.setLines headers') := by
  induction hcase generalizing r r' with
  | nil => exact h
  | cons hheader _ ih => exact ih (h.setLine hheader)

theorem sameButMap_recased (line : List UInt8) (h : List.Forall₂ Recased headers headers') :
    SameButMap ((ofRequestLine line).setLines headers) ((ofRequestLine line).setLines headers') :=
  SameButMap.setLines rfl h

/-- A field that neither the map nor `check_headers` has a part in. -/
theorem ofHead_field {β : Type*} {f : SimpleHttpRequest → β} (hmap : ∀ r m, f { r with headers := m } = f r)
    (hkeep : ∀ r keepAlive, f { r with keepAlive } = f r) (line : List UInt8)
    (h : List.Forall₂ Recased headers headers') : f (ofHead line headers') = f (ofHead line headers) := by
  obtain ⟨keep,hcheck⟩ := checkHeaders_frame ((ofRequestLine line).setLines headers)
  obtain ⟨keep',hcheck'⟩ := checkHeaders_frame ((ofRequestLine line).setLines headers')
  rw [ofHead, ofHead, hcheck, hcheck', hkeep _ keep, hkeep _ keep']
  exact (sameButMap_recased line h).field hmap

theorem lastLength_recased (h : List.Forall₂ Recased headers headers') : lastLength headers' = lastLength headers := by
  rw [← ofHead_contentLength [], ← ofHead_contentLength []]
  exact ofHead_field (f := contentLength) (fun _ _ => rfl) (fun _ _ => rfl) [] h

theorem linesLength_recased (h : List.Forall₂ Recased headers headers') : linesLength headers' = linesLength headers := by
  induction h with
  | nil => rfl
  | cons hheader _ ih => rw [linesLength_cons, linesLength_cons, hheader.length_eq, ih]

theorem setLines_version (r : SimpleHttpRequest) (headers : List (List UInt8)) :
    (r.setLines headers).version = r.version := by
  induction headers generalizing r with
  | nil => rfl
  | cons header headers ih => exact ih (r.setLine header)

/-- What `check_headers` makes of an HTTP/1.0 request. -/
theorem ofHead_keepAlive_old {line : List UInt8} (hversion : (ofRequestLine line).version = bytes "HTTP/1.0") :
    (ofHead line headers).keepAlive = true ↔
      ∃ value ∈ lastValue headers (bytes "Connection"), toLower value = bytes "keep-alive" := by
  have hfind := ofHead_find line headers (bytes "Connection")
  obtain ⟨_,hcheck⟩ := checkHeaders_frame ((ofRequestLine line).setLines headers)
  rw [ofHead, hcheck] at hfind
  rw [ofHead, checkHeaders, if_pos ((setLines_version _ headers).trans hversion), ← hfind]
  dsimp only
  cases ((ofRequestLine line).setLines headers).headers.find (bytes "Connection") with
  | none => simp
  | some value => simp

theorem ofHead_keepAlive_new {line : List UInt8} (hversion : (ofRequestLine line).version ≠ bytes "HTTP/1.0") :
    ofHead line headers = (ofRequestLine line).setLines headers := by
  have hsame : ((ofRequestLine line).setLines headers).version ≠ bytes "HTTP/1.0" := by
    rw [setLines_version]
    exact hversion
  rw [ofHead, checkHeaders, if_neg hsame]

end SimpleHttpRequest

theorem mem_of_lastValue {name value : List UInt8} (h : value ∈ lastValue headers name) :
    ∃ header ∈ headers, fieldName header = name ∧ fieldValue header = value := by
  obtain ⟨header,hlast,rfl⟩ := Option.mem_map.mp h
  have hmem := List.mem_of_getLast? hlast
  rw [List.mem_filter, decide_eq_true_eq] at hmem
  exact ⟨header,hmem.1,hmem.2,rfl⟩

theorem exists_lastValue {name : List UInt8} (hmem : header ∈ headers) (hname : fieldName header = name) :
    ∃ value, value ∈ lastValue headers name := by
  have hfilter : header ∈ headers.filter (fun h => decide (fieldName h = name)) :=
    List.mem_filter.mpr ⟨hmem,decide_eq_true hname⟩
  refine ⟨_,Option.mem_map_of_mem _ (List.getLast?_eq_some_getLast (List.ne_nil_of_mem hfilter))⟩

theorem exists_mem_of_forall₂ {R : List UInt8 → List UInt8 → Prop} (h : List.Forall₂ R headers headers') :
    (∀ x ∈ headers, ∃ y ∈ headers', R x y) ∧ ∀ y ∈ headers', ∃ x ∈ headers, R x y := by
  induction h with
  | nil => simp
  | cons hxy _ ih =>
    obtain ⟨hleft,hright⟩ := ih
    constructor
    · rw [List.forall_mem_cons]
      exact ⟨⟨_,List.mem_cons_self,hxy⟩,fun x hx => (hleft x hx).imp fun y hy => ⟨List.mem_cons_of_mem _ hy.1,hy.2⟩⟩
    · rw [List.forall_mem_cons]
      exact ⟨⟨_,List.mem_cons_self,hxy⟩,fun y hy => (hright y hy).imp fun x hx => ⟨List.mem_cons_of_mem _ hx.1,hx.2⟩⟩

namespace HttpParser
open SimpleHttpRequest

variable {line body : List UInt8}

/-- What is read of a request that is complete, but for the map of its headers. -/
structure SameRequest (text text' : List UInt8) : Prop where
  complete : (parse {} text').2.isComplete = (parse {} text).2.isComplete
  consumed : (parse {} text').2.consumedBytes = (parse {} text).2.consumedBytes
  body : (parse {} text').1.currentReq.body = (parse {} text).1.currentReq.body
  keepAlive : (parse {} text').1.currentReq.keepAlive = (parse {} text).1.currentReq.keepAlive
  contentLength : (parse {} text').1.currentReq.contentLength = (parse {} text).1.currentReq.contentLength
  host : (parse {} text').1.currentReq.host = (parse {} text).1.currentReq.host
  userAgent : (parse {} text').1.currentReq.userAgent = (parse {} text).1.currentReq.userAgent
  contentType : (parse {} text').1.currentReq.contentType = (parse {} text).1.currentReq.contentType

/-- The request is the same under all spellings of the names of its headers. -/
def NamesCaseless (line : List UInt8) (headers : List (List UInt8)) (body : List UInt8) : Prop :=
  ∀ headers', List.Forall₂ Recased headers headers' →
    SameRequest (requestText line headers body) (requestText line headers' body)

/-- An HTTP/1.0 request with a header that asks to keep the connection. -/
def AsksKeepAlive (line : List UInt8) (headers : List (List UInt8)) : Prop :=
  (ofRequestLine line).version = bytes "HTTP/1.0" ∧
    ∃ header ∈ headers, toLower (fieldName header) = bytes "connection" ∧
      toLower (fieldValue header) = bytes "keep-alive"

theorem parse_requestText (hline : AcceptedRequestLine line) (hcrlf : findCrlf line = none)
    (hheaders : ∀ h ∈ headers, ValidHeader h ∧ findCrlf h = none) (hbody : lastLength headers ≤ body.length) :
    (parse {} (requestText line headers body)).2.isComplete = true ∧
      (parse {} (requestText line headers body)).2.consumedBytes =
        linesLength (line :: headers ++ [[]]) + lastLength headers ∧
      (parse {} (requestText line headers body)).1.currentReq =
        { ofHead line headers with body := body.take (lastLength headers) } := by
  have hvalid : ∀ h ∈ headers, ValidHeader h := fun h hh => (hheaders h hh).1
  have hlines := linesOf_requestText hcrlf (fun h hh => (hheaders h hh).2) body
  have hhead : (({} : Head).reads (line :: headers)).state = .expectHeader :=
    congrArg Head.state (Head.reads_fresh hline hvalid)
  have hgrammar := parse_matches_grammar (requestText line headers body)
  have hcomplete := hgrammar.complete.mpr ((wholeRequest_requestText hline hcrlf hheaders).mpr hbody)
  obtain ⟨-,-,hlength,-⟩ := framing_ended (linesOf body) hhead
  obtain ⟨hrequest,-⟩ := run_ended hlines hhead
  have hheadLines : headLines (line :: headers ++ [] :: linesOf body) = headers := by
    rw [headLines_of_valid hvalid]
    simp
  have hdrop : (requestText line headers body).drop (linesLength (line :: headers ++ [[]])) = body := by
    rw [requestText, ← length_joinLines, List.drop_left]
  refine ⟨hcomplete,?_,?_⟩
  · rw [hgrammar.consumed hcomplete, hlines, hlength, bodyLength, hheadLines]
  · rw [parse_fst, hrequest, hlines, hlength, hdrop, headRequest, bodyLength, hheadLines]
    rfl

theorem asksKeepAlive_of_keepAlive (hversion : (ofRequestLine line).version = bytes "HTTP/1.0")
    (h : (ofHead line headers).keepAlive = true) : AsksKeepAlive line headers := by
  obtain ⟨value,hvalue,hlower⟩ := (ofHead_keepAlive_old hversion).mp h
  obtain ⟨header,hmem,hname,rfl⟩ := mem_of_lastValue hvalue
  exact ⟨hversion,header,hmem,by rw [hname]; decide,hlower⟩

theorem AsksKeepAlive.of_recased (h : List.Forall₂ Recased headers headers') (hasks : AsksKeepAlive line headers') :
    AsksKeepAlive line headers := by
  obtain ⟨hversion,header',hmem',hname,hvalue⟩ := hasks
  obtain ⟨header,hmem,hcase⟩ := (exists_mem_of_forall₂ h).2 header' hmem'
  exact ⟨hversion,header,hmem,by rw [← hcase.fieldName, hname],by rw [← hcase.fieldValue, hvalue]⟩

/-- Without such a header the spelling of the names does not matter. -/
theorem keepAlive_recased (hno : ¬ AsksKeepAlive line headers) (h : List.Forall₂ Recased headers headers') :
    (ofHead line headers').keepAlive = (ofHead line headers).keepAlive := by
  by_cases hversion : (ofRequestLine line).version = bytes "HTTP/1.0"
  · have hfalse : (ofHead line headers).keepAlive = false := by
      rw [Bool.eq_false_iff]
      exact fun hkeep => hno (asksKeepAlive_of_keepAlive hversion hkeep)
    rw [hfalse, Bool.eq_false_iff]
    exact fun hkeep => hno ((asksKeepAlive_of_keepAlive hversion hkeep).of_recased h)
  · rw [ofHead_keepAlive_new hversion, ofHead_keepAlive_new hversion]
    exact (sameButMap_recased line h).field (f := keepAlive) (fun _ _ => rfl)

theorem exists_spellings (hasks : AsksKeepAlive line headers) (hvalid : ∀ h ∈ headers, ValidHeader h) :
    (∃ headers', List.Forall₂ Recased headers headers' ∧ (ofHead line headers').keepAlive = false) ∧
      ∃ headers', List.Forall₂ Recased headers headers' ∧ (ofHead line headers').keepAlive = true := by
  obtain ⟨hversion,header,hmem,hname,hvalue⟩ := hasks
  constructor
  · -- all names in lower case
    obtain ⟨headers',hall⟩ := exists_recased_all (g := fun h => toLower (fieldName h)) (fun h => toLower_toLower _) hvalid
    refine ⟨headers',hall.imp fun _ _ h => h.1,?_⟩
    rw [Bool.eq_false_iff]
    intro hkeep
    obtain ⟨value,hlast,-⟩ := (ofHead_keepAlive_old hversion).mp hkeep
    obtain ⟨x',hx',hspelled,-⟩ := mem_of_lastValue hlast
    obtain ⟨x,-,-,hlower⟩ := (exists_mem_of_forall₂ hall).2 x' hx'
    have hfixed : toLower (bytes "Connection") = bytes "Connection" := by
      rw [← hspelled, hlower, toLower_toLower]
    exact absurd hfixed (by decide)
  · -- only those that ask are spelled as `check_headers` expects it
    have hg : ∀ h : List UInt8, toLower (if toLower (fieldName h) = bytes "connection" ∧
        toLower (fieldValue h) = bytes "keep-alive" then bytes "Connection" else toLower (fieldName h)) =
          toLower (fieldName h) := by
      intro h
      split_ifs with hask
      · rw [hask.1]
        decide
      · rw [toLower_toLower]
    obtain ⟨headers',hall⟩ := exists_recased_all hg hvalid
    refine ⟨headers',hall.imp fun _ _ h => h.1,?_⟩
    obtain ⟨x',hx',-,hspelled⟩ := (exists_mem_of_forall₂ hall).1 header hmem
    rw [if_pos ⟨hname,hvalue⟩] at hspelled
    obtain ⟨value,hlast⟩ := exists_lastValue hx' hspelled
    refine (ofHead_keepAlive_old hversion).mpr ⟨value,hlast,?_⟩
    obtain ⟨y',hy',hyname,rfl⟩ := mem_of_lastValue hlast
    obtain ⟨y,-,hcase,hy⟩ := (exists_mem_of_forall₂ hall).2 y' hy'
    rw [hy] at hyname
    split_ifs at hyname with hask
    · rw [hcase.fieldValue, hask.2]
    · have hfixed : toLower (bytes "Connection") = bytes "Connection" := by
        rw [← hyname, toLower_toLower]
      exact absurd hfixed (by decide)

theorem parse_recased (hline : AcceptedRequestLine line) (hcrlf : findCrlf line = none)
    (hheaders : ∀ h ∈ headers, ValidHeader h ∧ findCrlf h = none) (hbody : lastLength headers ≤ body.length)
    (hcase : List.Forall₂ Recased headers headers') :
    (parse {} (requestText line headers' body)).2.isComplete = true ∧
      (parse {} (requestText line headers' body)).2.consumedBytes =
        linesLength (line :: headers ++ [[]]) + lastLength headers ∧
      (parse {} (requestText line headers' body)).1.currentReq =
        { ofHead line headers' with body := body.take (lastLength headers) } := by
  have hheaders' : ∀ h ∈ headers', ValidHeader h ∧ findCrlf h = none := by
    intro h hh
    obtain ⟨x,hx,hxh⟩ := (exists_mem_of_forall₂ hcase).2 h hh
    exact ⟨hxh.validHeader (hheaders x hx).1,by rw [hxh.findCrlf_eq, (hheaders x hx).2]⟩
  have hlength : linesLength (line :: headers' ++ [[]]) = linesLength (line :: headers ++ [[]]) := by
    rw [List.cons_append, List.cons_append, linesLength_cons, linesLength_cons, linesLength_append, linesLength_append,
      linesLength_recased hcase]
  have hparse := parse_requestText hline hcrlf hheaders' (by rw [lastLength_recased hcase]; exact hbody)
  rwa [hlength, lastLength_recased hcase] at hparse

/-- The names may be spelled in any case if and only if no header asks to keep an HTTP/1.0 connection. -/
theorem header_names_iff (hline : AcceptedRequestLine line) (hcrlf : findCrlf line = none)
    (hheaders : ∀ h ∈ headers, ValidHeader h ∧ findCrlf h = none) (hbody : lastLength headers ≤ body.length) :
    NamesCaseless line headers body ↔ ¬ AsksKeepAlive line headers := by
  obtain ⟨hcomplete,hconsumed,hrequest⟩ := parse_requestText hline hcrlf hheaders hbody
  constructor
  · intro hsame hasks
    obtain ⟨⟨closed,hclosed,hfalse⟩,kept,hkept,htrue⟩ := exists_spellings hasks (fun h hh => (hheaders h hh).1)
    have hone := (hsame closed hclosed).keepAlive
    have htwo := (hsame kept hkept).keepAlive
    rw [(parse_recased hline hcrlf hheaders hbody hclosed).2.2, hrequest] at hone
    rw [(parse_recased hline hcrlf hheaders hbody hkept).2.2, hrequest] at htwo
    have heq : (ofHead line closed).keepAlive = (ofHead line kept).keepAlive := hone.trans htwo.symm
    rw [hfalse, htrue] at heq
    cases heq
  · intro hno headers' hcase
    obtain ⟨hcomplete',hconsumed',hrequest'⟩ := parse_recased hline hcrlf hheaders hbody hcase
    constructor
    · rw [hcomplete, hcomplete']
    · rw [hconsumed, hconsumed']
    · rw [hrequest, hrequest']
    · rw [hrequest, hrequest']
      exact keepAlive_recased hno hcase
    · rw [hrequest, hrequest']
      exact ofHead_field (f := contentLength) (fun _ _ => rfl) (fun _ _ => rfl) line hcase
    · rw [hrequest, hrequest']
      exact ofHead_field (f := host) (fun _ _ => rfl) (fun _ _ => rfl) line hcase
    · rw [hrequest, hrequest']
      exact ofHead_field (f := userAgent) (fun _ _ => rfl) (fun _ _ => rfl) line hcase
    · rw [hrequest, hrequest']
      exact ofHead_field (f := contentType) (fun _ _ => rfl) (fun _ _ => rfl) line hcase

theorem header_names_new :
    NamesCaseless (bytes "GET / HTTP/1.1") [bytes "connection: keep-alive"] [] :=
  (header_names_iff (by decide) (by decide) (by decide) (by decide)).mpr (by
    rintro ⟨hversion,-⟩
    exact absurd hversion (by decide))

/-- `Connection: keep-alive` and `connection: keep-alive` are not the same to an HTTP/1.0 request. -/
theorem header_names_old : ¬ NamesCaseless (bytes "GET / HTTP/1.0") [bytes "Connection: keep-alive"] [] := by
  intro h
  have hkeep := (h [bytes "connection: keep-alive"] (List.Forall₂.cons ⟨by decide,by decide⟩ List.Forall₂.nil)).keepAlive
  revert hkeep
  decide

end HttpParser
end ModernTcp
