import ModernTcp.Http.HttpParserLines

/-! # What a header line does

`parse_header_line` refuses a line for what the line says alone. An accepted line sets an entry of the
map and, by its name in any case, one more field.
-/
namespace ModernTcp

/-- A number that the limit lets through. -/
def AllowedLength (value : List UInt8) : Prop := ∃ n ∈ stoul value, n ≤ maxHttpBodySize

instance : DecidablePred AllowedLength := fun _ => inferInstanceAs (Decidable (∃ _ ∈ _, _))

/-- A line that `parse_header_line` accepts. -/
structure ValidHeader (line : List UInt8) : Prop where
  colon : 58 ∈ line
  name : fieldName line ≠ []
  length : toLower (fieldName line) = bytes "content-length" → AllowedLength (fieldValue line)

instance : DecidablePred ValidHeader := fun line =>
  decidable_of_iff (58 ∈ line ∧ fieldName line ≠ [] ∧
      (toLower (fieldName line) = bytes "content-length" → AllowedLength (fieldValue line)))
    ⟨fun h => ⟨h.1,h.2.1,h.2.2⟩,fun h => ⟨h.colon,h.name,h.length⟩⟩

namespace SimpleHttpRequest
variable {line : List UInt8}

/-- What is set by an accepted header. -/
def setHeader (r : SimpleHttpRequest) (name value : List UInt8) : SimpleHttpRequest :=
  { r with
    headers := r.headers.assign name value
    contentLength := if toLower name = bytes "content-length" then (stoul value).getD 0 else r.contentLength
    keepAlive := if toLower name = bytes "connection" then toLower value ≠ bytes "close" else r.keepAlive
    host := if toLower name = bytes "host" then value else r.host
    userAgent := if toLower name = bytes "user-agent" then value else r.userAgent
    contentType := if toLower name = bytes "content-type" then value else r.contentType }

theorem parseHeaderLine_def (r : SimpleHttpRequest) (line : List UInt8) : r.parseHeaderLine line =
    if 58 ∉ line then r.fail (bytes "Invalid HTTP header line: " ++ line)
    else if fieldName line = [] then r.fail (bytes "Empty header key")
    else
      let r := { r with headers := r.headers.assign (fieldName line) (fieldValue line) }
      if toLower (fieldName line) = bytes "content-length" then r.setContentLength (fieldValue line)
      else if toLower (fieldName line) = bytes "connection" then
        (true,{ r with keepAlive := toLower (fieldValue line) ≠ bytes "close" })
      else if toLower (fieldName line) = bytes "host" then (true,{ r with host := fieldValue line })
      else if toLower (fieldName line) = bytes "user-agent" then (true,{ r with userAgent := fieldValue line })
      else if toLower (fieldName line) = bytes "content-type" then (true,{ r with contentType := fieldValue line })
      else (true,r) := rfl

theorem setContentLength_of_allowed (r : SimpleHttpRequest) {value : List UInt8} (h : AllowedLength value) :
    r.setContentLength value = (true,{ r with contentLength := (stoul value).getD 0 }) := by
  obtain ⟨n,hn,hle⟩ := h
  rw [Option.mem_def] at hn
  rw [setContentLength, hn]
  exact if_neg (not_lt.mpr hle)

theorem setContentLength_of_not_allowed (r : SimpleHttpRequest) {value : List UInt8} (h : ¬ AllowedLength value) :
    (r.setContentLength value).1 = false := by
  rw [setContentLength]
  cases hvalue : stoul value with
  | none => rfl
  | some n =>
    have hlimit : maxHttpBodySize < n := not_le.mp (fun hle => h ⟨n,hvalue,hle⟩)
    dsimp only
    rw [if_pos hlimit]
    rfl

theorem parseHeaderLine_valid (r : SimpleHttpRequest) (h : ValidHeader line) :
    r.parseHeaderLine line = (true,r.setHeader (fieldName line) (fieldValue line)) := by
  rw [parseHeaderLine_def, if_neg (not_not.mpr h.colon), if_neg h.name]
  dsimp only
  by_cases hlength : toLower (fieldName line) = bytes "content-length"
  · rw [if_pos hlength, setContentLength_of_allowed _ (h.length hlength), setHeader, hlength]
    rfl
  rw [if_neg hlength]
  by_cases hconnection : toLower (fieldName line) = bytes "connection"
  · rw [if_pos hconnection, setHeader, hconnection]
    rfl
  rw [if_neg hconnection]
  by_cases hhost : toLower (fieldName line) = bytes "host"
  · rw [if_pos hhost, setHeader, hhost]
    rfl
  rw [if_neg hhost]
  by_cases hagent : toLower (fieldName line) = bytes "user-agent"
  · rw [if_pos hagent, setHeader, hagent]
    rfl
  rw [if_neg hagent]
  by_cases htype : toLower (fieldName line) = bytes "content-type"
  · rw [if_pos htype, setHeader, htype]
    rfl
  · rw [if_neg htype, setHeader, if_neg hlength, if_neg hconnection, if_neg hhost, if_neg hagent, if_neg htype]

theorem parseHeaderLine_invalid (r : SimpleHttpRequest) (h : ¬ ValidHeader line) :
    (r.parseHeaderLine line).1 = false := by
  rw [parseHeaderLine_def]
  by_cases hcolon : 58 ∈ line
  · rw [if_neg (not_not.mpr hcolon)]
    by_cases hname : fieldName line = []
    · rw [if_pos hname]
      rfl
    · have hlength : toLower (fieldName line) = bytes "content-length" ∧ ¬ AllowedLength (fieldValue line) := by
        by_contra hno
        exact h ⟨hcolon,hname,fun hkey => not_not.mp (fun hbad => hno ⟨hkey,hbad⟩)⟩
      rw [if_neg hname]
      dsimp only
      rw [if_pos hlength.1]
      exact setContentLength_of_not_allowed _ hlength.2
  · rw [if_pos hcolon]
    rfl

theorem parseHeaderLine_accepts (r : SimpleHttpRequest) (line : List UInt8) :
    (r.parseHeaderLine line).1 = true ↔ ValidHeader line := by
  by_cases h : ValidHeader line
  · exact iff_of_true (by rw [parseHeaderLine_valid r h]) h
  · refine iff_of_false ?_ h
    rw [parseHeaderLine_invalid r h]
    simp

end SimpleHttpRequest
end ModernTcp
