import ModernTcp.Http.ResponseDecode
import ModernTcp.Lib.Frames

/-! # Streams of responses

On a connection the responses stand behind one another. A receiver finds the end of each by its `Content-Length`, so
it can tell from any front part of the stream which of them have come, whatever their bodies look like.
-/
namespace ModernTcp
open DecodedResponse SimpleHttpResponse

/-- The first response of a stream, and what follows it. -/
def DecodedResponse.next (s : List UInt8) : Option (DecodedResponse × List UInt8) :=
  (decode s).bind fun r => r.contentLength.bind fun n =>
    if n ≤ r.body.length then some ({ r with body := r.body.take n },r.body.drop n) else none

namespace SimpleHttpResponse
variable {r : SimpleHttpResponse}

def seen (r : SimpleHttpResponse) : DecodedResponse where
  statusLine := r.statusLine
  contentType := some r.contentType
  contentLength := some r.body.length
  keepAlive := some r.keepAlive
  headers := r.headers
  body := r.body

theorem head_lines (h : r.Encodable) : ∃ pre, r.head = pre ++ blankLine ∧
    (∀ rest, findSub blankLine (r.head ++ rest) = some pre.length) ∧
    linesOf (pre ++ crlf) = r.statusLine :: r.fields.map fieldLine := by
  have hlines : ∀ line ∈ r.statusLine :: r.fields.map fieldLine, line ≠ [] ∧ findCrlf line = none := by
    refine List.forall_mem_cons.mpr ⟨⟨by simp [statusLine, bytes],findCrlf_statusLine h⟩,?_⟩
    intro line hline
    obtain ⟨f,hf,rfl⟩ := List.mem_map.mp hline
    obtain ⟨hname,hvalue,-⟩ := fields_clean h f hf
    exact ⟨by simp [fieldLine, bytes],findCrlf_fieldLine hname hvalue⟩
  have hhead : r.head = joinLines (r.statusLine :: r.fields.map fieldLine) ++ crlf := by
    have hall : r.head ++ r.body = joinLines (r.statusLine :: r.fields.map fieldLine) ++ 13 :: 10 :: r.body := toString_eq r
    have hbody : r.head ++ r.body = (joinLines (r.statusLine :: r.fields.map fieldLine) ++ crlf) ++ r.body := by
      rw [hall]
      simp [crlf]
    exact List.append_cancel_right hbody
  obtain ⟨pre,hpre,-⟩ := findSub_blankLine_join (List.cons_ne_nil _ _) hlines []
  refine ⟨pre,?_,fun rest => ?_,?_⟩
  · rw [hhead, hpre, List.append_assoc]
    rfl
  · obtain ⟨pre',hpre',hfind⟩ := findSub_blankLine_join (List.cons_ne_nil _ _) hlines rest
    obtain rfl : pre = pre' := List.append_cancel_right (hpre.symm.trans hpre')
    rw [hhead, List.append_assoc]
    exact hfind
  · have hjoin := linesOf_join (fun line hline => (hlines line hline).2) []
    rwa [List.append_nil, hpre, show linesOf [] = [] from rfl, List.append_nil] at hjoin

theorem decode_head (h : r.Encodable) (rest : List UInt8) : decode (r.head ++ rest) = some { r.seen with body := rest } := by
  obtain ⟨pre,hhead,hfind,hlines⟩ := head_lines h
  have htake : (r.head ++ rest).take pre.length = pre := by rw [hhead, List.append_assoc, List.take_left]
  have hdrop : (r.head ++ rest).drop (pre.length + 4) = rest := by
    rw [hhead, List.append_assoc, ← List.drop_drop, List.drop_left]
    rfl
  rw [decode, hfind rest]
  simp only [Option.bind_some, htake, hdrop, hlines]
  rw [mapM_splitHeader fun f hf => (fields_clean h f hf).2.2, Option.map_some, ofFields_fields h]
  rfl

theorem next_head (h : r.Encodable) (rest : List UInt8) : DecodedResponse.next (r.head ++ rest) =
    if r.body.length ≤ rest.length then some ({ r.seen with body := rest.take r.body.length },rest.drop r.body.length)
    else none := by
  rw [DecodedResponse.next, decode_head h]
  rfl

theorem head_prefix (h : r.Encodable) {s : List UInt8} (hs : s <+: r.toString) {n : ℕ}
    (hn : findSub blankLine s = some n) : r.head <+: s := by
  obtain ⟨pre,hhead,hfind,-⟩ := head_lines h
  obtain ⟨t,ht⟩ := hs
  have hwhole : findSub blankLine r.toString = some n := ht ▸ findSub_append_of_some hn t
  have hpos : n = pre.length := by
    have hfound := hfind r.body
    rw [show r.head ++ r.body = r.toString from rfl, hwhole] at hfound
    exact Option.some.inj hfound
  have hlen : r.head.length ≤ s.length := by
    have hbound := findSub_bound hn
    rwa [hpos, ← List.length_append, ← hhead] at hbound
  exact List.prefix_of_prefix_length_le (List.prefix_append r.head r.body) ⟨t,ht⟩ hlen

theorem toString_reads : Frames.Reads DecodedResponse.next toString seen Encodable where
  ne_nil r _ := by simp [toString, head, bytes]
  nil := by decide
  whole r hr rest := by
    rw [toString, List.append_assoc, next_head hr, if_pos (by simp), List.take_left, List.drop_left]
    rfl
  part r hr s hs hne := by
    cases hfind : findSub blankLine s with
    | none => rw [DecodedResponse.next, decode, hfind]; rfl
    | some n =>
      obtain ⟨t,rfl⟩ := head_prefix hr hs hfind
      have hbody : t <+: r.body := (List.prefix_append_right_inj _).mp hs
      have hless : ¬ r.body.length ≤ t.length := by
        intro hle
        exact hne (congrArg (r.head ++ ·) (hbody.eq_of_length_le hle))
      rw [next_head hr, if_neg hless]

/-- Whatever part of the stream has come, the receiver gets the responses that are in it as a whole, and none of them
is taken for anything else. -/
theorem responses_of_prefix {rs : List SimpleHttpResponse} (hrs : ∀ r ∈ rs, r.Encodable) {s : List UInt8}
    (hs : s <+: rs.flatMap toString) : ∃ k ≤ rs.length, Frames.items DecodedResponse.next s = (rs.take k).map seen ∧
      (rs.take k).flatMap toString <+: s ∧ (k < rs.length → s.length < ((rs.take (k + 1)).flatMap toString).length) :=
  Frames.items_of_prefix toString_reads hrs hs

/-- The body of the first response looks like the head of a response. -/
def twoResponses : List SimpleHttpResponse := [{ body := bytes "HTTP/1.1 200 OK\r\n\r\n" },{ body := bytes "b" }]

theorem responses_of_prefix_cut :
    Frames.items DecodedResponse.next ((twoResponses.flatMap toString).take 130) = (twoResponses.take 1).map seen := by
  have hplain : ∀ body, ({ body } : SimpleHttpResponse).Encodable := fun _ =>
    ⟨show findCrlf (bytes "OK") = none by decide,show findCrlf (bytes "text/plain") = none by decide,
      fun _ h => by cases h⟩
  have hall : ∀ r ∈ twoResponses, r.Encodable := by
    intro r hr
    rcases List.mem_pair.mp hr with rfl | rfl <;> exact hplain _
  obtain ⟨k,hk,hitems,hwhole,hpart⟩ := responses_of_prefix hall (List.take_prefix 130 (twoResponses.flatMap toString))
  have hnone : k ≠ 0 := by
    rintro rfl
    exact absurd (hpart (by decide)) (by decide +kernel)
  have hboth : k ≠ 2 := by
    rintro rfl
    exact absurd hwhole.length_le (by decide +kernel)
  have hcount : k = 1 := by
    have hlen : twoResponses.length = 2 := rfl
    omega
  rw [hitems, hcount]

end SimpleHttpResponse
end ModernTcp
