import ModernTcp.Http.HttpGrammar

/-! # The order of headers

Headers of different names set different entries of the map and different fields, so their order does
not matter.
-/
namespace ModernTcp

namespace HeaderMap

theorem assign_comm_lt {key key' : List UInt8} (hlt : key < key') (value value' : List UInt8) (m : HeaderMap) :
    (m.assign key value).assign key' value' = (m.assign key' value').assign key value := by
  have hng : ¬ key' < key := List.lt_asymm hlt
  have hne : key ≠ key' := by
    rintro rfl
    exact List.lt_irrefl key hlt
  induction m with
  | nil => simp [assign, hne, hne.symm, hlt, hng]
  | cons e m ih =>
    obtain ⟨k,v⟩ := e
    by_cases hk : key = k
    · -- the first key has its entry here, and the second one goes behind it
      subst hk
      simp [assign, hne.symm, hng]
    by_cases hfront : key < k
    · by_cases hk' : key' = k
      · subst hk'
        simp [assign, hne, hne.symm, hlt, hng]
      by_cases hfront' : key' < k
      · simp [assign, hne, hne.symm, hlt, hng, hk, hk', hfront, hfront']
      · simp [assign, hne.symm, hng, hk, hk', hfront, hfront']
    · have hbehind : k < key := by
        by_contra hno
        exact hk (List.le_antisymm hno hfront)
      have hbehind' : k < key' := List.lt_trans hbehind hlt
      have hk' : key' ≠ k := by
        rintro rfl
        exact List.lt_irrefl _ hbehind'
      simp [assign, hk, hk', hfront, List.lt_asymm hbehind', ih]

theorem assign_comm {key key' : List UInt8} (hne : key ≠ key') (value value' : List UInt8) (m : HeaderMap) :
    (m.assign key value).assign key' value' = (m.assign key' value').assign key value := by
  by_cases hlt : key < key'
  · exact assign_comm_lt hlt value value' m
  · have hgt : key' < key := by
      by_contra hno
      exact hne (List.le_antisymm hno hlt)
    exact (assign_comm_lt hgt value' value m).symm

end HeaderMap

theorem ite_swap {α : Type*} {P Q : Prop} [Decidable P] [Decidable Q] (h : P → ¬ Q) (a b c : α) :
    (if Q then a else if P then b else c) = if P then b else if Q then a else c := by
  by_cases hP : P
  · simp [hP, h hP]
  · simp [hP]

namespace SimpleHttpRequest

theorem setHeader_comm (r : SimpleHttpRequest) {name name' : List UInt8} (hne : toLower name ≠ toLower name')
    (value value' : List UInt8) :
    (r.setHeader name value).setHeader name' value' = (r.setHeader name' value').setHeader name value := by
  have hkeys : name ≠ name' := fun h => hne (congrArg toLower h)
  have hother : ∀ key, toLower name = key → toLower name' ≠ key := fun key h h' => hne (h.trans h'.symm)
  simp only [setHeader, HeaderMap.assign_comm hkeys, ite_swap (hother _)]

/-- The headers of a list with different names are set in any order. -/
theorem setLines_perm {lines lines' : List (List UInt8)} (hperm : lines'.Perm lines)
    (hnames : lines.Pairwise (fun a b => toLower (fieldName a) ≠ toLower (fieldName b))) (r : SimpleHttpRequest) :
    r.setLines lines' = r.setLines lines := by
  refine (hperm.symm.foldl_eq' ?_ r).symm
  intro a ha b hb s
  by_cases hab : a = b
  · rw [hab]
  · have hsymm : Std.Symm (fun a b : List UInt8 => toLower (fieldName a) ≠ toLower (fieldName b)) :=
      ⟨fun _ _ h => h.symm⟩
    exact setHeader_comm s (hnames.forall ha hb hab) _ _

end SimpleHttpRequest

namespace HttpParser
open Scan

def requestText (line : List UInt8) (headers : List (List UInt8)) (body : List UInt8) : List UInt8 :=
  joinLines (line :: headers ++ [[]]) ++ body

variable {line body : List UInt8} {headers headers' : List (List UInt8)}

theorem linesOf_requestText (hline : findCrlf line = none) (hheaders : ∀ h ∈ headers, findCrlf h = none)
    (body : List UInt8) :
    linesOf (requestText line headers body) = line :: headers ++ [] :: linesOf body := by
  have hlines : ∀ l ∈ line :: headers ++ [[]], findCrlf l = none := by
    intro l hl
    simp only [List.cons_append, List.mem_cons, List.mem_append, List.not_mem_nil, or_false] at hl
    rcases hl with rfl | hl | rfl
    · exact hline
    · exact hheaders l hl
    · rfl
  rw [requestText, linesOf_join hlines]
  simp

/-- The scan behind accepted lines, in front of the blank one. -/
def behindLines (line : List UInt8) (headers : List (List UInt8)) (body : List UInt8) : Scan :=
  { parser := { state := .expectHeader, currentReq := (SimpleHttpRequest.ofRequestLine line).setLines headers }
    rest := body
    consumed := linesLength (line :: headers ++ [[]]) }

theorem run_requestText (hline : AcceptedRequestLine line) (hcrlf : findCrlf line = none)
    (hheaders : ∀ h ∈ headers, ValidHeader h ∧ findCrlf h = none) :
    (({} : HttpParser).scan (requestText line headers body)).run = ((behindLines line headers body).readLine []).run := by
  have hlines := linesOf_requestText hcrlf (fun h hh => (hheaders h hh).2) body
  have hreads := Head.reads_fresh hline (fun h hh => (hheaders h hh).1)
  have hhead : (({} : HttpParser).scan (requestText line headers body)).parser.head = {} := rfl
  have hopen : ((({} : HttpParser).scan (requestText line headers body)).parser.head.reads
      (line :: headers)).state.readsLine = true := by
    rw [hhead, hreads]
    rfl
  have hbehind : (({} : HttpParser).scan (requestText line headers body)).behind (line :: headers) [] =
      behindLines line headers body := by
    have hdrop : (requestText line headers body).drop (linesLength (line :: headers ++ [[]])) = body := by
      rw [requestText, ← length_joinLines, List.drop_left]
    have htemp : (({} : HttpParser).scan (requestText line headers body)).parser.tempBuffer.length = 0 := rfl
    rw [behind, htemp, Nat.sub_zero, scan_rest, hdrop, scan_consumed, Nat.zero_add, hhead, hreads]
    rfl
  rw [run_lines (by rw [fresh_lines]; exact hlines) hopen, hbehind]

theorem wholeRequest_requestText (hline : AcceptedRequestLine line) (hcrlf : findCrlf line = none)
    (hheaders : ∀ h ∈ headers, ValidHeader h ∧ findCrlf h = none) :
    WholeRequest (linesOf (requestText line headers body)) (requestText line headers body).length ↔
      lastLength headers ≤ body.length := by
  have hvalid : ∀ h ∈ headers, ValidHeader h := fun h hh => (hheaders h hh).1
  have hstate : (({} : Head).reads (line :: headers)).state = .expectHeader := by rw [Head.reads_fresh hline hvalid]
  obtain ⟨haccepted,hends,hlength,-⟩ := framing_ended (linesOf body) hstate
  have hheadLines : headLines (line :: headers ++ [] :: linesOf body) = headers := by
    rw [headLines_of_valid hvalid]
    simp
  rw [linesOf_requestText hcrlf (fun h hh => (hheaders h hh).2) body, WholeRequest, hlength, bodyLength, hheadLines,
    requestText, List.length_append, length_joinLines, and_iff_right haccepted, and_iff_right hends]
  omega

/-- Permuted headers of different names make the same request of the same bytes. -/
theorem header_order_irrelevant (hline : AcceptedRequestLine line) (hcrlf : findCrlf line = none)
    (hheaders : ∀ h ∈ headers, ValidHeader h ∧ findCrlf h = none)
    (hnames : headers.Pairwise (fun a b => toLower (fieldName a) ≠ toLower (fieldName b)))
    (hperm : headers'.Perm headers) (hbody : lastLength headers ≤ body.length) :
    (parse {} (requestText line headers' body)).2.isComplete = true ∧
      (parse {} (requestText line headers' body)).2.consumedBytes =
        (parse {} (requestText line headers body)).2.consumedBytes ∧
      (parse {} (requestText line headers' body)).1.getRequest.1 =
        (parse {} (requestText line headers body)).1.getRequest.1 := by
  have hheaders' : ∀ h ∈ headers', ValidHeader h ∧ findCrlf h = none := fun h hh => hheaders h (hperm.subset hh)
  have hbehind : behindLines line headers' body = behindLines line headers body := by
    have hlength : linesLength (line :: headers' ++ [[]]) = linesLength (line :: headers ++ [[]]) := by
      have hsum := (hperm.map (fun l => l.length + 2)).sum_eq
      simp only [List.cons_append, linesLength_cons, linesLength_append]
      exact congrArg (fun n => line.length + 2 + (n + _)) hsum
    rw [behindLines, behindLines, SimpleHttpRequest.setLines_perm hperm hnames, hlength]
  have hrun : (({} : HttpParser).scan (requestText line headers' body)).run =
      (({} : HttpParser).scan (requestText line headers body)).run := by
    rw [run_requestText hline hcrlf hheaders', run_requestText hline hcrlf hheaders, hbehind]
  refine ⟨?_,?_,?_⟩
  · rw [parse_isComplete, hrun, ← parse_isComplete, (parse_matches_grammar _).complete,
      wholeRequest_requestText hline hcrlf hheaders]
    exact hbody
  · rw [parse_consumed, parse_consumed, hrun]
  · rw [parse_fst, parse_fst, hrun]

theorem header_order_two :
    (parse {} (requestText (bytes "PUT /a HTTP/1.0") [bytes "Connection: keep-alive",bytes "Content-Length: 2"]
      (bytes "hi"))).1.getRequest.1 =
    (parse {} (requestText (bytes "PUT /a HTTP/1.0") [bytes "Content-Length: 2",bytes "Connection: keep-alive"]
      (bytes "hi"))).1.getRequest.1 :=
  (header_order_irrelevant (by decide) (by decide) (by decide) (by decide)
    (List.Perm.swap _ _ _) (by decide)).2.2

end HttpParser
end ModernTcp
