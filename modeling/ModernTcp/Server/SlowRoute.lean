import ModernTcp.Http.HttpGrammar
import ModernTcp.Http.RequestLine
import ModernTcp.Http.ResponseDecode
import ModernTcp.Server.EchoRoute

/-! # The query string of `/slow`

The parser leaves the query string in the path and the handler of `/slow` looks for it there, but the
router looks the whole path up.
-/
namespace ModernTcp.Routes
open HttpParser SimpleHttpRequest

variable {ω : Type*}

theorem setRoutes_keys (process : Process ω) : (setRoutes process {}).routes.map Prod.fst =
    [bytes "GET:/slow",bytes "GET:/metrics",bytes "GET:/health",bytes "GET:/info",bytes "POST:/echo",bytes "GET:/json",
      bytes "GET:/hello",bytes "GET:/"] := rfl

/-- No path with a query string has a route. -/
theorem setRoutes_query (process : Process ω) {req : SimpleHttpRequest} (h : 63 ∈ req.path) :
    (setRoutes process {}).route req = none := by
  have hkeys : ∀ key ∈ (setRoutes process {}).routes.map Prod.fst, 63 ∉ key := by
    rw [setRoutes_keys]
    decide
  rw [HttpRouter.route, Option.map_eq_none_iff, List.find?_eq_none]
  intro e he
  simp only [decide_eq_true_eq]
  intro hkey
  refine hkeys e.1 (List.mem_map_of_mem he) ?_
  rw [hkey, HttpRouter.routeKey]
  exact List.mem_append_right _ h

def notFound (path : List UInt8) : SimpleHttpResponse where
  statusCode := 404
  statusText := bytes "Not Found"
  body := bytes "Not Found: " ++ path

theorem setRoutes_miss (process : Process ω) {req : SimpleHttpRequest} (world : ω)
    (h : (setRoutes process {}).route req = none) :
    (setRoutes process {}).handle req world = { world := process.countRequest world, response := notFound req.path } := by
  have hterminal : (setRoutes process {}).terminal req = (setRoutes process {}).onNotFound req := by
    unfold HttpRouter.terminal
    rw [h]
  have hchain : (setRoutes process {}).handle req world =
      countRequests process req ((setRoutes process {}).onNotFound req) world {} := by
    rw [HttpRouter.handle, hterminal]
    rfl
  rw [hchain]
  rfl

def Unspaced (q : List UInt8) : Prop := ∀ c ∈ q, isSpace c = false

instance : DecidablePred Unspaced := fun q => List.decidableBAll (fun c => isSpace c = false) q

def slowLine (q : List UInt8) : List UInt8 := bytes "GET /slow?" ++ q ++ bytes " HTTP/1.1"

variable {q : List UInt8}

theorem words_slowLine (hq : Unspaced q) :
    words (cleanedLine (slowLine q)) = [bytes "GET",bytes "/slow?" ++ q,bytes "HTTP/1.1"] := by
  have hclean : cleanedLine (slowLine q) =
      bytes "GET" ++ 32 :: ((bytes "/slow?" ++ q) ++ 32 :: (bytes "HTTP/1.1" ++ [])) := by
    rw [cleanedLine, rtrimCc, slowLine, List.getLast?_append_of_ne_nil _ (by decide), if_neg (by decide)]
    simp [bytes]
  have hget : Unspaced (bytes "GET") := by decide
  have hfront : Unspaced (bytes "/slow?") := by decide
  have hversion : Unspaced (bytes "HTTP/1.1") := by decide
  have hpath : ∀ c ∈ bytes "/slow?" ++ q, isSpace c = false := by
    intro c hc
    rcases List.mem_append.mp hc with hc | hc
    · exact hfront c hc
    · exact hq c hc
  rw [hclean, words_word (by decide) hget (Or.inr ⟨32,_,rfl,by decide⟩), words_space (by decide),
    words_word (by simp [bytes]) hpath (Or.inr ⟨32,_,rfl,by decide⟩), words_space (by decide),
    words_word (by decide) hversion (Or.inl rfl)]
  rfl

theorem parse_slowLine (hq : Unspaced q) : ({} : SimpleHttpRequest).parseRequestLine (slowLine q) =
    (true,{ method := bytes "GET", path := bytes "/slow?" ++ q, version := bytes "HTTP/1.1" }) := by
  rcases parseRequestLine_cases {} (slowLine q) with ⟨hfew,-⟩ | ⟨method,path,version,rest,hwords,heq⟩
  · rw [words_slowLine hq] at hfew
    simp at hfew
  · rw [words_slowLine hq] at hwords
    cases hwords
    rw [heq]
    rfl

theorem requestOf_slow (hq : Unspaced q) : Accepted (joinLines [slowLine q,[]]) ∧
    requestOf (joinLines [slowLine q,[]]) = {
      method := bytes "GET"
      path := bytes "/slow?" ++ q
      version := bytes "HTTP/1.1"
      parseSuccess := true } := by
  have hline : AcceptedRequestLine (slowLine q) := by rw [AcceptedRequestLine, parse_slowLine hq]
  have hclean : findCrlf (slowLine q) = none := by
    refine findCrlf_of_not_mem fun hmem => ?_
    simp only [slowLine, List.mem_append] at hmem
    rcases hmem with (hmem | hmem) | hmem
    · exact absurd hmem (by decide)
    · exact absurd (hq 13 hmem) (by decide)
    · exact absurd hmem (by decide)
  obtain ⟨haccepted,hrequest⟩ := accepted_bare hline hclean
  refine ⟨haccepted,?_⟩
  rw [hrequest, ofRequestLine, parse_slowLine hq]
  rfl

theorem digit_front {b : UInt8} : isDigit b = true → isSpace b = false ∧ b ≠ 43 ∧ b ≠ 45 :=
  forall_byte (P := fun b => isDigit b = true → isSpace b = false ∧ b ≠ 43 ∧ b ≠ 45) (by decide +kernel) b

theorem stoi_decimal (n : ℕ) : stoi (decimal n) = if n < 2 ^ 31 then some (n : ℤ) else none := by
  have hsigned : takeSign ((decimal n).dropWhile isSpace) = (false,decimal n) := by
    cases hdigits : decimal n with
    | nil => exact absurd hdigits (decimal_ne_nil n)
    | cons b rest =>
      have hb : b ∈ decimal n := hdigits ▸ List.mem_cons_self
      obtain ⟨hspace,hplus,hminus⟩ := digit_front (isDigit_of_mem_decimal hb)
      rw [List.dropWhile_cons_of_neg (by simp [hspace])]
      unfold takeSign
      split
      · rename_i heq
        exact absurd (List.cons.inj heq).1 hplus
      · rename_i heq
        exact absurd (List.cons.inj heq).1 hminus
      · rfl
  unfold stoi
  rw [hsigned]
  simp only [takeWhile_decimal, decimal_ne_nil, digitsValue_decimal, Bool.false_eq_true, if_false]
  split_ifs with hrange hsmall hsmall
  · omega
  · rfl
  · rfl
  · omega

/-- The delay that the handler reads from a number, if it is called. -/
theorem slowDelay_ms (n : ℕ) : slowDelay (bytes "/slow?ms=" ++ decimal n) = if n ≤ 10000 then n else 100 := by
  have hfind : findSub (bytes "?ms=") (bytes "/slow?ms=" ++ decimal n) = some 5 :=
    findSub_of_not_mem (b := 63) (s := bytes "/slow") (by decide) (decimal n)
  have hdrop : (bytes "/slow?ms=" ++ decimal n).drop (5 + 4) = decimal n := by
    rw [List.drop_append_of_le_length (by decide)]
    rfl
  rw [slowDelay, hfind]
  simp only [hdrop, stoi_decimal]
  split_ifs <;> grind

/-- Whatever the query string, the request for `/slow` is answered with a 404 and no delay is taken. -/
theorem slow_query_lost (process : Process ω) (world : ω) {q : List UInt8} (hq : Unspaced q) :
    Accepted (joinLines [slowLine q,[]]) ∧
    (requestOf (joinLines [slowLine q,[]])).method = bytes "GET" ∧
    (requestOf (joinLines [slowLine q,[]])).path = bytes "/slow?" ++ q ∧
    (setRoutes process {}).route (requestOf (joinLines [slowLine q,[]])) = none ∧
    (setRoutes process {}).handle (requestOf (joinLines [slowLine q,[]])) world =
      { world := process.countRequest world, response := notFound (bytes "/slow?" ++ q) } := by
  obtain ⟨haccepted,hrequest⟩ := requestOf_slow hq
  have hroute : (setRoutes process {}).route (requestOf (joinLines [slowLine q,[]])) = none := by
    refine setRoutes_query process ?_
    rw [hrequest]
    exact List.mem_append_left _ (by decide)
  refine ⟨haccepted,by rw [hrequest],by rw [hrequest],hroute,?_⟩
  rw [setRoutes_miss process world hroute, hrequest]

theorem slow_query_lost_ms :
    ((setRoutes counting {}).handle (requestOf (joinLines [slowLine (bytes "ms=50"),[]])) 0).response =
      notFound (bytes "/slow?ms=50") := by
  rw [(slow_query_lost counting 0 (q := bytes "ms=50") (by decide)).2.2.2.2]
  rfl

/-- A request for a delay of 50 ms is not dispatched to the handler, which would have taken that delay. -/
theorem slow_query_not_dispatched :
    joinLines [slowLine (bytes "ms=50"),[]] = bytes "GET /slow?ms=50 HTTP/1.1\r\n\r\n" ∧ Unspaced (bytes "ms=50") ∧
      Accepted (bytes "GET /slow?ms=50 HTTP/1.1\r\n\r\n") ∧ slowDelay (bytes "/slow?ms=50") = 50 ∧
      ((setRoutes counting {}).route (requestOf (bytes "GET /slow?ms=50 HTTP/1.1\r\n\r\n"))).isNone = true ∧
      ((setRoutes counting {}).handle (requestOf (bytes "GET /slow?ms=50 HTTP/1.1\r\n\r\n")) 0).response =
        notFound (bytes "/slow?ms=50") := by
  decide +kernel

end ModernTcp.Routes
