import ModernTcp.Http.HttpParserPipeline
import ModernTcp.Http.HttpRouter

/-! # Keys of routes

`routes_` is keyed by the method, a colon and the path in one string. The methods of registrations have no
colon, but a request may come with any method.
-/
namespace ModernTcp

namespace HttpRouter
variable {ω : Type*}

inductive Verb
  | get | post | put | del
deriving DecidableEq

def Verb.method : Verb → List UInt8
  | .get => bytes "GET"
  | .post => bytes "POST"
  | .put => bytes "PUT"
  | .del => bytes "DELETE"

structure Registration (ω : Type*) where
  verb : Verb
  path : List UInt8
  handler : RouterHandler ω

def register (router : HttpRouter ω) (reg : Registration ω) : HttpRouter ω :=
  match reg.verb with
  | .get => router.get reg.path reg.handler
  | .post => router.post reg.path reg.handler
  | .put => router.put reg.path reg.handler
  | .del => router.del reg.path reg.handler

def registerAll (router : HttpRouter ω) (regs : List (Registration ω)) : HttpRouter ω := regs.foldl register router

def Registration.Fits (reg : Registration ω) (method path : List UInt8) : Prop :=
  reg.verb.method = method ∧ reg.path = path

instance (method path : List UInt8) : DecidablePred fun reg : Registration ω => reg.Fits method path :=
  fun _ => inferInstanceAs (Decidable (_ ∧ _))

/-- The handler of the last registration of a method and a path. -/
def lastRegistered (regs : List (Registration ω)) (method path : List UInt8) : Option (RouterHandler ω) :=
  (regs.reverse.find? (fun reg => reg.Fits method path)).map Registration.handler

theorem register_eq_addRoute (router : HttpRouter ω) (reg : Registration ω) :
    router.register reg = router.addRoute reg.verb.method reg.path reg.handler := by
  unfold register
  cases reg.verb <;> rfl

theorem route_addRoute (router : HttpRouter ω) (method path : List UInt8) (handler : RouterHandler ω)
    (request : SimpleHttpRequest) : (router.addRoute method path handler).route request =
      if routeKey method path = routeKey request.method request.path then some handler else router.route request := by
  unfold route addRoute
  rw [List.find?_cons]
  split_ifs with hkey
  · simp [hkey]
  · simp only [hkey, decide_false]
    rw [List.find?_filter]
    congr 2
    funext e
    by_cases he : e.1 = routeKey request.method request.path
    · simp [he, Ne.symm hkey]
    · simp [he]

/-- The routes have the last registration of each key. -/
theorem route_registerAll {router : HttpRouter ω} (hroutes : router.routes = []) (regs : List (Registration ω))
    (request : SimpleHttpRequest) : (router.registerAll regs).route request =
      (regs.reverse.find? fun reg => routeKey reg.verb.method reg.path = routeKey request.method request.path).map
        Registration.handler := by
  induction regs using List.reverseRecOn with
  | nil => simp [registerAll, route, hroutes]
  | append_singleton regs reg ih =>
    rw [registerAll, List.foldl_append, List.foldl_cons, List.foldl_nil, register_eq_addRoute, route_addRoute,
      List.reverse_append, List.reverse_singleton, List.singleton_append, List.find?_cons]
    split_ifs with hkey
    · simp [hkey]
    · simp only [hkey, decide_false]
      exact ih

theorem colon_not_mem_method (verb : Verb) : 58 ∉ verb.method := by
  cases verb <;> decide

/-- The method and the path under which the routes see a request: the method ends at the first colon. -/
def seenMethod (request : SimpleHttpRequest) : List UInt8 := request.method.takeWhile (· ≠ 58)

def seenPath (request : SimpleHttpRequest) : List UInt8 :=
  if 58 ∈ request.method then (request.method.dropWhile (· ≠ 58)).drop 1 ++ bytes ":" ++ request.path
  else request.path

theorem routeKey_seen (request : SimpleHttpRequest) :
    routeKey request.method request.path = routeKey (seenMethod request) (seenPath request) := by
  unfold routeKey seenMethod seenPath
  split_ifs with hcolon
  · nth_rewrite 1 [← takeWhile_append_first hcolon]
    simp [bytes]
  · rw [← List.append_nil request.method, takeWhile_ne_append hcolon]
    simp

/-- Without a colon in the methods a key is made in one way only. -/
theorem routeKey_inj {m m' p p' : List UInt8} (hm : 58 ∉ m) (hm' : 58 ∉ m') :
    routeKey m p = routeKey m' p' ↔ m = m' ∧ p = p' := by
  refine ⟨fun h => ?_,fun ⟨hmethod,hpath⟩ => by rw [hmethod, hpath]⟩
  have hcolon : routeKey m p = m ++ 58 :: p ∧ routeKey m' p' = m' ++ 58 :: p' := by simp [routeKey, bytes]
  rw [hcolon.1, hcolon.2] at h
  have hmethod : m = m' := by
    have htake := congrArg (List.takeWhile (· ≠ 58)) h
    rw [takeWhile_ne_append hm, takeWhile_ne_append hm'] at htake
    simpa using htake
  subst hmethod
  exact ⟨rfl,(List.cons.inj (List.append_cancel_left h)).2⟩

theorem fits_seen_iff {reg : Registration ω} {request : SimpleHttpRequest} :
    routeKey reg.verb.method reg.path = routeKey request.method request.path ↔
      reg.Fits (seenMethod request) (seenPath request) := by
  have hseen : 58 ∉ seenMethod request := not_mem_takeWhile_ne 58 _
  rw [routeKey_seen, routeKey_inj (colon_not_mem_method reg.verb) hseen]
  rfl

/-- A router with its two special handlers, its routes and no middleware. -/
def routed (notFoundHandler errorHandler : Option (RouterHandler ω)) (regs : List (Registration ω)) : HttpRouter ω :=
  registerAll { notFoundHandler, errorHandler } regs

variable (notFoundHandler errorHandler : Option (RouterHandler ω)) (regs : List (Registration ω))

theorem route_routed (request : SimpleHttpRequest) : (routed notFoundHandler errorHandler regs).route request =
    lastRegistered regs (seenMethod request) (seenPath request) := by
  rw [routed, route_registerAll rfl, lastRegistered]
  congr 2
  funext reg
  exact decide_eq_decide.mpr fits_seen_iff

theorem lastRegistered_eq_none_iff {method path : List UInt8} :
    lastRegistered regs method path = none ↔ ∀ reg ∈ regs, ¬ reg.Fits method path := by
  simp [lastRegistered]

theorem lastRegistered_colon {method path : List UInt8} (h : 58 ∈ method) : lastRegistered regs method path = none := by
  rw [lastRegistered_eq_none_iff]
  rintro reg - ⟨rfl,-⟩
  exact colon_not_mem_method reg.verb h

theorem route_routed_iff (request : SimpleHttpRequest) :
    (routed notFoundHandler errorHandler regs).route request = lastRegistered regs request.method request.path ↔
      (58 ∈ request.method → ∀ reg ∈ regs, ¬ reg.Fits (seenMethod request) (seenPath request)) := by
  rw [route_routed, ← lastRegistered_eq_none_iff]
  by_cases hcolon : 58 ∈ request.method
  · rw [lastRegistered_colon regs hcolon]
    simp [hcolon]
  · have hmethod : seenMethod request = request.method := by
      rw [seenMethod, ← List.append_nil request.method, takeWhile_ne_append hcolon]
      simp
    simp [hcolon, hmethod, seenPath]

/-- What `handle` does once it has looked for the route. -/
def invoke (router : HttpRouter ω) (request : SimpleHttpRequest) (world : ω) : Option (RouterHandler ω) → Ran ω
  | none => router.onNotFound request world {}
  | some handler =>
    let ran := handler request world {}
    match ran.thrown with
    | none => ran
    | some what => router.onError request what ran.world ran.response

theorem registerAll_middleware (router : HttpRouter ω) : (router.registerAll regs).middleware = router.middleware := by
  induction regs generalizing router with
  | nil => rfl
  | cons reg regs ih =>
    have hone : (router.register reg).middleware = router.middleware := by
      rw [register_eq_addRoute]
      rfl
    exact (ih _).trans hone

theorem handle_routed (request : SimpleHttpRequest) (world : ω) :
    (routed notFoundHandler errorHandler regs).handle request world = (routed notFoundHandler errorHandler regs).invoke
      request world ((routed notFoundHandler errorHandler regs).route request) := by
  have hmiddleware : (routed notFoundHandler errorHandler regs).middleware = [] := registerAll_middleware regs _
  rw [handle, hmiddleware, chain, List.foldr_nil, terminal]
  cases (routed notFoundHandler errorHandler regs).route request <;> rfl

/-- `handle` calls the handler that was registered last for the method and the path of the request, or none,
unless the method has a colon and the part before it is the method of a route whose path begins with the
part behind it. -/
theorem routing_exact_iff (request : SimpleHttpRequest) :
    (∀ world, (routed notFoundHandler errorHandler regs).handle request world =
      (routed notFoundHandler errorHandler regs).invoke request world
        ((routed notFoundHandler errorHandler regs).route request)) ∧
    ((routed notFoundHandler errorHandler regs).route request = lastRegistered regs request.method request.path ↔
      (58 ∈ request.method → ∀ reg ∈ regs, ¬ reg.Fits (seenMethod request) (seenPath request))) :=
  ⟨handle_routed notFoundHandler errorHandler regs request,
    route_routed_iff notFoundHandler errorHandler regs request⟩

/-- A route under `/a:b`. -/
def colonRoute : Registration Unit where
  verb := .get
  path := bytes "/a:b"
  handler _ world response := { world, response := { response with body := bytes "a:b" } }

/-- Nothing is registered for the method `GET:/a`, and its request is served. -/
theorem routing_colon :
    let request := HttpParser.requestOf (bytes "GET:/a b HTTP/1.1\r\n\r\n")
    HttpParser.Accepted (bytes "GET:/a b HTTP/1.1\r\n\r\n") ∧ request.method = bytes "GET:/a" ∧
      request.path = bytes "b" ∧ (lastRegistered [colonRoute] request.method request.path).isNone = true ∧
      ((routed none none [colonRoute]).route request).isSome = true ∧
      ((routed none none [colonRoute]).handle request ()).response.statusCode = 200 ∧
      ((routed none none [colonRoute]).handle request ()).response.body = bytes "a:b" ∧
      ¬ (routed none none [colonRoute]).route request = lastRegistered [colonRoute] request.method request.path := by
  refine ⟨by decide,by decide,by decide,by decide,by decide,by decide,by decide,fun h => ?_⟩
  have hsome := congrArg Option.isSome h
  revert hsome
  decide

end HttpRouter
end ModernTcp
