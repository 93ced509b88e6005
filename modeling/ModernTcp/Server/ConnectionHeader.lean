import ModernTcp.Http.ResponseDecode
import ModernTcp.Net.HttpDelivery
import ModernTcp.Server.EchoRoute

/-! # The `Connection` header of the answers

`handle_read` decides by the request whether the connection is closed behind it. The header is printed
from the response, which the router makes without a look at `keep_alive` of the request.
-/
namespace ModernTcp
open EpollConnection HttpParser

variable {ω : Type*}

/-- `handle_http_request` of `main.cpp`; an exception that leaves the router leaves it too. -/
def handleHttpRequest (router : HttpRouter ω) (req : SimpleHttpRequest) (world : ω) : ω × HandlerRun :=
  let ran := router.handle req world
  (ran.world,match ran.thrown with
    | none => { sends := [ran.response.toString] }
    | some _ => { throws := true })

/-- The connections of the server run `handle_http_request` on the IO thread. -/
def serverHandlers (router : HttpRouter ω) (world : ω) : Handlers where
  workerPool := false
  http req := (handleHttpRequest router req world).2
  message := none

namespace HttpRouter

/-- A step that leaves a set flag alone. -/
def KeepsFlag (next : NextFn ω) : Prop :=
  ∀ world response, response.keepAlive = true → (next world response).response.keepAlive = true

/-- The handlers do not touch `keep_alive`, and the middleware leaves it as its nested calls do. A new
response has it set. -/
structure KeepsKeepAlive (router : HttpRouter ω) : Prop where
  route : ∀ e ∈ router.routes, ∀ request, KeepsFlag (e.2 request)
  notFound : ∀ handler ∈ router.notFoundHandler, ∀ request, KeepsFlag (handler request)
  error : ∀ handler ∈ router.errorHandler, ∀ request, KeepsFlag (handler request)
  middleware : ∀ m ∈ router.middleware, ∀ request next, KeepsFlag next → KeepsFlag (m request next)

variable {router : HttpRouter ω}

theorem KeepsKeepAlive.terminal (h : router.KeepsKeepAlive) (request : SimpleHttpRequest) :
    KeepsFlag (router.terminal request) := by
  intro world response hset
  unfold HttpRouter.terminal
  cases hroute : router.route request with
  | none =>
    dsimp only
    unfold onNotFound
    split
    · rename_i handler hhandler
      exact h.notFound handler hhandler request world response hset
    · exact hset
  | some handler =>
    obtain ⟨e,hfind,rfl⟩ := Option.map_eq_some_iff.mp hroute
    have hran := h.route e (List.mem_of_find?_eq_some hfind) request world response hset
    dsimp only
    split
    · exact hran
    · unfold onError
      split
      · rename_i error herror
        exact h.error error herror request _ _ rfl
      · exact hran

theorem chain_keepsFlag {request : SimpleHttpRequest} {middleware : List (MiddlewareFn ω)} {next : NextFn ω}
    (h : ∀ m ∈ middleware, ∀ next, KeepsFlag next → KeepsFlag (m request next)) (hnext : KeepsFlag next) :
    KeepsFlag (chain request middleware next) := by
  induction middleware with
  | nil => exact hnext
  | cons m rest ih =>
    obtain ⟨hm,hrest⟩ := List.forall_mem_cons.mp h
    exact hm _ (ih hrest)

theorem KeepsKeepAlive.handle (h : router.KeepsKeepAlive) (request : SimpleHttpRequest) (world : ω) :
    (router.handle request world).response.keepAlive = true :=
  chain_keepsFlag (fun m hm => h.middleware m hm request) (h.terminal request) world {} rfl

theorem KeepsKeepAlive.addRoute (h : router.KeepsKeepAlive) (method path : List UInt8) {handler : RouterHandler ω}
    (hhandler : ∀ request, KeepsFlag (handler request)) : (router.addRoute method path handler).KeepsKeepAlive where
  route e he := by
    rcases List.mem_cons.mp he with rfl | he
    · exact hhandler
    · exact h.route e (List.mem_of_mem_filter he)
  notFound := h.notFound
  error := h.error
  middleware := h.middleware

theorem KeepsKeepAlive.use (h : router.KeepsKeepAlive) {m : MiddlewareFn ω}
    (hm : ∀ request next, KeepsFlag next → KeepsFlag (m request next)) : (router.use m).KeepsKeepAlive where
  route := h.route
  notFound := h.notFound
  error := h.error
  middleware m' hm' := by
    rcases List.mem_append.mp hm' with hm' | hm'
    · exact h.middleware m' hm'
    · rw [List.mem_singleton.mp hm']
      exact hm

end HttpRouter

namespace SimpleHttpResponse

/-- What `to_string` writes before the `Connection` header. -/
def front (r : SimpleHttpResponse) : List UInt8 := joinLines (r.statusLine :: (r.fields.take 2).map fieldLine)

def connectionHeader (closes : Bool) : List UInt8 :=
  headerLine (bytes "Connection") (if closes then bytes "close" else bytes "keep-alive")

/-- The header that stands behind the front of the response in the bytes that are sent. -/
def Announces (r : SimpleHttpResponse) (data : List UInt8) (closes : Bool) : Prop :=
  r.front ++ connectionHeader closes <+: data

instance (r : SimpleHttpResponse) (data : List UInt8) (closes : Bool) : Decidable (r.Announces data closes) :=
  inferInstanceAs (Decidable (_ <+: _))

theorem toString_connection (r : SimpleHttpResponse) : ∃ rest,
    r.toString = r.front ++ (connectionHeader (!r.keepAlive) ++ rest) := by
  refine ⟨r.headers.flatMap (fun h => headerLine h.1 h.2) ++ crlf ++ r.body,?_⟩
  simp only [toString, head, front, statusLine, fields, connectionHeader, List.cons_append, List.nil_append,
    List.take_succ_cons, List.take_zero, List.map_cons, List.map_nil, joinLines_cons, joinLines_nil]
  cases r.keepAlive <;> simp [headerLine, fieldLine, crlf]

theorem connectionHeader_front {closes closes' : Bool} {rest : List UInt8}
    (h : connectionHeader closes <+: connectionHeader closes' ++ rest) : closes = closes' := by
  have htake := List.prefix_iff_eq_take.mp h
  have hword := congrArg (fun data => data[12]?) htake
  revert hword
  cases closes <;> cases closes' <;> simp [connectionHeader, headerLine, bytes, crlf]

theorem announces_toString_iff {r : SimpleHttpResponse} {closes : Bool} :
    r.Announces r.toString closes ↔ closes = !r.keepAlive := by
  obtain ⟨rest,hrest⟩ := r.toString_connection
  rw [Announces, hrest, List.prefix_append_right_inj]
  refine ⟨connectionHeader_front,?_⟩
  rintro rfl
  exact List.prefix_append _ _

end SimpleHttpResponse

/-- A request that comes alone is handled, and the connection is closed behind it if it is not keep-alive. -/
theorem EpollConnection.handleRead_answered {h : Handlers} {c : EpollConnection} {r : List UInt8}
    (hpool : h.workerPool = false) (hquiet : (h.http (requestOf r)).closes = false ∧ (h.http (requestOf r)).throws = false)
    (hc : c.AtBoundary) (hhandler : c.httpHandler = true) (hr : Accepted r) (hsel : c.SelectsHttp r) :
    (c.handleRead h r).effects =
      .handle (requestOf r) :: (if (requestOf r).keepAlive then [] else [.shutdown .answered]) := by
  let s : Reading := { conn := { c with inputBuffer := r, protocol := some .http } }
  have hs : s.Parsing := ⟨rfl,hc.running,hc.parser⟩
  let t : Reading := { s.queued [r] [] with shouldClose := !(requestOf r).keepAlive }
  have hparse : s.parseLoop = t := by
    have hround := Reading.parseRound_accepted hs hr (List.append_nil r).symm
      (by rw [show s.conn.pipelineDepth = 0 from hc.depth]; decide)
    rw [Reading.parseLoop_of_some hround, Reading.parseLoop_of_none (by simp [Reading.parseRound, Reading.queued])]
    simp [s, t]
  have hpending : t.conn.pendingRequests = [(requestOf r,r)] := by simp [t, s, Reading.queued, hc.pending]
  have hround : t.dispatchRound h = some (t.popRequest.dispatch h (requestOf r) r) := by
    unfold Reading.dispatchRound
    rw [hpending]
    simp [t, s, Reading.queued, hc.running]
  have hcalled : t.popRequest.dispatch h (requestOf r) r = (t.popRequest.emit (.handle (requestOf r))).closeIfDone := by
    have hinstalled : t.popRequest.conn.httpHandler = true := hhandler
    simp [Reading.dispatch, hinstalled, hpool, Reading.callHandler, hquiet]
  rw [handleRead_http hc hr.ne_nil hsel, Reading.handleHttp, hparse, Reading.dispatchLoop,
    Loop.run_of_some (Reading.dispatchRound_decreases h) hround, hcalled]
  have hempty : (t.popRequest.emit (.handle (requestOf r))).conn.pendingRequests = [] := by
    simp [Reading.popRequest, Reading.emit, hpending]
  have hlive : (t.popRequest.emit (.handle (requestOf r))).conn.running = true := hc.running
  have hclose : (t.popRequest.emit (.handle (requestOf r))).shouldClose = !(requestOf r).keepAlive := rfl
  have hlog : (t.popRequest.emit (.handle (requestOf r))).effects = [.handle (requestOf r)] := rfl
  generalize t.popRequest.emit (.handle (requestOf r)) = u at hempty hlive hclose hlog ⊢
  have hend : u.closeIfDone.conn.pendingRequests = [] := by
    unfold Reading.closeIfDone
    split_ifs
    · rw [Reading.shutdown_pendingRequests, hempty]
    · exact hempty
  rw [Loop.run_of_none (by simp [Reading.dispatchRound, hend])]
  cases hkeep : (requestOf r).keepAlive <;>
    simp [Reading.closeIfDone, Reading.shutdown, Reading.emit, hclose, hkeep, hempty, hlive, hlog]

/-- The answer announces what becomes of the connection exactly when the request is keep-alive: it always
says `keep-alive`. -/
theorem connection_header_iff {router : HttpRouter ω} (hkeeps : router.KeepsKeepAlive) (req : SimpleHttpRequest)
    (world : ω) {data : List UInt8} (hdata : data ∈ (handleHttpRequest router req world).2.sends) :
    (router.handle req world).response.Announces data (!req.keepAlive) ↔ req.keepAlive = true := by
  have hset := hkeeps.handle req world
  unfold handleHttpRequest at hdata
  dsimp only at hdata
  split at hdata
  · rw [List.mem_singleton.mp hdata, SimpleHttpResponse.announces_toString_iff, hset]
    simp
  · cases hdata

theorem Routes.setRoutes_keepsKeepAlive (process : Routes.Process ω) : (Routes.setRoutes process {}).KeepsKeepAlive := by
  have hnew : ({} : HttpRouter ω).KeepsKeepAlive :=
    ⟨(fun _ he => by cases he),(fun _ h => by cases h),(fun _ h => by cases h),(fun _ hm => by cases hm)⟩
  have hcount : ({} : HttpRouter ω).use (Routes.countRequests process) |>.KeepsKeepAlive := by
    refine hnew.use fun request next hnext world response hset => ?_
    unfold Routes.countRequests
    dsimp only
    split
    · exact hnext world response hset
    · exact hnext world response hset
  have hanswer : ∀ contentType body request, HttpRouter.KeepsFlag (Routes.answer (ω := ω) contentType body request) :=
    fun _ _ _ _ _ hset => hset
  exact ((((((((hcount.addRoute _ _ (hanswer _ _)).addRoute _ _ (hanswer _ _)).addRoute _ _ (hanswer _ _)).addRoute _ _
    fun _ _ _ hset => hset).addRoute _ _ (hanswer _ _)).addRoute _ _ (hanswer _ _)).addRoute _ _ (hanswer _ _)).addRoute
    _ _ fun _ _ _ hset => hset)

def rootRequest (version : List UInt8) : List UInt8 := bytes "GET / " ++ version ++ crlf ++ crlf

theorem connection_header_iff_root :
    ((Routes.setRoutes Routes.counting {}).handle (requestOf (rootRequest (bytes "HTTP/1.1"))) 0).response.Announces
      (SimpleHttpResponse.toString { body := bytes "Welcome to moderncpp-server!\n" }) false :=
  (connection_header_iff (Routes.setRoutes_keepsKeepAlive Routes.counting) (requestOf (rootRequest (bytes "HTTP/1.1"))) 0
    (by decide +kernel)).mpr (by decide)

/-- A request of HTTP/1.0 is answered with `keep-alive`, and then the connection is closed. -/
theorem connection_header_http10 :
    (Routes.setRoutes Routes.counting {}).KeepsKeepAlive ∧
    Accepted (rootRequest (bytes "HTTP/1.0")) ∧ (requestOf (rootRequest (bytes "HTTP/1.0"))).keepAlive = false ∧
    (({} : EpollConnection).handleRead (serverHandlers (Routes.setRoutes Routes.counting {}) 0)
      (rootRequest (bytes "HTTP/1.0"))).effects =
        [.handle (requestOf (rootRequest (bytes "HTTP/1.0"))),.shutdown .answered] ∧
    ∃ data, (handleHttpRequest (Routes.setRoutes Routes.counting {})
        (requestOf (rootRequest (bytes "HTTP/1.0"))) 0).2.sends = [data] ∧
      data = bytes "HTTP/1.1 200 OK\r\nContent-Type: text/plain\r\nContent-Length: 29\r\n" ++
        bytes "Connection: keep-alive\r\n\r\nWelcome to moderncpp-server!\n" ∧
      ¬ ((Routes.setRoutes Routes.counting {}).handle
        (requestOf (rootRequest (bytes "HTTP/1.0"))) 0).response.Announces data true :=
  ⟨Routes.setRoutes_keepsKeepAlive _,by decide,by decide,
    EpollConnection.handleRead_answered rfl (by decide +kernel) new_atBoundary rfl (by decide)
      (Or.inr ⟨rfl,by decide⟩),
    _,rfl,by decide +kernel,by decide +kernel⟩

end ModernTcp
