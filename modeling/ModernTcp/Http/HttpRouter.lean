import ModernTcp.Http.HttpTypes

/-! # Responses and routes

`SimpleHttpResponse` of `http_types.h` and `HttpRouter` of `http_router.h`. Handlers and middleware
change the response and the world around it, here `ω`, and may end with a `std::exception`; what
they changed before that stays changed.
-/
namespace ModernTcp

def crlf : List UInt8 := [13,10]

/-- `headers` is an `unordered_map`; the list has its entries in the order in which it is visited. -/
structure SimpleHttpResponse where
  statusCode : ℤ := 200
  statusText : List UInt8 := bytes "OK"
  contentType : List UInt8 := bytes "text/plain"
  body : List UInt8 := []
  headers : List (List UInt8 × List UInt8) := []
  keepAlive : Bool := true
deriving DecidableEq

namespace SimpleHttpResponse

def headerLine (key value : List UInt8) : List UInt8 := key ++ bytes ": " ++ value ++ crlf

/-- What `to_string` writes before the body. -/
def head (r : SimpleHttpResponse) : List UInt8 :=
  bytes "HTTP/1.1 " ++ signedDecimal r.statusCode ++ bytes " " ++ r.statusText ++ crlf ++
    headerLine (bytes "Content-Type") r.contentType ++
    headerLine (bytes "Content-Length") (decimal r.body.length) ++
    headerLine (bytes "Connection") (if r.keepAlive then bytes "keep-alive" else bytes "close") ++
    r.headers.flatMap (fun h => headerLine h.1 h.2) ++ crlf

def toString (r : SimpleHttpResponse) : List UInt8 := r.head ++ r.body

end SimpleHttpResponse

/-- The end of a call: `thrown` is the `what()` of an exception that left it. -/
structure Ran (ω : Type*) where
  world : ω
  response : SimpleHttpResponse
  thrown : Option (List UInt8) := none

/-- What is left to do with the response at hand. -/
abbrev NextFn (ω : Type*) := ω → SimpleHttpResponse → Ran ω
abbrev RouterHandler (ω : Type*) := SimpleHttpRequest → NextFn ω
abbrev MiddlewareFn (ω : Type*) := SimpleHttpRequest → NextFn ω → NextFn ω

/-- `routes` is an `unordered_map`: one entry a key. -/
structure HttpRouter (ω : Type*) where
  routes : List (List UInt8 × RouterHandler ω) := []
  middleware : List (MiddlewareFn ω) := []
  notFoundHandler : Option (RouterHandler ω) := none
  errorHandler : Option (RouterHandler ω) := none

namespace HttpRouter
variable {ω : Type*}

def routeKey (method path : List UInt8) : List UInt8 := method ++ bytes ":" ++ path

def addRoute (router : HttpRouter ω) (method path : List UInt8) (handler : RouterHandler ω) : HttpRouter ω :=
  { router with
    routes := (routeKey method path,handler) :: router.routes.filter (fun e => e.1 ≠ routeKey method path) }

def use (router : HttpRouter ω) (m : MiddlewareFn ω) : HttpRouter ω :=
  { router with middleware := router.middleware ++ [m] }

def get (router : HttpRouter ω) (path : List UInt8) (handler : RouterHandler ω) : HttpRouter ω :=
  router.addRoute (bytes "GET") path handler

def post (router : HttpRouter ω) (path : List UInt8) (handler : RouterHandler ω) : HttpRouter ω :=
  router.addRoute (bytes "POST") path handler

def put (router : HttpRouter ω) (path : List UInt8) (handler : RouterHandler ω) : HttpRouter ω :=
  router.addRoute (bytes "PUT") path handler

def del (router : HttpRouter ω) (path : List UInt8) (handler : RouterHandler ω) : HttpRouter ω :=
  router.addRoute (bytes "DELETE") path handler

def route (router : HttpRouter ω) (request : SimpleHttpRequest) : Option (RouterHandler ω) :=
  (router.routes.find? (fun e => e.1 = routeKey request.method request.path)).map Prod.snd

/-- The answer to an exception of a route handler; without an error handler the headers and
`keep_alive` stay as the handler left them. -/
def onError (router : HttpRouter ω) (request : SimpleHttpRequest) (what : List UInt8) : NextFn ω :=
  fun world response =>
    match router.errorHandler with
    | some handler => handler request world {}
    | none => { world, response := { response with
        statusCode := 500
        statusText := bytes "Internal Server Error"
        body := bytes "Error: " ++ what
        contentType := bytes "text/plain" } }

def onNotFound (router : HttpRouter ω) (request : SimpleHttpRequest) : NextFn ω :=
  fun world response =>
    match router.notFoundHandler with
    | some handler => handler request world response
    | none => { world, response := { response with
        statusCode := 404
        statusText := bytes "Not Found"
        body := bytes "Not Found: " ++ request.path
        contentType := bytes "text/plain" } }

/-- The end of the chain, behind all middleware. -/
def terminal (router : HttpRouter ω) (request : SimpleHttpRequest) : NextFn ω :=
  match router.route request with
  | none => router.onNotFound request
  | some handler => fun world response =>
    let ran := handler request world response
    match ran.thrown with
    | none => ran
    | some what => router.onError request what ran.world ran.response

def chain (request : SimpleHttpRequest) (middleware : List (MiddlewareFn ω)) (next : NextFn ω) : NextFn ω :=
  middleware.foldr (fun m next => m request next) next

def handle (router : HttpRouter ω) (request : SimpleHttpRequest) (world : ω) : Ran ω :=
  chain request router.middleware (router.terminal request) world {}

end HttpRouter
end ModernTcp
