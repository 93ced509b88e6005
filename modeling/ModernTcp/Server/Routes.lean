import ModernTcp.Http.HttpRouter
import ModernTcp.Net.ProtocolDetect

/-! # The routes of the server

`set_routes` of `routes.cpp`. The routes touch the world through the metrics, whose JSON text is
left open, and through the sleep of `/slow`.
-/
namespace ModernTcp.Routes

/-- What the routes use of the process around them. -/
structure Process (ω : Type*) where
  countRequest : ω → ω
  metricsJson : ω → List UInt8
  sleepFor : ℕ → ω → ω

variable {ω : Type*}

/-- The middleware that counts; an exception passes it by. -/
def countRequests (process : Process ω) : MiddlewareFn ω := fun _ next world response =>
  let ran := next world response
  match ran.thrown with
  | none => { ran with world := process.countRequest ran.world }
  | some _ => ran

/-- A route with a body of its own. -/
def answer (contentType : List UInt8) (body : SimpleHttpRequest → ω → List UInt8) : RouterHandler ω :=
  fun req world response => { world, response := { response with body := body req world, contentType } }

def textPlain : List UInt8 := bytes "text/plain"

def applicationJson : List UInt8 := bytes "application/json"

def root : RouterHandler ω := answer textPlain fun _ _ => bytes "Welcome to moderncpp-server!\n"

def hello : RouterHandler ω := answer textPlain fun _ _ => bytes "Hello, world!\n"

def json : RouterHandler ω :=
  answer applicationJson fun _ _ => bytes "\x7b\"status\":\"ok\",\"server\":\"moderncpp-server\"\x7d"

/-- The content type of the request comes back as it is. -/
def echo : RouterHandler ω := fun req world response =>
  { world, response := { response with
    body := req.body
    contentType := if req.contentType = [] then textPlain else req.contentType } }

def infoLine (name value : List UInt8) : List UInt8 := name ++ value ++ bytes "\n"

def info : RouterHandler ω := answer textPlain fun req _ =>
  infoLine (bytes "Method:     ") req.method ++ infoLine (bytes "Path:       ") req.path ++
    infoLine (bytes "Version:    ") req.version ++ infoLine (bytes "Host:       ") req.host ++
    infoLine (bytes "User-Agent: ") req.userAgent ++ bytes "\nHeaders:\n" ++
    req.headers.flatMap (fun h => bytes "  " ++ h.1 ++ infoLine (bytes ": ") h.2)

def health : RouterHandler ω := answer applicationJson fun _ _ => bytes "\x7b\"status\":\"healthy\"\x7d"

def metrics (process : Process ω) : RouterHandler ω := answer applicationJson fun _ world => process.metricsJson world

/-- `std::stoi`; `none` when it throws. -/
def stoi (s : List UInt8) : Option ℤ :=
  let signed := takeSign (s.dropWhile isSpace)
  let digits := signed.2.takeWhile isDigit
  let value : ℤ := if signed.1 then -digitsValue digits else digitsValue digits
  if digits = [] then none
  else if value < -2 ^ 31 ∨ 2 ^ 31 ≤ value then none
  else some value

/-- The delay of `/slow`: 100 ms, or what the query string says within 0 and 10000. -/
def slowDelay (path : List UInt8) : ℕ :=
  match findSub (bytes "?ms=") path with
  | none => 100
  | some pos =>
    match stoi (path.drop (pos + 4)) with
    | none => 100
    | some v => if 0 ≤ v ∧ v ≤ 10000 then v.toNat else 100

def slow (process : Process ω) : RouterHandler ω := fun req world response =>
  let ms := slowDelay req.path
  { world := if 0 < ms then process.sleepFor ms world else world
    response := { response with
      body := bytes "\x7b\"status\":\"ok\",\"slept_ms\":" ++ decimal ms ++ bytes "\x7d\n"
      contentType := applicationJson } }

def setRoutes (process : Process ω) (router : HttpRouter ω) : HttpRouter ω :=
  (((((((((router.use (countRequests process)).get (bytes "/") root).get (bytes "/hello") hello).get
    (bytes "/json") json).post (bytes "/echo") echo).get (bytes "/info") info).get (bytes "/health") health).get
    (bytes "/metrics") (metrics process)).get (bytes "/slow") (slow process))

end ModernTcp.Routes
