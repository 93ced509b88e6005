import ModernTcp.Http.RouteKeys

/-! # What a failing handler leaves behind

An exception of a route handler is answered by the error handler with a response of its own. Without an
error handler the response of the failed handler is changed into a 500, but not in all of its fields.
-/
namespace ModernTcp.HttpRouter
variable {ω : Type*}

/-- Two handlers that throw the same exception wherever they are called, and do the same to the world. -/
structure FailAlike (request : SimpleHttpRequest) (handler handler' : RouterHandler ω) : Prop where
  throws : ∀ world response, ∃ what, (handler request world response).thrown = some what ∧
    (handler' request world response).thrown = some what
  world : ∀ world response, (handler request world response).world = (handler' request world response).world

/-- The fields that the answer to an exception takes over are left the same. -/
def LeaveAlike (request : SimpleHttpRequest) (handler handler' : RouterHandler ω) : Prop :=
  ∀ world response,
    (handler request world response).response.headers = (handler' request world response).response.headers ∧
    (handler request world response).response.keepAlive = (handler' request world response).response.keepAlive

/-- The router with this middleware and with this handler for the request. -/
def serving (router : HttpRouter ω) (middleware : List (MiddlewareFn ω)) (request : SimpleHttpRequest)
    (handler : RouterHandler ω) : HttpRouter ω :=
  { router with middleware }.addRoute request.method request.path handler

variable {router : HttpRouter ω} {middleware : List (MiddlewareFn ω)} {request : SimpleHttpRequest}
  {handler handler' : RouterHandler ω}

theorem terminal_serving (world : ω) (response : SimpleHttpResponse) {what : List UInt8}
    (h : (handler request world response).thrown = some what) :
    (serving router middleware request handler).terminal request world response =
      router.onError request what (handler request world response).world (handler request world response).response := by
  have hroute : (serving router middleware request handler).route request = some handler := by
    rw [serving, route_addRoute, if_pos rfl]
  unfold terminal
  rw [hroute]
  dsimp only
  rw [h]
  rfl

theorem handle_serving (world : ω) : (serving router middleware request handler).handle request world =
    chain request middleware ((serving router middleware request handler).terminal request) world {} := rfl

/-- The end of the chain does not tell the handlers apart. -/
theorem terminal_alike (hfail : FailAlike request handler handler')
    (h : router.errorHandler.isSome = true ∨ LeaveAlike request handler handler') :
    (serving router middleware request handler).terminal request =
      (serving router middleware request handler').terminal request := by
  funext world response
  obtain ⟨what,hwhat,hwhat'⟩ := hfail.throws world response
  rw [terminal_serving world response hwhat, terminal_serving world response hwhat', hfail.world]
  unfold onError
  cases herror : router.errorHandler with
  | some error => rfl
  | none =>
    rcases h with hsome | hleave
    · rw [herror] at hsome
      cases hsome
    · obtain ⟨hheaders,hkeep⟩ := hleave world response
      simp only [hheaders, hkeep]

/-- A middleware that starts what is nested in it in a state of its own. -/
def restart (world : ω) (response : SimpleHttpResponse) : MiddlewareFn ω := fun _ next _ _ => next world response

theorem handle_restart (world : ω) (response : SimpleHttpResponse) {what : List UInt8}
    (h : (handler request world response).thrown = some what) (hnone : router.errorHandler = none) :
    ((serving router [restart world response] request handler).handle request world).response =
      { (handler request world response).response with
        statusCode := 500
        statusText := bytes "Internal Server Error"
        body := bytes "Error: " ++ what
        contentType := bytes "text/plain" } := by
  change ((serving router [restart world response] request handler).terminal request world response).response = _
  rw [terminal_serving world response h]
  unfold onError
  rw [hnone]

/-- Under all middleware and in every world the response is the same exactly when there is an error handler, or
the handlers leave the same headers and the same `keep_alive`. -/
theorem failing_handler_iff (router : HttpRouter ω) (hfail : FailAlike request handler handler') :
    (∀ middleware world, ((serving router middleware request handler).handle request world).response =
      ((serving router middleware request handler').handle request world).response) ↔
      router.errorHandler.isSome = true ∨ LeaveAlike request handler handler' := by
  constructor
  · intro hsame
    cases herror : router.errorHandler with
    | some error => exact Or.inl rfl
    | none =>
      right
      intro world response
      obtain ⟨what,hwhat,hwhat'⟩ := hfail.throws world response
      have hresponse := hsame [restart world response] world
      rw [handle_restart world response hwhat herror, handle_restart world response hwhat' herror] at hresponse
      have hheaders := congrArg SimpleHttpResponse.headers hresponse
      have hkeep := congrArg SimpleHttpResponse.keepAlive hresponse
      exact ⟨hheaders,hkeep⟩
  · intro h middleware world
    rw [handle_serving, handle_serving, terminal_alike hfail h]

/-- A handler that changes the response and then throws. -/
def failAfter (change : SimpleHttpResponse → SimpleHttpResponse) : RouterHandler ω := fun _ world response =>
  { world, response := change response, thrown := some (bytes "boom") }

theorem failAfter_alike (request : SimpleHttpRequest) (change change' : SimpleHttpResponse → SimpleHttpResponse) :
    FailAlike (ω := ω) request (failAfter change) (failAfter change') :=
  ⟨fun _ _ => ⟨_,rfl,rfl⟩,fun _ _ => rfl⟩

def withTrace (response : SimpleHttpResponse) : SimpleHttpResponse :=
  { response with headers := (bytes "X-Trace",bytes "1") :: response.headers, keepAlive := false }

def errorPage : RouterHandler Unit := fun _ world _ => { world, response := { statusCode := 503 } }

theorem failing_handler_page :
    ((serving { errorHandler := some errorPage } [] { method := bytes "GET" } (failAfter withTrace)).handle
      { method := bytes "GET" } ()).response =
    ((serving { errorHandler := some errorPage } [] { method := bytes "GET" } (failAfter id)).handle
      { method := bytes "GET" } ()).response :=
  (failing_handler_iff { errorHandler := some errorPage } (failAfter_alike { method := bytes "GET" } withTrace id)).mpr
    (Or.inl rfl) [] ()

/-- Without an error handler the header and the `Connection: close` of the failed handler are sent. -/
theorem failing_handler_trace :
    FailAlike (ω := Unit) {} (failAfter withTrace) (failAfter id) ∧
    ((serving {} [] {} (failAfter withTrace)).handle {} ()).response = {
      statusCode := 500
      statusText := bytes "Internal Server Error"
      body := bytes "Error: boom"
      headers := [(bytes "X-Trace",bytes "1")]
      keepAlive := false } ∧
    ((serving {} [] {} (failAfter id)).handle {} ()).response = {
      statusCode := 500
      statusText := bytes "Internal Server Error"
      body := bytes "Error: boom" } ∧
    ((serving {} [] {} (failAfter withTrace)).handle {} ()).response ≠
      ((serving {} [] {} (failAfter id)).handle {} ()).response :=
  ⟨failAfter_alike {} withTrace id,by decide,by decide,by decide⟩

end ModernTcp.HttpRouter
