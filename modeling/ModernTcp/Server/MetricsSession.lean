import ModernTcp.Server.JsonSession

/-! # What `/metrics` tells a client

The middleware counts a request behind its handler, so a client whose requests are the only ones reads in the answer of
`/metrics` how many of them were answered before.
-/
namespace ModernTcp
open Execution HttpParser

namespace Routes
variable {ω : Type*} {process : Process ω} {count : ω → UInt64}

/-- `count` is the number of requests: the middleware adds one, nothing else in a call does, and the metrics show it. -/
structure Counts (process : Process ω) (count : ω → UInt64) : Prop where
  countRequest : ∀ world, count (process.countRequest world) = count world + 1
  sleepFor : ∀ ms world, count (process.sleepFor ms world) = count world
  metricsJson : ∀ world, ∃ (m : Metrics) (clock : Clock) (workerQueueDepth : UInt64),
    m.totalRequests = count world ∧ process.metricsJson world = (m.toJson clock workerQueueDepth).2

theorem counts_serving : Counts serving (fun w => w.metrics.totalRequests) where
  countRequest _ := rfl
  sleepFor _ _ := rfl
  metricsJson w := ⟨w.metrics,⟨w.now,w.now,w.now⟩,w.queueDepth,rfl,rfl⟩

theorem setRoutes_leaves (hprocess : Counts process count) : ∀ e ∈ (setRoutes process {}).routes, ∀ req world,
    (e.2 req world {}).thrown = none ∧ count (e.2 req world {}).world = count world := by
  have hsame : ∀ (contentType : List UInt8) (body : SimpleHttpRequest → ω → List UInt8) (req : SimpleHttpRequest) (world : ω),
      (answer contentType body req world {}).thrown = none ∧ count (answer contentType body req world {}).world = count world :=
    fun _ _ _ _ => ⟨rfl,rfl⟩
  refine HttpSession.setRoutes_forall (hsame _ _) (hsame _ _) (hsame _ _) (fun _ _ => ⟨rfl,rfl⟩) (hsame _ _) (hsame _ _)
    (hsame _ _) fun req world => ⟨rfl,?_⟩
  change count (if 0 < slowDelay req.path then process.sleepFor (slowDelay req.path) world else world) = count world
  split_ifs
  · exact hprocess.sleepFor _ _
  · rfl

theorem handle_counts (hprocess : Counts process count) (req : SimpleHttpRequest) (world : ω) :
    count ((setRoutes process {}).handle req world).world = count world + 1 := by
  cases hroute : (setRoutes process {}).route req with
  | none =>
    rw [setRoutes_miss process world hroute]
    exact hprocess.countRequest world
  | some handler =>
    obtain ⟨e,hfind,rfl⟩ := Option.map_eq_some_iff.mp hroute
    obtain ⟨hnone,hsame⟩ := setRoutes_leaves hprocess e (List.mem_of_find?_eq_some hfind) req world
    rw [HttpSession.setRoutes_hit process world hroute hnone, ← hsame]
    exact hprocess.countRequest _

/-- The routes have this request handled by `metrics`. -/
def IsMetrics (req : SimpleHttpRequest) : Prop :=
  HttpRouter.routeKey req.method req.path = HttpRouter.routeKey (bytes "GET") (bytes "/metrics")

theorem handle_metrics (process : Process ω) {req : SimpleHttpRequest} (h : IsMetrics req) (world : ω) :
    ((setRoutes process {}).handle req world).response.body = process.metricsJson world := by
  have hroute : (setRoutes process {}).route req = some (metrics process) := by
    rw [HttpRouter.route, h]
    rfl
  rw [HttpSession.setRoutes_hit process world hroute rfl]
  rfl

end Routes

namespace HttpSession
variable {ω : Type*} {k : ℕ} {process : Routes.Process ω} {count : ω → UInt64}

/-- What happens elsewhere in the process counts no requests. -/
def Apart (count : ω → UInt64) (s : State ω k) : Act ω k → Prop
  | .outside world => count world = count s.world
  | _ => True

instance (s : State ω k) : ∀ a, Decidable (Apart count s a)
  | .outside _ => inferInstanceAs (Decidable (_ = _))
  | .read _ | .drop | .parse | .dispatch | .worker _ | .write _ => inferInstanceAs (Decidable True)

/-- The total that a client decodes from an answer of `/metrics` is the number of its requests that came before, on top
of what it was at the start. -/
theorem metrics_session {workerPool : Bool} {as : List (Act ω k)} {world : ω} {s : State ω k}
    (hprocess : Routes.Counts process count)
    (hwhole : Along (step workerPool (Routes.setRoutes process {})) (Whole workerPool) { world } as)
    (hapart : Along (step workerPool (Routes.setRoutes process {})) (Apart count) { world } as)
    (h : exec (step workerPool (Routes.setRoutes process {})) { world } as = some s) {i : ℕ} {d : DecodedResponse}
    (hd : (Frames.items DecodedResponse.next s.wire)[i]? = some d) {req : SimpleHttpRequest}
    (hreq : (received as)[i]? = some req) (hmetrics : Routes.IsMetrics req) :
    ∃ (m : Metrics) (clock : Clock) (workerQueueDepth : UInt64) (average : ℚ),
      m.totalRequests = count world + UInt64.ofNat i ∧ |average - m.avgQps clock.average| ≤ 1 / 200 ∧
      Json.decode d.body = some (m.document clock workerQueueDepth average) := by
  have hkept : KeptBy (Routes.setRoutes process {}) (fun n w => count w = count world + UInt64.ofNat n) := by
    intro n w req hw
    rw [Routes.handle_counts hprocess, hw, UInt64.ofNat_add, UInt64.add_assoc]
    rfl
  have hstart : count world = count world + UInt64.ofNat 0 := (UInt64.add_zero _).symm
  have hlets : Along (step workerPool (Routes.setRoutes process {}))
      (Lets (fun n w => count w = count world + UInt64.ofNat n)) ({ world } : State ω k) as := by
    refine hapart.mono fun u a ha => ?_
    cases a with
    | outside w => exact fun n hw => Eq.trans ha hw
    | _ => trivial
  obtain ⟨zs,resps,hpart,hserved,hitems,-⟩ := run_served (setRoutes_fits process) hkept hstart hwhole hlets h
  -- the response and the request at this position
  obtain ⟨resp,hresp,rfl⟩ : ∃ resp, resps[i]? = some resp ∧ resp.seen = d := by
    obtain ⟨more,hmore⟩ := hitems
    have hi := (List.getElem?_eq_some_iff.mp hd).1
    have hat : (resps.map SimpleHttpResponse.seen)[i]? = some d := by
      rw [← hmore, List.getElem?_append_left hi]
      exact hd
    rwa [List.getElem?_map, Option.map_eq_some_iff] at hat
  have hzs : zs[i]? = some req := by
    obtain ⟨more,hmore⟩ := hpart
    have hi : i < zs.length := hserved.length_eq ▸ (List.getElem?_eq_some_iff.mp hresp).1
    rw [← hmore, List.getElem?_append_left hi] at hreq
    exact hreq
  obtain ⟨w,hcount,rfl⟩ := hserved.get hzs hresp
  obtain ⟨m,clock,workerQueueDepth,htotal,htext⟩ := hprocess.metricsJson w
  refine ⟨m,clock,workerQueueDepth,_,htotal.trans hcount,hundredths_near (m.avgQps_nonneg clock.average),?_⟩
  change Json.decode ((Routes.setRoutes process {}).handle req w).response.body = _
  rw [Routes.handle_metrics process hmetrics, htext]
  exact Json.decode_text (m.toJson_text clock workerQueueDepth)

/-- The metrics behind two other requests, one of them for nothing that is there; in between the clock goes on. -/
def metricsThird : List (Act Routes.Server 1) :=
  [.read [bytes "GET / HTTP/1.1\r\n\r\n",bytes "GET /none HTTP/1.1\r\n\r\n"],.parse,.parse,.parse,.dispatch,.dispatch,.dispatch,
    .worker 0,.worker 0,.worker 0,.worker 0,.outside { metrics := { totalRequests := 41 }, now := 10 ^ 9 },
    .read [bytes "GET /metrics HTTP/1.1\r\n\r\n"],.parse,.parse,.dispatch,.dispatch,.worker 0,.worker 0,.worker 0,.worker 0,
    .worker 0,.worker 0,.worker 0,.write 573]

theorem metrics_session_third : ∃ (s : State Routes.Server 1) (d : DecodedResponse) (m : Metrics) (clock : Clock)
    (workerQueueDepth : UInt64) (average : ℚ),
    exec (step true (Routes.setRoutes Routes.serving {})) { world := { metrics := { totalRequests := 40 } } } metricsThird =
      some s ∧
    (Frames.items DecodedResponse.next s.wire)[2]? = some d ∧ m.totalRequests = 42 ∧
    |average - m.avgQps clock.average| ≤ 1 / 200 ∧
    Json.decode d.body = some (m.document clock workerQueueDepth average) := by
  have hrun : (exec (step true (Routes.setRoutes Routes.serving {})) { world := { metrics := { totalRequests := 40 } } }
      metricsThird).map (fun s => ((Frames.items DecodedResponse.next s.wire)[2]?).isSome) = some true := by
    decide +kernel
  obtain ⟨s,hs,hthird⟩ := Option.map_eq_some_iff.mp hrun
  obtain ⟨d,hd⟩ := Option.isSome_iff_exists.mp hthird
  have hreq : (received metricsThird)[2]? = some (requestOf (bytes "GET /metrics HTTP/1.1\r\n\r\n")) := rfl
  have hmetrics : Routes.IsMetrics (requestOf (bytes "GET /metrics HTTP/1.1\r\n\r\n")) := by
    rw [Routes.IsMetrics]
    decide +kernel
  obtain ⟨m,clock,workerQueueDepth,average,htotal,hnear,hdecode⟩ :=
    metrics_session Routes.counts_serving (by decide +kernel) (by decide +kernel) hs hd hreq hmetrics
  exact ⟨s,d,m,clock,workerQueueDepth,average,hs,hd,htotal,hnear,hdecode⟩

end HttpSession
end ModernTcp
