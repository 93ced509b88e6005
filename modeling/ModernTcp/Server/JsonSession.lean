import ModernTcp.Server.HttpSession
import ModernTcp.Server.MetricsJson

/-! # JSON from the routes

What the routes of the server announce as JSON is a JSON text, apart from `/echo`, which announces what it is told to.
For a client of a session that is one of whole requests, and of buffers that are byte sequences.
-/
namespace ModernTcp
open Json

namespace Routes
variable {ω : Type*} {process : Process ω}

/-- `/metrics` answers what `to_json` writes of some counters. -/
def Reports (process : Process ω) : Prop :=
  ∀ world, ∃ m clock workerQueueDepth, process.metricsJson world = (Metrics.toJson m clock workerQueueDepth).2

/-- The process of the server as far as its routes see it: the counters, the clock, and the queue of the worker pool. -/
structure Server where
  metrics : Metrics := {}
  now : ℤ := 0
  queueDepth : UInt64 := 0
deriving DecidableEq

/-- The clock does not go on within a call. -/
def serving : Process Server where
  countRequest w := { w with metrics := { w.metrics with toServerMetrics := w.metrics.count 1 } }
  metricsJson w := (w.metrics.toJson ⟨w.now,w.now,w.now⟩ w.queueDepth).2
  sleepFor ms w := { w with now := w.now + ms * 1000000 }

theorem reports_serving : Reports serving := fun w => ⟨w.metrics,⟨w.now,w.now,w.now⟩,w.queueDepth,rfl⟩

/-- A handler throws nothing, and what a route other than `/echo` announces as JSON is a JSON text. -/
def KeepsWord (e : List UInt8 × RouterHandler ω) : Prop :=
  ∀ req world, (e.2 req world {}).thrown = none ∧ (e.1 = bytes "POST:/echo" ∨
    ((e.2 req world {}).response.contentType = applicationJson → ∃ v, Text v (e.2 req world {}).response.body))

theorem text_line {fields : List (List UInt8 × List UInt8)} {ms : List (List UInt8 × Value)}
    (h : List.Forall₂ Member fields ms) {u : List UInt8} (hu : u.all isBlank = true) :
    Text (.object ms) (objectText [] [] [] fields ++ u) :=
  (Writes.object List.all_nil List.all_nil List.all_nil h).text hu

theorem text_json : ∃ v, Text v (bytes "\x7b\"status\":\"ok\",\"server\":\"moderncpp-server\"\x7d") :=
  ⟨_,text_line (.cons ((Writes.string (bytes "ok") (by decide)).member (bytes "status") (by decide))
    (.cons ((Writes.string (bytes "moderncpp-server") (by decide)).member (bytes "server") (by decide)) .nil)) List.all_nil⟩

theorem text_health : ∃ v, Text v (bytes "\x7b\"status\":\"healthy\"\x7d") :=
  ⟨_,text_line (.cons ((Writes.string (bytes "healthy") (by decide)).member (bytes "status") (by decide)) .nil) List.all_nil⟩

theorem text_slow (ms : ℕ) : ∃ v, Text v (bytes "\x7b\"status\":\"ok\",\"slept_ms\":" ++ decimal ms ++ bytes "\x7d\n") := by
  have hnewline : (bytes "\n").all isBlank = true := by decide
  have htext := text_line (.cons ((Writes.string (bytes "ok") (by decide)).member (bytes "status") (by decide))
    (.cons ((writes_decimal ms).member (bytes "slept_ms") (by decide)) .nil)) hnewline
  have hshape : bytes "\x7b\"status\":\"ok\",\"slept_ms\":" ++ decimal ms ++ bytes "\x7d\n" =
      objectText [] [] [] [(bytes "status",34 :: (bytes "ok" ++ [34])),(bytes "slept_ms",decimal ms)] ++ bytes "\n" := by
    simp [objectText, membersText, keyText, bytes]
  rw [hshape]
  exact ⟨_,htext⟩

theorem setRoutes_keepsWord (hprocess : Reports process) : ∀ e ∈ (setRoutes process {}).routes, KeepsWord e := by
  have hplain : textPlain ≠ applicationJson := by decide
  have htext : ∀ (key : List UInt8) (body : SimpleHttpRequest → ω → List UInt8), KeepsWord (key,answer textPlain body) :=
    fun _ _ _ _ => ⟨rfl,Or.inr fun h => absurd h hplain⟩
  have hmetrics : ∀ world, ∃ v, Text v (process.metricsJson world) := by
    intro world
    obtain ⟨m,clock,workerQueueDepth,hworld⟩ := hprocess world
    rw [hworld]
    exact ⟨_,m.toJson_text clock workerQueueDepth⟩
  refine HttpSession.setRoutes_forall (htext _ _) (htext _ _) ?_ ?_ (htext _ _) ?_ ?_ ?_
  · exact fun _ _ => ⟨rfl,Or.inr fun _ => text_json⟩
  · exact fun _ _ => ⟨rfl,Or.inl rfl⟩
  · exact fun _ _ => ⟨rfl,Or.inr fun _ => text_health⟩
  · exact fun _ world => ⟨rfl,Or.inr fun _ => hmetrics world⟩
  · exact fun req _ => ⟨rfl,Or.inr fun _ => text_slow (slowDelay req.path)⟩

theorem json_body (hprocess : Reports process) {req : SimpleHttpRequest} (world : ω) (hecho : ¬ IsEcho req)
    (hjson : ((setRoutes process {}).handle req world).response.contentType = applicationJson) :
    ∃ v, Text v ((setRoutes process {}).handle req world).response.body := by
  cases hroute : (setRoutes process {}).route req with
  | none =>
    rw [setRoutes_miss process world hroute] at hjson
    have hplain : bytes "text/plain" ≠ applicationJson := by decide
    exact absurd hjson hplain
  | some handler =>
    obtain ⟨e,hfind,rfl⟩ := Option.map_eq_some_iff.mp hroute
    obtain ⟨hnone,hkeeps⟩ := setRoutes_keepsWord hprocess e (List.mem_of_find?_eq_some hfind) req world
    rw [HttpSession.setRoutes_hit process world hroute hnone] at hjson ⊢
    refine hkeeps.resolve_left (fun hkey => hecho ?_) hjson
    have hreq : e.1 = HttpRouter.routeKey req.method req.path := by simpa using List.find?_some hfind
    rw [IsEcho, ← hreq, hkey]
    rfl

end Routes

namespace HttpSession
open Execution HttpParser
variable {ω : Type*} {k : ℕ} {process : Routes.Process ω}

/-- A client that does not use `/echo` can read as JSON whatever it decodes that is announced as JSON. -/
theorem json_session {workerPool : Bool} {as : List (Act ω k)} {world : ω} {s : State ω k}
    (hprocess : Routes.Reports process) (hecho : ∀ req ∈ received as, ¬ Routes.IsEcho req)
    (hwhole : Along (step workerPool (Routes.setRoutes process {})) (Whole workerPool) { world } as)
    (h : exec (step workerPool (Routes.setRoutes process {})) { world } as = some s) :
    ∀ d ∈ Frames.items DecodedResponse.next s.wire, d.contentType = some Routes.applicationJson → ∃ v, Text v d.body := by
  obtain ⟨zs,resps,hpart,hanswers,hitems,-⟩ := run_answers (setRoutes_fits process) hwhole h
  intro d hd hjson
  obtain ⟨resp,hresp,rfl⟩ := List.mem_map.mp (hitems.subset hd)
  obtain ⟨req,hreq,world,rfl⟩ : ∃ req ∈ zs, Answers (Routes.setRoutes process {}) req resp := by
    obtain ⟨i,hi,rfl⟩ := List.mem_iff_getElem.mp hresp
    have hz : i < zs.length := by rwa [hanswers.length_eq]
    exact ⟨zs[i],List.getElem_mem hz,hanswers.get hz hi⟩
  exact Routes.json_body hprocess world (hecho req (hpart.subset hreq)) (Option.some.inj hjson)

/-- A request for a page of each kind. -/
def threeRequests : List (Act Routes.Server 0) :=
  [.read [bytes "GET /metrics HTTP/1.1\r\n\r\n",bytes "GET / HTTP/1.1\r\n\r\n",bytes "GET /slow HTTP/1.1\r\n\r\n"],
    .parse,.parse,.parse,.parse,.dispatch,.dispatch,.dispatch,.dispatch,.write 585]

theorem json_session_three : ∃ s, exec (step false (Routes.setRoutes Routes.serving {})) { world := {} } threeRequests = some s ∧
    (Frames.items DecodedResponse.next s.wire).map (fun d => d.contentType) =
      [some Routes.applicationJson,some Routes.textPlain,some Routes.applicationJson] ∧
    ∀ d ∈ Frames.items DecodedResponse.next s.wire, d.contentType = some Routes.applicationJson → ∃ v, Text v d.body := by
  have hrun : (exec (step false (Routes.setRoutes Routes.serving {})) { world := {} } threeRequests).map
      (fun s => (Frames.items DecodedResponse.next s.wire).map (fun d => d.contentType)) =
        some [some Routes.applicationJson,some Routes.textPlain,some Routes.applicationJson] := by
    decide +kernel
  obtain ⟨s,hs,htypes⟩ := Option.map_eq_some_iff.mp hrun
  exact ⟨s,hs,htypes,json_session Routes.reports_serving (by decide +kernel) (by decide +kernel) hs⟩

end HttpSession
end ModernTcp
