import ModernTcp.Http.ClientRequest
import ModernTcp.Server.HttpSession

/-! # A client of the echo route

From the requests as the client means them to the responses as it decodes them: what it posts to `/echo` comes back.
The reads are of whole requests, as in every session.
-/
namespace ModernTcp.HttpSession
open EpollConnection Execution HttpParser

structure Posts (r : ClientRequest) : Prop where
  writable : r.Writable
  method : r.method = bytes "POST"
  path : r.path = bytes "/echo"

instance : DecidablePred Posts := fun r =>
  decidable_of_iff (r.Writable ∧ r.method = bytes "POST" ∧ r.path = bytes "/echo")
    ⟨fun ⟨h1,h2,h3⟩ => ⟨h1,h2,h3⟩,fun h => ⟨h.writable,h.method,h.path⟩⟩

/-- The body comes back under the content type that it was sent with. -/
def echoed (r : ClientRequest) : SimpleHttpResponse where
  body := r.body
  contentType :=
    if r.received.contentType = [] then bytes "text/plain" else r.received.contentType

def chunks {ω : Type*} {k : ℕ} (as : List (Act ω k)) : List (List UInt8) :=
  as.flatMap fun
    | .read requests => requests
    | _ => []

variable {ω : Type*} {k : ℕ} {process : Routes.Process ω}

theorem received_eq (as : List (Act ω k)) : received as = (chunks as).map requestOf := by
  induction as with
  | nil => rfl
  | cons a as ih =>
    have hsplit : received (a :: as) = received [a] ++ received as := by simp [received]
    have hchunks : chunks (a :: as) = chunks [a] ++ chunks as := by simp [chunks]
    rw [hsplit, hchunks, List.map_append, ih]
    cases a <;> simp [received, chunks]

theorem answers_echo {r : ClientRequest} (hr : Posts r) {resp : SimpleHttpResponse}
    (h : Answers (Routes.setRoutes process {}) r.received resp) : resp = echoed r := by
  obtain ⟨-,hrequest⟩ := ClientRequest.parse_encode hr.writable
  obtain ⟨world,rfl⟩ := h
  have hroute : Routes.IsEcho (parse {} r.encode).1.getRequest.1 := by
    change Routes.IsEcho (requestOf r.encode)
    rw [hrequest, Routes.IsEcho]
    change HttpRouter.routeKey r.method r.path = _
    rw [hr.method, hr.path]
  have hecho : ((Routes.setRoutes process {}).handle (requestOf r.encode) world).response = ({
      body := (requestOf r.encode).body
      contentType := if (requestOf r.encode).contentType = [] then bytes "text/plain"
        else (requestOf r.encode).contentType } : SimpleHttpResponse) :=
    Routes.respond_echo process world hroute
  rw [hrequest] at hecho
  exact hecho

theorem answers_posts {posts : List ClientRequest} (hposts : ∀ r ∈ posts, Posts r) {resps : List SimpleHttpResponse}
    (h : List.Forall₂ (Answers (Routes.setRoutes process {})) (posts.map ClientRequest.received) resps) :
    resps = posts.map echoed := by
  induction posts generalizing resps with
  | nil =>
    cases h
    rfl
  | cons r posts ih =>
    obtain ⟨hr,hrest⟩ := List.forall_mem_cons.mp hposts
    obtain ⟨resp,rest,hresp,hlater,rfl⟩ := List.forall₂_cons_left_iff.mp h
    rw [answers_echo hr hresp, ih hrest hlater, List.map_cons]

/-- Whatever the scheduling and the writes: a client that posts to the echo route decodes its own bodies, from the first
one on and in order, each under its content type, and when nothing is under way and the connection is open it has
decoded all of them. -/
theorem echo_session {workerPool : Bool} {as : List (Act ω k)} {world : ω} {s : State ω k}
    {posts : List ClientRequest} (hposts : ∀ r ∈ posts, Posts r) (hsent : chunks as = posts.map ClientRequest.encode)
    (hwhole : Along (step workerPool (Routes.setRoutes process {})) (Whole workerPool) { world } as)
    (h : exec (step workerPool (Routes.setRoutes process {})) { world } as = some s) :
    Frames.items DecodedResponse.next s.wire <+: posts.map (fun r => (echoed r).seen) ∧
      (s.Idle → Frames.items DecodedResponse.next s.wire = posts.map (fun r => (echoed r).seen)) := by
  obtain ⟨zs,resps,hpart,hanswers,hitems,hidle⟩ := run_answers (setRoutes_fits process) hwhole h
  have hreceived : received as = posts.map ClientRequest.received := by
    rw [received_eq, hsent, List.map_map]
    exact List.map_congr_left fun r hr => (ClientRequest.parse_encode (hposts r hr).writable).2
  rw [hreceived] at hpart hidle
  have hzs : zs = (posts.take zs.length).map ClientRequest.received := by
    rw [List.map_take]
    exact List.prefix_iff_eq_take.mp hpart
  have hresps : resps = (posts.take zs.length).map echoed := by
    rw [hzs] at hanswers
    exact answers_posts (fun r hr => hposts r (List.mem_of_mem_take hr)) hanswers
  rw [hresps, List.map_map] at hitems hidle
  refine ⟨hitems.trans ((List.take_prefix _ _).map _),fun hdone => ?_⟩
  obtain ⟨hall,hitems⟩ := hidle hdone
  have hlength : zs.length = posts.length := by rw [hall, List.length_map]
  rw [hitems, hlength, List.take_length]
  rfl

/-- One post with a content type and one without. -/
def twoPosts : List ClientRequest :=
  [{ method := bytes "POST", path := bytes "/echo", version := bytes "HTTP/1.1", body := bytes "hi",
     headers := [(bytes "content-type",bytes "a/b")] },
   { method := bytes "POST", path := bytes "/echo", version := bytes "HTTP/1.1" }]

/-- Both come in one read, and the IO thread answers them. -/
def posted : List (Act ℕ 0) :=
  [.read (twoPosts.map ClientRequest.encode),.parse,.parse,.parse,.dispatch,.dispatch,.dispatch,.write 171]

theorem echo_session_two : ∃ s, exec (step false (Routes.setRoutes Routes.counting {})) { world := 0 } posted = some s ∧
    Frames.items DecodedResponse.next s.wire = twoPosts.map (fun r => (echoed r).seen) := by
  have hrun : (exec (step false (Routes.setRoutes Routes.counting {})) { world := 0 } posted).map
      (fun s => decide s.Idle) = some true := by
    decide +kernel
  obtain ⟨s,hs,hidle⟩ := Option.map_eq_some_iff.mp hrun
  exact ⟨s,hs,(@echo_session _ _ Routes.counting _ _ _ _ _ (by decide) (by decide) (by decide +kernel) hs).2
    (of_decide_eq_true hidle)⟩

end ModernTcp.HttpSession
