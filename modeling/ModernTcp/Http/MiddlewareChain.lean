import ModernTcp.Http.HttpRouter

/-! # The chain of middleware

`handle` runs the middleware by an index that every `next` counts up. A middleware is here a program that
calls `next` at certain points, so that its calls can be counted and the order of all entries, calls
and returns can be recorded.
-/
namespace ModernTcp
variable {ω : Type*}

/-- What is left of a middleware: it ends, or it calls `next` and goes on with what that leaves. -/
inductive Program (ω : Type*)
  | done (ran : Ran ω)
  | next (world : ω) (response : SimpleHttpResponse) (after : Ran ω → Program ω)

namespace Program

def run (next : NextFn ω) : Program ω → Ran ω
  | .done ran => ran
  | .next world response after => (after (next world response)).run next

/-- How often `next` is called. -/
def calls (next : NextFn ω) : Program ω → ℕ
  | .done _ => 0
  | .next world response after => (after (next world response)).calls next + 1

end Program

abbrev MiddlewareBody (ω : Type*) := SimpleHttpRequest → ω → SimpleHttpResponse → Program ω

def MiddlewareBody.fn (m : MiddlewareBody ω) : MiddlewareFn ω := fun request next world response =>
  (m request world response).run next

namespace HttpRouter

/-- The lambda `chain` of `handle`. -/
def chainFrom (request : SimpleHttpRequest) (middleware : List (MiddlewareFn ω)) (terminal : NextFn ω)
    (index : ℕ) : NextFn ω :=
  if h : index < middleware.length then
    middleware.get ⟨index,h⟩ request (chainFrom request middleware terminal (index + 1))
  else terminal
termination_by middleware.length - index

theorem chainFrom_eq (request : SimpleHttpRequest) (middleware : List (MiddlewareFn ω)) (terminal : NextFn ω)
    (index : ℕ) : chainFrom request middleware terminal index = chain request (middleware.drop index) terminal := by
  induction hn : middleware.length - index generalizing index with
  | zero =>
    rw [chainFrom, dif_neg (by omega), List.drop_of_length_le (by omega)]
    rfl
  | succ n ih =>
    have hlt : index < middleware.length := by omega
    rw [chainFrom, dif_pos hlt, ih (index + 1) (by omega), List.drop_eq_getElem_cons hlt]
    rfl

theorem handle_eq_chainFrom (router : HttpRouter ω) (request : SimpleHttpRequest) (world : ω) :
    router.handle request world = chainFrom request router.middleware (router.terminal request) 0 world {} := by
  rw [chainFrom_eq, List.drop_zero]
  rfl

/-- With the response at hand, the index of the middleware, and `terminal` for the end of the chain. -/
inductive Event
  | enter (index : ℕ) (response : SimpleHttpResponse)
  | call (index : ℕ) (response : SimpleHttpResponse)
  | terminal (before after : SimpleHttpResponse)
  | back (index : ℕ) (response : SimpleHttpResponse)
  | leave (index : ℕ) (response : SimpleHttpResponse)
deriving DecidableEq

def Event.isTerminal : Event → Bool
  | .terminal _ _ => true
  | _ => false

/-- A world that remembers the events. -/
abbrev Traced (ω : Type*) := ω × List Event

def erase (ran : Ran (Traced ω)) : Ran ω := { world := ran.world.1, response := ran.response, thrown := ran.thrown }

def runTraced (index : ℕ) (next : NextFn (Traced ω)) : Program ω → List Event → Ran (Traced ω)
  | .done ran, log =>
    { world := (ran.world,log ++ [.leave index ran.response]), response := ran.response, thrown := ran.thrown }
  | .next world response after, log =>
    let ran := next (world,log ++ [.call index response]) response
    runTraced index next (after (erase ran)) (ran.world.2 ++ [.back index ran.response])

def tracedMiddleware (index : ℕ) (m : MiddlewareBody ω) : MiddlewareFn (Traced ω) := fun request next world response =>
  runTraced index next (m request world.1 response) (world.2 ++ [.enter index response])

def tracedFrom (index : ℕ) : List (MiddlewareBody ω) → List (MiddlewareFn (Traced ω))
  | [] => []
  | m :: ms => tracedMiddleware index m :: tracedFrom (index + 1) ms

def tracedTerminal (terminal : NextFn ω) : NextFn (Traced ω) := fun world response =>
  let ran := terminal world.1 response
  { world := (ran.world,world.2 ++ [.terminal response ran.response]), response := ran.response, thrown := ran.thrown }

/-- Each middleware calls `next` so many times, wherever it is entered. -/
def CallsNext (request : SimpleHttpRequest) (terminal : NextFn ω) : List (MiddlewareBody ω) → List ℕ → Prop
  | [], [] => True
  | m :: ms, k :: ks =>
    (∀ world response, (m request world response).calls (chain request (ms.map MiddlewareBody.fn) terminal) = k) ∧
      CallsNext request terminal ms ks
  | _, _ => False

/-- The events from one entry to the matching leave, for the middleware from `index` on. What is nested
in a call begins with the response at the call, and ends with the response that the caller sees. -/
def Nested (index : ℕ) : List ℕ → SimpleHttpResponse → List Event → SimpleHttpResponse → Prop
  | [], before, log, after => log = [.terminal before after]
  | k :: ks, before, log, after => ∃ blocks : List (List Event), blocks.length = k ∧
      (∀ block ∈ blocks, ∃ response inner seen,
        block = .call index response :: inner ++ [.back index seen] ∧ Nested (index + 1) ks response inner seen) ∧
      log = .enter index before :: blocks.flatten ++ [.leave index after]

variable {request : SimpleHttpRequest} {terminal next : NextFn ω} {next' : NextFn (Traced ω)}

/-- The traced stage does what the plain one does, and appends a log of this form. -/
def Traces (form : SimpleHttpResponse → List Event → SimpleHttpResponse → Prop) (next : NextFn ω)
    (next' : NextFn (Traced ω)) : Prop :=
  ∀ world log response, ∃ events, next' (world,log) response =
      { world := ((next world response).world,log ++ events)
        response := (next world response).response
        thrown := (next world response).thrown } ∧
    form response events (next world response).response

theorem terminal_traces (terminal : NextFn ω) (index : ℕ) :
    Traces (Nested index []) terminal (tracedTerminal terminal) :=
  fun _ _ _ => ⟨_,rfl,rfl⟩

/-- A program makes one block of events for each call of `next`. -/
theorem runTraced_blocks {form : SimpleHttpResponse → List Event → SimpleHttpResponse → Prop}
    (hnext : Traces form next next') (index : ℕ) (p : Program ω) (log : List Event) :
    ∃ blocks : List (List Event), blocks.length = p.calls next ∧
      (∀ block ∈ blocks, ∃ response inner seen,
        block = .call index response :: inner ++ [.back index seen] ∧ form response inner seen) ∧
      runTraced index next' p log =
        { world := ((p.run next).world,log ++ (blocks.flatten ++ [.leave index (p.run next).response]))
          response := (p.run next).response
          thrown := (p.run next).thrown } := by
  induction p generalizing log with
  | done ran => exact ⟨[],rfl,(fun _ h => by cases h),rfl⟩
  | next world response after ih =>
    obtain ⟨inner,hcall,hform⟩ := hnext world (log ++ [.call index response]) response
    obtain ⟨blocks,hlength,hblocks,hrest⟩ := ih (next world response)
      (log ++ [.call index response] ++ inner ++ [.back index (next world response).response])
    refine ⟨(.call index response :: inner ++ [.back index (next world response).response]) :: blocks,?_,?_,?_⟩
    · simp [Program.calls, hlength]
    · exact List.forall_mem_cons.mpr ⟨⟨response,inner,_,rfl,hform⟩,hblocks⟩
    · rw [runTraced, hcall]
      dsimp only [erase]
      rw [hrest]
      simp [Program.run]

theorem chain_traces {bodies : List (MiddlewareBody ω)} {ks : List ℕ} (h : CallsNext request terminal bodies ks)
    (index : ℕ) : Traces (Nested index ks) (chain request (bodies.map MiddlewareBody.fn) terminal)
      (chain request (tracedFrom index bodies) (tracedTerminal terminal)) := by
  induction bodies generalizing ks index with
  | nil =>
    cases ks with
    | nil => exact terminal_traces terminal index
    | cons k ks => cases h
  | cons m ms ih =>
    cases ks with
    | nil => cases h
    | cons k ks =>
      obtain ⟨hm,hms⟩ := h
      intro world log response
      obtain ⟨blocks,hlength,hblocks,hrun⟩ := runTraced_blocks (ih hms (index + 1)) index (m request world response)
        (log ++ [.enter index response])
      refine ⟨.enter index response :: blocks.flatten ++ [.leave index _],?_,blocks,hlength.trans (hm world response),
        hblocks,rfl⟩
      refine hrun.trans ?_
      simp [chain, MiddlewareBody.fn]

theorem Nested.terminals {index : ℕ} {ks : List ℕ} {before after : SimpleHttpResponse} {log : List Event}
    (h : Nested index ks before log after) : log.countP Event.isTerminal = ks.prod := by
  induction ks generalizing index before log after with
  | nil =>
    rw [show log = [.terminal before after] from h]
    rfl
  | cons k ks ih =>
    obtain ⟨blocks,rfl,hblocks,rfl⟩ := h
    have hcount : ∀ block ∈ blocks, block.countP Event.isTerminal = ks.prod := by
      intro block hblock
      obtain ⟨response,inner,seen,rfl,hinner⟩ := hblocks block hblock
      simp [Event.isTerminal, ih hinner]
    have hsum : blocks.flatten.countP Event.isTerminal = blocks.length * ks.prod := by
      clear hblocks
      induction blocks with
      | nil => simp
      | cons block blocks ihb =>
        obtain ⟨hblock,hrest⟩ := List.forall_mem_cons.mp hcount
        rw [List.flatten_cons, List.countP_append, hblock, ihb hrest, List.length_cons]
        ring
    simp [Event.isTerminal, hsum]

/-- `handle` runs the middleware nested in the order of registration, whatever it does besides its calls of
`next`, and the end of the chain innermost. -/
theorem middleware_nested (router : HttpRouter ω) (request : SimpleHttpRequest) (world : ω)
    {bodies : List (MiddlewareBody ω)} {ks : List ℕ} (h : CallsNext request (router.terminal request) bodies ks) :
    let ran := chainFrom request (tracedFrom 0 bodies) (tracedTerminal (router.terminal request)) 0 (world,[]) {}
    erase ran = { router with middleware := bodies.map MiddlewareBody.fn }.handle request world ∧
      Nested 0 ks {} ran.world.2 ran.response ∧ ran.world.2.countP Event.isTerminal = ks.prod := by
  obtain ⟨events,hran,hnested⟩ := chain_traces h 0 world [] {}
  rw [chainFrom_eq, List.drop_zero, hran]
  exact ⟨rfl,hnested,hnested.terminals⟩

/-- A middleware that calls `next` again and again. -/
def repeating (k : ℕ) : MiddlewareBody ω := fun _ world response => go k { world, response }
where
  go : ℕ → Ran ω → Program ω
    | 0, ran => .done ran
    | k + 1, ran => .next ran.world ran.response (go k)

theorem calls_repeating (next : NextFn ω) (k : ℕ) (request : SimpleHttpRequest) (world : ω)
    (response : SimpleHttpResponse) : (repeating k request world response).calls next = k := by
  have hgo : ∀ ran, (repeating.go k ran).calls next = k := by
    induction k with
    | zero => exact fun _ => rfl
    | succ k ih => exact fun ran => congrArg (· + 1) (ih _)
  exact hgo _

theorem middleware_nested_twice :
    let ran := chainFrom {} (tracedFrom 0 [repeating 2,repeating 3])
      (tracedTerminal (({} : HttpRouter Unit).terminal {})) 0 ((),[]) {}
    ran.response.statusCode = 404 ∧ ran.world.2.countP Event.isTerminal = 6 := by
  have h : CallsNext {} (({} : HttpRouter Unit).terminal {}) [repeating 2,repeating 3] [2,3] :=
    ⟨fun world response => calls_repeating _ 2 _ world response,fun world response => calls_repeating _ 3 _ world response,
      trivial⟩
  obtain ⟨herase,-,hcount⟩ := middleware_nested ({} : HttpRouter Unit) {} () h
  exact ⟨congrArg (fun ran => ran.response.statusCode) herase,hcount⟩

end HttpRouter
end ModernTcp
