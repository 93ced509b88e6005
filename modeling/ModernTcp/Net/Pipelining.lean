import ModernTcp.Net.HttpDelivery

/-! # Pipelined requests in one buffer

The loop of `handle_read` over one buffer and one parser, reduced to what it computes: parse,
take the request out, advance by `consumed_bytes`. The loop of the connection is this one with
a limit on the queue.
-/
namespace ModernTcp
namespace HttpParser

/-- What a complete result and `get_request` give the loop. -/
structure Completion where
  request : SimpleHttpRequest
  requestStartIndex : ℕ
  requestTotalLen : ℕ
  consumedBytes : ℕ
deriving DecidableEq

structure Pipelining where
  parser : HttpParser := {}
  buffer : List UInt8
  completed : List Completion := []
  stopped : Bool := false
deriving DecidableEq

namespace Pipelining

def take (s : Pipelining) (result : ParseResult) : Pipelining :=
  { s with
    parser := s.parser.getRequest.2
    buffer := s.buffer.drop result.consumedBytes
    completed := s.completed ++ [⟨s.parser.getRequest.1,result.requestStartIndex,result.requestTotalLen,
      result.consumedBytes⟩] }

def round (s : Pipelining) : Option Pipelining :=
  if s.stopped ∨ s.buffer = [] then none
  else
    let p := s.parser.parse s.buffer
    let t := { s with parser := p.1 }
    some (if p.2.hasError = false ∧ p.2.isComplete then t.take p.2 else { t with stopped := true })

def measure (s : Pipelining) : ℕ :=
  if s.stopped then 0 else 1 + 2 * s.buffer.length + (decide (s.parser.state ≠ .expectRequestLine)).toNat

def run (s : Pipelining) : Pipelining := Loop.run round measure s

theorem round_decreases : Loop.Decreases round measure := by
  intro s t h
  unfold round at h
  split at h
  · cases h
  rename_i hgo
  simp only [not_or, Bool.not_eq_true] at hgo
  obtain ⟨hstop,hne⟩ := hgo
  cases h
  dsimp only
  split
  · have hlt := parse_shrinks (p := s.parser) hne
    simp only [measure, take, hstop, Bool.false_eq_true, if_false]
    change 1 + 2 * (s.buffer.drop _).length + (decide (s.parser.getRequest.2.state ≠ _)).toNat < _
    omega
  · simp only [measure, if_true, hstop, Bool.false_eq_true, if_false]
    omega

/-- What a fresh parser makes of an accepted request. -/
def completionOf (r : List UInt8) : Completion := ⟨requestOf r,0,r.length,r.length⟩

theorem round_accepted {s : Pipelining} {r tail : List UInt8} (hr : Accepted r) (hfresh : s.parser = {})
    (hstop : s.stopped = false) (hbuf : s.buffer = r ++ tail) :
    s.round = some { s with buffer := tail, completed := s.completed ++ [completionOf r] } := by
  have hne : s.buffer ≠ [] := by
    rw [hbuf]
    exact List.append_ne_nil_of_left_ne_nil hr.ne_nil tail
  have hparse : s.parser.parse s.buffer = parse {} r := by
    rw [hfresh, hbuf, hr.parse_append]
  unfold round
  rw [if_neg (by simp [hstop, hne]), hparse]
  dsimp only
  rw [if_pos ⟨hr.no_error,hr.complete⟩]
  simp only [take, hr.consumed, hr.located.1, hr.located.2, getRequest_new, hbuf, List.drop_left, hfresh]
  rfl

theorem run_accepted {s : Pipelining} {rs : List (List UInt8)} (hrs : ∀ r ∈ rs, Accepted r)
    (hfresh : s.parser = {}) (hstop : s.stopped = false) (hbuf : s.buffer = rs.flatten) :
    s.run = { s with buffer := [], completed := s.completed ++ rs.map completionOf } := by
  induction rs generalizing s with
  | nil =>
    rw [List.flatten_nil] at hbuf
    rw [run, Loop.run_of_none (by simp [round, hbuf])]
    simp [← hbuf]
  | cons r rs ih =>
    have hround := round_accepted (hrs r List.mem_cons_self) hfresh hstop
      (by rw [hbuf, List.flatten_cons])
    rw [run, Loop.run_of_some round_decreases hround]
    have hnext := ih (s := { s with buffer := rs.flatten, completed := s.completed ++ [completionOf r] })
      (fun q hq => hrs q (List.mem_cons_of_mem _ hq)) hfresh hstop rfl
    rw [run] at hnext
    rw [hnext]
    simp

end Pipelining

/-- The loop from a fresh parser over one buffer. -/
def pipeline (buffer : List UInt8) : Pipelining := Pipelining.run { buffer }

end HttpParser

namespace EpollConnection
open HttpParser

/-- The loop of the connection queues accepted requests, keep-alive or not, as long as the queue
has room for them. -/
theorem Reading.parseLoop_accepted {s : Reading} (hs : s.Parsing) {rs : List (List UInt8)}
    (hrs : ∀ r ∈ rs, Accepted r) (hin : s.conn.inputBuffer = rs.flatten)
    (hdepth : s.conn.pipelineDepth + rs.length ≤ maxHttpPipeline) :
    s.parseLoop.conn = (s.queued rs []).conn := by
  induction rs generalizing s with
  | nil =>
    rw [List.flatten_nil] at hin
    rw [parseLoop_of_none (by simp [parseRound, hin])]
    simp [Reading.queued, ← hin]
  | cons r rs ih =>
    rw [List.length_cons] at hdepth
    let t := { s.queued [r] rs.flatten with shouldClose := s.shouldClose || !(requestOf r).keepAlive }
    have hround : s.parseRound = some t :=
      parseRound_accepted hs (hrs r List.mem_cons_self) (by rw [hin, List.flatten_cons]) (by omega)
    have hnext := ih (s := t) ⟨hs.status,hs.running,hs.fresh⟩ (fun q hq => hrs q (List.mem_cons_of_mem _ hq)) rfl
      (by simp only [t, Reading.queued, List.length_cons, List.length_nil]; omega)
    rw [parseLoop_of_some hround, hnext]
    simp [t, Reading.queued]
    omega

end EpollConnection

/-- Requests that a fresh parser accepts one by one are taken apart again when they come in one
buffer, however many there are; the queue of a connection gets the same requests, each with
its own bytes, up to its limit. -/
theorem HttpParser.pipelining_decomposition {rs : List (List UInt8)} (h : ∀ r ∈ rs, Accepted r) :
    (pipeline rs.flatten).completed = rs.map (fun r => ⟨requestOf r,0,r.length,r.length⟩) ∧
    (pipeline rs.flatten).buffer = [] ∧
    (rs.length ≤ maxHttpPipeline → ∀ c : EpollConnection.Reading, c.Parsing → c.conn.inputBuffer = rs.flatten →
      c.conn.pendingRequests = [] → c.conn.pipelineDepth = 0 →
      c.parseLoop.conn.pendingRequests = rs.map (fun r => (requestOf r,r))) := by
  have hrun := Pipelining.run_accepted (s := { buffer := rs.flatten }) h rfl rfl rfl
  refine ⟨?_,?_,?_⟩
  · rw [pipeline, hrun]
    rfl
  · rw [pipeline, hrun]
  · intro hlen c hc hin hpend hdepth
    rw [EpollConnection.Reading.parseLoop_accepted hc h hin (by omega)]
    simp [EpollConnection.Reading.queued, hpend]

/-- A request with a header and a body, and one that follows it. -/
def twoRequests : List (List UInt8) :=
  [bytes "PUT /a HTTP/1.0\r\nContent-Length: 2\r\n\r\nhi",bytes "GET / HTTP/1.1\r\n\r\n"]

theorem HttpParser.pipelining_decomposition_two :
    (pipeline twoRequests.flatten).completed = twoRequests.map (fun r => ⟨requestOf r,0,r.length,r.length⟩) ∧
      twoRequests.map (fun r => (requestOf r).keepAlive) = [false,true] := by
  have haccepted : ∀ r ∈ twoRequests, Accepted r := by decide +kernel
  exact ⟨(HttpParser.pipelining_decomposition haccepted).1,by decide +kernel⟩

end ModernTcp
