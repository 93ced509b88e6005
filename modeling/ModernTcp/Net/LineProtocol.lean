import ModernTcp.Net.EpollConnection

/-! # The line protocol and the chunks of its stream

The calls of the message handler are a function of the bytes: the lines between newlines,
without one trailing CR, unless they are empty. What is behind the last newline waits in
`input_buffer_`. Lines are told apart here by `List.splitOn`, not by the loop of
`handle_line_protocol`.
-/
namespace ModernTcp
open EpollConnection

/-- The lines of a stream that end with a newline, as the handler is to get them. -/
def messagesOf (s : List UInt8) : List (List UInt8) :=
  ((s.splitOn 10).dropLast.map Reading.stripCr).filter (· ≠ [])

/-- The bytes behind the last newline. -/
def remainder (s : List UInt8) : List UInt8 := (s.splitOn 10).getLastD []

section Lines
variable {s line : List UInt8}

theorem messagesOf_of_not_mem (h : 10 ∉ s) : messagesOf s = [] ∧ remainder s = s := by
  rw [messagesOf, remainder, List.splitOn_eq_singleton h]
  exact ⟨rfl,rfl⟩

theorem messagesOf_line (h : 10 ∉ line) (rest : List UInt8) :
    messagesOf (line ++ 10 :: rest) = [Reading.stripCr line].filter (· ≠ []) ++ messagesOf rest ∧
      remainder (line ++ 10 :: rest) = remainder rest := by
  obtain ⟨next,lines,hne⟩ := List.exists_cons_of_ne_nil (List.splitOn_ne_nil 10 rest)
  simp only [messagesOf, remainder, List.splitOn_append_cons_self_of_not_mem h, hne]
  refine ⟨?_,rfl⟩
  rw [List.dropLast_cons_of_ne_nil (by simp), List.map_cons, ← List.singleton_append, List.filter_append]

theorem dropWhile_newline_length (h : 10 ∈ s) : ((s.dropWhile (· ≠ 10)).drop 1).length < s.length := by
  have hlen := congrArg List.length (takeWhile_append_first h)
  rw [List.length_append, List.length_cons] at hlen
  omega

theorem messagesOf_append (s t : List UInt8) :
    messagesOf (s ++ t) = messagesOf s ++ messagesOf (remainder s ++ t) ∧
      remainder (s ++ t) = remainder (remainder s ++ t) := by
  induction hn : s.length using Nat.strong_induction_on generalizing s with
  | _ n ih =>
    by_cases h : 10 ∈ s
    · obtain ⟨hm,hr⟩ := ih _ (hn ▸ dropWhile_newline_length h) ((s.dropWhile (· ≠ 10)).drop 1) rfl
      have hfirst := messagesOf_line (not_mem_takeWhile_ne 10 s) ((s.dropWhile (· ≠ 10)).drop 1)
      have hboth := messagesOf_line (not_mem_takeWhile_ne 10 s) ((s.dropWhile (· ≠ 10)).drop 1 ++ t)
      rw [takeWhile_append_first h] at hfirst
      rw [← List.cons_append, ← List.append_assoc, takeWhile_append_first h] at hboth
      rw [hboth.1, hboth.2, hfirst.1, hfirst.2, hm, hr, List.append_assoc]
      exact ⟨rfl,rfl⟩
    · obtain ⟨hm,hr⟩ := messagesOf_of_not_mem h
      rw [hm, hr]
      exact ⟨rfl,rfl⟩

theorem not_mem_remainder (s : List UInt8) : 10 ∉ remainder s := by
  induction hn : s.length using Nat.strong_induction_on generalizing s with
  | _ n ih =>
    by_cases h : 10 ∈ s
    · have hfirst := messagesOf_line (not_mem_takeWhile_ne 10 s) ((s.dropWhile (· ≠ 10)).drop 1)
      rw [takeWhile_append_first h] at hfirst
      rw [hfirst.2]
      exact ih _ (hn ▸ dropWhile_newline_length h) _ rfl
    · rwa [(messagesOf_of_not_mem h).2]

end Lines

namespace EpollConnection
namespace Reading

theorem shutdown_input_le (s : Reading) (why : CloseReason) :
    (s.shutdown why).conn.inputBuffer.length ≤ s.conn.inputBuffer.length := by
  unfold shutdown
  split
  · exact Nat.zero_le _
  · exact le_rfl

theorem callMessageHandler_input_le (h : Handlers) (s : Reading) (line : List UInt8) :
    (s.callMessageHandler h line).conn.inputBuffer.length ≤ s.conn.inputBuffer.length := by
  unfold callMessageHandler
  cases h.message with
  | none => exact le_rfl
  | some handler =>
    have hcalled : (if (handler s.effects line).closes then (s.emit (.message line)).shutdown .handler
        else s.emit (.message line)).conn.inputBuffer.length ≤ s.conn.inputBuffer.length := by
      split
      · exact shutdown_input_le _ _
      · exact le_rfl
    dsimp only
    split
    · exact (shutdown_input_le _ _).trans hcalled
    · exact hcalled

theorem lineRound_decreases (h : Handlers) :
    Loop.Decreases (lineRound h) (fun s => s.conn.inputBuffer.length) := by
  intro s t hround
  unfold lineRound at hround
  split at hround
  · cases hround
  rename_i hgo
  have hmem : 10 ∈ s.conn.inputBuffer := by
    by_contra hmem
    exact hgo (Or.inr hmem)
  have hlen := dropWhile_newline_length hmem
  cases hround
  dsimp only
  split
  · exact hlen
  · exact lt_of_le_of_lt (callMessageHandler_input_le h _ _) hlen

/-- There is a handler that does not close the connection and throws no `std::bad_weak_ptr`.
What else it throws, and when, is left open. -/
def Tolerated (h : Handlers) : Prop :=
  ∃ handler, h.message = some handler ∧ ∀ log line, (handler log line).closes = false ∧
    ((handler log line).throws = true → (handler log line).badWeakPtr = false)

theorem Tolerated.call {h : Handlers} (hh : Tolerated h) (s : Reading) (line : List UInt8) :
    s.callMessageHandler h line = s.emit (.message line) := by
  obtain ⟨handler,hsome,hquiet⟩ := hh
  obtain ⟨hcloses,hthrows⟩ := hquiet s.effects line
  have hweak : ¬ ((handler s.effects line).throws = true ∧ (handler s.effects line).badWeakPtr = true) := by
    rintro ⟨hthrow,hweak⟩
    rw [hthrows hthrow] at hweak
    cases hweak
  simp [callMessageHandler, hsome, hcloses, hweak]

def handled (s : Reading) : Reading := { s with
  conn := { s.conn with inputBuffer := remainder s.conn.inputBuffer }
  effects := s.effects ++ (messagesOf s.conn.inputBuffer).map .message }

theorem lineRound_some {h : Handlers} (hh : Tolerated h) {s t : Reading} (hround : s.lineRound h = some t) :
    t.handled = s.handled ∧ t.status = s.status := by
  unfold lineRound at hround
  split at hround
  · cases hround
  rename_i hgo
  have hmem : 10 ∈ s.conn.inputBuffer := by
    by_contra hmem
    exact hgo (Or.inr hmem)
  have hline := messagesOf_line (not_mem_takeWhile_ne 10 s.conn.inputBuffer)
    ((s.conn.inputBuffer.dropWhile (· ≠ 10)).drop 1)
  rw [takeWhile_append_first hmem] at hline
  cases hround
  dsimp only
  generalize stripCr (s.conn.inputBuffer.takeWhile (· ≠ 10)) = line at hline ⊢
  generalize (s.conn.inputBuffer.dropWhile (· ≠ 10)).drop 1 = rest at hline ⊢
  split
  · rename_i hempty
    simp [handled, hline.1, hline.2, hempty]
  · rename_i hne
    rw [hh.call]
    simp [handled, emit, hline.1, hline.2, hne]

theorem handleLineProtocol_eq {h : Handlers} (hh : Tolerated h) (s : Reading) (hs : s.status ≠ .returned) :
    s.handleLineProtocol h = s.handled := by
  revert hs
  refine Loop.run_induction (lineRound_decreases h)
    (motive := fun s => s.status ≠ .returned → s.handleLineProtocol h = s.handled) ?_ ?_ s
  · intro s hnone hs
    have hmem : 10 ∉ s.conn.inputBuffer := by
      intro hmem
      simp [lineRound, hs, hmem] at hnone
    obtain ⟨hm,hr⟩ := messagesOf_of_not_mem hmem
    rw [handleLineProtocol, Loop.run_of_none hnone]
    simp [handled, hm, hr]
  · intro s t hround ih hs
    obtain ⟨hsame,hstatus⟩ := lineRound_some hh hround
    rw [handleLineProtocol, Loop.run_of_some (lineRound_decreases h) hround, ← hsame]
    exact ih (by rwa [hstatus])

end Reading

/-- Chunks are appended to `input_buffer_`, with a call of `handle_line_protocol` after each; the
log goes on from call to call. -/
def lineReads (h : Handlers) (s : Reading) (chunks : List (List UInt8)) : Reading :=
  chunks.foldl (fun s chunk => Reading.handleLineProtocol h { s with
    conn := { s.conn with inputBuffer := s.conn.inputBuffer ++ chunk }
    status := .looping }) s

/-- However the stream is cut, its lines reach the handler in order and once each. -/
theorem line_protocol_independent {h : Handlers} (hh : Reading.Tolerated h) {s : Reading}
    (hs : s.conn.inputBuffer = []) (chunks : List (List UInt8)) :
    (lineReads h s chunks).effects = s.effects ++ (messagesOf chunks.flatten).map .message ∧
      (lineReads h s chunks).conn.inputBuffer = remainder chunks.flatten := by
  have hgeneral : ∀ s : Reading, 10 ∉ s.conn.inputBuffer →
      (lineReads h s chunks).effects =
        s.effects ++ (messagesOf (s.conn.inputBuffer ++ chunks.flatten)).map .message ∧
      (lineReads h s chunks).conn.inputBuffer = remainder (s.conn.inputBuffer ++ chunks.flatten) := by
    induction chunks with
    | nil =>
      intro s hs
      obtain ⟨hm,hr⟩ := messagesOf_of_not_mem hs
      simp [lineReads, hm, hr]
    | cons chunk chunks ih =>
      intro s hs
      let t : Reading := { s with
        conn := { s.conn with inputBuffer := s.conn.inputBuffer ++ chunk }
        status := .looping }
      have hcall : t.handleLineProtocol h = t.handled := Reading.handleLineProtocol_eq hh t (by simp [t])
      have happend := messagesOf_append (s.conn.inputBuffer ++ chunk) chunks.flatten
      have hlater := ih t.handled (not_mem_remainder _)
      change (lineReads h (t.handleLineProtocol h) chunks).effects = _ ∧
        (lineReads h (t.handleLineProtocol h) chunks).conn.inputBuffer = _
      rw [hcall, hlater.1, hlater.2, List.flatten_cons, ← List.append_assoc, happend.1, happend.2]
      simp [t, Reading.handled]
  have h := hgeneral s (by simp [hs])
  rwa [hs, List.nil_append] at h

/-- A handler that throws at the second line `a` it gets, `std::bad_weak_ptr` or another exception. -/
def throwsAtSecond (badWeakPtr : Bool) : Handlers :=
  { workerPool := false, http := fun _ => {},
    message := some (fun log line => { throws := Effect.message line ∈ log, badWeakPtr }) }

/-- Two equal lines, a cut between CR and LF, an empty line, and the start of another. -/
theorem line_protocol_cut_crlf :
    (lineReads (throwsAtSecond false) { conn := {} } [bytes "a\na\r",bytes "\n\r\nc"]).effects =
      [.message (bytes "a"),.message (bytes "a")] ∧
    (lineReads (throwsAtSecond false) { conn := {} } [bytes "a\na\r",bytes "\n\r\nc"]).conn.inputBuffer =
      bytes "c" := by
  have hh : Reading.Tolerated (throwsAtSecond false) := ⟨_,rfl,fun _ _ => ⟨rfl,fun _ => rfl⟩⟩
  have h := line_protocol_independent hh (s := { conn := {} }) rfl [bytes "a\na\r",bytes "\n\r\nc"]
  rw [h.1, h.2]
  exact ⟨by decide,by decide⟩

/-- A `std::bad_weak_ptr` of the handler costs the lines behind it. -/
theorem line_protocol_bad_weak_ptr :
    (∀ handler, (throwsAtSecond true).message = some handler → ∀ log line, (handler log line).closes = false) ∧
    (lineReads (throwsAtSecond true) { conn := {} } [bytes "a\na\nb\n"]).effects =
      [.message (bytes "a"),.message (bytes "a"),.shutdown .handler] ∧
    (lineReads (throwsAtSecond true) { conn := {} } [bytes "a\na\nb\n"]).effects ≠
      (messagesOf (bytes "a\na\nb\n")).map .message := by
  refine ⟨?_,by decide,by decide⟩
  rintro handler ⟨⟩ log line
  rfl

end EpollConnection
end ModernTcp
