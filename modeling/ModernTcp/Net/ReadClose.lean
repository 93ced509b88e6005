import ModernTcp.Net.BufferRead
import ModernTcp.Net.EpollConnection

/-! # What `handle_read` takes for the end of the stream

`read_fd` returns 0 at the end of the stream, but also when the first call of `::read` has nothing
to read or no room to read to. `handle_read` closes the connection on 0.
-/
namespace ModernTcp
open Buffer

namespace EpollConnection

/-- The tests of `handle_read` on the value of `read_fd` and on `errno`. -/
def ClosesOn (f : Fill) (value : ℤ) : Prop :=
  (value < 0 ∧ f.errno ≠ some .again ∧ f.errno ≠ some .wouldBlock) ∨ value = 0

instance (f : Fill) (value : ℤ) : Decidable (ClosesOn f value) := inferInstanceAs (Decidable (_ ∨ _))

/-- `handle_read` from the calls of `::read` on, with the storage of `input_buffer_`. -/
def handleReadFd (h : Handlers) (c : EpollConnection) (f : Fill) (results : List ReadResult) : Option Reading :=
  if c.running = false then some { conn := c }
  else (readFd f results).map fun (g,value) =>
    if ClosesOn g value then Reading.shutdown { conn := c } .endOfStream
    else Reading.handleProtocol h { conn := { c with inputBuffer := g.buffer.contents }.protocolDetected }

end EpollConnection

namespace Buffer

/-- The peer has closed its side, or reading has failed for good. -/
def PeerGone (results : List ReadResult) : Prop :=
  .endOfStream ∈ results ∨ ∃ code, .failed (.other code) ∈ results

/-- The first call that is not interrupted finds bytes, the end of the stream or a hard error. -/
def Prompt (results : List ReadResult) : Prop :=
  ∀ result ∈ (results.dropWhile (· = .failed .intr)).head?,
    result ≠ .failed .again ∧ result ≠ .failed .wouldBlock ∧ result ≠ .nothing

instance : DecidablePred Prompt := fun _ => inferInstanceAs (Decidable (∀ _ ∈ _, _))

variable {f g : Fill} {result : ReadResult} {rest results : List ReadResult} {value : ℤ}

theorem readFd_cons (h : readFd f (result :: rest) = some (g,value)) :
    result.Answers f.ready.buffer.writableBytes ∧
      ((f.ready.read result).2 = none ∧ readFd (f.ready.read result).1 rest = some (g,value) ∨
        f.ready.read result = (g,some value) ∧ rest = []) := by
  rw [readFd] at h
  by_cases hanswers : result.Answers f.ready.buffer.writableBytes
  · rw [if_pos hanswers] at h
    refine ⟨hanswers,?_⟩
    rcases hread : f.ready.read result with ⟨t,_ | v⟩
    · rw [hread] at h
      exact Or.inl ⟨rfl,h⟩
    · rw [hread] at h
      by_cases hrest : rest = []
      · simp only [hrest, if_true] at h
        cases h
        exact Or.inr ⟨rfl,hrest⟩
      · simp only [hrest, if_false] at h
        cases h
  · rw [if_neg hanswers] at h
    cases h

def ReadResult.size : ReadResult → ℕ
  | .bytes data => data.length
  | _ => 0

theorem read_total (f : Fill) (result : ReadResult) : (f.read result).1.total = f.total + result.size := by
  cases result with
  | bytes data => rfl
  | endOfStream | nothing => rfl
  | failed errno => cases errno <;> rfl

theorem read_returned (hread : f.read result = (g,some value)) :
    value = g.total ∨ g.total = 0 ∧ value = -1 ∧
      ∃ code, result = .failed (.other code) ∧ g.errno = some (.other code) := by
  cases result with
  | bytes data =>
    by_cases hshort : data.length < readChunkSize / 2
    · simp only [Fill.read, hshort, if_true] at hread
      cases hread
      exact Or.inl rfl
    · simp only [Fill.read, hshort, if_false] at hread
      cases hread
  | endOfStream | nothing =>
    cases hread
    exact Or.inl rfl
  | failed errno =>
    cases errno with
    | again | wouldBlock =>
      cases hread
      exact Or.inl rfl
    | intr => cases hread
    | other code =>
      cases hread
      by_cases hpos : 0 < f.total
      · rw [if_pos hpos]
        exact Or.inl rfl
      · right
        exact ⟨Nat.eq_zero_of_not_pos hpos,if_neg hpos,code,rfl,rfl⟩

theorem readFd_pos (h : readFd f (result :: rest) = some (g,value)) (hpos : 0 < f.total + result.size) : 0 < value := by
  induction rest generalizing f result with
  | nil =>
    obtain ⟨-,⟨-,hgo⟩ | ⟨hlast,-⟩⟩ := readFd_cons h
    · cases hgo
    · have htotal := read_total f.ready result
      rw [hlast, Fill.ready_total] at htotal
      dsimp only at htotal
      rcases read_returned hlast with rfl | ⟨hzero,-⟩
      · omega
      · omega
  | cons next rest ih =>
    obtain ⟨-,⟨-,hgo⟩ | ⟨-,hnil⟩⟩ := readFd_cons h
    · refine ih hgo ?_
      rw [read_total, Fill.ready_total]
      omega
    · cases hnil

theorem readFd_nothing (hzero : f.total = 0) (hsize : result.size = 0)
    (hhard : ∀ code, result ≠ .failed (.other code)) (hlast : ∀ t : Fill, (t.read result).2 ≠ none)
    (h : readFd f (result :: rest) = some (g,value)) : value = 0 ∧ rest = [] := by
  obtain ⟨-,⟨hgo,-⟩ | ⟨hread,hrest⟩⟩ := readFd_cons h
  · exact absurd hgo (hlast _)
  · have htotal := read_total f.ready result
    rw [hread, Fill.ready_total, hzero, hsize] at htotal
    dsimp only at htotal
    rcases read_returned hread with rfl | ⟨-,-,code,hcode,-⟩
    · exact ⟨by rw [htotal]; rfl,hrest⟩
    · exact absurd hcode (hhard code)

/-- Without bytes so far, the first call that is not interrupted decides. -/
theorem readFd_first (hzero : f.total = 0) (h : readFd f results = some (g,value)) :
    (EpollConnection.ClosesOn g value → PeerGone results) ↔ Prompt results := by
  induction results generalizing f with
  | nil => cases h
  | cons result rest ih =>
    -- the connection is closed although the peer is there
    have hlost : result.size = 0 → (∀ code, result ≠ .failed (.other code)) → (∀ t : Fill, (t.read result).2 ≠ none) →
        result ≠ .endOfStream → ¬ (EpollConnection.ClosesOn g value → PeerGone (result :: rest)) := by
      intro hsize hhard hlast hend hclose
      obtain ⟨rfl,rfl⟩ := readFd_nothing hzero hsize hhard hlast h
      rcases hclose (Or.inr rfl) with hmem | ⟨code,hmem⟩
      · exact hend (List.mem_singleton.mp hmem).symm
      · exact hhard code (List.mem_singleton.mp hmem).symm
    cases result with
    | bytes data =>
      refine iff_of_true ?_ (by simp [Prompt])
      have hne := (readFd_cons h).1.1
      have hpos := readFd_pos h (Nat.add_pos_right _ (List.length_pos_iff.mpr hne))
      rintro (⟨hneg,-⟩ | hnil)
      · omega
      · omega
    | endOfStream => exact iff_of_true (fun _ => Or.inl List.mem_cons_self) (by simp [Prompt])
    | nothing => exact iff_of_false (hlost rfl (by simp) (by simp [Fill.read]) (by simp)) (by simp [Prompt])
    | failed errno =>
      cases errno with
      | intr =>
        obtain ⟨-,⟨-,hgo⟩ | ⟨hlast,-⟩⟩ := readFd_cons h
        · have hrest := ih (f := (f.ready.read (.failed .intr)).1) hzero hgo
          have hgone : PeerGone (.failed .intr :: rest) ↔ PeerGone rest := by simp [PeerGone]
          have hprompt : Prompt (.failed .intr :: rest) ↔ Prompt rest := by simp [Prompt]
          rw [hgone, hprompt]
          exact hrest
        · cases hlast
      | other code => exact iff_of_true (fun _ => Or.inr ⟨code,List.mem_cons_self⟩) (by simp [Prompt])
      | again => exact iff_of_false (hlost rfl (by simp) (by simp [Fill.read]) (by simp)) (by simp [Prompt])
      | wouldBlock => exact iff_of_false (hlost rfl (by simp) (by simp [Fill.read]) (by simp)) (by simp [Prompt])

def ReadResult.data : ReadResult → List UInt8
  | .bytes data => data
  | _ => []

def received (results : List ReadResult) : List UInt8 := results.flatMap ReadResult.data

theorem read_spec (hwf : f.buffer.Wf) (hanswers : result.Answers f.buffer.writableBytes) :
    (f.read result).1.buffer.Wf ∧ (f.read result).1.buffer.contents = f.buffer.contents ++ result.data := by
  cases result with
  | bytes data =>
    obtain ⟨hstored,hcontents,-⟩ := store_spec hwf hanswers.2
    exact ⟨hstored,hcontents⟩
  | endOfStream | nothing => exact ⟨hwf,(List.append_nil _).symm⟩
  | failed errno => cases errno <;> exact ⟨hwf,(List.append_nil _).symm⟩

theorem readFd_contents (hwf : f.buffer.Wf) (h : readFd f results = some (g,value)) :
    g.buffer.contents = f.buffer.contents ++ received results ∧ g.total = f.total + (received results).length := by
  induction results generalizing f with
  | nil => cases h
  | cons result rest ih =>
    obtain ⟨hanswers,hstep⟩ := readFd_cons h
    have hready : f.ready.buffer.Wf := ensureWritableBytes_wf hwf readChunkSize
    have hkeep : f.ready.buffer.contents = f.buffer.contents := ensureWritableBytes_contents hwf readChunkSize
    obtain ⟨hwf',hcontents⟩ := read_spec hready hanswers
    have htotal := read_total f.ready result
    have hsize : result.size = result.data.length := by cases result <;> rfl
    rw [hkeep] at hcontents
    rw [Fill.ready_total, hsize] at htotal
    rw [received, List.flatMap_cons, List.length_append]
    rcases hstep with ⟨-,hgo⟩ | ⟨hlast,rfl⟩
    · obtain ⟨hmore,hsum⟩ := ih hwf' hgo
      rw [hmore, hsum, hcontents, htotal, List.append_assoc, Nat.add_assoc]
      exact ⟨rfl,rfl⟩
    · rw [hlast] at hcontents htotal
      simpa using And.intro hcontents htotal

/-- The connection is closed if and only if nothing was read. -/
theorem closesOn_iff (hwf : f.buffer.Wf) (hzero : f.total = 0) (h : readFd f results = some (g,value)) :
    EpollConnection.ClosesOn g value ↔ received results = [] := by
  obtain ⟨-,htotal⟩ := readFd_contents hwf h
  have hend : value = g.total ∨ g.total = 0 ∧ value = -1 ∧ ∃ code, g.errno = some (.other code) := by
    clear htotal hzero hwf
    induction results generalizing f with
    | nil => cases h
    | cons result rest ih =>
      obtain ⟨-,⟨-,hgo⟩ | ⟨hlast,-⟩⟩ := readFd_cons h
      · exact ih hgo
      · rcases read_returned hlast with hvalue | ⟨hnone,hvalue,code,-,herrno⟩
        · exact Or.inl hvalue
        · exact Or.inr ⟨hnone,hvalue,code,herrno⟩
  rw [hzero, Nat.zero_add] at htotal
  rw [← List.length_eq_zero_iff, ← htotal]
  rcases hend with rfl | ⟨hnone,rfl,code,herrno⟩
  · constructor
    · rintro (⟨hneg,-⟩ | hnil)
      · omega
      · exact_mod_cast hnil
    · intro hnil
      exact Or.inr (by exact_mod_cast hnil)
  · refine iff_of_true (Or.inl ⟨by decide,?_,?_⟩) hnone
    · rw [herrno]
      simp
    · rw [herrno]
      simp

end Buffer

namespace EpollConnection
variable {h : Handlers} {c : EpollConnection} {b : Buffer} {errno : Option Errno} {results : List ReadResult} {s : Reading}

/-- `handle_read` sees the bytes of `read_fd` as one chunk. It closes only a connection whose peer is
gone if and only if the first call of `::read` that is not interrupted has something to say. -/
theorem handle_read_close_iff (hrun : c.running = true) (hwf : b.Wf) (hsame : c.inputBuffer = b.contents)
    (hread : c.handleReadFd h { buffer := b, errno } results = some s) :
    s = c.handleRead h (received results) ∧
      ∃ g value, readFd { buffer := b, errno } results = some (g,value) ∧
        ((ClosesOn g value → PeerGone results) ↔ Prompt results) := by
  rw [handleReadFd, if_neg (by rw [hrun]; decide), Option.map_eq_some_iff] at hread
  obtain ⟨⟨g,value⟩,hfd,hs⟩ := hread
  refine ⟨?_,g,value,hfd,readFd_first rfl hfd⟩
  have hclose := closesOn_iff hwf rfl hfd
  dsimp only at hs
  rw [handleRead, if_neg (by rw [hrun]; decide), ← hs]
  by_cases hnil : received results = []
  · rw [if_pos (hclose.mpr hnil), if_pos hnil]
  · rw [if_neg (fun hc => hnil (hclose.mp hc)), if_neg hnil, (readFd_contents hwf hfd).1, hsame]

theorem ready_of_room {f : Fill} (hroom : readChunkSize ≤ f.buffer.writableBytes) : f.ready = f := by
  rw [Fill.ready, ensureWritableBytes, if_neg (Nat.not_lt.mpr hroom)]

theorem readFd_last {f g : Fill} {result : ReadResult} {value : ℤ} (hroom : readChunkSize ≤ f.buffer.writableBytes)
    (hanswers : result.Answers f.buffer.writableBytes) (hlast : f.read result = (g,some value)) :
    readFd f [result] = some (g,value) := by
  rw [readFd, ready_of_room hroom]
  simp only [hanswers, if_true, hlast]

theorem readFd_interrupted {f : Fill} {rest : List ReadResult} (hroom : readChunkSize ≤ f.buffer.writableBytes) :
    readFd f (.failed .intr :: rest) = readFd { f with errno := some .intr } rest := by
  have hanswers : (ReadResult.failed .intr).Answers f.buffer.writableBytes :=
    lt_of_lt_of_le (by decide : 0 < readChunkSize) hroom
  rw [readFd, ready_of_room hroom, if_pos hanswers]
  rfl

theorem new_room : readChunkSize ≤ new.writableBytes := by
  rw [new_writableBytes]
  decide

theorem readFd_new {result : ReadResult} (hanswers : result.Answers initialBufferSize) {g : Fill} {value : ℤ}
    (hlast : ({ buffer := new, errno } : Fill).read result = (g,some value)) :
    readFd { buffer := new, errno } [result] = some (g,value) :=
  readFd_last new_room (new_writableBytes ▸ hanswers) hlast

/-- The start of a request is held, and a call is interrupted; then the peer closes. -/
theorem handle_read_close_end :
    ∃ s, ({ inputBuffer := bytes "GET" } : EpollConnection).handleReadFd Handlers.silent
        { buffer := new.store (bytes "GET") } [.failed .intr,.endOfStream] = some s ∧
      s.conn.running = false ∧ s = ({ inputBuffer := bytes "GET" } : EpollConnection).handleRead Handlers.silent [] ∧
      ∃ g value, readFd { buffer := new.store (bytes "GET") } [.failed .intr,.endOfStream] = some (g,value) ∧
        ClosesOn g value ∧ PeerGone [.failed .intr,.endOfStream] := by
  have hfits : (bytes "GET").length ≤ new.writableBytes := by
    rw [new_writableBytes]
    decide
  obtain ⟨hwf,hcontents,hsize⟩ := store_spec new_wf hfits
  have hroom : readChunkSize ≤ (new.store (bytes "GET")).writableBytes := by
    rw [writableBytes, hsize, show (new.store (bytes "GET")).writerIndex = 3 from rfl,
      show new.buffer.length = initialBufferSize from List.length_replicate]
    decide
  generalize new.store (bytes "GET") = held at hwf hcontents hroom
  let c : EpollConnection := { inputBuffer := bytes "GET" }
  have hfd : readFd { buffer := held } [.failed .intr,.endOfStream] =
      some ({ buffer := held, errno := some .intr },0) := by
    rw [readFd_interrupted hroom]
    exact readFd_last hroom (lt_of_lt_of_le (by decide) hroom) rfl
  have hread : c.handleReadFd Handlers.silent { buffer := held } [.failed .intr,.endOfStream] =
      some (Reading.shutdown { conn := c } .endOfStream) := by
    rw [handleReadFd, if_neg (by decide), hfd]
    rfl
  obtain ⟨hsame,g,value,hfd',hiff⟩ := handle_read_close_iff rfl hwf hcontents.symm hread
  obtain ⟨rfl,rfl⟩ : g = { buffer := held, errno := some .intr } ∧ value = 0 := by simpa [hfd] using hfd'.symm
  exact ⟨_,hread,rfl,hsame,_,_,hfd',Or.inr rfl,hiff.mpr (by decide) (Or.inr rfl)⟩

theorem handle_read_close_again : ∃ s, ({} : EpollConnection).handleReadFd Handlers.silent { buffer := new } [.failed .again] = some s ∧
    s.conn.running = false ∧
    ∃ g value, readFd { buffer := new } [.failed .again] = some (g,value) ∧ ClosesOn g value ∧
      ¬ PeerGone [.failed .again] := by
  have hfd : readFd { buffer := new } [.failed .again] = some ({ buffer := new, errno := some .again },0) :=
    readFd_new (by decide) rfl
  refine ⟨Reading.shutdown { conn := {} } .endOfStream,?_,rfl,_,_,hfd,Or.inr rfl,by simp [PeerGone]⟩
  rw [handleReadFd, if_neg (by decide), hfd]
  rfl

end EpollConnection

end ModernTcp
