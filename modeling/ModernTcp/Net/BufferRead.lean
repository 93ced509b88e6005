import ModernTcp.Lib.Loop
import ModernTcp.Net.BufferQueue

/-! # Filling the buffer from a socket

`Buffer::read_fd`. It reads until the socket has no more, or until a call returns less than half a
chunk. Less than that also comes when less was asked for: `make_space` counts the room in front of
the reader even when it does not move anything there.
-/
namespace ModernTcp.Buffer

inductive Errno
  | again | wouldBlock | intr | other (code : ℕ)
deriving DecidableEq

/-- What `::read` says: bytes, 0 at the end of the stream, 0 because none were asked for, or -1. -/
inductive ReadResult
  | bytes (data : List UInt8)
  | endOfStream
  | nothing
  | failed (errno : Errno)
deriving DecidableEq

/-- What a call for `count` bytes can say. -/
def ReadResult.Answers (count : ℕ) : ReadResult → Prop
  | .bytes data => data ≠ [] ∧ data.length ≤ count
  | .nothing => count = 0
  | .endOfStream | .failed _ => 0 < count

instance (count : ℕ) : DecidablePred (ReadResult.Answers count)
  | .bytes _ => inferInstanceAs (Decidable (_ ∧ _))
  | .nothing => inferInstanceAs (Decidable (_ = _))
  | .endOfStream | .failed _ => inferInstanceAs (Decidable (_ < _))

/-- Local variables of `read_fd`, and `errno`. -/
structure Fill where
  buffer : Buffer
  total : ℕ := 0
  errno : Option Errno := none
  savedErrno : Option Errno := none
deriving DecidableEq

/-- Bytes at `begin_write()`, and `has_written`. -/
def store (b : Buffer) (data : List UInt8) : Buffer :=
  { b with
    buffer := b.buffer.take b.writerIndex ++ data ++ b.buffer.drop (b.writerIndex + data.length)
    writerIndex := b.writerIndex + data.length }

namespace Fill

def ready (f : Fill) : Fill := { f with buffer := f.buffer.ensureWritableBytes readChunkSize }

@[simp] theorem ready_total (f : Fill) : f.ready.total = f.total := rfl

/-- The body of the loop behind the call of `::read`, with the value that is returned, if any. -/
def read (f : Fill) : ReadResult → Fill × Option ℤ
  | .failed .again => ({ f with errno := some .again },some f.total)
  | .failed .wouldBlock => ({ f with errno := some .wouldBlock },some f.total)
  | .failed .intr => ({ f with errno := some .intr },none)
  | .failed (.other code) => ({ f with errno := some (.other code), savedErrno := some (.other code) },
      some (if 0 < f.total then (f.total : ℤ) else -1))
  | .endOfStream | .nothing => (f,some f.total)
  | .bytes data =>
    let filled := { f with buffer := f.buffer.store data, total := f.total + data.length }
    (filled,if data.length < readChunkSize / 2 then some (filled.total : ℤ) else none)

end Fill

/-- `read_fd` and the results of its calls, all of them. -/
def readFd (f : Fill) : List ReadResult → Option (Fill × ℤ)
  | [] => none
  | result :: rest =>
    if result.Answers f.ready.buffer.writableBytes then
      match f.ready.read result with
      | (g,none) => readFd g rest
      | (g,some value) => if rest = [] then some (g,value) else none
    else none

/-- A socket with bytes in its queue and an open other side. -/
def socketRead (queue : List UInt8) (count : ℕ) : ReadResult :=
  if count = 0 then .nothing
  else if queue = [] then .failed .again
  else .bytes (queue.take count)

/-- `read_fd` on such a socket. -/
structure Draining where
  fill : Fill
  queue : List UInt8
  returned : Option ℤ := none

namespace Draining

def round (d : Draining) : Option Draining :=
  if d.returned.isSome then none
  else
    let count := d.fill.ready.buffer.writableBytes
    let next := d.fill.ready.read (socketRead d.queue count)
    some { fill := next.1, queue := d.queue.drop count, returned := next.2 }

def measure (d : Draining) : ℕ := if d.returned.isSome then 0 else d.queue.length + 1

def run (d : Draining) : Draining := Loop.run round measure d

end Draining

theorem copyIn_store {b : Buffer} {data : List UInt8} (h : b.writerIndex + data.length ≤ b.buffer.length) :
    b.copyIn data = some (b.store data) := by
  rw [copyIn, if_pos h]
  rfl

theorem ensureWritableBytes_wf {b : Buffer} (h : b.Wf) (len : ℕ) : (b.ensureWritableBytes len).Wf := by
  rw [ensureWritableBytes_eq]
  exact makeSpace_wf h len

theorem ensureWritableBytes_contents {b : Buffer} (h : b.Wf) (len : ℕ) :
    (b.ensureWritableBytes len).contents = b.contents := by
  rw [ensureWritableBytes_eq, makeSpace_contents h]

theorem store_spec {b : Buffer} (h : b.Wf) {data : List UInt8} (hroom : data.length ≤ b.writableBytes) :
    (b.store data).Wf ∧ (b.store data).contents = b.contents ++ data ∧
      (b.store data).buffer.length = b.buffer.length := by
  have hw := h.writer_le
  simp only [writableBytes] at hroom
  have hcopy : b.copyIn data = some (b.store data) := copyIn_store (by omega)
  refine ⟨copyIn_wf h hcopy,copyIn_contents h hcopy,?_⟩
  simp only [store, List.length_append, List.length_take, List.length_drop]
  omega

/-- The room for a chunk: it is there, it comes by compaction, by growth up to the cap, or it is
missing because the room in front of the reader was counted. -/
theorem ensureWritableBytes_cases {b : Buffer} (h : b.Wf) {c : Buffer}
    (hc : c = b.ensureWritableBytes readChunkSize) :
    (readChunkSize ≤ b.buffer.length - b.writerIndex ∧ c = b) ∨
    (b.buffer.length - b.writerIndex < readChunkSize ∧ prependThreshold ≤ b.readerIndex ∧
      c.buffer.length = b.buffer.length ∧ c.readerIndex = 0 ∧ c.writerIndex = b.writerIndex - b.readerIndex) ∨
    (b.readerIndex < prependThreshold ∧ b.buffer.length - b.writerIndex + b.readerIndex < readChunkSize ∧
      c.buffer.length = b.newSize readChunkSize ∧ c.readerIndex = b.readerIndex ∧ c.writerIndex = b.writerIndex) ∨
    (b.buffer.length - b.writerIndex < readChunkSize ∧ b.readerIndex < prependThreshold ∧
      readChunkSize ≤ b.buffer.length - b.writerIndex + b.readerIndex ∧ c = b) := by
  have hr := h.reader_le
  have hw := h.writer_le
  rw [ensureWritableBytes_eq] at hc
  subst hc
  unfold makeSpace
  by_cases hroom : readChunkSize ≤ b.writableBytes
  · left
    exact ⟨hroom,if_pos hroom⟩
  rw [if_neg hroom]
  simp only [writableBytes, not_le] at hroom
  right
  by_cases hp : prependThreshold ≤ b.readerIndex
  · left
    have hsize := compact_size b h
    have hcr : b.compact.readerIndex = 0 := by simp [compact, prependableBytes, hp]
    have hcw : b.compact.writerIndex = b.writerIndex - b.readerIndex := by
      simp [compact, prependableBytes, hp, readableBytes]
    have hgrow : b.compact.grow readChunkSize = b.compact := by
      refine if_neg ?_
      simp only [writableBytes, hsize, hcw, prependableBytes, hcr]
      have hle : readChunkSize ≤ prependThreshold := by decide
      omega
    rw [hgrow]
    exact ⟨hroom,hp,hsize,hcr,hcw⟩
  · right
    have hcompact : b.compact = b := if_neg hp
    rw [hcompact]
    simp only [not_le] at hp
    by_cases hsum : b.writableBytes + b.prependableBytes < readChunkSize
    · left
      rw [grow, if_pos hsum]
      exact ⟨hp,hsum,resize_length _ _,rfl,rfl⟩
    · right
      exact ⟨hroom,hp,not_lt.mp hsum,if_neg hsum⟩

theorem ensureWritableBytes_of_counted {b : Buffer} (h : b.Wf) (hcounted : readChunkSize ≤ b.prependableBytes)
    (hreader : b.prependableBytes < prependThreshold) : b.ensureWritableBytes readChunkSize = b := by
  simp only [prependableBytes] at hcounted hreader
  rcases ensureWritableBytes_cases h rfl with ⟨-,hsame⟩ | ⟨-,hp,-⟩ | ⟨-,hsum,-⟩ | ⟨-,-,-,hsame⟩
  · exact hsame
  · omega
  · omega
  · exact hsame

/-- Room for `len` more bytes in all rounds of `read_fd`. -/
def RoomFor (b : Buffer) (len : ℕ) : Prop :=
  len ≤ b.writableBytes ∨ prependThreshold ≤ b.prependableBytes ∨
    (b.prependableBytes < readChunkSize ∧ b.writerIndex + len ≤ maxBufferSize ∧
      (readChunkSize / 2 ≤ b.writableBytes ∨ b.writableBytes + b.prependableBytes < readChunkSize))

instance (b : Buffer) (len : ℕ) : Decidable (b.RoomFor len) := inferInstanceAs (Decidable (_ ∨ _))

private theorem sizes : prependThreshold = 4 * readChunkSize ∧ maxBufferSize = 64 * readChunkSize ∧
    initialBufferSize = 2 * readChunkSize ∧ 2 ≤ readChunkSize := by decide

theorem roomFor_of_short {b c : Buffer} (h : b.Wf) (hc : c = b.ensureWritableBytes readChunkSize) {len : ℕ}
    (hfits : b.readableBytes + len ≤ maxBufferSize) (hshort : min len c.writableBytes < readChunkSize / 2) :
    b.RoomFor len ↔ len ≤ c.writableBytes := by
  have hr := h.reader_le
  have hw := h.writer_le
  have hs := h.size_le
  have hcases := ensureWritableBytes_cases h hc
  obtain ⟨hthreshold,hmax,hinitial,hpos⟩ := sizes
  simp only [RoomFor, writableBytes, prependableBytes, readableBytes, newSize] at *
  generalize readChunkSize = chunk, prependThreshold = threshold, maxBufferSize = top, initialBufferSize = start at *
  rcases hcases with ⟨hroom,rfl⟩ | ⟨hroom,hp,hsize,hreader,hwriter⟩ | ⟨hp,hsum,hsize,hreader,hwriter⟩ |
    ⟨hroom,hp,hsum,rfl⟩
  · omega
  · omega
  · omega
  · omega

theorem roomFor_of_long {b c d : Buffer} (h : b.Wf) (hc : c = b.ensureWritableBytes readChunkSize) {len n : ℕ}
    (hfits : b.readableBytes + len ≤ maxBufferSize) (hn : n = min len c.writableBytes)
    (hlong : readChunkSize / 2 ≤ n) (hsize : d.buffer.length = c.buffer.length)
    (hreader : d.readerIndex = c.readerIndex) (hwriter : d.writerIndex = c.writerIndex + n) :
    b.RoomFor len ↔ d.RoomFor (len - n) := by
  have hr := h.reader_le
  have hw := h.writer_le
  have hs := h.size_le
  have hcases := ensureWritableBytes_cases h hc
  obtain ⟨hthreshold,hmax,hinitial,hpos⟩ := sizes
  simp only [RoomFor, writableBytes, prependableBytes, readableBytes, newSize, hsize, hreader, hwriter] at *
  generalize readChunkSize = chunk, prependThreshold = threshold, maxBufferSize = top, initialBufferSize = start at *
  rcases hcases with ⟨hroom,rfl⟩ | ⟨hroom,hp,hsize,hreader,hwriter⟩ | ⟨hp,hsum,hsize,hreader,hwriter⟩ |
    ⟨hroom,hp,hsum,rfl⟩
  · omega
  · omega
  · omega
  · omega

theorem store_nil (b : Buffer) : b.store [] = b := by
  simp [store]

namespace Draining
variable {d : Draining}

theorem round_spec (hd : d.returned = none) : ∃ t, d.round = some t ∧
    t.fill.buffer = d.fill.ready.buffer.store (d.queue.take d.fill.ready.buffer.writableBytes) ∧
    t.fill.total = d.fill.total + min d.queue.length d.fill.ready.buffer.writableBytes ∧
    t.queue = d.queue.drop d.fill.ready.buffer.writableBytes ∧
    t.returned = if min d.queue.length d.fill.ready.buffer.writableBytes < readChunkSize / 2 then
      some (t.fill.total : ℤ) else none := by
  have hhalf : 0 < readChunkSize / 2 := by decide
  refine ⟨_,by rw [round, if_neg (by simp [hd])],?_⟩
  dsimp only
  by_cases hcount : d.fill.ready.buffer.writableBytes = 0
  · simp [socketRead, hcount, Fill.read, store_nil, hhalf]
  by_cases hqueue : d.queue = []
  · simp [socketRead, hcount, hqueue, Fill.read, store_nil, hhalf]
  · simp [socketRead, hcount, hqueue, Fill.read, Nat.min_comm]

theorem returned_of_round {t : Draining} (h : d.round = some t) : d.returned = none := by
  by_contra hd
  rw [round, if_pos (Option.isSome_iff_ne_none.mpr hd)] at h
  cases h

theorem round_decreases : Loop.Decreases round measure := by
  intro d t h
  have hd := returned_of_round h
  obtain ⟨t',ht,-,-,hqueue,hreturned⟩ := round_spec hd
  obtain rfl : t = t' := Option.some.inj (h.symm.trans ht)
  have hstart : d.measure = d.queue.length + 1 := by simp [measure, hd]
  rw [hstart, measure]
  by_cases hshort : min d.queue.length d.fill.ready.buffer.writableBytes < readChunkSize / 2
  · rw [hreturned, if_pos hshort]
    simp
  · have hhalf : 0 < readChunkSize / 2 := by decide
    have hlen := congrArg List.length hqueue
    rw [List.length_drop] at hlen
    rw [hreturned, if_neg hshort]
    simp only [Option.isSome_none, Bool.false_eq_true, if_false]
    omega

/-- Nothing is lost, and the socket is empty in the end if and only if there was room for it. -/
theorem run_spec : d.returned = none → d.fill.buffer.Wf →
    d.fill.buffer.readableBytes + d.queue.length ≤ maxBufferSize →
    d.run.returned = some (d.run.fill.total : ℤ) ∧
      d.run.fill.buffer.contents ++ d.run.queue = d.fill.buffer.contents ++ d.queue ∧
      d.run.fill.total + d.run.queue.length = d.fill.total + d.queue.length ∧
      d.run.queue.length ≤ d.queue.length ∧
      d.fill.total + min d.queue.length d.fill.ready.buffer.writableBytes ≤ d.run.fill.total ∧
      (d.run.queue = [] ↔ d.fill.buffer.RoomFor d.queue.length) := by
  refine Loop.run_induction round_decreases (motive := fun d => d.returned = none → d.fill.buffer.Wf →
    d.fill.buffer.readableBytes + d.queue.length ≤ maxBufferSize →
    d.run.returned = some (d.run.fill.total : ℤ) ∧
      d.run.fill.buffer.contents ++ d.run.queue = d.fill.buffer.contents ++ d.queue ∧
      d.run.fill.total + d.run.queue.length = d.fill.total + d.queue.length ∧
      d.run.queue.length ≤ d.queue.length ∧
      d.fill.total + min d.queue.length d.fill.ready.buffer.writableBytes ≤ d.run.fill.total ∧
      (d.run.queue = [] ↔ d.fill.buffer.RoomFor d.queue.length)) ?_ ?_ d
  · intro d hnone hd
    obtain ⟨t,ht,-⟩ := round_spec hd
    rw [ht] at hnone
    cases hnone
  · intro d t hround ih hd hwf hfits
    obtain ⟨t',ht,hbuffer,htotal,hqueue,hreturned⟩ := round_spec hd
    obtain rfl : t = t' := Option.some.inj (hround.symm.trans ht)
    have hrun : d.run = t.run := Loop.run_of_some round_decreases hround
    have hready : d.fill.ready.buffer.Wf := ensureWritableBytes_wf hwf readChunkSize
    have hkeep : d.fill.ready.buffer.contents = d.fill.buffer.contents := ensureWritableBytes_contents hwf readChunkSize
    have hdata : (d.queue.take d.fill.ready.buffer.writableBytes).length =
        min d.queue.length d.fill.ready.buffer.writableBytes := by rw [List.length_take, Nat.min_comm]
    obtain ⟨hwf',hcontents,hsize⟩ := store_spec hready (show (d.queue.take d.fill.ready.buffer.writableBytes).length ≤
      d.fill.ready.buffer.writableBytes by omega)
    rw [← hbuffer] at hwf' hcontents hsize
    have hmoved : t.fill.buffer.contents ++ t.queue = d.fill.buffer.contents ++ d.queue := by
      rw [hcontents, hqueue, hkeep, List.append_assoc, List.take_append_drop]
    have hlen : t.queue.length = d.queue.length - min d.queue.length d.fill.ready.buffer.writableBytes := by
      rw [hqueue, List.length_drop]
      omega
    rw [hrun]
    by_cases hshort : min d.queue.length d.fill.ready.buffer.writableBytes < readChunkSize / 2
    · rw [if_pos hshort] at hreturned
      have hlast : t.run = t := Loop.run_of_none (by rw [round, if_pos (by simp [hreturned])])
      rw [hlast, roomFor_of_short hwf rfl hfits hshort, ← List.length_eq_zero_iff]
      refine ⟨hreturned,hmoved,by omega,by omega,by omega,?_⟩
      change t.queue.length = 0 ↔ d.queue.length ≤ d.fill.ready.buffer.writableBytes
      omega
    · rw [if_neg hshort] at hreturned
      have hroom : d.fill.buffer.RoomFor d.queue.length ↔ t.fill.buffer.RoomFor t.queue.length := by
        rw [hlen]
        refine roomFor_of_long hwf rfl hfits rfl (not_lt.mp hshort) hsize ?_ ?_
        · rw [hbuffer]
          rfl
        · rw [hbuffer, store, hdata]
          rfl
      have hread : t.fill.buffer.readableBytes + t.queue.length ≤ maxBufferSize := by
        have hbytes := congrArg List.length hmoved
        rw [List.length_append, List.length_append, hwf'.contents_length, hwf.contents_length] at hbytes
        omega
      obtain ⟨hvalue,hall,hsum,hle,-,hempty⟩ := ih hreturned hwf' hread
      exact ⟨hvalue,hall.trans hmoved,by omega,by omega,by omega,hempty.trans hroom.symm⟩

end Draining

/-- `read_fd` with the bytes that wait in the socket. -/
def readSocket (b : Buffer) (queue : List UInt8) : Draining := Draining.run { fill := { buffer := b }, queue }

/-- Everything that waited is in the buffer, behind what was there. -/
def Drains (b : Buffer) (queue : List UInt8) : Prop :=
  (readSocket b queue).queue = [] ∧ (readSocket b queue).fill.buffer.contents = b.contents ++ queue

/-- The bytes the first call of `::read` asks for. -/
def firstOffer (b : Buffer) : ℕ := (b.ensureWritableBytes readChunkSize).writableBytes

theorem drains_iff {b : Buffer} (h : b.Wf) {queue : List UInt8}
    (hfits : b.readableBytes + queue.length ≤ maxBufferSize) : b.Drains queue ↔ b.RoomFor queue.length := by
  obtain ⟨-,hmoved,-,-,-,hempty⟩ := Draining.run_spec (d := { fill := { buffer := b }, queue }) rfl h hfits
  refine Iff.trans ?_ hempty
  constructor
  · exact And.left
  · intro hnil
    refine ⟨hnil,?_⟩
    rw [hnil, List.append_nil] at hmoved
    exact hmoved

/-- The value is that of the end of a stream only if nothing waited or nothing was asked for. -/
theorem readSocket_returned {b : Buffer} (h : b.Wf) {queue : List UInt8}
    (hfits : b.readableBytes + queue.length ≤ maxBufferSize) : ∃ total : ℕ,
    (readSocket b queue).returned = some (total : ℤ) ∧ min queue.length b.firstOffer ≤ total ∧ total ≤ queue.length := by
  obtain ⟨hvalue,-,hsum,-,hfirst,-⟩ := Draining.run_spec (d := { fill := { buffer := b }, queue }) rfl h hfits
  rw [Nat.zero_add] at hfirst hsum
  exact ⟨_,hvalue,hfirst,(Nat.le_add_right _ _).trans hsum.le⟩

theorem readSocket_of_no_offer {b : Buffer} (hoffer : b.firstOffer = 0) (queue : List UInt8) :
    (readSocket b queue).returned = some 0 := by
  obtain ⟨t,ht,-,htotal,-,hreturned⟩ := Draining.round_spec (d := { fill := { buffer := b }, queue }) rfl
  have hoffer' : ({ buffer := b } : Fill).ready.buffer.writableBytes = 0 := hoffer
  rw [hoffer', Nat.min_zero] at htotal hreturned
  rw [if_pos (by decide), htotal] at hreturned
  have hrun : readSocket b queue = t.run := Loop.run_of_some Draining.round_decreases ht
  have hlast : t.run = t := Loop.run_of_none (by rw [Draining.round, if_pos (by simp [hreturned])])
  rw [hrun, hlast, hreturned]
  rfl

/-- `read_fd` empties the socket if and only if there is room for all its rounds; when it returns a
number of bytes, it may fail to do so only without that room. -/
theorem read_fd_drains_iff {b : Buffer} (h : b.Wf) {queue : List UInt8}
    (hfits : b.readableBytes + queue.length ≤ maxBufferSize) :
    ((∀ value : ℤ, (readSocket b queue).returned = some value → 0 < value → b.Drains queue) ↔
        b.RoomFor queue.length ∨ b.firstOffer = 0) ∧
      (b.Drains queue ↔ b.RoomFor queue.length) := by
  have hdrains := drains_iff h hfits
  refine ⟨?_,hdrains⟩
  obtain ⟨total,hvalue,hfirst,hle⟩ := readSocket_returned h hfits
  rw [← hdrains]
  constructor
  · intro hall
    by_cases hpos : 0 < total
    · left
      exact hall total hvalue (by exact_mod_cast hpos)
    · -- nothing was read: nothing waited, or nothing was asked for
      have hzero : queue.length = 0 ∨ b.firstOffer = 0 := by omega
      refine hzero.imp_left ?_
      intro hnil
      rw [hdrains, RoomFor, hnil]
      exact Or.inl (Nat.zero_le _)
  · rintro (hdone | hoffer) value hreturned hpos
    · exact hdone
    · rw [readSocket_of_no_offer hoffer] at hreturned
      cases hreturned
      exact absurd hpos (lt_irrefl 0)

theorem new_writableBytes : new.writableBytes = initialBufferSize := BufferQueue.fresh_writable initialBufferSize

theorem read_fd_drains_fresh : new.Drains [71,69,84] := by
  have hroom : RoomFor new [(71 : UInt8),69,84].length := by
    left
    rw [new_writableBytes]
    decide
  have hfits : new.readableBytes + [(71 : UInt8),69,84].length ≤ maxBufferSize := by
    rw [show new.readableBytes = 0 from rfl]
    decide
  exact (read_fd_drains_iff new_wf hfits).2.mpr hroom

/-- A vector of `n` bytes with `m` of them written and `reader` read. -/
private def half (n m reader : ℕ) : Buffer := ⟨List.replicate m 1 ++ List.replicate (n - m) 0,reader,m⟩

private theorem half_spec {n m r : ℕ} (hm : m ≤ n) (hr : r ≤ m) (hn : n ≤ maxBufferSize) :
    (half n m r).Wf ∧ (half n m r).readableBytes = m - r ∧ (half n m r).writableBytes = n - m ∧
      (half n m r).prependableBytes = r := by
  have hlen : (half n m r).buffer.length = n := by
    simp only [half, List.length_append, List.length_replicate]
    omega
  refine ⟨⟨hr,?_,?_⟩,rfl,?_,rfl⟩
  · rw [hlen]
    exact hm
  · rw [hlen]
    exact hn
  · rw [writableBytes, hlen]
    rfl

private theorem append_half {n m : ℕ} (h : m ≤ n) :
    BufferQueue.step ⟨List.replicate n 0,0,0⟩ (.append (List.replicate m 1)) = some (half n m 0) := by
  have hroom : ¬ writableBytes ⟨List.replicate n 0,0,0⟩ < m := by simp [writableBytes, h]
  simp [BufferQueue.step_append, Buffer.append, ensureWritableBytes, copyIn, hroom, h, half]

private theorem retrieve_half {n m len : ℕ} (h : len < m) :
    BufferQueue.step (half n m 0) (.retrieve len) = some (half n m len) := by
  have hlt : len < (half n m 0).readableBytes := h
  rw [BufferQueue.step, BufferQueue.call, Option.map_some, Buffer.retrieve, if_pos hlt]
  simp [half]

/-- 100 bytes of room behind the writer, and a chunk of it in front of the reader. -/
theorem read_fd_stranded : ∃ (ops : List BufferQueue.Op) (b : Buffer) (queue : List UInt8) (value : ℤ),
    Execution.exec BufferQueue.step new ops = some b ∧ b.readableBytes < maxBufferSize - readChunkSize ∧
      b.readableBytes + queue.length ≤ maxBufferSize ∧
      (readSocket b queue).returned = some value ∧ 0 < value ∧ ¬ b.Drains queue := by
  obtain ⟨hwf,hread,hwrite,hpre⟩ := half_spec (n := initialBufferSize) (m := initialBufferSize - 100)
    (r := readChunkSize) (by decide) (by decide) (by decide)
  have hfits : (half initialBufferSize (initialBufferSize - 100) readChunkSize).readableBytes +
      (List.replicate 101 (0 : UInt8)).length ≤ maxBufferSize := by
    rw [hread, List.length_replicate]
    decide
  obtain ⟨total,hvalue,hfirst,-⟩ := readSocket_returned hwf hfits
  refine ⟨[.append (List.replicate (initialBufferSize - 100) 1),.retrieve readChunkSize],_,List.replicate 101 0,total,
    ?_,?_,hfits,hvalue,?_,?_⟩
  · have hfill := append_half (n := initialBufferSize) (m := initialBufferSize - 100) (by decide)
    have hretrieve : BufferQueue.step (half initialBufferSize (initialBufferSize - 100) 0) (.retrieve readChunkSize) =
        some (half initialBufferSize (initialBufferSize - 100) readChunkSize) := retrieve_half (by decide)
    exact Execution.exec_cons_eq_some.mpr ⟨_,hfill,Execution.exec_cons_eq_some.mpr ⟨_,hretrieve,rfl⟩⟩
  · rw [hread]
    decide
  · -- nothing is moved or added, so the first call asks for the 100 bytes
    have hoffer : firstOffer (half initialBufferSize (initialBufferSize - 100) readChunkSize) = 100 := by
      rw [firstOffer, ensureWritableBytes_of_counted hwf hpre.ge, hwrite]
      · decide
      · rw [hpre]
        decide
    rw [hoffer, List.length_replicate] at hfirst
    omega
  · rw [drains_iff hwf hfits, RoomFor, hwrite, hpre, List.length_replicate]
    decide

end ModernTcp.Buffer
