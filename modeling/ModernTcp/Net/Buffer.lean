import Mathlib.Tactic
import ModernTcp.Common.Config

/-! # The connection buffer

`Buffer` of `buffer_utils.h`: one vector and two indices. Storage is modelled down to
its bytes, because compaction moves them and because an append that does not fit
writes past the vector; such an append has no defined result here.
-/
namespace ModernTcp

structure Buffer where
  buffer : List UInt8
  readerIndex : ℕ
  writerIndex : ℕ
deriving DecidableEq

namespace Buffer

def new : Buffer := ⟨List.replicate initialBufferSize 0,0,0⟩

def readableBytes (b : Buffer) : ℕ := b.writerIndex - b.readerIndex
def writableBytes (b : Buffer) : ℕ := b.buffer.length - b.writerIndex
def prependableBytes (b : Buffer) : ℕ := b.readerIndex

/-- `len` bytes of storage from `peek()` on. -/
def peekView (b : Buffer) (len : ℕ) : List UInt8 := (b.buffer.drop b.readerIndex).take len

/-- The unread bytes, from `peek()` to `begin_write()`. -/
def contents (b : Buffer) : List UInt8 := b.peekView b.readableBytes

def retrieveAll (b : Buffer) : Buffer := { b with readerIndex := 0, writerIndex := 0 }

def retrieve (b : Buffer) (len : ℕ) : Buffer :=
  if len < b.readableBytes then { b with readerIndex := b.readerIndex + len } else b.retrieveAll

/-- `end` is a pointer into the storage, as its distance from `begin()`. -/
def retrieveUntil (b : Buffer) (end' : ℕ) : Buffer := b.retrieve (end' - b.readerIndex)

def retrieveAsString (b : Buffer) (len : ℕ) : List UInt8 × Buffer := (b.peekView len,b.retrieve len)

/-- `std::vector::resize`: cut, or fill up with zero bytes. -/
def resize (v : List UInt8) (n : ℕ) : List UInt8 := v.take n ++ List.replicate (n - v.length) 0

def prependThreshold : ℕ := 256 * 1024

/-- The first half of `make_space`: `memmove` the unread bytes to the front. -/
def compact (b : Buffer) : Buffer :=
  if prependThreshold ≤ b.prependableBytes then
    { buffer := if 0 < b.readableBytes then b.contents ++ b.buffer.drop b.readableBytes else b.buffer
      readerIndex := 0
      writerIndex := b.readableBytes }
  else b

def newSize (b : Buffer) (len : ℕ) : ℕ :=
  min (max (b.buffer.length * 3 / 2 + len) (initialBufferSize * 2)) maxBufferSize

/-- The second half of `make_space`. The test adds the room in front of the reader
even when nothing was moved there. -/
def grow (b : Buffer) (len : ℕ) : Buffer :=
  if b.writableBytes + b.prependableBytes < len then
    { b with buffer := resize b.buffer (b.newSize len) }
  else b

def makeSpace (b : Buffer) (len : ℕ) : Buffer :=
  if len ≤ b.writableBytes then b else b.compact.grow len

def ensureWritableBytes (b : Buffer) (len : ℕ) : Buffer :=
  if b.writableBytes < len then b.makeSpace len else b

/-- `copy_n` to `begin_write()` and advance the writer; `none` when the copy leaves
the vector. -/
def copyIn (b : Buffer) (data : List UInt8) : Option Buffer :=
  if b.writerIndex + data.length ≤ b.buffer.length then
    some { b with
      buffer := b.buffer.take b.writerIndex ++ data ++ b.buffer.drop (b.writerIndex + data.length)
      writerIndex := b.writerIndex + data.length }
  else none

def append (b : Buffer) (data : List UInt8) : Option Buffer :=
  (b.ensureWritableBytes data.length).copyIn data

/-- `shrink_to_fit` gives back capacity only: size and elements stay. -/
def shrinkToFit (v : List UInt8) : List UInt8 := v

def shrinkIfNeeded (b : Buffer) : Buffer :=
  if highWaterMark < b.buffer.length ∧ b.readableBytes < lowWaterMark then
    { b with buffer := shrinkToFit b.buffer }
  else b

/-- The index invariant of the class. -/
structure Wf (b : Buffer) : Prop where
  reader_le : b.readerIndex ≤ b.writerIndex
  writer_le : b.writerIndex ≤ b.buffer.length
  size_le : b.buffer.length ≤ maxBufferSize

theorem new_wf : new.Wf := by
  refine ⟨le_rfl,Nat.zero_le _,?_⟩
  rw [new, List.length_replicate]
  decide

@[simp] theorem new_contents : new.contents = [] := rfl

@[simp] theorem retrieveAll_contents (b : Buffer) : b.retrieveAll.contents = [] := by
  simp [contents, peekView, readableBytes, retrieveAll]

@[simp] theorem shrinkIfNeeded_eq (b : Buffer) : b.shrinkIfNeeded = b := by
  simp [shrinkIfNeeded, shrinkToFit]

/-- Retrieving moves the indices only. -/
@[simp] theorem retrieve_buffer (b : Buffer) (len : ℕ) : (b.retrieve len).buffer = b.buffer := by
  unfold retrieve
  split <;> rfl

namespace Wf
variable {b : Buffer}

theorem contents_length (h : b.Wf) : b.contents.length = b.readableBytes := by
  have hr := h.reader_le
  have hw := h.writer_le
  simp only [contents, peekView, readableBytes, List.length_take, List.length_drop]
  omega

/-- The unread bytes and what is behind them in the storage. -/
theorem drop_readerIndex (h : b.Wf) : b.buffer.drop b.readerIndex = b.contents ++ b.buffer.drop b.writerIndex := by
  have hr := h.reader_le
  have hsplit := List.take_append_drop b.readableBytes (b.buffer.drop b.readerIndex)
  rw [List.drop_drop, readableBytes, Nat.add_sub_cancel' hr] at hsplit
  exact hsplit.symm

theorem retrieveAll (h : b.Wf) : b.retrieveAll.Wf := ⟨le_rfl,Nat.zero_le _,h.size_le⟩

theorem retrieve (h : b.Wf) (len : ℕ) : (b.retrieve len).Wf := by
  unfold Buffer.retrieve
  split
  · rename_i hlt
    simp only [readableBytes] at hlt
    exact ⟨by dsimp only; omega,h.writer_le,h.size_le⟩
  · exact h.retrieveAll

/-- The two branches of `retrieve` are one drop of the queue. -/
theorem retrieve_contents (h : b.Wf) (len : ℕ) : (b.retrieve len).contents = b.contents.drop len := by
  have hl := h.contents_length
  unfold Buffer.retrieve
  split
  · simp only [contents, peekView, readableBytes, List.drop_take, List.drop_drop]
    congr 1
    omega
  · rename_i hge
    rw [retrieveAll_contents, List.drop_eq_nil_of_le (by omega)]

end Wf

/-- A string of at most the unread length is the front of the queue. -/
theorem peekView_eq {b : Buffer} {len : ℕ} (hlen : len ≤ b.readableBytes) :
    b.peekView len = b.contents.take len := by
  rw [contents, peekView, peekView, List.take_take, Nat.min_eq_left hlen]

theorem compact_size (b : Buffer) (h : b.Wf) : b.compact.buffer.length = b.buffer.length := by
  have hl := h.contents_length
  have hr := h.reader_le
  have hw := h.writer_le
  unfold compact
  split
  · dsimp only
    split
    · simp only [List.length_append, List.length_drop, hl, readableBytes]
      omega
    · rfl
  · rfl

theorem compact_wf {b : Buffer} (h : b.Wf) : b.compact.Wf := by
  have hs := compact_size b h
  have hr := h.reader_le
  have hw := h.writer_le
  refine ⟨?_,?_,hs.symm ▸ h.size_le⟩
  · unfold compact
    split
    · exact Nat.zero_le _
    · exact hr
  · rw [hs]
    unfold compact
    split
    · simp only [readableBytes]
      omega
    · exact hw

theorem compact_contents {b : Buffer} (h : b.Wf) : b.compact.contents = b.contents := by
  have hl := h.contents_length
  unfold compact
  split
  · by_cases hr : 0 < b.readableBytes
    · rw [if_pos hr]
      conv_lhs => rw [contents, peekView]
      have hread : readableBytes ⟨b.contents ++ b.buffer.drop b.readableBytes,0,b.readableBytes⟩ =
          b.contents.length := by simp [readableBytes, hl]
      rw [hread]
      simp
    · have hz : b.readableBytes = 0 := by omega
      rw [if_neg hr, hz]
      simp only [contents, peekView, readableBytes, Nat.sub_zero, List.take_zero]
      rw [show b.writerIndex - b.readerIndex = 0 from hz, List.take_zero]
  · rfl

theorem resize_length (v : List UInt8) (n : ℕ) : (resize v n).length = n := by
  simp only [resize, List.length_append, List.length_take, List.length_replicate]
  omega

theorem resize_of_le {v : List UInt8} {n : ℕ} (h : v.length ≤ n) :
    resize v n = v ++ List.replicate (n - v.length) 0 := by
  rw [resize, List.take_of_length_le h]

/-- Growth never shrinks the vector, and stops at the cap. -/
theorem newSize_bounds {b : Buffer} (h : b.Wf) (len : ℕ) :
    b.buffer.length ≤ b.newSize len ∧ b.newSize len ≤ maxBufferSize := by
  have hs := h.size_le
  unfold newSize
  omega

theorem grow_wf {b : Buffer} (h : b.Wf) (len : ℕ) : (b.grow len).Wf := by
  unfold grow
  split
  · obtain ⟨hlo,hhi⟩ := newSize_bounds h len
    refine ⟨h.reader_le,?_,?_⟩
    · rw [resize_length]
      exact h.writer_le.trans hlo
    · rw [resize_length]
      exact hhi
  · exact h

theorem grow_contents {b : Buffer} (h : b.Wf) (len : ℕ) : (b.grow len).contents = b.contents := by
  unfold grow
  split
  · have hr := h.reader_le
    have hw := h.writer_le
    simp only [contents, peekView, readableBytes]
    rw [resize_of_le (newSize_bounds h len).1, List.drop_append_of_le_length (by omega),
      List.take_append_of_le_length (by rw [List.length_drop]; omega)]
  · rfl

theorem makeSpace_wf {b : Buffer} (h : b.Wf) (len : ℕ) : (b.makeSpace len).Wf := by
  unfold makeSpace
  split
  · exact h
  · exact grow_wf (compact_wf h) len

theorem makeSpace_contents {b : Buffer} (h : b.Wf) (len : ℕ) :
    (b.makeSpace len).contents = b.contents := by
  unfold makeSpace
  split
  · rfl
  · rw [grow_contents (compact_wf h), compact_contents h]

/-- The storage is never cut. -/
theorem makeSpace_size {b : Buffer} (h : b.Wf) (len : ℕ) : b.buffer.length ≤ (b.makeSpace len).buffer.length := by
  unfold makeSpace
  split
  · exact le_rfl
  · rw [← compact_size b h, grow]
    split
    · rw [resize_length]
      exact (newSize_bounds (compact_wf h) len).1
    · exact le_rfl

/-- `append` passes the length on twice; the guard of `ensure_writable_bytes` repeats
the first test of `make_space`. -/
theorem ensureWritableBytes_eq (b : Buffer) (len : ℕ) : b.ensureWritableBytes len = b.makeSpace len := by
  unfold ensureWritableBytes makeSpace
  split
  · rfl
  · rw [if_pos (by omega)]

theorem copyIn_eq_some {b b' : Buffer} {data : List UInt8} (h : b.copyIn data = some b') :
    b.writerIndex + data.length ≤ b.buffer.length ∧
      b'.readerIndex = b.readerIndex ∧ b'.writerIndex = b.writerIndex + data.length ∧
      b'.buffer = b.buffer.take b.writerIndex ++ data ++
        b.buffer.drop (b.writerIndex + data.length) := by
  unfold copyIn at h
  split at h
  · cases h
    exact ⟨by assumption,rfl,rfl,rfl⟩
  · cases h

theorem copyIn_wf {b b' : Buffer} {data : List UInt8} (hb : b.Wf) (h : b.copyIn data = some b') :
    b'.Wf := by
  obtain ⟨hfit,hr,hw,hbuf⟩ := copyIn_eq_some h
  have hread := hb.reader_le
  have hsize := hb.size_le
  have hlen : b'.buffer.length = b.buffer.length := by
    rw [hbuf]
    simp only [List.length_append, List.length_take, List.length_drop]
    omega
  exact ⟨by omega,by omega,by omega⟩

theorem copyIn_contents {b b' : Buffer} {data : List UInt8} (hb : b.Wf)
    (h : b.copyIn data = some b') : b'.contents = b.contents ++ data := by
  obtain ⟨hfit,hr,hw,hbuf⟩ := copyIn_eq_some h
  have hread := hb.reader_le
  have hwrite := hb.writer_le
  have hlen : (b.buffer.take b.writerIndex).length = b.writerIndex := by
    rw [List.length_take]
    omega
  simp only [contents, peekView, readableBytes, hr, hw, hbuf]
  rw [List.append_assoc, List.drop_append_of_le_length (by omega), List.take_append,
    List.drop_take, List.take_take, List.length_take, List.length_drop]
  congr 1
  · congr 1
    omega
  · rw [List.take_append_of_le_length (by omega)]
    exact List.take_of_length_le (by omega)

end Buffer
end ModernTcp
