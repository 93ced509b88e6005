import ModernTcp.Net.Buffer

/-! # `make_space` in machine words

The indices and sizes of a `Buffer` are `size_t`. Its arithmetic is exact while the indices are in order and
the storage is within `MAX_BUFFER_SIZE`, so that `make_space` does what it does on natural numbers.
-/
namespace ModernTcp

structure WordBuffer where
  buffer : List UInt8
  readerIndex : UInt64
  writerIndex : UInt64
deriving DecidableEq

namespace WordBuffer

def size (b : WordBuffer) : UInt64 := .ofNat b.buffer.length
def readableBytes (b : WordBuffer) : UInt64 := b.writerIndex - b.readerIndex
def writableBytes (b : WordBuffer) : UInt64 := b.size - b.writerIndex
def prependableBytes (b : WordBuffer) : UInt64 := b.readerIndex

/-- The unread bytes, from `peek()` to `begin_write()`. -/
def contents (b : WordBuffer) : List UInt8 := (b.buffer.drop b.readerIndex.toNat).take b.readableBytes.toNat

/-- The first half of `make_space`. -/
def compact (b : WordBuffer) : WordBuffer :=
  if 256 * 1024 ≤ b.prependableBytes then
    { buffer := if 0 < b.readableBytes then b.contents ++ b.buffer.drop b.readableBytes.toNat else b.buffer
      readerIndex := 0
      writerIndex := b.readableBytes }
  else b

def newSize (b : WordBuffer) (len : UInt64) : UInt64 :=
  min (max (b.size * 3 / 2 + len) (.ofNat initialBufferSize * 2)) (.ofNat maxBufferSize)

/-- The second half. -/
def grow (b : WordBuffer) (len : UInt64) : WordBuffer :=
  if b.writableBytes + b.prependableBytes < len then
    { b with buffer := Buffer.resize b.buffer (b.newSize len).toNat }
  else b

def makeSpace (b : WordBuffer) (len : UInt64) : WordBuffer :=
  if len ≤ b.writableBytes then b else b.compact.grow len

/-- The buffer with its indices as numbers. -/
def toBuffer (b : WordBuffer) : Buffer := ⟨b.buffer,b.readerIndex.toNat,b.writerIndex.toNat⟩

/-- No operation on sizes leaves 64 bits, and no difference falls below zero. -/
structure Exact (b : WordBuffer) (len : UInt64) : Prop where
  size : b.size.toNat = b.buffer.length
  readable : b.readableBytes.toNat = b.writerIndex.toNat - b.readerIndex.toNat ∧
    b.readerIndex.toNat ≤ b.writerIndex.toNat
  writable : b.writableBytes.toNat = b.buffer.length - b.writerIndex.toNat ∧
    b.writerIndex.toNat ≤ b.buffer.length
  room : (b.writableBytes + b.prependableBytes).toNat = b.writableBytes.toNat + b.prependableBytes.toNat
  scaled : (b.size * 3).toNat = b.buffer.length * 3
  newSize : (b.size * 3 / 2 + len).toNat = b.buffer.length * 3 / 2 + len.toNat

variable {b : WordBuffer} {len : UInt64}

theorem exact_of_wf (h : b.toBuffer.Wf) (hlen : len.toNat ≤ maxBufferSize) : b.Exact len := by
  have hmax : maxBufferSize = 4194304 := by decide
  have hreader : b.readerIndex.toNat ≤ b.writerIndex.toNat := h.reader_le
  have hwriter : b.writerIndex.toNat ≤ b.buffer.length := h.writer_le
  have hlimit : b.buffer.length ≤ maxBufferSize := h.size_le
  have hsize : b.size.toNat = b.buffer.length := UInt64.toNat_ofNat_of_lt' (show b.buffer.length < 2 ^ 64 by omega)
  have hreadable : b.readableBytes.toNat = b.writerIndex.toNat - b.readerIndex.toNat :=
    UInt64.toNat_sub_of_le _ _ (UInt64.le_iff_toNat_le.mpr hreader)
  have hwritable : b.writableBytes.toNat = b.buffer.length - b.writerIndex.toNat := by
    rw [writableBytes, UInt64.toNat_sub_of_le _ _ (UInt64.le_iff_toNat_le.mpr (hsize ▸ hwriter)), hsize]
  have hscaled : (b.size * 3).toNat = b.buffer.length * 3 := by
    rw [UInt64.toNat_mul, hsize, show UInt64.toNat 3 = 3 from rfl]
    omega
  refine ⟨hsize,⟨hreadable,hreader⟩,⟨hwritable,hwriter⟩,?_,hscaled,?_⟩
  · rw [UInt64.toNat_add, hwritable, prependableBytes]
    omega
  · rw [UInt64.toNat_add, UInt64.toNat_div, hscaled, show UInt64.toNat 2 = 2 from rfl]
    omega

theorem toBuffer_contents (h : b.toBuffer.Wf) : b.toBuffer.contents = b.contents := by
  have hreadable : b.readableBytes.toNat = b.writerIndex.toNat - b.readerIndex.toNat :=
    UInt64.toNat_sub_of_le _ _ (UInt64.le_iff_toNat_le.mpr h.reader_le)
  rw [contents, hreadable]
  rfl

theorem compact_toBuffer (h : b.toBuffer.Wf) : b.compact.toBuffer = b.toBuffer.compact := by
  have hreadable : b.readableBytes.toNat = b.toBuffer.readableBytes :=
    UInt64.toNat_sub_of_le _ _ (UInt64.le_iff_toNat_le.mpr h.reader_le)
  have hthreshold : 256 * 1024 ≤ b.prependableBytes ↔ Buffer.prependThreshold ≤ b.toBuffer.prependableBytes :=
    UInt64.le_iff_toNat_le
  have hsome : 0 < b.readableBytes ↔ 0 < b.toBuffer.readableBytes := by
    rw [UInt64.lt_iff_toNat_lt, hreadable]
    rfl
  unfold compact Buffer.compact
  simp only [hthreshold, hsome]
  split_ifs
  · rw [toBuffer, hreadable, toBuffer_contents h]
    rfl
  · rw [toBuffer, hreadable]
    rfl
  · rfl

theorem toNat_max (x y : UInt64) : (max x y).toNat = max x.toNat y.toNat := by
  rw [show max x y = if x ≤ y then y else x from rfl]
  split_ifs with h
  · exact (max_eq_right (UInt64.le_iff_toNat_le.mp h)).symm
  · rw [UInt64.le_iff_toNat_le] at h
    exact (max_eq_left (not_le.mp h).le).symm

theorem toNat_min (x y : UInt64) : (min x y).toNat = min x.toNat y.toNat := by
  rw [show min x y = if x ≤ y then x else y from rfl]
  split_ifs with h
  · exact (min_eq_left (UInt64.le_iff_toNat_le.mp h)).symm
  · rw [UInt64.le_iff_toNat_le] at h
    exact (min_eq_right (not_le.mp h).le).symm

theorem newSize_toNat (h : b.toBuffer.Wf) (hlen : len.toNat ≤ maxBufferSize) :
    (b.newSize len).toNat = b.toBuffer.newSize len.toNat := by
  have hexact := exact_of_wf h hlen
  rw [newSize, toNat_min, toNat_max, hexact.newSize]
  rfl

theorem grow_toBuffer (h : b.toBuffer.Wf) (hlen : len.toNat ≤ maxBufferSize) :
    (b.grow len).toBuffer = b.toBuffer.grow len.toNat := by
  have hexact := exact_of_wf h hlen
  have hroom : b.writableBytes + b.prependableBytes < len ↔
      b.toBuffer.writableBytes + b.toBuffer.prependableBytes < len.toNat := by
    rw [UInt64.lt_iff_toNat_lt, hexact.room, hexact.writable.1]
    rfl
  unfold grow Buffer.grow
  simp only [hroom]
  split_ifs
  · rw [toBuffer, newSize_toNat h hlen]
    rfl
  · rfl

theorem makeSpace_toBuffer (h : b.toBuffer.Wf) (hlen : len.toNat ≤ maxBufferSize) :
    (b.makeSpace len).toBuffer = b.toBuffer.makeSpace len.toNat := by
  have hexact := exact_of_wf h hlen
  have hfits : len ≤ b.writableBytes ↔ len.toNat ≤ b.toBuffer.writableBytes := by
    rw [UInt64.le_iff_toNat_le, hexact.writable.1]
    rfl
  have hcompact := compact_toBuffer h
  unfold makeSpace Buffer.makeSpace
  simp only [hfits]
  split_ifs
  · rfl
  · rw [grow_toBuffer (hcompact ▸ Buffer.compact_wf h) hlen, hcompact]

/-- `make_space` keeps the unread bytes and the order of the indices, and the storage grows up to the cap; none
of its sizes wraps, before the storage is compacted and behind it. -/
theorem make_space_keeps (hreader : b.readerIndex ≤ b.writerIndex) (hwriter : b.writerIndex.toNat ≤ b.buffer.length)
    (hsize : b.buffer.length ≤ maxBufferSize) (hlen : len.toNat ≤ maxBufferSize) :
    (b.makeSpace len).contents = b.contents ∧
    (b.makeSpace len).readerIndex ≤ (b.makeSpace len).writerIndex ∧
    (b.makeSpace len).writerIndex.toNat ≤ (b.makeSpace len).buffer.length ∧
    b.buffer.length ≤ (b.makeSpace len).buffer.length ∧
    (b.makeSpace len).buffer.length ≤ maxBufferSize ∧
    b.Exact len ∧ b.compact.Exact len ∧ (b.makeSpace len).toBuffer = b.toBuffer.makeSpace len.toNat := by
  have hwf : b.toBuffer.Wf := ⟨UInt64.le_iff_toNat_le.mp hreader,hwriter,hsize⟩
  have hmade := makeSpace_toBuffer hwf hlen
  have hmadeWf : (b.makeSpace len).toBuffer.Wf := hmade ▸ Buffer.makeSpace_wf hwf len.toNat
  have hcompactWf : b.compact.toBuffer.Wf := compact_toBuffer hwf ▸ Buffer.compact_wf hwf
  have hcontents : (b.makeSpace len).contents = b.contents := by
    rw [← toBuffer_contents hmadeWf, ← toBuffer_contents hwf, hmade, Buffer.makeSpace_contents hwf]
  have hgrows : b.buffer.length ≤ (b.makeSpace len).toBuffer.buffer.length := by
    rw [hmade]
    exact Buffer.makeSpace_size hwf len.toNat
  exact ⟨hcontents,UInt64.le_iff_toNat_le.mpr hmadeWf.reader_le,hmadeWf.writer_le,hgrows,hmadeWf.size_le,
    exact_of_wf hwf hlen,exact_of_wf hcompactWf hlen,hmade⟩

/-- A full new buffer of which all but five bytes are read, and a request for as much again. -/
theorem make_space_keeps_full :
    let b : WordBuffer := ⟨List.replicate initialBufferSize 7,131067,131072⟩
    (b.makeSpace 131072).contents = b.contents ∧ initialBufferSize ≤ (b.makeSpace 131072).buffer.length ∧
      (b.makeSpace 131072).buffer.length ≤ maxBufferSize := by
  have hkeeps := make_space_keeps (b := ⟨List.replicate initialBufferSize 7,131067,131072⟩) (by decide)
    (by rw [List.length_replicate]; decide) (by rw [List.length_replicate]; decide)
    (show UInt64.toNat 131072 ≤ maxBufferSize by decide)
  obtain ⟨hcontents,-,-,hgrows,hmax,-⟩ := hkeeps
  rw [List.length_replicate] at hgrows
  exact ⟨hcontents,hgrows,hmax⟩

end WordBuffer
end ModernTcp
