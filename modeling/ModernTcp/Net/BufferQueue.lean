import ModernTcp.Lib.Execution
import ModernTcp.Net.Buffer

/-! # The buffer as a byte queue

Calls on a buffer are compared with the same calls on an abstract FIFO queue. The
comparison survives every call but one: an append whose room lies in front of the
reader, while too little has been read for `make_space` to compact. There the vector
is neither compacted nor grown and the copy leaves it.
-/
namespace ModernTcp.BufferQueue
open Execution Buffer

inductive Op
  | append (data : List UInt8)
  | retrieve (len : ℕ)
  | retrieveUntil (offset : ℕ)
  | retrieveAll
  | retrieveAsString (len : ℕ)
  | shrinkIfNeeded
deriving DecidableEq

/-- One call: the string it returns and the buffer afterwards. The pointer given to
`retrieve_until` is counted from `peek()`. -/
def call (b : Buffer) : Op → Option (List UInt8 × Buffer)
  | .append data => (b.append data).map (fun b' => ([],b'))
  | .retrieve len => some ([],b.retrieve len)
  | .retrieveUntil offset => some ([],b.retrieveUntil (b.readerIndex + offset))
  | .retrieveAll => some ([],b.retrieveAll)
  | .retrieveAsString len => some (b.retrieveAsString len)
  | .shrinkIfNeeded => some ([],b.shrinkIfNeeded)

def step (b : Buffer) (op : Op) : Option Buffer := (call b op).map Prod.snd

@[simp] theorem step_append (b : Buffer) (data : List UInt8) :
    step b (.append data) = b.append data := by
  simp [step, call, Function.comp_def]

def queueCall (q : List UInt8) : Op → List UInt8 × List UInt8
  | .append data => ([],q ++ data)
  | .retrieve len => ([],q.drop len)
  | .retrieveUntil offset => ([],q.drop offset)
  | .retrieveAll => ([],[])
  | .retrieveAsString len => (q.take len,q.drop len)
  | .shrinkIfNeeded => ([],q)

/-- What callers check first: `BaseConnection::send` its overflow test, and the readers
of strings that the string is there. -/
def Guarded (b : Buffer) : Op → Prop
  | .append data => b.readableBytes + data.length ≤ maxBufferSize
  | .retrieveAsString len => len ≤ b.readableBytes
  | _ => True

/-- From `b` on, no call writes outside the vector, and each keeps the index invariant,
returns what the queue returns and leaves exactly the queue's bytes unread. -/
def Tracks : Buffer → List UInt8 → List Op → Prop
  | b, q, [] => b.Wf ∧ b.contents = q
  | b, q, op :: ops => (b.Wf ∧ b.contents = q) ∧
      ∃ b', call b op = some ((queueCall q op).1,b') ∧ Tracks b' (queueCall q op).2 ops

/-- The room `make_space` really provides: behind the writer, by compaction, or by
growth within the cap. -/
def AppendFits (b : Buffer) (len : ℕ) : Prop :=
  len ≤ b.writableBytes ∨ prependThreshold ≤ b.prependableBytes ∨
    (b.writableBytes + b.prependableBytes < len ∧ b.writerIndex + len ≤ maxBufferSize)

def Fits (b : Buffer) : Op → Prop
  | .append data => AppendFits b data.length
  | _ => True

theorem makeSpace_fits_iff {b : Buffer} (h : b.Wf) {len : ℕ}
    (hg : b.readableBytes + len ≤ maxBufferSize) :
    (b.makeSpace len).writerIndex + len ≤ (b.makeSpace len).buffer.length ↔ AppendFits b len := by
  have hr := h.reader_le
  have hw := h.writer_le
  have hs := h.size_le
  unfold makeSpace AppendFits
  by_cases hroom : len ≤ b.writableBytes
  · simp only [hroom, ↓reduceIte, true_or, iff_true]
    simp only [writableBytes] at hroom
    omega
  · simp only [hroom, ↓reduceIte, false_or]
    by_cases hp : prependThreshold ≤ b.prependableBytes
    · have hcs := compact_size b h
      have hcw : b.compact.writerIndex = b.readableBytes := by simp [compact, hp]
      have hcr : b.compact.readerIndex = 0 := by simp [compact, hp]
      simp only [hp, true_or, iff_true]
      unfold grow
      split
      · dsimp only
        rw [resize_length, hcw]
        unfold newSize
        rw [hcs]
        simp only [readableBytes] at *
        omega
      · rename_i hno
        simp only [writableBytes, prependableBytes, hcs, hcw, hcr] at hno ⊢
        simp only [readableBytes] at *
        omega
    · have hc : b.compact = b := by simp [compact, hp]
      simp only [hp, false_or, hc]
      unfold grow
      split
      · rename_i hlt
        simp only [hlt, true_and]
        rw [resize_length]
        unfold newSize
        omega
      · rename_i hge
        simp only [hge, false_and, iff_false]
        simp only [writableBytes] at hroom
        omega

theorem append_isSome_iff {b : Buffer} (h : b.Wf) {data : List UInt8}
    (hg : b.readableBytes + data.length ≤ maxBufferSize) :
    (∃ b', b.append data = some b') ↔ AppendFits b data.length := by
  rw [← makeSpace_fits_iff h hg, Buffer.append, ensureWritableBytes_eq, copyIn]
  split
  · rename_i hfit
    simp [hfit]
  · rename_i hfit
    simp [hfit]

theorem append_spec {b b' : Buffer} (h : b.Wf) {data : List UInt8} (he : b.append data = some b') :
    b'.Wf ∧ b'.contents = b.contents ++ data := by
  rw [Buffer.append, ensureWritableBytes_eq] at he
  have hw := makeSpace_wf h data.length
  refine ⟨copyIn_wf hw he,?_⟩
  rw [copyIn_contents hw he, makeSpace_contents h]

theorem call_spec {b : Buffer} (h : b.Wf) {op : Op} (hg : Guarded b op) (hf : Fits b op) :
    ∃ b', call b op = some ((queueCall b.contents op).1,b') ∧ b'.Wf ∧
      b'.contents = (queueCall b.contents op).2 := by
  cases op with
  | append data =>
    obtain ⟨b',hb'⟩ := (append_isSome_iff h hg).mpr hf
    obtain ⟨hw,hc⟩ := append_spec h hb'
    exact ⟨b',by simp [call, queueCall, hb'],hw,hc⟩
  | retrieve len => exact ⟨_,rfl,h.retrieve len,h.retrieve_contents len⟩
  | retrieveUntil offset =>
    refine ⟨b.retrieve offset,?_,h.retrieve offset,h.retrieve_contents offset⟩
    simp [call, queueCall, Buffer.retrieveUntil]
  | retrieveAll => exact ⟨_,rfl,h.retrieveAll,retrieveAll_contents b⟩
  | retrieveAsString len =>
    refine ⟨b.retrieve len,?_,h.retrieve len,h.retrieve_contents len⟩
    simp only [call, queueCall, Buffer.retrieveAsString]
    rw [peekView_eq hg]
  | shrinkIfNeeded => exact ⟨b,by simp [call, queueCall],h,rfl⟩

theorem fits_of_call {b : Buffer} (h : b.Wf) {op : Op} (hg : Guarded b op)
    {r : List UInt8 × Buffer} (he : call b op = some r) : Fits b op := by
  cases op with
  | append data =>
    obtain ⟨b',hb',_⟩ := Option.map_eq_some_iff.mp he
    exact (append_isSome_iff h hg).mp ⟨b',hb'⟩
  | retrieve | retrieveUntil | retrieveAll | retrieveAsString | shrinkIfNeeded => trivial

/-- A guarded run tracks the queue exactly when every append of it finds its room. -/
theorem tracks_iff_fits {b : Buffer} (h : b.Wf) {ops : List Op} (hg : Along step Guarded b ops) :
    Tracks b b.contents ops ↔ Along step Fits b ops := by
  induction ops generalizing b with
  | nil => exact ⟨fun _ => trivial,fun _ => ⟨h,rfl⟩⟩
  | cons op ops ih =>
    obtain ⟨hop,hrest⟩ := hg
    constructor
    · rintro ⟨-,b',hb',ht⟩
      have hf := fits_of_call h hop hb'
      obtain ⟨c,hc,hw,hcont⟩ := call_spec h hop hf
      obtain rfl : b' = c := by simpa [hb'] using hc
      have hs : step b op = some b' := by simp [step, hb']
      refine ⟨hf,?_⟩
      intro t htt
      obtain rfl : b' = t := by simpa [hs] using htt
      exact (ih hw (hrest b' hs)).mp (hcont ▸ ht)
    · rintro ⟨hf,hfrest⟩
      obtain ⟨b',hb',hw,hcont⟩ := call_spec h hop hf
      have hs : step b op = some b' := by simp [step, hb']
      refine ⟨⟨h,rfl⟩,b',hb',?_⟩
      rw [← hcont]
      exact (ih hw (hrest b' hs)).mpr (hfrest b' hs)

/-- A fresh buffer refines the queue through a guarded run exactly when each append of
the run finds room behind the writer, by compaction, or by growth within the cap. -/
theorem buffer_refines_queue_iff (ops : List Op) (hg : Along step Guarded Buffer.new ops) :
    Tracks Buffer.new [] ops ↔ Along step Fits Buffer.new ops := tracks_iff_fits new_wf hg

/-- A vector of `n` zero bytes, all of it writable. Stated for any `n`: the kernel must
not unfold the vector of the real size. -/
theorem fresh_writable (n : ℕ) : writableBytes ⟨List.replicate n 0,0,0⟩ = n := by
  simp [writableBytes]

/-- One byte more than a fresh vector holds: it grows. -/
theorem buffer_refines_queue_append_read :
    Along step Guarded Buffer.new [.append (List.replicate (initialBufferSize + 1) 7),.retrieveAsString 1] ∧
      Tracks Buffer.new [] [.append (List.replicate (initialBufferSize + 1) 7),.retrieveAsString 1] := by
  have hlen : (List.replicate (initialBufferSize + 1) (7 : UInt8)).length = initialBufferSize + 1 :=
    List.length_replicate
  generalize List.replicate (initialBufferSize + 1) (7 : UInt8) = data at hlen ⊢
  have hgrows : AppendFits Buffer.new data.length := by
    refine Or.inr (Or.inr ⟨?_,?_⟩)
    · rw [show Buffer.new.writableBytes = initialBufferSize from fresh_writable _, hlen]
      exact Nat.lt_succ_self initialBufferSize
    · rw [hlen]
      exact show 0 + (initialBufferSize + 1) ≤ maxBufferSize by decide
  have hg : Along step Guarded Buffer.new [.append data,.retrieveAsString 1] := by
    refine ⟨?_,?_⟩
    · rw [Guarded, hlen]
      exact show 0 + (initialBufferSize + 1) ≤ maxBufferSize by decide
    · intro b hb
      rw [step_append] at hb
      obtain ⟨hw,hc⟩ := append_spec new_wf hb
      refine ⟨?_,fun _ _ => trivial⟩
      rw [Guarded, ← hw.contents_length, hc, new_contents, List.nil_append, hlen]
      exact Nat.le_add_left 1 initialBufferSize
  refine ⟨hg,(buffer_refines_queue_iff _ hg).mpr ⟨hgrows,?_⟩⟩
  exact fun _ _ => ⟨trivial,fun _ _ => trivial⟩

/-- A vector filled once, from which `reader` bytes are read. -/
private def filled (n reader : ℕ) : Buffer := ⟨List.replicate n 1,reader,n⟩

private theorem fill_fresh (n : ℕ) :
    step ⟨List.replicate n 0,0,0⟩ (.append (List.replicate n 1)) = some (filled n 0) := by
  simp only [step_append, Buffer.append, ensureWritableBytes, copyIn, writableBytes,
    List.length_replicate, Nat.sub_zero, lt_irrefl, ↓reduceIte, Nat.zero_add, le_refl,
    List.take_zero, List.nil_append, List.drop_replicate, Nat.sub_self,
    List.replicate_zero, List.append_nil, filled]

private theorem read_filled {n : ℕ} (h : 1 < n) :
    step (filled n 0) (.retrieve 1) = some (filled n 1) := by
  have hlt : 1 < (filled n 0).readableBytes := h
  rw [step, call, Option.map_some, Buffer.retrieve, if_pos hlt]
  rfl

private theorem filled_not_fits (n : ℕ) : ¬ Fits (filled n 1) (.append [1]) := by
  simp only [Fits, AppendFits, writableBytes, prependableBytes, filled, List.length_replicate,
    List.length_singleton, Nat.sub_self, Nat.zero_add, lt_irrefl, false_and, or_false,
    prependThreshold]
  decide

/-- Fill the fresh vector, read one byte, append one: the copy leaves the vector. -/
theorem buffer_queue_overflow :
    ¬ ∀ ops, Along step Guarded Buffer.new ops → Tracks Buffer.new [] ops := by
  intro h
  let ops : List Op := [.append (List.replicate initialBufferSize 1),.retrieve 1,.append [1]]
  have hfill := fill_fresh initialBufferSize
  have hread : step (filled initialBufferSize 0) (.retrieve 1) = some (filled initialBufferSize 1) :=
    read_filled (by decide)
  have hg : Along step Guarded Buffer.new ops := by
    refine ⟨?_,fun b hb => ⟨trivial,?_⟩⟩
    · rw [Guarded, List.length_replicate]
      change 0 + initialBufferSize ≤ maxBufferSize
      decide
    · obtain rfl := Option.some.inj (hfill.symm.trans hb)
      intro c hc
      obtain rfl := Option.some.inj (hread.symm.trans hc)
      exact ⟨show initialBufferSize - 1 + 1 ≤ maxBufferSize by decide,fun _ _ => trivial⟩
  have hf := (tracks_iff_fits new_wf hg).mp (h ops hg)
  exact filled_not_fits _ ((hf.2 _ hfill).2 _ hread).1

end ModernTcp.BufferQueue
