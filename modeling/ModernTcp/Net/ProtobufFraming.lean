import ModernTcp.Net.EpollConnection

/-! # Length-prefixed frames

The decoder of `handle_protobuf` against the frames `TcpClient::send_protobuf` writes. The
guard of four readable bytes serves the length and the payload alike, so a last payload of
one to three bytes is lost exactly when some call ends behind its length and before its end.
-/
namespace ModernTcp.EpollConnection

/-- `htonl` of a length. -/
def htonl (n : ℕ) : List UInt8 :=
  [UInt8.ofNat (n / 2 ^ 24),UInt8.ofNat (n / 2 ^ 16),UInt8.ofNat (n / 2 ^ 8),UInt8.ofNat n]

def frame (payload : List UInt8) : List UInt8 := htonl payload.length ++ payload

def frames (payloads : List (List UInt8)) : List UInt8 := payloads.flatMap frame

@[simp] theorem frames_nil : frames [] = [] := rfl

@[simp] theorem frames_cons (p : List UInt8) (ps : List (List UInt8)) :
    frames (p :: ps) = htonl p.length ++ (p ++ frames ps) := by
  simp [frames, frame]

@[simp] theorem frames_append (ps qs : List (List UInt8)) : frames (ps ++ qs) = frames ps ++ frames qs := by
  simp [frames]

@[simp] theorem htonl_length (n : ℕ) : (htonl n).length = 4 := rfl

theorem be32_htonl {n : ℕ} (hn : n < 2 ^ 32) (rest : List UInt8) : Reading.be32 (htonl n ++ rest) = n := by
  simp only [Reading.be32, htonl, List.cons_append, List.nil_append, List.take_succ_cons, List.take_zero,
    List.foldl_cons, List.foldl_nil, UInt8.toNat_ofNat']
  omega

/-- The payloads handed to `ParseFromString`. -/
def decoded (log : List Effect) : List (List UInt8) :=
  log.filterMap (fun e => match e with
    | .decode payload => some payload
    | _ => none)

theorem decoded_append (as bs : List Effect) : decoded (as ++ bs) = decoded as ++ decoded bs :=
  List.filterMap_append

/-- Append a chunk and run the decoder. -/
def feedProtobuf (c : EpollConnection) (chunk : List UInt8) : Reading :=
  Reading.handleProtobuf { conn := { c with inputBuffer := c.inputBuffer ++ chunk } }

def feedsProtobuf : EpollConnection → List (List UInt8) → EpollConnection × List Effect
  | c, [] => (c,[])
  | c, chunk :: rest =>
    let s := c.feedProtobuf chunk
    let later := feedsProtobuf s.conn rest
    (later.1,s.effects ++ later.2)

/-- Everything went to `ParseFromString`, in order and once, and nothing is left. -/
def Decodes (payloads chunks : List (List UInt8)) : Prop :=
  decoded (feedsProtobuf {} chunks).2 = payloads ∧ (feedsProtobuf {} chunks).1.inputBuffer = [] ∧
    (feedsProtobuf {} chunks).1.lengthRead = false

/-- Some call ends behind the length of a short last payload and before its end. -/
def CutsShortLast (payloads chunks : List (List UInt8)) : Prop :=
  ∃ ps p, payloads = ps ++ [p] ∧ p.length < 4 ∧ ∃ pre, pre <+: chunks ∧
    (frames ps).length + 4 ≤ pre.flatten.length ∧ pre.flatten.length < (frames payloads).length

namespace Reading

/-- A payload `p` is due and the length of it is gone from the input. -/
structure Waits (s : Reading) (p : List UInt8) (ps : List (List UInt8)) (future : List UInt8) : Prop where
  lengthRead : s.conn.lengthRead = true
  expected : s.conn.expectedLength = p.length
  stream : s.conn.inputBuffer ++ future = p ++ frames ps

/-- A length is due next. -/
structure Fresh (s : Reading) (ps : List (List UInt8)) (future : List UInt8) : Prop where
  lengthRead : s.conn.lengthRead = false
  stream : s.conn.inputBuffer ++ future = frames ps

theorem takePayload_waits {s : Reading} {p : List UInt8} {ps : List (List UInt8)} {future : List UInt8}
    (hs : s.Waits p ps future) (hstatus : s.status = .looping) :
    (p.length ≤ s.conn.inputBuffer.length ∧ s.takePayload.Fresh ps future ∧
      s.takePayload.effects = s.effects ++ [.decode p] ∧ s.takePayload.status = .looping ∧
      s.takePayload.conn.running = s.conn.running) ∨
    (s.conn.inputBuffer.length < p.length ∧ s.takePayload = s.leave .broken) := by
  have hnot : s.status ≠ .returned := by
    rw [hstatus]
    decide
  unfold takePayload
  rw [if_neg hnot, hs.expected]
  by_cases hle : p.length ≤ s.conn.inputBuffer.length
  · left
    have hpre : p <+: s.conn.inputBuffer :=
      List.prefix_of_prefix_length_le ⟨frames ps,hs.stream.symm⟩ (List.prefix_append _ _) hle
    obtain ⟨rest,hrest⟩ := hpre
    have hstream := hs.stream
    rw [← hrest, List.append_assoc, List.append_cancel_left_eq] at hstream
    rw [if_pos hle, ← hrest, List.take_left, List.drop_left]
    exact ⟨by simp,⟨rfl,hstream⟩,rfl,hstatus,rfl⟩
  · right
    rw [if_neg hle]
    exact ⟨by omega,rfl⟩

theorem readLength_fresh {s : Reading} {ps : List (List UInt8)} {future : List UInt8}
    (hs : s.Fresh ps future) (hlen : 4 ≤ s.conn.inputBuffer.length)
    (hmax : ∀ p ∈ ps, p.length ≤ maxProtobufSize) :
    ∃ p qs, ps = p :: qs ∧ s.readLength.Waits p qs future ∧ s.readLength.status = s.status ∧
      s.readLength.effects = s.effects ∧ s.readLength.conn.running = s.conn.running := by
  cases ps with
  | nil =>
    have hnil := congrArg List.length hs.stream
    simp only [frames_nil, List.length_append, List.length_nil] at hnil
    omega
  | cons p qs =>
    have hstream := hs.stream
    rw [frames_cons] at hstream
    have hpre : htonl p.length <+: s.conn.inputBuffer :=
      List.prefix_of_prefix_length_le ⟨_,hstream.symm⟩ (List.prefix_append _ _) hlen
    obtain ⟨rest,hrest⟩ := hpre
    rw [← hrest, List.append_assoc, List.append_cancel_left_eq] at hstream
    have hp := hmax p List.mem_cons_self
    have hbe : be32 s.conn.inputBuffer = p.length := by
      rw [← hrest]
      exact be32_htonl (lt_of_le_of_lt hp (by decide)) rest
    have hdrop : s.conn.inputBuffer.drop 4 = rest := by
      rw [← hrest]
      rfl
    refine ⟨p,qs,rfl,?_⟩
    unfold readLength
    rw [if_neg (by simp [hs.lengthRead])]
    dsimp only
    rw [hbe, hdrop, if_neg (by omega)]
    exact ⟨⟨rfl,rfl,hstream⟩,rfl,rfl,rfl⟩

theorem protobufRound_decreases : Loop.Decreases protobufRound protobufMeasure := by
  intro s t h
  unfold protobufRound at h
  split at h
  · cases h
  rename_i hgo
  simp only [not_or, not_not, not_lt, Bool.not_eq_false] at hgo
  obtain ⟨hstatus,hlen,-⟩ := hgo
  cases h
  have hpos : 0 < protobufMeasure s := by
    unfold protobufMeasure
    rw [if_pos hstatus]
    omega
  have htake : ∀ u : Reading, u.status = .looping → u.conn.lengthRead = true →
      u.conn.inputBuffer.length ≤ s.conn.inputBuffer.length →
      (s.conn.lengthRead = false → u.conn.inputBuffer.length < s.conn.inputBuffer.length) →
      protobufMeasure u.takePayload < protobufMeasure s := by
    intro u hu hread hle hlt
    unfold takePayload
    rw [if_neg (by rw [hu]; decide)]
    split
    · simp only [protobufMeasure, emit, hu, hstatus, if_true, List.length_drop, Bool.toNat_false]
      cases hr : s.conn.lengthRead
      · have hless := hlt hr
        simp only [Bool.toNat_false]
        omega
      · simp only [Bool.toNat_true]
        omega
    · exact hpos
  unfold readLength
  split
  · rename_i hread
    exact htake s hstatus hread le_rfl (by simp [hread])
  · dsimp only
    split
    · exact hpos
    · refine htake _ hstatus rfl ?_ ?_
      · simp
      · intro _
        simp only [List.length_drop]
        omega

end Reading

section Stream
variable (payloads pre : List (List UInt8)) (future : List UInt8)

/-- After one of the calls so far the input ended inside the payload that follows `done`. -/
def EndedInside (done : List (List UInt8)) (p : List UInt8) : Prop :=
  ∃ seen, seen <+: pre ∧ (frames done).length + 4 ≤ seen.flatten.length ∧
    seen.flatten.length < (frames done).length + 4 + p.length

/-- A state of the decoding loop, `pre` being the chunks appended and `future` the bytes to come. -/
def Inside (log : List Effect) (s : Reading) : Prop :=
  s.conn.running = true ∧ ∃ done ps, payloads = done ++ ps ∧ decoded (log ++ s.effects) = done ∧
    (s.status = .looping ∧ s.Fresh ps future ∨ ∃ p qs, ps = p :: qs ∧ s.Waits p qs future ∧
      EndedInside pre done p ∧
      (s.status = .looping ∨ s.status = .broken ∧ s.conn.inputBuffer.length < p.length))

/-- A state between two calls. -/
def Stopped (log : List Effect) (c : EpollConnection) : Prop :=
  c.running = true ∧ ∃ done ps, payloads = done ++ ps ∧ decoded log = done ∧
    (Reading.Fresh { conn := c } ps future ∧ c.inputBuffer.length < 4 ∨ ∃ p qs, ps = p :: qs ∧
      Reading.Waits { conn := c } p qs future ∧ EndedInside pre done p ∧
      (c.inputBuffer.length < 4 ∨ c.inputBuffer.length < p.length))

variable {payloads pre future}

/-- A partial payload at the end of the input is the cut that `EndedInside` reports. -/
theorem endedInside_now (htotal : pre.flatten ++ future = frames payloads) {done qs : List (List UInt8)}
    {p : List UInt8} (hsplit : payloads = done ++ p :: qs) {s : Reading} (hs : s.Waits p qs future)
    (hshort : s.conn.inputBuffer.length < p.length) : EndedInside pre done p := by
  refine ⟨pre,List.prefix_refl pre,?_⟩
  have htotal' := congrArg List.length htotal
  have hstream := congrArg List.length hs.stream
  rw [hsplit] at htotal'
  simp only [List.length_append, frames_append, frames_cons, htonl_length] at htotal' hstream
  constructor <;> omega

theorem takePayload_inside (htotal : pre.flatten ++ future = frames payloads) {log : List Effect}
    {s : Reading} {done qs : List (List UInt8)} {p : List UInt8} (hsplit : payloads = done ++ p :: qs)
    (hlog : decoded (log ++ s.effects) = done) (hrun : s.conn.running = true)
    (hstatus : s.status = .looping) (hs : s.Waits p qs future) :
    Inside payloads pre future log s.takePayload := by
  rcases Reading.takePayload_waits hs hstatus with ⟨-,hfresh,heff,hst,hr⟩ | ⟨hshort,heq⟩
  · refine ⟨hr.trans hrun,done ++ [p],qs,?_,?_,Or.inl ⟨hst,hfresh⟩⟩
    · rw [hsplit, List.append_assoc, List.singleton_append]
    · rw [heff, ← List.append_assoc, decoded_append, hlog]
      rfl
  · rw [heq]
    refine ⟨hrun,done,p :: qs,hsplit,hlog,Or.inr ⟨p,qs,rfl,⟨hs.lengthRead,hs.expected,hs.stream⟩,?_,?_⟩⟩
    · exact endedInside_now htotal hsplit hs hshort
    · exact Or.inr ⟨rfl,hshort⟩

theorem protobufRound_inside (hmax : ∀ p ∈ payloads, p.length ≤ Reading.maxProtobufSize)
    (htotal : pre.flatten ++ future = frames payloads) {log : List Effect} {s t : Reading}
    (hs : Inside payloads pre future log s) (h : s.protobufRound = some t) :
    Inside payloads pre future log t := by
  obtain ⟨hrun,done,ps,hsplit,hlog,hphase⟩ := hs
  unfold Reading.protobufRound at h
  split at h
  · cases h
  rename_i hgo
  simp only [not_or, not_not, not_lt] at hgo
  obtain ⟨hstatus,hlen,-⟩ := hgo
  cases h
  rcases hphase with ⟨-,hfresh⟩ | ⟨p,qs,rfl,hwaits,-,-⟩
  · have hps : ∀ p ∈ ps, p.length ≤ Reading.maxProtobufSize := by
      intro p hp
      exact hmax p (by rw [hsplit]; exact List.mem_append_right _ hp)
    obtain ⟨p,qs,rfl,hwaits,hst,heff,hr⟩ := Reading.readLength_fresh hfresh hlen hps
    exact takePayload_inside htotal hsplit (by rw [heff, hlog]) (hr.trans hrun) (hst.trans hstatus) hwaits
  · have hsame : s.readLength = s := by
      unfold Reading.readLength
      rw [if_pos hwaits.lengthRead]
    rw [hsame]
    exact takePayload_inside htotal hsplit hlog hrun hstatus hwaits

theorem stopped_of_inside {log : List Effect} {s : Reading} (hs : Inside payloads pre future log s)
    (h : s.protobufRound = none) : Stopped payloads pre future (log ++ s.effects) s.conn := by
  obtain ⟨hrun,done,ps,hsplit,hlog,hphase⟩ := hs
  have hexit : s.status = .looping → s.conn.inputBuffer.length < 4 := by
    intro hstatus
    by_contra hlen
    simp [Reading.protobufRound, hstatus, hrun, hlen] at h
  refine ⟨hrun,done,ps,hsplit,hlog,?_⟩
  rcases hphase with ⟨hstatus,hfresh⟩ | ⟨p,qs,rfl,hwaits,hended,hstatus | ⟨-,hshort⟩⟩
  · exact Or.inl ⟨⟨hfresh.lengthRead,hfresh.stream⟩,hexit hstatus⟩
  · exact Or.inr ⟨p,qs,rfl,⟨hwaits.lengthRead,hwaits.expected,hwaits.stream⟩,hended,Or.inl (hexit hstatus)⟩
  · exact Or.inr ⟨p,qs,rfl,⟨hwaits.lengthRead,hwaits.expected,hwaits.stream⟩,hended,Or.inr hshort⟩

theorem feedProtobuf_stopped (hmax : ∀ p ∈ payloads, p.length ≤ Reading.maxProtobufSize)
    {chunk : List UInt8} (htotal : (pre ++ [chunk]).flatten ++ future = frames payloads)
    {log : List Effect} {c : EpollConnection} (hc : Stopped payloads pre (chunk ++ future) log c) :
    Stopped payloads (pre ++ [chunk]) future (log ++ (c.feedProtobuf chunk).effects)
      (c.feedProtobuf chunk).conn := by
  obtain ⟨hrun,done,ps,hsplit,hlog,hphase⟩ := hc
  have hstart : Inside payloads (pre ++ [chunk]) future log
      { conn := { c with inputBuffer := c.inputBuffer ++ chunk } } := by
    refine ⟨hrun,done,ps,hsplit,by rw [List.append_nil, hlog],?_⟩
    rcases hphase with ⟨hfresh,-⟩ | ⟨p,qs,rfl,hwaits,⟨seen,hseen,hrange⟩,-⟩
    · refine Or.inl ⟨rfl,hfresh.lengthRead,?_⟩
      rw [List.append_assoc]
      exact hfresh.stream
    · refine Or.inr ⟨p,qs,rfl,⟨hwaits.lengthRead,hwaits.expected,?_⟩,
        ⟨seen,hseen.trans (List.prefix_append pre [chunk]),hrange⟩,Or.inl rfl⟩
      rw [List.append_assoc]
      exact hwaits.stream
  have hend := Loop.run_invariant Reading.protobufRound_decreases
    (fun s t hs ht => protobufRound_inside hmax htotal hs ht) hstart
  exact stopped_of_inside hend (Loop.body_run Reading.protobufRound_decreases _)

theorem feedsProtobuf_stopped (hmax : ∀ p ∈ payloads, p.length ≤ Reading.maxProtobufSize)
    {chunks : List (List UInt8)} (htotal : (pre ++ chunks).flatten ++ future = frames payloads)
    {log : List Effect} {c : EpollConnection}
    (hc : Stopped payloads pre (chunks.flatten ++ future) log c) :
    Stopped payloads (pre ++ chunks) future (log ++ (feedsProtobuf c chunks).2)
      (feedsProtobuf c chunks).1 := by
  induction chunks generalizing pre log c with
  | nil => simpa [feedsProtobuf] using hc
  | cons chunk rest ih =>
    have hassoc : pre ++ chunk :: rest = (pre ++ [chunk]) ++ rest := by
      rw [List.append_assoc, List.singleton_append]
    rw [hassoc] at htotal ⊢
    rw [List.flatten_cons, List.append_assoc] at hc
    have hone := feedProtobuf_stopped hmax
      (by rw [← List.append_assoc, ← List.flatten_append]; exact htotal) hc
    have hlater := ih htotal hone
    rw [List.append_assoc log] at hlater
    exact hlater

theorem new_stopped : Stopped payloads [] (frames payloads) [] {} :=
  ⟨rfl,[],payloads,rfl,rfl,Or.inl ⟨⟨rfl,rfl⟩,by simp⟩⟩

/-- At the end of the stream everything is decoded, or a short last payload waits for bytes
that no frame follows with. -/
theorem stopped_end {log : List Effect} {c : EpollConnection} (hc : Stopped payloads pre [] log c) :
    (decoded log = payloads ∧ c.inputBuffer = [] ∧ c.lengthRead = false) ∨
      CutsShortLast payloads pre := by
  obtain ⟨-,done,ps,rfl,hlog,⟨hfresh,hlen⟩ | ⟨p,qs,rfl,hwaits,⟨seen,hseen,hlo,hhi⟩,hlen⟩⟩ := hc
  · left
    have hstream := hfresh.stream
    rw [List.append_nil] at hstream
    cases ps with
    | nil => exact ⟨by rw [hlog, List.append_nil],hstream,hfresh.lengthRead⟩
    | cons p qs =>
      have hl := congrArg List.length hstream
      simp only [frames_cons, List.length_append, htonl_length] at hl
      omega
  · right
    have hl := congrArg List.length hwaits.stream
    simp only [List.append_nil, List.length_append] at hl
    cases qs with
    | nil =>
      refine ⟨done,p,rfl,?_,seen,hseen,hlo,?_⟩
      · simp only [frames_nil, List.length_nil] at hl
        omega
      · simpa [Nat.add_assoc] using hhi
    | cons q qs =>
      simp only [frames_cons, List.length_append, htonl_length] at hl
      omega

theorem feedsProtobuf_append (c : EpollConnection) (as bs : List (List UInt8)) :
    feedsProtobuf c (as ++ bs) = ((feedsProtobuf (feedsProtobuf c as).1 bs).1,
      (feedsProtobuf c as).2 ++ (feedsProtobuf (feedsProtobuf c as).1 bs).2) := by
  induction as generalizing c with
  | nil => rfl
  | cons a as ih => simp [feedsProtobuf, ih, List.append_assoc]

/-- With fewer than four bytes the loop is never entered. -/
theorem feedsProtobuf_short {c : EpollConnection} {chunks : List (List UInt8)}
    (hshort : (c.inputBuffer ++ chunks.flatten).length < 4) : (feedsProtobuf c chunks).2 = [] := by
  induction chunks generalizing c with
  | nil => rfl
  | cons chunk rest ih =>
    rw [List.flatten_cons, ← List.append_assoc, List.length_append] at hshort
    have hone : c.feedProtobuf chunk = { conn := { c with inputBuffer := c.inputBuffer ++ chunk } } := by
      apply Loop.run_of_none
      unfold Reading.protobufRound
      rw [if_pos]
      right
      left
      simp only
      omega
    have hlater := ih (c := { c with inputBuffer := c.inputBuffer ++ chunk })
      (by rw [List.length_append]; exact hshort)
    simp only [feedsProtobuf, hone, hlater, List.append_nil]

theorem fresh_position {done ps : List (List UInt8)} (htotal : pre.flatten ++ future = frames (done ++ ps))
    {s : Reading} (hs : s.Fresh ps future) :
    pre.flatten.length = (frames done).length + s.conn.inputBuffer.length := by
  have htotal' := congrArg List.length htotal
  have hstream := congrArg List.length hs.stream
  simp only [List.length_append, frames_append] at htotal' hstream
  omega

theorem waits_position {done ps : List (List UInt8)} {p : List UInt8}
    (htotal : pre.flatten ++ future = frames (done ++ p :: ps)) {s : Reading} (hs : s.Waits p ps future) :
    pre.flatten.length = (frames done).length + 4 + s.conn.inputBuffer.length := by
  have htotal' := congrArg List.length htotal
  have hstream := congrArg List.length hs.stream
  simp only [List.length_append, frames_append, frames_cons, htonl_length] at htotal' hstream
  omega

theorem not_decodes_of_cut (hmax : ∀ p ∈ payloads, p.length ≤ Reading.maxProtobufSize)
    {chunks : List (List UInt8)} (htotal : chunks.flatten = frames payloads)
    (hcut : CutsShortLast payloads chunks) : ¬ Decodes payloads chunks := by
  rintro ⟨hall,-,-⟩
  obtain ⟨ps,p,hlast,hp,seen,⟨rest,rfl⟩,hlo,hhi⟩ := hcut
  rw [List.flatten_append] at htotal
  have hmid : Stopped payloads seen rest.flatten (feedsProtobuf {} seen).2 (feedsProtobuf {} seen).1 := by
    have hs : Stopped payloads [] (seen.flatten ++ rest.flatten) [] {} := htotal ▸ new_stopped
    simpa using feedsProtobuf_stopped hmax htotal hs
  rw [feedsProtobuf_append, decoded_append] at hall
  obtain ⟨-,done,qs,rfl,hlog,hphase⟩ := hmid
  rcases List.eq_nil_or_concat qs with rfl | ⟨rs,q,rfl⟩
  · -- everything is decoded already, but bytes are missing
    rcases hphase with ⟨hfresh,-⟩ | ⟨_,_,hnil,-⟩
    · have hpos := fresh_position htotal hfresh
      rw [List.append_nil] at hhi
      omega
    · cases hnil
  rw [List.concat_eq_append, ← List.append_assoc] at hlast
  obtain ⟨rfl,hq⟩ := List.append_inj' hlast rfl
  obtain rfl : q = p := by simpa using hq
  rcases hphase with ⟨hfresh,hlen⟩ | ⟨r,qs,hsplit,hwaits,-,hlen⟩
  · have hpos := fresh_position htotal hfresh
    rw [frames_append, List.length_append] at hlo
    dsimp only at hpos
    omega
  · rw [hsplit] at htotal
    have hpos := waits_position htotal hwaits
    rw [frames_append, List.length_append] at hlo
    dsimp only at hpos
    cases rs with
    | nil =>
      -- the last payload is awaited, and what is still to come never wakes the loop
      obtain ⟨rfl,rfl⟩ : q = r ∧ [] = qs := by simpa using hsplit
      have hstream := hwaits.stream
      rw [frames_nil, List.append_nil] at hstream
      have hstuck : (feedsProtobuf (feedsProtobuf {} seen).1 rest).2 = [] :=
        feedsProtobuf_short (by rw [hstream]; exact hp)
      rw [hstuck, hlog] at hall
      simp [decoded] at hall
    | cons r' rs =>
      obtain ⟨rfl,-⟩ : r' = r ∧ rs.concat q = qs := by simpa using hsplit
      simp only [frames_cons, List.length_append, htonl_length] at hlo
      omega

end Stream

/-- Every segmentation is decoded, except that a last payload of one to three bytes must not
be separated from its length. -/
theorem protobuf_decodes_iff {payloads chunks : List (List UInt8)}
    (hmax : ∀ p ∈ payloads, p.length ≤ Reading.maxProtobufSize)
    (htotal : chunks.flatten = frames payloads) :
    Decodes payloads chunks ↔ ¬ CutsShortLast payloads chunks := by
  constructor
  · intro hd hcut
    exact not_decodes_of_cut hmax htotal hcut hd
  · intro hcut
    have hstart : Stopped payloads [] (chunks.flatten ++ []) [] {} := by
      rw [List.append_nil, htotal]
      exact new_stopped
    have hend := feedsProtobuf_stopped hmax (by rw [List.append_nil]; exact htotal) hstart
    exact (stopped_end hend).resolve_right hcut

/-- Two frames in one chunk and a third one cut inside its payload. -/
theorem protobuf_decodes_three :
    Decodes [[1,2],[],[3,4,5,6]] [[0,0,0,2,1,2,0,0,0,0,0,0,0],[4,3,4],[5,6]] :=
  (protobuf_decodes_iff (by decide) (by decide)).mpr (by
    rintro ⟨ps,p,hlast,hp,-⟩
    have hget := congrArg List.getLast? hlast
    obtain rfl : [3,4,5,6] = p := by simpa using hget
    exact absurd hp (by decide))

/-- The frame of a one-byte payload in two chunks, cut behind the length. -/
theorem protobuf_short_payload_lost :
    [[0,0,0,1],[7]].flatten = frames [[7]] ∧
    decoded (feedsProtobuf {} [[0,0,0,1],[7]]).2 = [] ∧
    (feedsProtobuf {} [[0,0,0,1],[7]]).1.inputBuffer = [7] ∧
    ¬ Decodes [[7]] [[0,0,0,1],[7]] := by
  refine ⟨by decide,by decide,by decide,?_⟩
  rintro ⟨hall,-,-⟩
  exact absurd hall (by decide)

end ModernTcp.EpollConnection
