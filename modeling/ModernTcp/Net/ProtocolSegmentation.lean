import ModernTcp.Net.EpollConnection

/-! # Protocol detection and the first chunk

The decision of `protocol_detected` is taken when the first bytes are there and is never
revised, so the chunk that happens to arrive first decides alone. A single byte is never
HTTP, and it is text only if it is a newline.
-/
namespace ModernTcp

/-- The bytes that `looks_text` refuses. -/
def isControl (c : UInt8) : Bool := c < 32 && c != 13 && c != 10 && c != 9

/-- Nothing that follows the first byte changes what the first byte alone decides. -/
def DecidedByFirstByte (s : List UInt8) : Prop :=
  looksLikeHttp s = false ∧
    if s.head? = some 10 then looksText s = true
    else 10 ∈ s → ∃ c ∈ (s.takeWhile (· ≠ 10)).take 32, isControl c = true

namespace EpollConnection

/-- The chunks are appended to `input_buffer_`, with `protocol_detected()` after each. -/
def detectAll (c : EpollConnection) (chunks : List (List UInt8)) : EpollConnection :=
  chunks.foldl (fun c chunk => { c with inputBuffer := c.inputBuffer ++ chunk }.protocolDetected) c

end EpollConnection

/-- The chunks are a way of sending the stream. -/
def Cuts (s : List UInt8) (chunks : List (List UInt8)) : Prop := (∀ c ∈ chunks, c ≠ []) ∧ chunks.flatten = s

section Bytes
variable {s p : List UInt8}

theorem looksText_iff : looksText s = true ↔ 10 ∈ s ∧ ∀ c ∈ s.take 32, isControl c = false := by
  have hbyte : ∀ c : UInt8, (decide (32 ≤ c) || c == 13 || c == 10 || c == 9) = !isControl c := by
    intro c
    simp [isControl, bne, ← UInt8.not_lt, Bool.or_assoc]
  simp only [looksText, Bool.and_eq_true, List.contains_iff_mem, List.all_eq_true, hbyte, Bool.not_eq_true']

theorem looksText_mono (h : p <+: s) (hmem : 10 ∈ p) (hs : looksText s = true) : looksText p = true :=
  looksText_iff.mpr ⟨hmem,fun c hc => (looksText_iff.mp hs).2 c ((h.take 32).subset hc)⟩

theorem looksLikeHttp_mono (h : p <+: s) (hs : looksLikeHttp s = false) : looksLikeHttp p = false := by
  obtain ⟨t,rfl⟩ := h
  by_contra hp
  rw [looksLikeHttp_append (by simpa using hp)] at hs
  cases hs

/-- No method prefix and no ` HTTP/` fits into fewer than four bytes. -/
theorem looksLikeHttp_of_short (h : s.length < 4) : looksLikeHttp s = false := by
  unfold looksLikeHttp
  rw [Bool.or_eq_false_iff]
  constructor
  · rw [List.any_eq_false]
    intro start hstart hpre
    have hlen : ∀ start ∈ httpStarts, 4 ≤ start.length := by decide
    have hstart := hlen start hstart
    have hle := (List.isPrefixOf_iff_prefix.mp hpre).length_le
    rw [List.length_take] at hle
    omega
  · cases hf : findSub (bytes " HTTP/") s with
    | none => rfl
    | some pos =>
      have hb := findSub_bound hf
      have hsix : (bytes " HTTP/").length = 6 := rfl
      omega

theorem looksLikeHttp_singleton (b : UInt8) : looksLikeHttp [b] = false :=
  looksLikeHttp_of_short (by simp)

theorem protocolDetected_singleton (b : UInt8) :
    protocolDetected [b] = if b = 10 then .line else .protobuf := by
  unfold protocolDetected
  rw [looksLikeHttp_singleton]
  by_cases hb : b = 10
  · subst hb
    rfl
  · have htext : looksText [b] = false := by
      by_contra ht
      have hmem := (looksText_iff.mp (by simpa using ht)).1
      exact hb (by simpa [eq_comm] using hmem)
    rw [htext, if_neg hb]
    rfl

/-- A text line is recognised at its newline, if not before. -/
theorem looksText_of_line (hs : ∀ c ∈ (s.takeWhile (· ≠ 10)).take 32, isControl c = false) :
    looksText (s.takeWhile (· ≠ 10) ++ [10]) = true := by
  refine looksText_iff.mpr ⟨by simp,?_⟩
  intro c hc
  rw [List.take_append] at hc
  rcases List.mem_append.mp hc with hc | hc
  · exact hs c hc
  · have hten : c = 10 := by simpa using List.mem_of_mem_take hc
    subst hten
    rfl

theorem line_prefix_stream (h : 10 ∈ s) : s.takeWhile (· ≠ 10) ++ [10] <+: s := by
  refine ⟨(s.dropWhile (· ≠ 10)).drop 1,?_⟩
  rw [List.append_assoc]
  exact takeWhile_append_first h

/-- A first line that is refused as text stays in every longer piece of the stream. -/
theorem looksText_eq_false_of_line {c : UInt8} (hc : c ∈ (s.takeWhile (· ≠ 10)).take 32) (hctrl : isControl c = true)
    (hp : p <+: s) : looksText p = false := by
  by_contra htext
  obtain ⟨hmem,hall⟩ := looksText_iff.mp (by simpa using htext)
  have hline : s.takeWhile (· ≠ 10) <+: p := by
    rcases List.prefix_or_prefix_of_prefix (List.takeWhile_prefix _) hp with h | h
    · exact h
    · exact absurd (h.subset hmem) (not_mem_takeWhile_ne 10 s)
  rw [hall c ((hline.take 32).subset hc)] at hctrl
  cases hctrl

theorem decided_of_prefixes {b : UInt8} {t : List UInt8}
    (h : ∀ p, p <+: b :: t → p ≠ [] → protocolDetected p = protocolDetected [b]) : DecidedByFirstByte (b :: t) := by
  have hhttp : looksLikeHttp (b :: t) = false := by
    by_contra hlook
    have hs := h (b :: t) (List.prefix_refl _) (by simp)
    rw [protocolDetected_singleton, protocolDetected, if_pos (by simpa using hlook)] at hs
    split at hs <;> cases hs
  refine ⟨hhttp,?_⟩
  by_cases hb : b = 10
  · have hs := h (b :: t) (List.prefix_refl _) (by simp)
    rw [protocolDetected_singleton, if_pos hb, protocolDetected, hhttp] at hs
    rw [if_pos (by simp [hb])]
    by_contra htext
    simp [htext] at hs
  · rw [if_neg (by simpa using hb)]
    intro hmem
    by_contra hnone
    have hpre := line_prefix_stream hmem
    have hs := h _ hpre (by simp)
    have htext := looksText_of_line (s := b :: t) (fun c hc => by
      by_contra hctrl
      exact hnone ⟨c,hc,by simpa using hctrl⟩)
    rw [protocolDetected_singleton, if_neg hb, protocolDetected, looksLikeHttp_mono hpre hhttp, htext] at hs
    cases hs

theorem prefixes_of_decided {b : UInt8} {t : List UInt8} (h : DecidedByFirstByte (b :: t)) {p : List UInt8}
    (hp : p <+: b :: t) (hne : p ≠ []) : protocolDetected p = protocolDetected [b] := by
  obtain ⟨hhttp,hrest⟩ := h
  obtain ⟨c,p,rfl⟩ := List.exists_cons_of_ne_nil hne
  obtain ⟨rfl,-⟩ := List.cons_prefix_cons.mp hp
  rw [protocolDetected_singleton, protocolDetected, looksLikeHttp_mono hp hhttp]
  by_cases hc : c = 10
  · rw [if_pos (by simp [hc])] at hrest
    rw [looksText_mono hp (by simp [hc]) hrest, if_pos hc]
    rfl
  · rw [if_neg (by simpa using hc)] at hrest
    have htext : looksText (c :: p) = false := by
      by_contra htext
      have hmem := (looksText_iff.mp (by simpa using htext)).1
      obtain ⟨d,hd,hctrl⟩ := hrest (hp.subset hmem)
      exact htext (looksText_eq_false_of_line hd hctrl hp)
    rw [htext, if_neg hc]
    rfl

theorem Cuts.eq_nil {cs : List (List UInt8)} (h : Cuts [] cs) : cs = [] := by
  cases cs with
  | nil => rfl
  | cons c cs => exact absurd (List.append_eq_nil_iff.mp h.2).1 (h.1 c List.mem_cons_self)

theorem exists_cuts (h : p <+: s) (hne : p ≠ []) : ∃ cs, Cuts s (p :: cs) := by
  obtain ⟨t,rfl⟩ := h
  by_cases ht : t = []
  · exact ⟨[],by simpa using hne,by simp [ht]⟩
  · refine ⟨[t],?_,by simp⟩
    intro c hc
    rcases List.mem_cons.mp hc with rfl | hc
    · exact hne
    · rw [List.mem_singleton.mp hc]
      exact ht

end Bytes

namespace EpollConnection

theorem detectAll_of_some {c : EpollConnection} {m : Protocol} (h : c.protocol = some m) (chunks : List (List UInt8)) :
    (detectAll c chunks).protocol = some m := by
  induction chunks generalizing c with
  | nil => exact h
  | cons chunk chunks ih =>
    apply ih
    simp [protocolDetected, h]

theorem detectAll_cons {chunk : List UInt8} (h : chunk ≠ []) (chunks : List (List UInt8)) :
    (detectAll {} (chunk :: chunks)).protocol = some (ModernTcp.protocolDetected chunk) := by
  change (detectAll (protocolDetected { inputBuffer := chunk }) chunks).protocol = _
  apply detectAll_of_some
  simp [protocolDetected, h]

/-- How a stream is cut does not matter to the mode exactly when its first byte decides, which
is the case for no HTTP request and for no text line but an empty one. -/
theorem detection_independent_iff (s : List UInt8) :
    (∀ cs ds, Cuts s cs → Cuts s ds → (detectAll {} cs).protocol = (detectAll {} ds).protocol) ↔
      DecidedByFirstByte s := by
  cases s with
  | nil =>
    refine ⟨fun _ => ⟨looksLikeHttp_of_short (by simp),by simp⟩,?_⟩
    intro _ cs ds hcs hds
    rw [hcs.eq_nil, hds.eq_nil]
  | cons b t =>
    constructor
    · intro h
      apply decided_of_prefixes
      intro p hp hne
      obtain ⟨cs,hcs⟩ := exists_cuts hp hne
      obtain ⟨ds,hds⟩ := exists_cuts (p := [b]) (List.prefix_append [b] t) (by simp)
      have heq := h _ _ hcs hds
      rwa [detectAll_cons hne, detectAll_cons (by simp), Option.some.injEq] at heq
    · intro h
      have hmode : ∀ cs, Cuts (b :: t) cs → (detectAll {} cs).protocol = some (ModernTcp.protocolDetected [b]) := by
        intro cs hcs
        obtain ⟨c,cs,rfl⟩ := List.exists_cons_of_ne_nil (l := cs) (by rintro rfl; cases hcs.2)
        have hne : c ≠ [] := hcs.1 c List.mem_cons_self
        rw [detectAll_cons hne, prefixes_of_decided h ⟨cs.flatten,hcs.2⟩ hne]
      intro cs ds hcs hds
      rw [hmode cs hcs, hmode ds hds]

/-- A request whose first byte comes alone. -/
theorem detection_depends_on_cut :
    ¬ ∀ cs ds, Cuts (bytes "GET / HTTP/1.1\r\n\r\n") cs → Cuts (bytes "GET / HTTP/1.1\r\n\r\n") ds →
      (detectAll {} cs).protocol = (detectAll {} ds).protocol := by
  intro h
  have heq := h [bytes "GET / HTTP/1.1\r\n\r\n"] [bytes "G",bytes "ET / HTTP/1.1\r\n\r\n"]
    ⟨by decide,by decide⟩ ⟨by decide,by decide⟩
  revert heq
  decide

end EpollConnection
end ModernTcp
