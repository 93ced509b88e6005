import ModernTcp.Net.HttpDelivery
import ModernTcp.Net.ProtobufFraming
import ModernTcp.Net.ProtocolSegmentation

/-! # Recognition of protobuf clients

A frame of `TcpClient::send_protobuf` begins with a zero byte, which no method name does, and which
`looks_text` refuses. The search for ` HTTP/` has no such test: it looks through the payload, and a
request that carries these bytes near its front goes to the HTTP parser.
-/
namespace ModernTcp

/-- ` HTTP/` begins among the first hundred bytes. -/
def HttpMark (s : List UInt8) : Prop := ∃ pos < 100, bytes " HTTP/" <+: s.drop pos

instance (s : List UInt8) : Decidable (HttpMark s) := inferInstanceAs (Decidable (∃ pos < 100, _))

section Bytes
variable {pat s t : List UInt8} {n : ℕ}

theorem HttpMark.mono (h : s <+: t) (hs : HttpMark s) : HttpMark t := by
  obtain ⟨pos,hpos,hpre⟩ := hs
  exact ⟨pos,hpos,hpre.trans (h.drop pos)⟩

end Bytes

namespace EpollConnection
variable {payload : List UInt8}

/-- The connection after `protocol_detected` has chosen protobuf. -/
def protobufStart : EpollConnection := { protocol := some .protobuf, httpHandler := false }

/-- As long as the connection lives, the decoder only hands payloads on. -/
def OnlyDecodes (log : List Effect) : Prop := ∀ e ∈ log, ∃ payload, e = .decode payload

theorem takePayload_onlyDecodes {s : Reading} (hs : s.conn.running = true → OnlyDecodes s.effects) :
    s.takePayload.conn.running = true → OnlyDecodes s.takePayload.effects := by
  unfold Reading.takePayload
  split_ifs
  · exact hs
  · intro hrun e he
    rcases List.mem_append.mp he with he | he
    · exact hs hrun e he
    · exact ⟨_,List.mem_singleton.mp he⟩
  · exact hs

theorem readLength_onlyDecodes {s : Reading} (hs : s.conn.running = true → OnlyDecodes s.effects) :
    s.readLength.conn.running = true → OnlyDecodes s.readLength.effects := by
  unfold Reading.readLength
  split_ifs
  · exact hs
  · dsimp only
    split_ifs
    · unfold Reading.shutdown
      split_ifs with hrun
      · intro hstill
        cases hstill
      · intro hstill
        exact absurd hstill hrun
    · exact hs

theorem feedProtobuf_onlyDecodes (c : EpollConnection) (chunk : List UInt8)
    (hrun : (c.feedProtobuf chunk).conn.running = true) : OnlyDecodes (c.feedProtobuf chunk).effects := by
  refine Loop.run_invariant (I := fun s : Reading => s.conn.running = true → OnlyDecodes s.effects)
    Reading.protobufRound_decreases ?_ ?_ hrun
  · intro s t hs ht
    unfold Reading.protobufRound at ht
    split_ifs at ht
    cases ht
    exact takePayload_onlyDecodes (readLength_onlyDecodes hs)
  · intro _ e he
    cases he

theorem OnlyDecodes.eq_map {log : List Effect} (h : OnlyDecodes log) : log = (decoded log).map Effect.decode := by
  induction log with
  | nil => rfl
  | cons e log ih =>
    obtain ⟨payload,rfl⟩ := h e List.mem_cons_self
    have hlog := ih (fun d hd => h d (List.mem_cons_of_mem _ hd))
    calc Effect.decode payload :: log = Effect.decode payload :: (decoded log).map Effect.decode := by rw [← hlog]
      _ = (decoded (.decode payload :: log)).map Effect.decode := rfl

theorem protobufStart_stopped {payloads : List (List UInt8)} :
    Stopped payloads [] (frames payloads) [] protobufStart :=
  ⟨rfl,[],payloads,rfl,rfl,Or.inl ⟨⟨rfl,rfl⟩,by simp [protobufStart]⟩⟩

theorem frames_singleton (payload : List UInt8) : frames [payload] = frame payload := by
  rw [frames, List.flatMap_singleton]

section Http
open Reading

end Http

end EpollConnection
end ModernTcp
