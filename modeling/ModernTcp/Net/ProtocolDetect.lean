import Mathlib.Tactic
import ModernTcp.Common.StringUtils

/-! # Protocol detection

The tests of `EpollConnection::protocol_detected` on the first bytes of a connection.
-/
namespace ModernTcp

/-- `std::string_view::find`. -/
def findSub (pat : List UInt8) : List UInt8 → Option ℕ
  | [] => if pat = [] then some 0 else none
  | c :: s => if pat <+: c :: s then some 0 else (findSub pat s).map (· + 1)

def httpStarts : List (List UInt8) :=
  [bytes "GET ",bytes "POST ",bytes "HEAD ",bytes "PUT ",bytes "DELETE ",
    bytes "OPTIONS ",bytes "PATCH ",bytes "CONNECT ",bytes "TRACE "]

def looksLikeHttp (data : List UInt8) : Bool :=
  httpStarts.any (fun start => start.isPrefixOf (data.take 128)) ||
    (match findSub (bytes " HTTP/") data with
      | some pos => decide (pos < 100)
      | none => false)

/-- A newline somewhere, and no control byte but CR, LF and TAB among the first 32. -/
def looksText (data : List UInt8) : Bool :=
  data.contains 10 && (data.take 32).all (fun c => 32 ≤ c || c == 13 || c == 10 || c == 9)

inductive Protocol
  | http | line | protobuf
deriving DecidableEq

/-- The decision for the bytes at hand; it is taken once. -/
def protocolDetected (data : List UInt8) : Protocol :=
  if looksLikeHttp data then .http else if looksText data then .line else .protobuf

theorem findSub_bound {pat s : List UInt8} {n : ℕ} (h : findSub pat s = some n) :
    n + pat.length ≤ s.length := by
  induction s generalizing n with
  | nil =>
    simp only [findSub] at h
    split at h
    · rename_i hp
      cases h
      simp [hp]
    · cases h
  | cons c s ih =>
    simp only [findSub] at h
    split at h
    · rename_i hp
      cases h
      have hl := hp.length_le
      omega
    · obtain ⟨m,hm,rfl⟩ := Option.map_eq_some_iff.mp h
      have hl := ih hm
      simp only [List.length_cons]
      omega

theorem findSub_append_of_some {pat s : List UInt8} {n : ℕ} (h : findSub pat s = some n)
    (t : List UInt8) : findSub pat (s ++ t) = some n := by
  induction s generalizing n with
  | nil =>
    simp only [findSub] at h
    split at h
    · rename_i hp
      cases h
      cases t <;> simp [findSub, hp]
    · cases h
  | cons c s ih =>
    simp only [findSub] at h
    split at h
    · rename_i hp
      cases h
      rw [List.cons_append, findSub, if_pos]
      exact hp.trans (List.prefix_append (c :: s) t)
    · rename_i hp
      obtain ⟨m,hm,rfl⟩ := Option.map_eq_some_iff.mp h
      have hl := findSub_bound hm
      have hp' : ¬ pat <+: c :: (s ++ t) := by
        -- an occurrence at the front would end inside `s`, where `pat` still fits
        intro hpre
        apply hp
        refine List.prefix_of_prefix_length_le hpre (List.prefix_append (c :: s) t) ?_
        simp only [List.length_cons]
        omega
      rw [List.cons_append, findSub, if_neg hp', ih hm]
      rfl

theorem looksLikeHttp_append {s : List UInt8} (h : looksLikeHttp s = true) (t : List UInt8) :
    looksLikeHttp (s ++ t) = true := by
  unfold looksLikeHttp at h ⊢
  rw [Bool.or_eq_true] at h ⊢
  rcases h with h | h
  · left
    obtain ⟨start,hmem,hpre⟩ := List.any_eq_true.mp h
    refine List.any_eq_true.mpr ⟨start,hmem,?_⟩
    rw [List.isPrefixOf_iff_prefix] at hpre ⊢
    refine hpre.trans ?_
    rw [List.take_append]
    exact List.prefix_append _ _
  · right
    cases hf : findSub (bytes " HTTP/") s with
    | none => simp [hf] at h
    | some pos =>
      rw [hf] at h
      rw [findSub_append_of_some hf]
      exact h

end ModernTcp
