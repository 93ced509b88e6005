import Mathlib.Data.Nat.Basic

/-! # Compile-time constants and bytes

The sizes of `config.h`, and `std::string` as a list of bytes.
-/
namespace ModernTcp

def maxBufferSize : ℕ := 4 * 1024 * 1024
def highWaterMark : ℕ := 2 * 1024 * 1024
def lowWaterMark : ℕ := 256 * 1024
def initialBufferSize : ℕ := 128 * 1024
def readChunkSize : ℕ := 65536

def maxHttpHeaderSize : ℕ := 128 * 1024
def maxHttpBodySize : ℕ := 256 * 1024 * 1024
def maxHttpPipeline : ℕ := 100

def maxAcceptPerLoop : ℕ := 100

/-- The bytes of an ASCII string literal of the source. -/
def bytes (s : String) : List UInt8 := s.toList.map (fun c => UInt8.ofNat c.toNat)

end ModernTcp
