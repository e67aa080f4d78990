import NanoDtls.Framework.Slice
import NanoDtls.Impl.Handshake

/-!
# Reassembly of handshake messages (`src/reassembly.c`)

A call returns its status and the state after it.
-/

namespace ND.Impl

open Handshake

/-- `ND_REASSEMBLY_MAX_LEN`. -/
def reassemblyMaxLen : Nat := 4096

/-- `nd_reassembly`. -/
structure Reassembly where
  buf : BytesN reassemblyMaxLen
  received : BytesN reassemblyMaxLen
  totalLen : Nat
  totalLenKnown : Bool
  msgType : Byte
  messageSeq : Nat
  inProgress : Bool
deriving DecidableEq

/-- `nd_reassembly_init`: `buf` is left as it is. -/
def reassemblyInit (r : Reassembly) : Reassembly :=
  { r with totalLen := 0, totalLenKnown := false, msgType := 0, messageSeq := 0, inProgress := false
           received := zeros reassemblyMaxLen }

/-- Bytes copied into an array from `off` on. -/
def writeAt {n : Nat} (buf : BytesN n) (off : Nat) (data : Bytes) : Result (BytesN n) :=
  if h : off + data.length ≤ n then .ok ⟨patch buf.1 off data, by rw [length_patch (by rwa [buf.2]), buf.2]⟩
  else .error .ub

namespace Reassembly

/-- The first fragment: the message that is in progress from now on. -/
def startMessage (r : Reassembly) (hdr : HandshakeHdr) : Result Reassembly := do
  let received ← writeAt r.received 0 (List.replicate hdr.length 0)
  return { r with msgType := hdr.msgType, messageSeq := hdr.messageSeq, totalLen := hdr.length, totalLenKnown := true
                  inProgress := true, received := received }

/-- The copy of a fragment that is not empty, and its marks. -/
def storeFragment (r : Reassembly) (hdr : HandshakeHdr) (fragment : Bytes) : Result Reassembly := do
  if hdr.fragmentLength = 0 then return r
  let data ← readSlice fragment 0 hdr.fragmentLength
  let buf ← writeAt r.buf hdr.fragmentOffset data
  let received ← writeAt r.received hdr.fragmentOffset (List.replicate hdr.fragmentLength 1)
  return { r with buf := buf, received := received }

/-- A state that is written: only undefined behaviour stops it. -/
def commit (r : Reassembly) (r' : Result Reassembly) : Result Unit × Reassembly :=
  match r' with
  | .ok r' => (.ok (), r')
  | .error st => (.error st, r)

end Reassembly

/-- `nd_reassembly_add_fragment`. -/
def reassemblyAddFragment (r : Reassembly) (hdr : HandshakeHdr) (fragment : Bytes) : Result Unit × Reassembly :=
  if reassemblyMaxLen < hdr.length then (.error .badLength, r)
  -- the sum of two `uint32_t`
  else if hdr.length < (hdr.fragmentOffset + hdr.fragmentLength) % 2 ^ 32 then (.error .badLength, r)
  else if r.inProgress = false then r.commit (r.startMessage hdr >>= (·.storeFragment hdr fragment))
  else if hdr.msgType ≠ r.msgType ∨ hdr.messageSeq ≠ r.messageSeq then (.error .unsupported, r)
  else if hdr.length ≠ r.totalLen then (.error .badLength, r)
  else r.commit (r.storeFragment hdr fragment)

/-- The loop over `received`, from `i` on. -/
def Reassembly.completeLoop (received : Bytes) : Nat → Nat → Result Bool
  | _, 0 => return true
  | i, n + 1 => do
    let b ← readAt received i
    if b = 0 then return false
    completeLoop received (i + 1) n

/-- `nd_reassembly_is_complete`. -/
def reassemblyIsComplete (r : Reassembly) : Result Bool :=
  if r.inProgress = false ∨ r.totalLenKnown = false then .ok false else Reassembly.completeLoop r.received.1 0 r.totalLen

end ND.Impl
