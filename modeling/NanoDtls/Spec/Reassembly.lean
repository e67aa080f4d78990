import NanoDtls.Impl.Reassembly
import Mathlib.Data.Set.Lattice
import Mathlib.Order.Interval.Set.Defs
import Mathlib.Order.Nat

/-!
# A message in fragments

What reassembly is for: the calls that bring a fragment of a message, those
that bring something else, and the positions of the message that a list of
calls covers. The order of the calls does not enter `covered`.
-/

namespace ND.Spec.Reassembly

open ND.Impl Handshake Reassembly

/-- A handshake message that fits the buffer. -/
structure Message where
  msgType : Byte
  messageSeq : Nat
  body : Bytes
  fits : body.length ≤ reassemblyMaxLen

/-- The arguments of a call of `nd_reassembly_add_fragment`. -/
structure Call where
  hdr : HandshakeHdr
  fragment : Bytes
deriving DecidableEq

/-- The positions that a fragment is for. -/
def Call.window (c : Call) : Set Nat := Set.Ico c.hdr.fragmentOffset (c.hdr.fragmentOffset + c.hdr.fragmentLength)

/-- The call brings a fragment of the message: any part of it, also an empty one. -/
structure IsFragment (m : Message) (c : Call) : Prop where
  msgType : c.hdr.msgType = m.msgType
  messageSeq : c.hdr.messageSeq = m.messageSeq
  length : c.hdr.length = m.body.length
  range : c.hdr.fragmentOffset + c.hdr.fragmentLength ≤ m.body.length
  bytes : c.fragment.take c.hdr.fragmentLength = (m.body.drop c.hdr.fragmentOffset).take c.hdr.fragmentLength

/-- The call has a header with fields of 24 bits, of another message or out of range. -/
structure IsForeign (m : Message) (c : Call) : Prop where
  offset_lt : c.hdr.fragmentOffset < 2 ^ 24
  length_lt : c.hdr.fragmentLength < 2 ^ 24
  total_lt : c.hdr.length < 2 ^ 24
  other : c.hdr.msgType ≠ m.msgType ∨ c.hdr.messageSeq ≠ m.messageSeq ∨ c.hdr.length ≠ m.body.length ∨
    c.hdr.length < c.hdr.fragmentOffset + c.hdr.fragmentLength

/-- The positions that the fragments of the message among some calls are for. -/
def covered (m : Message) (calls : List Call) : Set Nat := {k | ∃ c ∈ calls, IsFragment m c ∧ k ∈ c.window}

theorem covered_nil (m : Message) : covered m [] = ∅ := by
  ext k
  simp [covered]

theorem covered_fragment {m : Message} {c : Call} (calls : List Call) (h : IsFragment m c) :
    covered m (c :: calls) = c.window ∪ covered m calls := by
  ext k
  simp [covered, h]

theorem covered_other {m : Message} {c : Call} (calls : List Call) (h : ¬ IsFragment m c) :
    covered m (c :: calls) = covered m calls := by
  ext k
  simp [covered, h]

theorem covered_perm {m : Message} {calls calls' : List Call} (h : calls'.Perm calls) : covered m calls' = covered m calls := by
  ext k
  simp [covered, h.mem_iff]

end ND.Spec.Reassembly
