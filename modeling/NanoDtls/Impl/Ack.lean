import NanoDtls.Impl.Types

/-!
# ACK messages (`src/ack.c`)

`nd_ack` is an array of 32 records and the number of them that count. The
parser fills in the front of the array it is given.
-/

namespace ND.Impl

/-- `ND_ACK_MAX_RECORDS`. -/
def ackMaxRecords : Nat := 32

/-- `nd_record_number`. -/
structure RecordNumber where
  epoch : BitVec 64
  sequenceNumber : BitVec 64
deriving DecidableEq

/-- `nd_ack`. -/
structure Ack where
  records : { l : List RecordNumber // l.length = ackMaxRecords }
  count : Nat

/-- The records that count. -/
def Ack.list (ack : Ack) : List RecordNumber := ack.records.1.take ack.count

/-- `put_u64`. -/
def putU64 (v : BitVec 64) : Bytes := (List.range 8).map fun i => (v >>> (8 * (7 - i))).setWidth 8

/-- `get_u64` of the bytes at `pos`. -/
def getU64 (buf : Bytes) (pos : Nat) : Result (BitVec 64) := do
  let b ← readSlice buf pos 8
  return b.foldl (fun v x => v <<< 8 ||| x.setWidth 64) 0

/-- `ack->records[i]`. -/
def Ack.get (ack : Ack) (i : Nat) : Result RecordNumber :=
  match ack.records.1[i]? with
  | some r => .ok r
  | none => .error .ub

/-- `ack->records[i] = r`. -/
def Ack.set (ack : Ack) (i : Nat) (r : RecordNumber) : Result Ack :=
  if i < ackMaxRecords then
    .ok { ack with records := ⟨ack.records.1.set i r, by rw [List.length_set, ack.records.2]⟩ }
  else .error .ub

/-- One turn of the loop of `nd_ack_serialize`. -/
def putRecord (ack : Ack) (out : Bytes) (i : Nat) : Result Bytes := do
  let r ← ack.get i
  return out ++ putU64 r.epoch ++ putU64 r.sequenceNumber

/-- `nd_ack_serialize`. -/
def ackSerialize (ack : Ack) (outBufCap : Nat) : Result Bytes := do
  failIf (ackMaxRecords < ack.count) .badArg
  let listLen := ack.count * 16
  failIf (outBufCap < 2 + listLen) .badLength
  (List.range ack.count).foldlM (putRecord ack) (beBytes 2 listLen)

/-- One turn of the loop of `nd_ack_parse`, at `pos = 2 + 16 i`. -/
def getRecord (buf : Bytes) (outAck : Ack) (i : Nat) : Result Ack := do
  let epoch ← getU64 buf (2 + 16 * i)
  let sequenceNumber ← getU64 buf (2 + 16 * i + 8)
  outAck.set i ⟨epoch, sequenceNumber⟩

/-- `nd_ack_parse`: what is in `out_ack` after the call. -/
def ackParse (buf : Bytes) (outAck : Ack) : Result Ack := do
  failIf (buf.length < 2) .truncated
  let listLen ← beNat <$> readSlice buf 0 2
  failIf (listLen + 2 ≠ buf.length) .badLength
  failIf (listLen % 16 ≠ 0) .badLength
  let count := listLen / 16
  failIf (ackMaxRecords < count) .unsupported
  let outAck ← (List.range count).foldlM (getRecord buf) outAck
  return { outAck with count := count }

end ND.Impl
