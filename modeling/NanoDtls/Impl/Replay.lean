import NanoDtls.Impl.Types

/-!
# The anti-replay window (`src/replay.c`)

A 64-record bitmap trailing the highest sequence number accepted so far; bit
`i` stands for the number `highestSeen - i`.
-/

namespace ND.Impl.Replay

/-- `nd_replay_window`. -/
structure ReplayWindow where
  highestSeen : BitVec 64
  bitmap : BitVec 64
  hasReceivedAny : Bool
deriving DecidableEq

/-- `nd_replay_window_init`. -/
def replayWindowInit : ReplayWindow := ⟨0, 0, false⟩

/-- `nd_replay_window_check`. -/
def replayWindowCheck (w : ReplayWindow) (seq : BitVec 64) : Bool :=
  if !w.hasReceivedAny then true
  else if w.highestSeen < seq then true
  else
    let diff := w.highestSeen - seq
    if 64 ≤ diff then false
    else (w.bitmap >>> diff.toNat) &&& 1 == 0

/-- `nd_replay_window_accept`. -/
def replayWindowAccept (w : ReplayWindow) (seq : BitVec 64) : ReplayWindow :=
  if !w.hasReceivedAny then { highestSeen := seq, bitmap := 1, hasReceivedAny := true }
  else if w.highestSeen < seq then
    let shift := seq - w.highestSeen
    let bitmap := if 64 ≤ shift then 0 else w.bitmap <<< shift.toNat
    { w with bitmap := bitmap ||| 1, highestSeen := seq }
  else
    let diff := w.highestSeen - seq
    if diff < 64 then { w with bitmap := w.bitmap ||| ((1 : BitVec 64) <<< diff.toNat) } else w

end ND.Impl.Replay
