import NanoDtls.Framework.Outcome
import NanoDtls.Impl.Types

/-!
# X25519 (`src/crypto/x25519.c`)

A field element is 16 limbs in radix `2^16`, each an `int64_t` that may be
negative or above the radix. `i64` is the result of an `int64_t` operation:
one that does not fit is undefined. `>>` and `<<` are the division that rounds
down and the multiplication, as compilers make them on negative values.
-/

namespace ND.Impl.X25519

/-- The value of an `int64_t` expression. -/
def i64 (v : Int) : Result Int := if -2 ^ 63 ≤ v ∧ v < 2 ^ 63 then .ok v else .error .ub

/-- `fe`: 16 limbs, least significant first. -/
abbrev Fe := List Int

/-- `fe_0`. -/
def feZero : Fe := List.replicate 16 0

/-- `fe_1`. -/
def feOne : Fe := 1 :: List.replicate 15 0

/-- `fe_add`. -/
def feAdd (a b : Fe) : Result Fe := (a.zip b).mapM fun xy => i64 (xy.1 + xy.2)

/-- `fe_sub`. -/
def feSub (a b : Fe) : Result Fe := (a.zip b).mapM fun xy => i64 (xy.1 - xy.2)

/-- One turn of the loop of `fe_cswap`, on the bit patterns of the limbs. -/
def cswapLimb (mask : BitVec 64) (a b : Int) : Int × Int :=
  let dummy := mask &&& (BitVec.ofInt 64 a ^^^ BitVec.ofInt 64 b)
  ((BitVec.ofInt 64 a ^^^ dummy).toInt, (BitVec.ofInt 64 b ^^^ dummy).toInt)

/-- `fe_cswap`. -/
def feCswap (swap : Bool) (a b : Fe) : Fe × Fe :=
  let mask := -(BitVec.ofBool swap).setWidth 64
  (List.zipWith (fun x y => (cswapLimb mask x y).1) a b, List.zipWith (fun x y => (cswapLimb mask x y).2) a b)

/-- The loop of `fe_carry` with the carry into the first limb: the limbs, and the carry out of
the last one. -/
def carryLoop : Int → List Int → Result (List Int × Int)
  | c, [] => .ok ([], c)
  | c, x :: l => do
    let o ← i64 (x + c)
    let o ← i64 (o + 2 ^ 16)
    let rawCarry := o / 2 ^ 16
    let carry ← i64 (rawCarry - 1)
    let shifted ← i64 (rawCarry * 2 ^ 16)
    let o ← i64 (o - shifted)
    let (l, c) ← carryLoop carry l
    return (o :: l, c)

/-- `fe_carry`. -/
def feCarry (o : Fe) : Result Fe := do
  let (o, carry) ← carryLoop 0 o
  let d ← i64 (38 * carry)
  let o0 ← i64 (o.getD 0 0 + d)
  return o.set 0 o0

/-- `t[i + j] += a[i] * b[j]`. -/
def mulStep (a b : Fe) (t : List Int) (ij : Nat × Nat) : Result (List Int) := do
  let p ← i64 (a.getD ij.1 0 * b.getD ij.2 0)
  let s ← i64 (t.getD (ij.1 + ij.2) 0 + p)
  return t.set (ij.1 + ij.2) s

/-- The pairs `(i, j)` of the two loops of `fe_mul`, in their order. -/
def indexPairs : List (Nat × Nat) := (List.range 16).flatMap fun i => (List.range 16).map fun j => (i, j)

/-- `t[i - 16] += 38 * t[i]` for `i` from 16 to 30, then the low 16 limbs. -/
def foldHigh (t : List Int) : Result Fe := do
  let low ← ((t.take 15).zip (t.drop 16)).mapM fun xy => do
    let d ← i64 (38 * xy.2)
    i64 (xy.1 + d)
  return low ++ [t.getD 15 0]

/-- `fe_mul`. -/
def feMul (a b : Fe) : Result Fe := do
  let t ← indexPairs.foldlM (mulStep a b) (List.replicate 31 0)
  let o ← foldHigh t
  let o ← feCarry o
  feCarry o

/-- `fe_sq`. -/
def feSq (a : Fe) : Result Fe := feMul a a

/-- One turn of the loop of `fe_inv`. -/
def invStep (a c : Fe) (i : Nat) : Result Fe := do
  let c ← feSq c
  if i ≠ 2 ∧ i ≠ 4 then feMul c a else return c

/-- `fe_inv`. -/
def feInv (a : Fe) : Result Fe := (List.range 254).reverse.foldlM (invStep a) a

/-- `fe_unpack`: pairs of bytes, and the last limb masked to 15 bits. -/
def feUnpack (n : BytesN 32) : Fe :=
  let limb := fun i => ((n.1.getD (2 * i) 0).toNat + 256 * (n.1.getD (2 * i + 1) 0).toNat : Int)
  (List.range 15).map limb ++ [limb 15 % 2 ^ 15]

/-- `p_limb` for `i` from 0 to 15. -/
def pLimbs : List Int := 0xffed :: List.replicate 14 0xffff ++ [0x7fff]

/-- The loop of a trial subtraction, on the limbs of `t` and of `p`, with the borrow. -/
def subLoop : Int → List (Int × Int) → Result (List Int × Int)
  | borrow, [] => .ok ([], borrow)
  | borrow, (t, p) :: l => do
    let d ← i64 (t - p)
    let d ← i64 (d - borrow)
    let borrow : Int := if d < 0 then 1 else 0
    let m ← i64 (d + borrow * 0x10000)
    let (l, borrow) ← subLoop borrow l
    return (m :: l, borrow)

/-- One pass of `fe_pack`: `t - p` unless that borrows. -/
def trialSub (t : Fe) : Result Fe := do
  let (m, borrow) ← subLoop 0 (t.zip pLimbs)
  return if borrow = 0 then m else t

/-- `fe_pack`. -/
def fePack (n : Fe) : Result (BytesN 32) := do
  let t ← feCarry n
  let t ← feCarry t
  let t ← feCarry t
  let t ← trialSub t
  let t ← trialSub t
  bytesN 32 (t.flatMap fun x => [BitVec.ofInt 8 x, BitVec.ofInt 8 (x / 256)])

/-! ## The ladder -/

/-- The scalar as the ladder uses it: `k[0] &= 248`, `k[31] &= 127`, `k[31] |= 64`. -/
def clamp (scalar : BytesN 32) : Bytes :=
  let k := scalar.1.set 0 (scalar.1.getD 0 0 &&& 248)
  k.set 31 ((k.getD 31 0 &&& 127) ||| 64)

def a24 : Fe := 121665 :: List.replicate 15 0

/-- The variables of the loop. -/
structure Ladder where
  x2 : Fe
  z2 : Fe
  x3 : Fe
  z3 : Fe
  swap : Bool

/-- One turn of the loop, for bit `t`. -/
def ladderStep (x1 : Fe) (k : Bytes) (s : Ladder) (t : Nat) : Result Ladder := do
  let kt := (k.getD (t / 8) 0).getLsbD (t % 8)
  let swap := s.swap ^^ kt
  let (x2, x3) := feCswap swap s.x2 s.x3
  let (z2, z3) := feCswap swap s.z2 s.z3
  let A ← feAdd x2 z2
  let AA ← feSq A
  let B ← feSub x2 z2
  let BB ← feSq B
  let E ← feSub AA BB
  let C ← feAdd x3 z3
  let D ← feSub x3 z3
  let DA ← feMul D A
  let CB ← feMul C B
  let sum ← feAdd DA CB
  let x3 ← feSq sum
  let diff ← feSub DA CB
  let sqDiff ← feSq diff
  let z3 ← feMul x1 sqDiff
  let x2 ← feMul AA BB
  let a24E ← feMul E a24
  let aaPlusA24e ← feAdd AA a24E
  let z2 ← feMul E aaPlusA24e
  return ⟨x2, z2, x3, z3, kt⟩

/-- `nd_x25519_scalarmult`. -/
def x25519Scalarmult (scalar uIn : BytesN 32) : Result (BytesN 32) := do
  let k := clamp scalar
  let x1 := feUnpack uIn
  let s ← (List.range 255).reverse.foldlM (ladderStep x1 k) ⟨feOne, feZero, x1, feOne, false⟩
  let (x2, _) := feCswap s.swap s.x2 s.x3
  let (z2, _) := feCswap s.swap s.z2 s.z3
  let z2Inv ← feInv z2
  let result ← feMul x2 z2Inv
  fePack result

/-! ## The same over any multiplication

`fe_inv` and the ladder call `fe_mul`, and `nd_x25519_scalarmult` calls `fe_pack` at its end. With `feMul` and `fePack`
these are the functions above; with a multiplication that keeps a trace they have the trace of a whole run. -/

section Generic

variable {m : Type → Type} [Monad m] [MonadLiftT Result m] (mul : Fe → Fe → m Fe) (pack : Fe → m (BytesN 32))

def invStepBy (a c : Fe) (i : Nat) : m Fe := do
  let c ← mul c c
  if i ≠ 2 ∧ i ≠ 4 then mul c a else return c

def feInvBy (a : Fe) : m Fe := (List.range 254).reverse.foldlM (invStepBy mul a) a

/-- A turn of the loop from `fe_sub(E, AA, BB)` on. -/
def ladderRestBy (x1 x3 z3 A AA B BB : Fe) (kt : Bool) : m Ladder := do
  let E ← feSub AA BB
  let C ← feAdd x3 z3
  let D ← feSub x3 z3
  let DA ← mul D A
  let CB ← mul C B
  let sum ← feAdd DA CB
  let x3 ← mul sum sum
  let diff ← feSub DA CB
  let sqDiff ← mul diff diff
  let z3 ← mul x1 sqDiff
  let x2 ← mul AA BB
  let a24E ← mul E a24
  let aaPlusA24e ← feAdd AA a24E
  let z2 ← mul E aaPlusA24e
  return ⟨x2, z2, x3, z3, kt⟩

def ladderStepBy (x1 : Fe) (k : Bytes) (s : Ladder) (t : Nat) : m Ladder := do
  let kt := (k.getD (t / 8) 0).getLsbD (t % 8)
  let swap := s.swap ^^ kt
  let (x2, x3) := feCswap swap s.x2 s.x3
  let (z2, z3) := feCswap swap s.z2 s.z3
  let A ← feAdd x2 z2
  let AA ← mul A A
  let B ← feSub x2 z2
  let BB ← mul B B
  ladderRestBy mul x1 x3 z3 A AA B BB kt

def scalarmultBy (scalar uIn : BytesN 32) : m (BytesN 32) := do
  let k := clamp scalar
  let x1 := feUnpack uIn
  let s ← (List.range 255).reverse.foldlM (ladderStepBy mul x1 k) ⟨feOne, feZero, x1, feOne, false⟩
  let (x2, _) := feCswap s.swap s.x2 s.x3
  let (z2, _) := feCswap s.swap s.z2 s.z3
  let z2Inv ← feInvBy mul z2
  let result ← mul x2 z2Inv
  pack result

end Generic

theorem scalarmultBy_feMul : scalarmultBy feMul fePack = x25519Scalarmult := rfl

/-! ## The trace -/

/-- A call of `fe_mul`, and a limb in `fe_carry` after `o[i] += 1 << 16`, the operand of the right shift. -/
inductive Event where
  | mul (a b : Fe)
  | limb (o : Int)
deriving DecidableEq

abbrev Traced := StateT (List Event) Result

/-- The loop of `fe_carry`. -/
def carryLoopTraced : Int → List Int → Traced (List Int × Int)
  | c, [] => pure ([], c)
  | c, x :: l => do
    let o ← i64 (x + c)
    let o ← i64 (o + 2 ^ 16)
    emit (.limb o)
    let rawCarry := o / 2 ^ 16
    let carry ← i64 (rawCarry - 1)
    let shifted ← i64 (rawCarry * 2 ^ 16)
    let o ← i64 (o - shifted)
    let (l, c) ← carryLoopTraced carry l
    return (o :: l, c)

/-- `fe_carry`. -/
def feCarryTraced (o : Fe) : Traced Fe := do
  let (o, carry) ← carryLoopTraced 0 o
  let d ← i64 (38 * carry)
  let o0 ← i64 (o.getD 0 0 + d)
  return o.set 0 o0

/-- `fe_mul`. -/
def feMulTraced (a b : Fe) : Traced Fe := do
  emit (.mul a b)
  let t ← (indexPairs.foldlM (mulStep a b) (List.replicate 31 0) : Result (List Int))
  let o ← foldHigh t
  let o ← feCarryTraced o
  feCarryTraced o

/-- `fe_pack`. -/
def fePackTraced (n : Fe) : Traced (BytesN 32) := do
  let t ← feCarryTraced n
  let t ← feCarryTraced t
  let t ← feCarryTraced t
  let t ← trialSub t
  let t ← trialSub t
  bytesN 32 (t.flatMap fun x => [BitVec.ofInt 8 x, BitVec.ofInt 8 (x / 256)])

/-- `nd_x25519_scalarmult`. -/
def scalarmultTraced (scalar uIn : BytesN 32) : Traced (BytesN 32) := scalarmultBy feMulTraced fePackTraced scalar uIn

/-- The base point, 9. -/
def basePoint : BytesN 32 := ⟨9 :: List.replicate 31 0, rfl⟩

/-- `nd_x25519_base`. -/
def x25519Base (scalar : BytesN 32) : Result (BytesN 32) := x25519Scalarmult scalar basePoint

end ND.Impl.X25519
