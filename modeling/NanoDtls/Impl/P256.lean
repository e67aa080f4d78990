import NanoDtls.Impl.Types

/-!
# P-256 (`src/crypto/p256_internal.h`, `src/crypto/p256.c`)

A `bn256` is 8 limbs of 32 bits, least significant first. The `uint64_t`
intermediates are natural numbers reduced modulo `2^64`. The carry loop of
`bn_mul_wide` has no bound of its own: leaving the array is undefined. A point
at infinity has no coordinates in `EcPoint`; in the struct, `EcPointMem`, the
coordinates of a result at infinity are left as they were.
-/

namespace ND.Impl.P256

abbrev Limb := BitVec 32

/-- `bn256`. -/
abbrev Bn256 := { l : List Limb // l.length = 8 }

def P256_P : Bn256 :=
  ⟨[0xffffffff, 0xffffffff, 0xffffffff, 0x00000000, 0x00000000, 0x00000000, 0x00000001, 0xffffffff], rfl⟩

def P256_A : Bn256 :=
  ⟨[0xfffffffc, 0xffffffff, 0xffffffff, 0x00000000, 0x00000000, 0x00000000, 0x00000001, 0xffffffff], rfl⟩

def P256_B : Bn256 :=
  ⟨[0x27d2604b, 0x3bce3c3e, 0xcc53b0f6, 0x651d06b0, 0x769886bc, 0xb3ebbd55, 0xaa3a93e7, 0x5ac635d8], rfl⟩

def P256_N : Bn256 :=
  ⟨[0xfc632551, 0xf3b9cac2, 0xa7179e84, 0xbce6faad, 0xffffffff, 0xffffffff, 0x00000000, 0xffffffff], rfl⟩

def P256_GX : Bn256 :=
  ⟨[0xd898c296, 0xf4a13945, 0x2deb33a0, 0x77037d81, 0x63a440f2, 0xf8bce6e5, 0xe12c4247, 0x6b17d1f2], rfl⟩

def P256_GY : Bn256 :=
  ⟨[0x37bf51f5, 0xcbb64068, 0x6b315ece, 0x2bce3357, 0x7c0f9e16, 0x8ee7eb4a, 0xfe1a7f9b, 0x4fe342e2], rfl⟩

/-- The small constants `{v, 0, 0, 0, 0, 0, 0, 0}`. -/
def bnOfLimb (v : Limb) : Bn256 := ⟨[v, 0, 0, 0, 0, 0, 0, 0], rfl⟩

/-! ## Bignums -/

/-- `bn_is_zero`. -/
def bnIsZero (a : Bn256) : Bool := a.1.all (· == 0)

/-- The loop of `bn_cmp`, from the limb of the highest weight. -/
def cmpLoop : List (Limb × Limb) → Int
  | [] => 0
  | (a, b) :: l => if a ≠ b then (if a < b then -1 else 1) else cmpLoop l

/-- `bn_cmp`. -/
def bnCmp (a b : Bn256) : Int := cmpLoop (a.1.zip b.1).reverse

/-- `bn_test_bit`. -/
def bnTestBit (a : Bn256) (i : Nat) : Bool := (a.1.getD (i / 32) 0).getLsbD (i % 32)

/-- The loop of `bn_add_raw`: the limbs and the carry. -/
def addLoop : Nat → List (Limb × Limb) → List Limb × Nat
  | carry, [] => ([], carry)
  | carry, (a, b) :: l =>
    let s := (a.toNat + b.toNat + carry) % 2 ^ 64
    let r := addLoop (s / 2 ^ 32) l
    (BitVec.ofNat 32 s :: r.1, r.2)

theorem length_addLoop : ∀ (c : Nat) (l : List (Limb × Limb)), (addLoop c l).1.length = l.length
  | _, [] => rfl
  | _, _ :: l => by rw [addLoop, List.length_cons, length_addLoop _ l]; rfl

/-- `bn_add_raw`. -/
def bnAddRaw (a b : Bn256) : Bn256 × Nat :=
  (⟨(addLoop 0 (a.1.zip b.1)).1, by rw [length_addLoop, List.length_zip, a.2, b.2]; rfl⟩,
    (addLoop 0 (a.1.zip b.1)).2)

/-- The loop of `bn_sub_raw`: the limbs and the borrow, the sign bit of the difference. -/
def subLoop : Nat → List (Limb × Limb) → List Limb × Nat
  | borrow, [] => ([], borrow)
  | borrow, (a, b) :: l =>
    let diff := (a.toNat + 2 ^ 64 - b.toNat + 2 ^ 64 - borrow) % 2 ^ 64
    let r := subLoop (diff / 2 ^ 63 % 2) l
    (BitVec.ofNat 32 diff :: r.1, r.2)

theorem length_subLoop : ∀ (c : Nat) (l : List (Limb × Limb)), (subLoop c l).1.length = l.length
  | _, [] => rfl
  | _, _ :: l => by rw [subLoop, List.length_cons, length_subLoop _ l]; rfl

/-- `bn_sub_raw`. -/
def bnSubRaw (a b : Bn256) : Bn256 × Nat :=
  (⟨(subLoop 0 (a.1.zip b.1)).1, by rw [length_subLoop, List.length_zip, a.2, b.2]; rfl⟩,
    (subLoop 0 (a.1.zip b.1)).2)

/-- `bn_from_bytes_be`: limb `i` is the four bytes from `(7 - i) * 4`. -/
def bnFromBytesBe (b : BytesN 32) : Bn256 :=
  ⟨(List.range 8).map fun i => BitVec.ofNat 32 (beNat ((b.1.drop ((7 - i) * 4)).take 4)), by simp⟩

/-- `bn_to_bytes_be`. -/
def bnToBytesBe (a : Bn256) : BytesN 32 :=
  ⟨a.1.reverse.flatMap fun x => beBytes 4 x.toNat, by simp [List.length_flatMap, a.2]⟩

/-- `while (carry)` of `bn_mul_wide`, from `o[k]` on. -/
def carryRow : Nat → List Limb → Result (List Limb)
  | 0, o => .ok o
  | _ + 1, [] => .error .ub
  | carry + 1, z :: o => do
    let t := (z.toNat + (carry + 1)) % 2 ^ 64
    let o ← carryRow (t / 2 ^ 32) o
    return BitVec.ofNat 32 t :: o

/-- The loop over `j` for `x = a[i]`, on `o` from `o[i]` on, then the carry loop. -/
def mulRow (x : Limb) : Nat → List Limb → List Limb → Result (List Limb)
  | carry, [], o => carryRow carry o
  | _, _ :: _, [] => .error .ub
  | carry, y :: b, z :: o => do
    let t := (x.toNat * y.toNat + z.toNat + carry) % 2 ^ 64
    let o ← mulRow x (t / 2 ^ 32) b o
    return BitVec.ofNat 32 t :: o

/-- The loop over `i`: limb `o[i]` is final after row `i`. -/
def mulLoop (b : List Limb) : List Limb → List Limb → Result (List Limb)
  | [], o => .ok o
  | x :: a, o => do
    match ← mulRow x 0 b o with
    | [] => .error .ub
    | z :: o =>
      let o ← mulLoop b a o
      return z :: o

/-- `bn_mul_wide`. -/
def bnMulWide (a b : Bn256) : Result (List Limb) := mulLoop b.1 a.1 (List.replicate 16 0)

/-! ## Modular arithmetic -/

/-- The loop that shifts `rem` left by one bit. -/
def shlLoop : Limb → List Limb → List Limb
  | _, [] => []
  | carry, x :: l => (x <<< 1 ||| carry) :: shlLoop (x >>> 31) l

/-- `rem[0] |= b`. -/
def orLow (b : Bool) : List Limb → List Limb
  | [] => []
  | x :: l => (x ||| (BitVec.ofBool b).setWidth 32) :: l

/-- `rem9_ge_m`, on the low 8 limbs of `rem` and `rem[8]`. -/
def rem9GeM (rem : List Limb) (hi : Limb) (m : Bn256) : Bool :=
  hi != 0 || 0 ≤ cmpLoop (rem.zip m.1).reverse

/-- One turn of the loop of `mod_reduce_wide`, on the 9 limbs of `rem`. -/
def reduceStep (wide : List Limb) (m : Bn256) (rem : List Limb) (bit : Nat) : List Limb :=
  let rem := orLow ((wide.getD (bit / 32) 0).getLsbD (bit % 32)) (shlLoop 0 rem)
  let hi := rem.getD 8 0
  if rem9GeM (rem.take 8) hi m then
    let r := subLoop 0 ((rem.take 8).zip m.1)
    r.1 ++ [BitVec.ofNat 32 (hi.toNat + 2 ^ 64 - r.2)]
  else rem

theorem length_shlLoop : ∀ (c : Limb) (l : List Limb), (shlLoop c l).length = l.length
  | _, [] => rfl
  | _, _ :: l => by rw [shlLoop, List.length_cons, length_shlLoop _ l]; rfl

theorem length_orLow (b : Bool) (l : List Limb) : (orLow b l).length = l.length := by cases l <;> rfl

theorem length_reduceStep {wide : List Limb} {m : Bn256} {rem : List Limb} (bit : Nat)
    (h : rem.length = 9) : (reduceStep wide m rem bit).length = 9 := by
  simp only [reduceStep]
  split
  · simp [length_subLoop, length_orLow, length_shlLoop, h, m.2]
  · rw [length_orLow, length_shlLoop, h]

theorem length_foldl_reduceStep (wide : List Limb) (m : Bn256) : ∀ (bits : List Nat) (rem : List Limb),
    rem.length = 9 → (bits.foldl (reduceStep wide m) rem).length = 9
  | [], _, h => h
  | b :: bits, _, h => length_foldl_reduceStep wide m bits _ (length_reduceStep b h)

/-- `mod_reduce_wide`. -/
def modReduceWide (wide : List Limb) (m : Bn256) : Bn256 :=
  ⟨((List.range 512).reverse.foldl (reduceStep wide m) (List.replicate 9 0)).take 8, by
    rw [List.length_take, length_foldl_reduceStep _ _ _ _ (by simp)]; rfl⟩

/-- `mod_add`. -/
def modAdd (a b m : Bn256) : Bn256 :=
  let (sum, carry) := bnAddRaw a b
  if carry ≠ 0 ∨ 0 ≤ bnCmp sum m then (bnSubRaw sum m).1 else sum

/-- `mod_sub`. -/
def modSub (a b m : Bn256) : Bn256 :=
  let (diff, borrow) := bnSubRaw a b
  if borrow ≠ 0 then (bnAddRaw diff m).1 else diff

/-- `mod_mul`. -/
def modMul (a b m : Bn256) : Result Bn256 := do
  let wide ← bnMulWide a b
  return modReduceWide wide m

/-- One turn of the loop of `mod_pow`, on `result` and `b`. -/
def powStep (exp m : Bn256) (s : Bn256 × Bn256) (i : Nat) : Result (Bn256 × Bn256) := do
  let result ← (if bnTestBit exp i then modMul s.1 s.2 m else .ok s.1)
  let b ← modMul s.2 s.2 m
  return (result, b)

/-- `mod_pow`. -/
def modPow (base exp m : Bn256) : Result Bn256 := do
  let s ← (List.range 256).foldlM (powStep exp m) (bnOfLimb 1, base)
  return s.1

/-- `mod_inv`. -/
def modInv (a m : Bn256) : Result Bn256 := modPow a (bnSubRaw m (bnOfLimb 2)).1 m

/-- The value of a `bn256`. -/
def bnVal (l : List Limb) : Nat := l.foldr (fun x v => x.toNat + 2 ^ 32 * v) 0

/-- The loop of `mod_reduce_once`: a turn lowers `a` unless `m` is 0. -/
def reduceOnceLoop (m : Bn256) : Nat → Bn256 → Result Bn256
  | 0, _ => .error .ub
  | fuel + 1, a => if 0 ≤ bnCmp a m then reduceOnceLoop m fuel (bnSubRaw a m).1 else .ok a

/-- `mod_reduce_once`. -/
def modReduceOnce (a m : Bn256) : Result Bn256 := reduceOnceLoop m (bnVal a.1 + 1) a

/-! ## Points -/

/-- `ec_point`, in Jacobian coordinates. -/
inductive EcPoint where
  | infinity
  | jacobian (x y z : Bn256)

/-- `point_double` for a point that is not at infinity. -/
def doubleJacobian (x y z : Bn256) : Result EcPoint := if bnIsZero y then .ok .infinity else do
  let delta ← modMul z z P256_P
  let gamma ← modMul y y P256_P
  let beta ← modMul x gamma P256_P
  let x1MinusDelta := modSub x delta P256_P
  let x1PlusDelta := modAdd x delta P256_P
  let alphaBase ← modMul x1MinusDelta x1PlusDelta P256_P
  let alpha := modAdd (modAdd alphaBase alphaBase P256_P) alphaBase P256_P
  let alphaSq ← modMul alpha alpha P256_P
  let twoBeta := modAdd beta beta P256_P
  let fourBeta := modAdd twoBeta twoBeta P256_P
  let eightBeta := modAdd fourBeta fourBeta P256_P
  let x3 := modSub alphaSq eightBeta P256_P
  let y1PlusZ1 := modAdd y z P256_P
  let y1z1Sq ← modMul y1PlusZ1 y1PlusZ1 P256_P
  let z3Tmp := modSub y1z1Sq gamma P256_P
  let z3 := modSub z3Tmp delta P256_P
  let fourBetaMinusX3 := modSub fourBeta x3 P256_P
  let alphaTimes ← modMul alpha fourBetaMinusX3 P256_P
  let gammaSq ← modMul gamma gamma P256_P
  let twoGammaSq := modAdd gammaSq gammaSq P256_P
  let fourGammaSq := modAdd twoGammaSq twoGammaSq P256_P
  let eightGammaSq := modAdd fourGammaSq fourGammaSq P256_P
  let y3 := modSub alphaTimes eightGammaSq P256_P
  return .jacobian x3 y3 z3

/-- `point_double`. -/
def pointDouble : EcPoint → Result EcPoint
  | .infinity => .ok .infinity
  | .jacobian x y z => doubleJacobian x y z

/-- `point_add` for two points that are not at infinity. -/
def addJacobian (x1 y1 z1 x2 y2 z2 : Bn256) : Result EcPoint := do
  let z1z1 ← modMul z1 z1 P256_P
  let z2z2 ← modMul z2 z2 P256_P
  let u1 ← modMul x1 z2z2 P256_P
  let u2 ← modMul x2 z1z1 P256_P
  let z1z1z1 ← modMul z1z1 z1 P256_P
  let z2z2z2 ← modMul z2z2 z2 P256_P
  let s1 ← modMul y1 z2z2z2 P256_P
  let s2 ← modMul y2 z1z1z1 P256_P
  let h := modSub u2 u1 P256_P
  let rr := modSub s2 s1 P256_P
  if bnIsZero h then
    if bnIsZero rr then doubleJacobian x1 y1 z1 else return .infinity
  else do
    let h2 ← modMul h h P256_P
    let h3 ← modMul h2 h P256_P
    let u1h2 ← modMul u1 h2 P256_P
    let twoU1h2 := modAdd u1h2 u1h2 P256_P
    let rr2 ← modMul rr rr P256_P
    let tmp := modSub rr2 h3 P256_P
    let x3 := modSub tmp twoU1h2 P256_P
    let u1h2MinusX3 := modSub u1h2 x3 P256_P
    let tmp ← modMul rr u1h2MinusX3 P256_P
    let s1h3 ← modMul s1 h3 P256_P
    let y3 := modSub tmp s1h3 P256_P
    let z1z2 ← modMul z1 z2 P256_P
    let z3 ← modMul z1z2 h P256_P
    return .jacobian x3 y3 z3

/-- `point_add`. -/
def pointAdd : EcPoint → EcPoint → Result EcPoint
  | .infinity, q => .ok q
  | p, .infinity => .ok p
  | .jacobian x1 y1 z1, .jacobian x2 y2 z2 => addJacobian x1 y1 z1 x2 y2 z2

/-- One turn of the loop of `point_scalar_mult`, on `result` and `addend`. -/
def scalarMultStep (k : Bn256) (s : EcPoint × EcPoint) (i : Nat) : Result (EcPoint × EcPoint) := do
  let result ← (if bnTestBit k i then pointAdd s.1 s.2 else .ok s.1)
  let addend ← pointDouble s.2
  return (result, addend)

/-- `point_scalar_mult`. -/
def pointScalarMult (k : Bn256) (p : EcPoint) : Result EcPoint := do
  let s ← (List.range 256).foldlM (scalarMultStep k) (.infinity, p)
  return s.1

/-- `point_from_affine`. -/
def pointFromAffine (x y : Bn256) : EcPoint := .jacobian x y (bnOfLimb 1)

/-- `point_to_affine`. -/
def pointToAffine (x y z : Bn256) : Result (Bn256 × Bn256) := do
  let zInv ← modInv z P256_P
  let zInv2 ← modMul zInv zInv P256_P
  let zInv3 ← modMul zInv2 zInv P256_P
  let outX ← modMul x zInv2 P256_P
  let outY ← modMul y zInv3 P256_P
  return (outX, outY)

/-! ## Points in memory -/

/-- `ec_point` with all its fields. -/
structure EcPointMem where
  x : Bn256
  y : Bn256
  z : Bn256
  infinity : Bool

namespace EcPointMem

/-- The point, without the coordinates that are not read. -/
def point (e : EcPointMem) : EcPoint := if e.infinity then .infinity else .jacobian e.x e.y e.z

/-- `*r` once a result is written to it. -/
def store (r : EcPointMem) : EcPoint → EcPointMem
  | .infinity => { r with infinity := true }
  | .jacobian x y z => ⟨x, y, z, false⟩

end EcPointMem

/-- `point_double`, with the memory that `r` points to. -/
def pointDoubleInto (r p : EcPointMem) : Result EcPointMem :=
  if p.infinity then .ok { r with infinity := true } else r.store <$> doubleJacobian p.x p.y p.z

/-- `point_add`, with the memory that `r` points to. -/
def pointAddInto (r p q : EcPointMem) : Result EcPointMem :=
  if p.infinity then .ok q
  else if q.infinity then .ok p
  else r.store <$> addJacobian p.x p.y p.z q.x q.y q.z

/-- One turn of the loop of `point_scalar_mult`; `locals i` is what `tmp` and `dbl` hold before it. -/
def scalarMultStepInto (k : Bn256) (locals : Nat → EcPointMem × EcPointMem) (s : EcPointMem × EcPointMem) (i : Nat) :
    Result (EcPointMem × EcPointMem) := do
  let result ← (if bnTestBit k i then pointAddInto (locals i).1 s.1 s.2 else .ok s.1)
  let addend ← pointDoubleInto (locals i).2 s.2
  return (result, addend)

/-- `point_scalar_mult`; `result` is what the local variable holds before `infinity` is set. -/
def pointScalarMultInto (result : EcPointMem) (locals : Nat → EcPointMem × EcPointMem) (k : Bn256) (p : EcPointMem) :
    Result EcPointMem := do
  let s ← (List.range 256).foldlM (scalarMultStepInto k locals) ({ result with infinity := true }, p)
  return s.1

/-- `point_from_affine`; every field of `out` is written. -/
def pointFromAffineInto (x y : Bn256) : EcPointMem := ⟨x, y, bnOfLimb 1, false⟩

/-- `point_to_affine`; `infinity` is not read. -/
def pointToAffineOf (p : EcPointMem) : Result (Bn256 × Bn256) := pointToAffine p.x p.y p.z

/-! ## Verification -/

/-- `nd_p256_point_is_valid`. -/
def p256PointIsValid (qx qy : BytesN 32) : Result Unit := do
  let x := bnFromBytesBe qx
  let y := bnFromBytesBe qy
  failIf (0 ≤ bnCmp x P256_P ∨ 0 ≤ bnCmp y P256_P) .badArg
  let lhs ← modMul y y P256_P
  let x2 ← modMul x x P256_P
  let x3 ← modMul x2 x P256_P
  let ax ← modMul P256_A x P256_P
  let rhs := modAdd x3 ax P256_P
  let rhs := modAdd rhs P256_B P256_P
  failIf (bnCmp lhs rhs ≠ 0) .badArg

/-- `if (st != ND_OK) return ND_ERR_AUTH_FAILED`. -/
def orAuthFailed : Result Unit → Result Unit
  | .ok () => .ok ()
  | .error .ub => .error .ub
  | .error _ => .error .authFailed

/-- The end of `nd_p256_ecdsa_verify`: the affine x-coordinate of the sum, reduced, is `rr`. -/
def checkSum (rr : Bn256) : EcPoint → Result Unit
  | .infinity => .error .authFailed
  | .jacobian x y z => do
    let (v, _) ← pointToAffine x y z
    let v ← modReduceOnce v P256_N
    failIf (bnCmp v rr ≠ 0) .authFailed

/-- `nd_p256_ecdsa_verify`. -/
def p256EcdsaVerify (qx qy hash rBytes sBytes : BytesN 32) : Result Unit := do
  orAuthFailed (p256PointIsValid qx qy)
  let rr := bnFromBytesBe rBytes
  let s := bnFromBytesBe sBytes
  failIf (bnIsZero rr ∨ 0 ≤ bnCmp rr P256_N) .authFailed
  failIf (bnIsZero s ∨ 0 ≤ bnCmp s P256_N) .authFailed
  let e ← modReduceOnce (bnFromBytesBe hash) P256_N
  let w ← modInv s P256_N
  let u1 ← modMul e w P256_N
  let u2 ← modMul rr w P256_N
  let g := pointFromAffine P256_GX P256_GY
  let q := pointFromAffine (bnFromBytesBe qx) (bnFromBytesBe qy)
  let p1 ← pointScalarMult u1 g
  let p2 ← pointScalarMult u2 q
  let sum ← pointAdd p1 p2
  checkSum rr sum

end ND.Impl.P256
