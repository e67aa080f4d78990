import NanoDtls.Proof.P256.Points

/-!
# The struct `ec_point` and the group

A struct is valid (`Valid`) if it is at infinity or holds reduced coordinates
of a point of the curve with `Z ≠ 0`, and denotes (`Valid.denotes`) that
point. The functions on structs are those on `EcPoint` as to what they denote
(`point_double`, `point_add`, `point_scalarMult`): what the memory held before,
and the coordinates that a result at infinity leaves there, is never read. So
they are the group law on valid structs (`refines_group`).
-/

namespace ND.Proof.P256

open ND.Impl ND.Impl.P256
open ND.Spec.Ecdsa (p curve OnCurve nonsingular)
open WeierstrassCurve.Affine (Point)

/-! ## Valid structs -/

/-- The coordinates of a struct that is not at infinity: reduced, with `z ≠ 0`, on the curve. -/
structure Coordinates (e : EcPointMem) : Prop where
  x_lt : bnVal e.x.1 < p
  y_lt : bnVal e.y.1 < p
  z_lt : bnVal e.z.1 < p
  z_ne : bnVal e.z.1 ≠ 0
  equation : (bnVal e.y.1 : ZMod p) ^ 2 =
    (bnVal e.x.1 : ZMod p) ^ 3 - 3 * bnVal e.x.1 * (bnVal e.z.1 : ZMod p) ^ 4 + Spec.Ecdsa.b * (bnVal e.z.1 : ZMod p) ^ 6

/-- A valid `ec_point`. -/
def Valid (e : EcPointMem) : Prop := e.infinity = true ∨ Coordinates e

theorem Coordinates.cast_z_ne {e : EcPointMem} (h : Coordinates e) : (bnVal e.z.1 : ZMod p) ≠ 0 := by
  rw [Ne, ZMod.natCast_eq_zero_iff]
  exact fun hd => h.z_ne (Nat.eq_zero_of_dvd_of_lt hd h.z_lt)

/-- `(x / z², y / z³)` is on the curve. -/
theorem Coordinates.affine {e : EcPointMem} (h : Coordinates e) :
    curve.Nonsingular ((bnVal e.x.1 : ZMod p) / (bnVal e.z.1 : ZMod p) ^ 2) (bnVal e.y.1 / (bnVal e.z.1 : ZMod p) ^ 3) := by
  have hz := h.cast_z_ne
  apply nonsingular
  field_simp
  linear_combination h.equation

/-- The point that a valid struct denotes. -/
noncomputable def Valid.denotes {e : EcPointMem} (h : Valid e) : curve.Point :=
  if hinf : e.infinity = true then 0 else .some _ _ (h.resolve_left hinf).affine

theorem Valid.denotes_infinity {e : EcPointMem} (h : Valid e) (hinf : e.infinity = true) : h.denotes = 0 := by
  rw [Valid.denotes, dif_pos hinf]

theorem Valid.denotes_affine {e : EcPointMem} (h : Valid e) (hinf : ¬ e.infinity = true) :
    h.denotes = .some _ _ (h.resolve_left hinf).affine := by
  rw [Valid.denotes, dif_neg hinf]

theorem rep_denotes {e : EcPointMem} (h : Valid e) : Rep e.point h.denotes := by
  by_cases hinf : e.infinity = true
  · rw [EcPointMem.point, if_pos hinf, h.denotes_infinity hinf]
    rfl
  · have hc := h.resolve_left hinf
    have hz := hc.cast_z_ne
    rw [EcPointMem.point, if_neg hinf, h.denotes_affine hinf]
    refine ⟨_, _, _, ⟨hc.x_lt, rfl⟩, ⟨hc.y_lt, rfl⟩, ⟨hc.z_lt, rfl⟩, hz, ?_, ?_⟩ <;> field_simp

theorem valid_of_rep {e : EcPointMem} {P : curve.Point} (h : Rep e.point P) : ∃ hv : Valid e, hv.denotes = P := by
  by_cases hinf : e.infinity = true
  · rw [EcPointMem.point, if_pos hinf] at h
    exact ⟨.inl hinf, (Valid.denotes_infinity _ hinf).trans h.symm⟩
  · rw [EcPointMem.point, if_neg hinf] at h
    obtain ⟨X, Y, Z, hx, hy, hz, hJ⟩ := h
    cases P with
    | zero => exact hJ.elim
    | some x y hP =>
      obtain ⟨hZ, hX, hY⟩ := hJ
      have hon := shortWeierstrass_equation.mp hP.1
      have hc : Coordinates e := by
        refine ⟨hx.1, hy.1, hz.1, ?_, ?_⟩
        · intro h0
          apply hZ
          rw [← hz.2, h0, Nat.cast_zero]
        · rw [hx.2, hy.2, hz.2, hX, hY]
          linear_combination Z ^ 6 * hon
      refine ⟨.inr hc, (Valid.denotes_affine _ hinf).trans ?_⟩
      rw [Point.some.injEq, hx.2, hy.2, hz.2, hX, hY]
      constructor <;> field_simp

/-! ## The functions on structs -/

theorem point_store (r : EcPointMem) (e : EcPoint) : (r.store e).point = e := by
  cases e <;> rfl

theorem point_map_store (r : EcPointMem) (x : Result EcPoint) : EcPointMem.point <$> r.store <$> x = x := by
  cases x with
  | error st => rfl
  | ok e => exact congrArg Except.ok (point_store r e)

theorem point_double (r e : EcPointMem) : EcPointMem.point <$> pointDoubleInto r e = pointDouble e.point := by
  rw [pointDoubleInto, EcPointMem.point]
  split
  · rfl
  · exact point_map_store r _

theorem point_add (r e f : EcPointMem) : EcPointMem.point <$> pointAddInto r e f = pointAdd e.point f.point := by
  obtain ⟨x₁, y₁, z₁, _ | _⟩ := e
  · obtain ⟨x₂, y₂, z₂, _ | _⟩ := f
    · exact point_map_store r _
    · rfl
  · rfl

/-- A turn of the loop, on both points of its state. -/
def points (s : EcPointMem × EcPointMem) : EcPoint × EcPoint := (s.1.point, s.2.point)

theorem points_step (k : Bn256) (locals : Nat → EcPointMem × EcPointMem) (s : EcPointMem × EcPointMem) (i : Nat) :
    points <$> scalarMultStepInto k locals s i = scalarMultStep k (points s) i := by
  have hdouble := point_double (locals i).2 s.2
  have hresult : EcPointMem.point <$> (if bnTestBit k i then pointAddInto (locals i).1 s.1 s.2 else .ok s.1) =
      (if bnTestBit k i then pointAdd s.1.point s.2.point else .ok s.1.point) := by
    split
    · exact point_add _ _ _
    · rfl
  rw [scalarMultStepInto, scalarMultStep, points, ← hresult, ← hdouble]
  cases (if bnTestBit k i then pointAddInto (locals i).1 s.1 s.2 else .ok s.1) with
  | error st => rfl
  | ok result => cases pointDoubleInto (locals i).2 s.2 <;> rfl

theorem points_foldlM (k : Bn256) (locals : Nat → EcPointMem × EcPointMem) : ∀ (bits : List Nat) (s : EcPointMem × EcPointMem),
    points <$> bits.foldlM (scalarMultStepInto k locals) s = bits.foldlM (scalarMultStep k) (points s)
  | [], s => rfl
  | i :: bits, s => by
    rw [List.foldlM_cons, List.foldlM_cons, ← points_step k locals s i]
    cases scalarMultStepInto k locals s i with
    | error st => rfl
    | ok s' => exact points_foldlM k locals bits s'

theorem point_scalarMult (result : EcPointMem) (locals : Nat → EcPointMem × EcPointMem) (k : Bn256) (e : EcPointMem) :
    EcPointMem.point <$> pointScalarMultInto result locals k e = pointScalarMult k e.point := by
  have hloop := points_foldlM k locals (List.range 256) ({ result with infinity := true }, e)
  rw [pointScalarMultInto, pointScalarMult]
  rw [show points ({ result with infinity := true }, e) = (.infinity, e.point) from rfl] at hloop
  rw [← hloop]
  cases (List.range 256).foldlM (scalarMultStepInto k locals) ({ result with infinity := true }, e) <;> rfl

/-! ## The group -/

/-- A function on structs that is a function on points gives valid structs. -/
theorem exists_valid {x : Result EcPointMem} {e : EcPoint} {P : curve.Point} (h : EcPointMem.point <$> x = .ok e)
    (hrep : Rep e P) : ∃ R, x = .ok R ∧ ∃ hR : Valid R, hR.denotes = P := by
  obtain ⟨R, hx, rfl⟩ := map_eq_ok.mp h
  exact ⟨R, hx, valid_of_rep hrep⟩

/-- On valid structs, with anything in the memory that is written to: `point_double`, `point_add` and
`point_scalar_mult` give valid structs and are the operations of the group, `point_from_affine` gives a valid struct for a
point of the curve, and `point_to_affine` the coordinates of a point that is not at infinity. -/
theorem refines_group (r : EcPointMem) (locals : Nat → EcPointMem × EcPointMem) (e f : EcPointMem) (he : Valid e) (hf : Valid f)
    (k : Bn256) :
    (∃ R, pointDoubleInto r e = .ok R ∧ ∃ hR : Valid R, hR.denotes = 2 • he.denotes) ∧
    (∃ R, pointAddInto r e f = .ok R ∧ ∃ hR : Valid R, hR.denotes = he.denotes + hf.denotes) ∧
    (∃ R, pointScalarMultInto r locals k e = .ok R ∧ ∃ hR : Valid R, hR.denotes = bnVal k.1 • he.denotes) ∧
    (∀ (x y : Bn256) (h : OnCurve (bnVal x.1) (bnVal y.1)),
      ∃ hR : Valid (pointFromAffineInto x y), hR.denotes = .some _ _ (nonsingular h.2.2)) ∧
    (e.infinity = false → ∃ x y h o, he.denotes = .some x y h ∧ pointToAffineOf e = .ok o ∧ bnVal o.1.1 = x.val ∧
      bnVal o.2.1 = y.val) := by
  have hrep := rep_denotes he
  refine ⟨?_, ?_, ?_, ?_, ?_⟩
  · obtain ⟨e', hdouble, hrep'⟩ := pointDouble_ok hrep
    rw [two_nsmul]
    exact exists_valid ((point_double r e).trans hdouble) hrep'
  · obtain ⟨e', hadd, hrep'⟩ := pointAdd_ok hrep (rep_denotes hf)
    exact exists_valid ((point_add r e f).trans hadd) hrep'
  · obtain ⟨e', hmult, hrep'⟩ := pointScalarMult_ok k hrep
    exact exists_valid ((point_scalarMult r locals k e).trans hmult) hrep'
  · intro x y h
    exact valid_of_rep (rep_fromAffine ⟨h.1, rfl⟩ ⟨h.2.1, rfl⟩ (nonsingular h.2.2))
  · intro hinf
    have hne : ¬ e.infinity = true := by simp [hinf]
    rw [EcPointMem.point, if_neg hne, he.denotes_affine hne] at hrep
    obtain ⟨o, ho, rx, ry⟩ := pointToAffine_ok hrep
    exact ⟨_, _, _, o, he.denotes_affine hne, ho, rx.val.symm, ry.val.symm⟩

/-- The base point, as `point_from_affine` makes it. -/
theorem valid_base : Valid (pointFromAffineInto P256_GX P256_GY) := by
  refine .inr ⟨by decide, by decide, by decide, by decide, ?_⟩
  have hone : bnVal (pointFromAffineInto P256_GX P256_GY).z.1 = 1 := by decide
  have hgx : bnVal P256_GX.1 = Spec.Ecdsa.gx := by decide
  have hgy : bnVal P256_GY.1 = Spec.Ecdsa.gy := by decide
  rw [hone, pointFromAffineInto, hgx, hgy, Spec.Ecdsa.g_on_curve]
  push_cast
  ring

theorem refines_group_base : ∃ R,
    pointAddInto (pointFromAffineInto P256_P P256_P) (pointFromAffineInto P256_GX P256_GY)
      (pointFromAffineInto P256_GX P256_GY) = .ok R ∧
    ∃ hR : Valid R, hR.denotes = valid_base.denotes + valid_base.denotes := by
  obtain ⟨-, hadd, -⟩ := refines_group (pointFromAffineInto P256_P P256_P) (fun _ => (pointFromAffineInto P256_P P256_P,
    pointFromAffineInto P256_P P256_P)) _ _ valid_base valid_base P256_N
  exact hadd

end ND.Proof.P256
