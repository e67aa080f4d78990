import NanoDtls.Proof.X25519.Agreement

/-!
# The shifts of `fe_carry`

`fe_carry` adds `2^16` to a limb before it shifts it, so that the carry of a
limb down to `-2^16` is computed without a shift of a negative number. The limbs
of a product can be smaller: those of a difference have both signs. The trace of
a run has the operands of its shifts. A coordinate that is zero leaves nothing
to subtract after the first turn of the ladder, so that no shift has a negative
operand (`shifts_defined_of_zero`); with the base point two turns are enough for
a negative one, whatever the scalar is (`base_shifts_negative`).
-/

namespace ND.Proof.X25519

open ND.Impl ND.Impl.X25519

/-! ## One pass -/

theorem i64_eq_ok {v w : Int} (h : i64 v = .ok w) : v = w := by
  unfold i64 at h
  split at h
  · exact Except.ok.inj h
  · cases h

/-- The limbs after the bias, from a carry into the first one. -/
def biased : Int → List Int → List Int
  | _, [] => []
  | c, x :: l => (x + c + 2 ^ 16) :: biased ((x + c + 2 ^ 16) / 2 ^ 16 - 1) l

/-- From limbs that are not negative, the pass shifts nothing negative, and leaves and carries nothing negative. -/
theorem carryLoop_nonneg : ∀ (l : List Int) {c c' : Int} {d : List Int}, carryLoop c l = .ok (d, c') → 0 ≤ c → (∀ x ∈ l, 0 ≤ x) →
    0 ≤ c' ∧ (∀ x ∈ d, 0 ≤ x) ∧ ∀ v ∈ biased c l, 0 ≤ v
  | [], c, c', d, h, hc, _ => by
    cases h
    exact ⟨hc, List.forall_mem_nil _, List.forall_mem_nil _⟩
  | x :: l, c, c', d, h, hc, hl => by
    simp only [carryLoop, bind_eq_ok, pure_eq_ok, Except.ok.injEq, Prod.mk.injEq] at h
    obtain ⟨o₁, h₁, o₂, h₂, carry, h₃, shifted, h₄, o₃, h₅, ⟨l', c''⟩, hloop, rfl, rfl⟩ := h
    obtain rfl := i64_eq_ok h₁
    obtain rfl := i64_eq_ok h₂
    obtain rfl := i64_eq_ok h₃
    obtain rfl := i64_eq_ok h₄
    obtain rfl := i64_eq_ok h₅
    obtain ⟨hx, hl⟩ := List.forall_mem_cons.mp hl
    obtain ⟨hcarry, hd, hv⟩ := carryLoop_nonneg l hloop (by omega) hl
    exact ⟨hcarry, List.forall_mem_cons.mpr ⟨by omega, hd⟩, List.forall_mem_cons.mpr ⟨by omega, hv⟩⟩

theorem feCarry_nonneg {l o : Fe} (h : feCarry l = .ok o) (hl : ∀ x ∈ l, 0 ≤ x) :
    (∀ x ∈ o, 0 ≤ x) ∧ ∀ v ∈ biased 0 l, 0 ≤ v := by
  simp only [feCarry, bind_eq_ok, pure_eq_ok, Except.ok.injEq] at h
  obtain ⟨⟨d, c⟩, hloop, e, he, o0, h0, rfl⟩ := h
  obtain rfl := i64_eq_ok he
  obtain rfl := i64_eq_ok h0
  obtain ⟨hc, hd, hv⟩ := carryLoop_nonneg l hloop le_rfl hl
  refine ⟨fun x hx => ?_, hv⟩
  rcases List.mem_or_eq_of_mem_set hx with hx | rfl
  · exact hd x hx
  · cases d with
    | nil => cases hx
    | cons y d =>
      have := hd y List.mem_cons_self
      rw [List.getD_cons_zero]
      omega

/-- A pass leaves digits alone. -/
theorem feCarry_digits {l : Fe} (h : Digits (2 ^ 16) l) (hlen : l.length = 16) : feCarry l = .ok l := by
  have hloop : ∀ l : List Int, Digits (2 ^ 16) l → carryLoop 0 l = .ok (l, 0) := by
    intro l hl
    induction l with
    | nil => rfl
    | cons x l ih =>
      obtain ⟨hx, hl⟩ := List.forall_mem_cons.mp hl
      have hi {v : Int} (h : 0 ≤ v ∧ v < 2 ^ 17) : i64 v = .ok v := i64_ok (abs_lt.mpr ⟨by omega, by omega⟩)
      have hq : (x + 2 ^ 16) / 2 ^ 16 = 1 := by omega
      simp only [carryLoop, add_zero, hi (v := x) (by omega), hi (v := x + 2 ^ 16) (by omega), ok_bind, hq]
      simp only [sub_self, one_mul, hi (v := 0) (by omega), hi (v := 2 ^ 16) (by omega), add_sub_cancel_right,
        hi (v := x) (by omega), ok_bind, ih hl]
      rfl
  obtain ⟨x, l, rfl⟩ := List.exists_cons_of_length_eq_add_one hlen
  have hx := h x List.mem_cons_self
  simp only [feCarry, hloop _ h, ok_bind, mul_zero, List.getD_cons_zero, add_zero, i64_ok (v := 0) (by decide),
    i64_ok (v := x) (abs_lt.mpr ⟨by omega, by omega⟩), List.set_cons_zero]
  rfl

/-! ## The trace of a pass -/

theorem emits_carryLoop : ∀ (l : List Int) {c c' : Int} {d : List Int}, carryLoop c l = .ok (d, c') →
    Emits (carryLoopTraced c l) (d, c') ((biased c l).map .limb)
  | [], c, c', d, h => by
    cases h
    exact emits_pure _
  | x :: l, c, c', d, h => by
    simp only [carryLoop, bind_eq_ok, pure_eq_ok, Except.ok.injEq, Prod.mk.injEq] at h
    obtain ⟨o₁, h₁, o₂, h₂, carry, h₃, shifted, h₄, o₃, h₅, ⟨l', c''⟩, hl, rfl, rfl⟩ := h
    obtain rfl := i64_eq_ok h₁
    obtain rfl := i64_eq_ok h₂
    obtain rfl := i64_eq_ok h₃
    unfold carryLoopTraced
    refine Emits.of_eq ((emits_lift h₁).bind <| (emits_lift h₂).bind <| (emits_emit _).bind <| (emits_lift h₃).bind <|
      (emits_lift h₄).bind <| (emits_lift h₅).bind <| (emits_carryLoop l hl).bind <| emits_pure _) ?_
    rw [List.append_nil]
    rfl

theorem emits_feCarry {o o' : Fe} (h : feCarry o = .ok o') : Emits (feCarryTraced o) o' ((biased 0 o).map .limb) := by
  simp only [feCarry, bind_eq_ok, pure_eq_ok, Except.ok.injEq] at h
  obtain ⟨⟨d, c⟩, hloop, e, he, o0, h0, rfl⟩ := h
  unfold feCarryTraced
  refine Emits.of_eq ((emits_carryLoop o hloop).bind <| (emits_lift he).bind <| (emits_lift h0).bind <| emits_pure _) ?_
  rw [List.nil_append, List.nil_append, List.append_nil]

/-! ## The trace of a product -/

/-- The summands of column `k` of the schoolbook product. -/
def column (a b : Fe) (k : Nat) : Int :=
  ((indexPairs.filter fun ij => ij.1 + ij.2 = k).map fun ij => a.getD ij.1 0 * b.getD ij.2 0).sum

/-- The limbs that `fe_mul` gives to `fe_carry`. -/
def productLimbs (a b : Fe) : Fe := (List.range 16).map fun i => column a b i + 38 * column a b (i + 16)

theorem getD_columns (a b : Fe) {k : Nat} (hk : k < 31) : (columns a b).getD k 0 = column a b k := by
  rw [columns, getD_addAll _ (by rwa [List.length_replicate]), column, summands, List.filter_map, List.map_map,
    List.getD_eq_getElem?_getD, List.getElem?_replicate, if_pos hk, Option.getD_some, zero_add]
  rfl

theorem column_of_le (a b : Fe) {k : Nat} (hk : 31 ≤ k) : column a b k = 0 := by
  have hnil : (indexPairs.filter fun ij => ij.1 + ij.2 = k) = [] := by
    rw [List.filter_eq_nil_iff]
    intro ij hij
    have := indexPairs_lt ij hij
    simp only [decide_eq_true_eq]
    omega
  rw [column, hnil, List.map_nil, List.sum_nil]

/-- Each low limb with the high one that is folded into it; limb 15 has none. -/
theorem fold_eq_map {t : List Int} (hlen : t.length = 31) :
    ((t.take 15).zip (t.drop 16)).map (fun xy => xy.1 + 38 * xy.2) ++ [t.getD 15 0] =
      (List.range 16).map fun i => t.getD i 0 + 38 * t.getD (i + 16) 0 := by
  have hlow : (((t.take 15).zip (t.drop 16)).map fun xy => xy.1 + 38 * xy.2).length = 15 := by simp [hlen]
  rw [List.range_succ, List.map_append, List.map_singleton, List.getD_eq_default t 0 (n := 15 + 16) (by omega), mul_zero,
    add_zero]
  refine congrArg (· ++ [t.getD 15 0]) (List.ext_getElem (by simp [hlow]) fun i h₁ h₂ => ?_)
  have hi : i < 15 := hlow ▸ h₁
  simp only [List.getElem_map, List.getElem_zip, List.getElem_take, List.getElem_drop, List.getElem_range]
  rw [List.getD_eq_getElem t 0 (by omega), List.getD_eq_getElem t 0 (by omega)]
  simp only [Nat.add_comm]

theorem foldHigh_columns {a b : Fe} (hmem : ∀ x ∈ columns a b, |x| ≤ 2 ^ 43) :
    foldHigh (columns a b) = .ok (productLimbs a b) := by
  rw [foldHigh_eq hmem (by decide), fold_eq_map (length_columns a b), productLimbs]
  refine congrArg Except.ok (List.map_congr_left fun i hi => ?_)
  have hlt : i < 16 := List.mem_range.mp hi
  rw [getD_columns a b (by omega)]
  rcases Nat.lt_or_ge (i + 16) 31 with h | h
  · rw [getD_columns a b h]
  · rw [column_of_le a b h, List.getD_eq_default _ _ (by rw [length_columns]; exact h)]

/-- A product and its two passes. -/
theorem emits_feMul {a b : Fe} (ha : Bnd (2 ^ 17 + 2 ^ 8) a) (hb : Bnd (2 ^ 17 + 2 ^ 8) b) :
    ∃ o₁ o, feCarry (productLimbs a b) = .ok o₁ ∧ feCarry o₁ = .ok o ∧ feMul a b = .ok o ∧
      Emits (feMulTraced a b) o (.mul a b :: ((biased 0 (productLimbs a b)).map .limb ++ (biased 0 o₁).map .limb)) := by
  obtain ⟨o, -, ho, -, -⟩ := feMul_ok ha hb
  obtain ⟨hcols, hmem⟩ := columns_ok ha hb
  have hfold := foldHigh_columns hmem
  have hpasses := ho
  simp only [feMul, hcols, hfold, ok_bind, bind_eq_ok] at hpasses
  obtain ⟨o₁, h₁, h₂⟩ := hpasses
  refine ⟨o₁, o, h₁, h₂, ho, ?_⟩
  exact (emits_emit _).bind <| (emits_lift hcols).bind <| (emits_lift hfold).bind <| (emits_feCarry h₁).bind <|
    emits_feCarry h₂

/-- Two limbs and zeros. -/
def two (a₀ a₁ : Int) : Fe := a₀ :: a₁ :: List.replicate 14 0

theorem getD_two (a₀ a₁ : Int) {i : Nat} (hi : ¬ i < 2) : (two a₀ a₁).getD i 0 = 0 := by
  obtain ⟨j, rfl⟩ := Nat.exists_eq_add_of_le (not_lt.mp hi)
  rw [Nat.add_comm, two, List.getD_cons_succ, List.getD_cons_succ, List.getD_eq_getElem?_getD, List.getElem?_replicate]
  split <;> rfl

theorem indexPairs_low : ∀ k < 31, (indexPairs.filter fun ij => ij.1 + ij.2 = k).filter (fun ij => ij.1 < 2 ∧ ij.2 < 2) =
    if k = 0 then [(0, 0)] else if k = 1 then [(0, 1), (1, 0)] else if k = 2 then [(1, 1)] else [] := by
  decide +kernel

theorem sum_map_filter {α : Type} {p : α → Bool} {f : α → Int} : ∀ {l : List α}, (∀ x ∈ l, p x = false → f x = 0) →
    ((l.filter p).map f).sum = (l.map f).sum
  | [], _ => rfl
  | x :: l, h => by
    obtain ⟨hx, hl⟩ := List.forall_mem_cons.mp h
    cases hp : p x with
    | true => rw [List.filter_cons_of_pos hp, List.map_cons, List.map_cons, List.sum_cons, List.sum_cons, sum_map_filter hl]
    | false => rw [List.filter_cons_of_neg (by simp [hp]), List.map_cons, List.sum_cons, hx hp, zero_add, sum_map_filter hl]

theorem column_two (a₀ a₁ b₀ b₁ : Int) (k : Nat) : column (two a₀ a₁) (two b₀ b₁) k =
    if k = 0 then a₀ * b₀ else if k = 1 then a₀ * b₁ + a₁ * b₀ else if k = 2 then a₁ * b₁ else 0 := by
  rcases Nat.lt_or_ge k 31 with hk | hk
  · rw [column, ← sum_map_filter (p := fun ij => ij.1 < 2 ∧ ij.2 < 2), indexPairs_low k hk]
    · split_ifs <;> simp [two]
    · intro ij _ hij
      rw [decide_eq_false_iff_not, Classical.not_and_iff_not_or_not] at hij
      rcases hij with hi | hj
      · rw [getD_two _ _ hi, zero_mul]
      · rw [getD_two _ _ hj, mul_zero]
  · rw [column_of_le _ _ hk, if_neg (by omega), if_neg (by omega), if_neg (by omega)]

/-- The product of limbs of which only two are not zero. -/
theorem productLimbs_two (a₀ a₁ b₀ b₁ : Int) : productLimbs (two a₀ a₁) (two b₀ b₁) =
    a₀ * b₀ :: (a₀ * b₁ + a₁ * b₀) :: a₁ * b₁ :: List.replicate 13 0 := by
  simp only [productLimbs, column_two, Nat.add_eq_zero_iff, List.range_succ]
  simp

/-- A product like that, from the two passes over it. -/
theorem emits_two {a₀ a₁ b₀ b₁ : Int} (o₁ : Fe) {o : Fe} (ha : Bnd (2 ^ 17 + 2 ^ 8) (two a₀ a₁)) (hb : Bnd (2 ^ 17 + 2 ^ 8) (two b₀ b₁))
    (h₁ : feCarry (a₀ * b₀ :: (a₀ * b₁ + a₁ * b₀) :: a₁ * b₁ :: List.replicate 13 0) = .ok o₁) (h₂ : feCarry o₁ = .ok o) :
    Emits (feMulTraced (two a₀ a₁) (two b₀ b₁)) o (.mul (two a₀ a₁) (two b₀ b₁) ::
      ((biased 0 (a₀ * b₀ :: (a₀ * b₁ + a₁ * b₀) :: a₁ * b₁ :: List.replicate 13 0)).map .limb ++ (biased 0 o₁).map .limb)) := by
  obtain ⟨o₁', o', h₁', h₂', -, hemits⟩ := emits_feMul ha hb
  rw [productLimbs_two] at h₁' hemits
  obtain rfl := Except.ok.inj (h₁.symm.trans h₁')
  obtain rfl := Except.ok.inj (h₂.symm.trans h₂')
  exact hemits

/-! ## A whole run -/

/-- A run with some trace. -/
def traced : Outcome Status Traced := Outcome.traced (fun _ => True) trivial fun _ _ => trivial

theorem emits_mul {a b : Fe} {x y : ZMod Spec.X25519.p} (ha : Loose a x) (hb : Loose b y) :
    ∃ o l, Emits (feMulTraced a b) o l ∧ Rep o (x * y) ∧ ∀ v ∈ biased 0 (productLimbs a b), .limb v ∈ l := by
  obtain ⟨o, ho, hrep⟩ := loose_mul two_pow_255 ha hb
  obtain ⟨o₁, o', -, -, ho', hemits⟩ := emits_feMul ha.bnd hb.bnd
  obtain rfl := Except.ok.inj (ho.symm.trans ho')
  refine ⟨o, _, hemits, hrep, fun v hv => ?_⟩
  exact List.mem_cons_of_mem _ (List.mem_append_left _ (List.mem_map_of_mem hv))

theorem traced_mul {a b : Fe} {x y : ZMod Spec.X25519.p} (ha : Loose a x) (hb : Loose b y) :
    ∃ o, traced.holds (feMulTraced a b) o ∧ Rep o (x * y) := by
  obtain ⟨o, l, hemits, hrep, -⟩ := emits_mul ha hb
  exact ⟨o, ⟨l, hemits, trivial⟩, hrep⟩

/-- `fe_pack` and the operands of the shifts in its three passes. -/
theorem emits_fePack {l : Fe} {b : BytesN 32} (h : fePack l = .ok b) : ∃ t₁ t₂ t₃, feCarry l = .ok t₁ ∧ feCarry t₁ = .ok t₂ ∧
    feCarry t₂ = .ok t₃ ∧
    Emits (fePackTraced l) b ((biased 0 l).map .limb ++ ((biased 0 t₁).map .limb ++ (biased 0 t₂).map .limb)) := by
  simp only [fePack, bind_eq_ok] at h
  obtain ⟨t₁, h₁, t₂, h₂, t₃, h₃, t₄, h₄, t₅, h₅, hbytes⟩ := h
  refine ⟨t₁, t₂, t₃, h₁, h₂, h₃, Emits.of_eq ((emits_feCarry h₁).bind <| (emits_feCarry h₂).bind <| (emits_feCarry h₃).bind <|
    (emits_lift h₄).bind <| (emits_lift h₅).bind <| emits_lift hbytes) ?_⟩
  rw [List.append_nil, List.append_nil, List.append_nil]

theorem traced_pack {l : Fe} {v : ZMod Spec.X25519.p} (h : Rep l v) :
    traced.holds (fePackTraced l) ⟨leBytes 32 v.val, by simp⟩ := by
  obtain ⟨_, _, _, -, -, -, hemits⟩ := emits_fePack (pack_rep h)
  exact ⟨_, hemits, trivial⟩

/-- The trace of a run. -/
def trace (scalar uIn : BytesN 32) : List Event :=
  match (scalarmultTraced scalar uIn).run [] with
  | .ok (_, events) => events
  | .error _ => []

theorem trace_of_emits {scalar uIn out : BytesN 32} {events : List Event}
    (h : Emits (scalarmultTraced scalar uIn) out events) : trace scalar uIn = events := by
  unfold trace
  rw [h.run_nil]

/-- The loop variables before the first turn. -/
def start (x1 : Fe) : Ladder := ⟨feOne, feZero, x1, feOne, false⟩

theorem start_rep (uIn : BytesN 32) : LadderRep (start (feUnpack uIn)) ⟨1, 0, Spec.X25519.decodeUCoordinate uIn, 1, false⟩ :=
  ⟨rep_one, rep_zero, rep_unpack uIn, rep_one, rfl⟩

/-- The first turns of the loop are the first part of the trace. -/
theorem exists_prefix_trace (scalar uIn : BytesN 32) (n : Nat) :
    ∃ s l, (((List.range 255).reverse.take n).foldlM (ladderStepBy feMulTraced (feUnpack uIn) (clamp scalar))
      (start (feUnpack uIn))).run [] = .ok (s, l) ∧ l <+: trace scalar uIn := by
  obtain ⟨s₁, ⟨l₁, h₁, -⟩, hrep₁⟩ := run_ladder traced traced_mul scalar uIn ((List.range 255).reverse.take n) (start_rep uIn)
  obtain ⟨s₂, ⟨l₂, h₂, -⟩, hrep₂⟩ := run_ladder traced traced_mul scalar uIn ((List.range 255).reverse.drop n) hrep₁
  obtain ⟨l₃, h₃, -⟩ := run_result traced traced_mul traced_pack hrep₂
  have hloop : Emits ((List.range 255).reverse.foldlM (ladderStepBy feMulTraced (feUnpack uIn) (clamp scalar))
      (start (feUnpack uIn))) s₂ (l₁ ++ l₂) := by
    rw [← List.take_append_drop n (List.range 255).reverse, List.foldlM_append]
    exact h₁.bind h₂
  refine ⟨s₁, l₁, h₁.run_nil, l₂ ++ l₃, ?_⟩
  rw [trace_of_emits (hloop.bind h₃ : Emits (scalarmultTraced scalar uIn) _ _), List.append_assoc]

theorem clamp_bit_254 (scalar : BytesN 32) : ((clamp scalar).getD (254 / 8) 0).getLsbD (254 % 8) = true := by
  rw [getLsbD_getD, leNat_clamp, Spec.X25519.decodeScalar25519, Nat.testBit_two_pow_add_eq, Nat.testBit_lt_two_pow]
  · rfl
  · have := Nat.mod_lt (leNat scalar.1) (Nat.two_pow_pos 254)
    omega

/-! ## The coordinate zero -/

/-- The operands of the shifts are not negative. -/
def quiet : Outcome Status Traced := Outcome.traced (fun events => ∀ v, .limb v ∈ events → 0 ≤ v) (fun _ h => nomatch h)
  fun h h' v hv => (List.mem_append.mp hv).elim (h v) (h' v)

theorem quiet_limbs {l : List Int} (h : ∀ v ∈ l, 0 ≤ v) (v : Int) (hv : Event.limb v ∈ l.map Event.limb) : 0 ≤ v := by
  obtain ⟨w, hw, heq⟩ := List.mem_map.mp hv
  exact Event.limb.inj heq ▸ h w hw

/-- Limbs of a product, none of them negative. -/
structure Whole (l : Fe) : Prop where
  red : Reduced l
  nonneg : ∀ x ∈ l, 0 ≤ x

theorem getD_of_forall {P : Int → Prop} {l : Fe} (h0 : P 0) (h : ∀ x ∈ l, P x) (i : Nat) : P (l.getD i 0) := by
  rw [List.getD_eq_getElem?_getD]
  cases hi : l[i]? with
  | none => exact h0
  | some x => exact h x (List.mem_of_getElem? hi)

theorem productLimbs_nonneg {a b : Fe} (h : ∀ i j, 0 ≤ a.getD i 0 * b.getD j 0) : ∀ x ∈ productLimbs a b, 0 ≤ x := by
  have hcolumn (k : Nat) : 0 ≤ column a b k := by
    refine List.sum_nonneg fun x hx => ?_
    obtain ⟨ij, -, rfl⟩ := List.mem_map.mp hx
    exact h _ _
  intro x hx
  obtain ⟨i, -, rfl⟩ := List.mem_map.mp hx
  have := hcolumn i
  have := hcolumn (i + 16)
  omega

/-- The events of a product, from limbs that leave no shift with a negative operand. -/
theorem quiet_passes {a b o o₁ l : Fe} (hemits : Emits (feMulTraced a b) o (.mul a b :: ((biased 0 l).map .limb ++ (biased 0 o₁).map .limb)))
    (hl : ∀ v ∈ biased 0 l, 0 ≤ v) (ho₁ : ∀ v ∈ biased 0 o₁, 0 ≤ v) : quiet.holds (feMulTraced a b) o := by
  refine ⟨_, hemits, fun v hv => ?_⟩
  rcases List.mem_cons.mp hv with hv | hv
  · cases hv
  · exact (List.mem_append.mp hv).elim (quiet_limbs hl v) (quiet_limbs ho₁ v)

/-- A product whose summands are not negative. -/
theorem quiet_mul {a b : Fe} (ha : Bnd (2 ^ 17 + 2 ^ 8) a) (hb : Bnd (2 ^ 17 + 2 ^ 8) b)
    (h : ∀ i j, 0 ≤ a.getD i 0 * b.getD j 0) : ∃ o, quiet.holds (feMulTraced a b) o ∧ Whole o := by
  obtain ⟨o, k, ho, hred, -⟩ := feMul_ok ha hb
  obtain ⟨o₁, o', h₁, h₂, ho', hemits⟩ := emits_feMul ha hb
  obtain rfl := Except.ok.inj (ho.symm.trans ho')
  obtain ⟨hn₁, hv₁⟩ := feCarry_nonneg h₁ (productLimbs_nonneg h)
  obtain ⟨hn, hv₂⟩ := feCarry_nonneg h₂ hn₁
  exact ⟨o, quiet_passes hemits hv₁ hv₂, hred, hn⟩

theorem Whole.mul {a b : Fe} (ha : Whole a) (hb : Whole b) : ∃ o, quiet.holds (feMulTraced a b) o ∧ Whole o :=
  quiet_mul (ha.red.bnd.mono (by decide)) (hb.red.bnd.mono (by decide)) fun i j =>
    mul_nonneg (getD_of_forall le_rfl ha.nonneg i) (getD_of_forall le_rfl hb.nonneg j)

theorem whole_zero : Whole feZero := ⟨rep_zero.red, by decide⟩

theorem getD_feZero (i : Nat) : feZero.getD i 0 = 0 := by
  rw [feZero, List.getD_eq_getElem?_getD, List.getElem?_replicate]
  split <;> rfl

/-- A product with zero is zero, whatever the signs of the other limbs are. -/
theorem quiet_zero_mul {b : Fe} (hb : Bnd (2 ^ 17 + 2 ^ 8) b) : quiet.holds (feMulTraced feZero b) feZero := by
  have hzero : productLimbs feZero b = feZero := by
    have hcolumn (k : Nat) : column feZero b k = 0 := by
      refine List.sum_eq_zero fun x hx => ?_
      obtain ⟨ij, -, rfl⟩ := List.mem_map.mp hx
      rw [getD_feZero, zero_mul]
    refine List.map_congr_left (g := fun _ => 0) fun i _ => ?_
    rw [hcolumn, hcolumn, mul_zero, add_zero]
  have hcarry : feCarry feZero = .ok feZero := by decide
  obtain ⟨o₁, o, h₁, h₂, -, hemits⟩ := emits_feMul (whole_zero.red.bnd.mono (by decide)) hb
  rw [hzero] at h₁ hemits
  obtain rfl := Except.ok.inj (hcarry.symm.trans h₁)
  obtain rfl := Except.ok.inj (hcarry.symm.trans h₂)
  have hv := (feCarry_nonneg hcarry whole_zero.nonneg).2
  exact quiet_passes hemits hv hv

theorem quiet_pack {l : Fe} (h : Whole l) : ∃ b, quiet.holds (fePackTraced l) b := by
  obtain ⟨b, hb, -⟩ := fePack_ok h.red
  obtain ⟨t₁, t₂, t₃, h₁, h₂, h₃, hemits⟩ := emits_fePack hb
  obtain ⟨hn₁, hv₁⟩ := feCarry_nonneg h₁ h.nonneg
  obtain ⟨hn₂, hv₂⟩ := feCarry_nonneg h₂ hn₁
  obtain ⟨-, hv₃⟩ := feCarry_nonneg h₃ hn₂
  refine ⟨b, _, hemits, fun v hv => ?_⟩
  rcases List.mem_append.mp hv with hv | hv
  · exact quiet_limbs hv₁ v hv
  · exact (List.mem_append.mp hv).elim (quiet_limbs hv₂ v) (quiet_limbs hv₃ v)

/-- An operation on limbs and those that `g` makes of them. -/
theorem mapM_zip_map (f : Int → Int → Int) (g : Int → Int) : ∀ a : Fe, (∀ x ∈ a, |f x (g x)| < 2 ^ 63) →
    ((a.zip (a.map g)).mapM fun xy => i64 (f xy.1 xy.2)) = .ok (a.map fun x => f x (g x))
  | [], _ => rfl
  | x :: a, h => by
    obtain ⟨hx, ha⟩ := List.forall_mem_cons.mp h
    rw [List.map_cons, List.zip_cons_cons, List.mapM_cons, i64_ok hx, ok_bind, mapM_zip_map f g a ha]
    rfl

section Limbs

variable {a : Fe} (ha : Whole a)
include ha

theorem Whole.zero_eq : feZero = a.map fun _ => 0 := by
  rw [List.map_const', ha.red.len]
  rfl

theorem Whole.abs_lt {x : Int} (hx : x ∈ a) : |x| < 2 ^ 63 := (ha.red.bnd.abs_le x hx).trans_lt (by decide)

theorem Whole.feAdd_zero : feAdd a feZero = .ok a := by
  rw [feAdd, ha.zero_eq, mapM_zip_map (· + ·) _ a (fun x hx => by rw [add_zero]; exact ha.abs_lt hx)]
  simp

theorem Whole.feSub_zero : feSub a feZero = .ok a := by
  rw [feSub, ha.zero_eq, mapM_zip_map (· - ·) _ a (fun x hx => by rw [sub_zero]; exact ha.abs_lt hx)]
  simp

theorem Whole.feSub_self : feSub a a = .ok feZero := by
  have hmap := mapM_zip_map (· - ·) id a fun x _ => by simp
  rw [List.map_id] at hmap
  rw [feSub, hmap, ha.zero_eq]
  simp

/-- Limbs added to themselves. -/
theorem Whole.double : ∃ o, feAdd a a = .ok o ∧ Bnd (2 ^ 17 + 2 ^ 8) o ∧ ∀ x ∈ o, 0 ≤ x := by
  have hmem {x : Int} (hx : x ∈ a) : 0 ≤ x + x ∧ x + x ≤ 2 ^ 17 + 2 ^ 8 := by
    have hle := abs_le.mp (ha.red.bnd.abs_le x hx)
    have := ha.nonneg x hx
    omega
  have hmap := mapM_zip_map (· + ·) id a fun x hx => by
    rw [id, abs_of_nonneg (hmem hx).1]
    exact (hmem hx).2.trans_lt (by decide)
  rw [List.map_id] at hmap
  refine ⟨_, hmap, ⟨by rw [List.length_map, ha.red.len], ?_⟩, ?_⟩
  · intro y hy
    obtain ⟨x, hx, rfl⟩ := List.mem_map.mp hy
    exact (abs_of_nonneg (hmem hx).1).trans_le (hmem hx).2
  · intro y hy
    obtain ⟨x, hx, rfl⟩ := List.mem_map.mp hy
    exact (hmem hx).1

end Limbs

/-- The loop variables once both `z` are zero. -/
structure Idle (s : Ladder) : Prop where
  x2 : Whole s.x2
  z2 : s.z2 = feZero
  x3 : Whole s.x3
  z3 : s.z3 = feZero

/-- `A` and `B` are `x2`, `C` and `D` are `x3`, and the differences `E` and `diff` are zero. -/
theorem Idle.step {s : Ladder} (h : Idle s) (k : Bytes) (t : Nat) :
    ∃ s', quiet.holds (ladderStepBy feMulTraced feZero k s t) s' ∧ Idle s' := by
  unfold ladderStepBy ladderRestBy
  rw [h.z2, h.z3]
  generalize (k.getD (t / 8) 0).getLsbD (t % 8) = kt
  have hz : feCswap (s.swap ^^ kt) feZero feZero = (feZero, feZero) := by
    rw [feCswap_ok _ whole_zero.red.bnd whole_zero.red.bnd (by decide), ite_self]
  obtain ⟨x2, x3, hx, w2, w3⟩ : ∃ x2 x3, feCswap (s.swap ^^ kt) s.x2 s.x3 = (x2, x3) ∧ Whole x2 ∧ Whole x3 := by
    rw [feCswap_ok _ h.x2.red.bnd h.x3.red.bnd (by decide)]
    cases s.swap ^^ kt with
    | false => exact ⟨_, _, rfl, h.x2, h.x3⟩
    | true => exact ⟨_, _, rfl, h.x3, h.x2⟩
  simp only [hx, hz]
  obtain ⟨AA, hAA, wAA⟩ := w2.mul w2
  obtain ⟨DA, hDA, wDA⟩ := w3.mul w2
  obtain ⟨sum, hsum, bsum, nsum⟩ := wDA.double
  obtain ⟨x3', hx3', wx3'⟩ := quiet_mul bsum bsum fun i j => mul_nonneg (getD_of_forall le_rfl nsum i) (getD_of_forall le_rfl nsum j)
  obtain ⟨x2', hx2', wx2'⟩ := wAA.mul wAA
  have bzero : Bnd (2 ^ 17 + 2 ^ 8) feZero := whole_zero.red.bnd.mono (by decide)
  refine ⟨⟨x2', feZero, x3', feZero, kt⟩, ?_, wx2', rfl, wx3', rfl⟩
  exact quiet.bind (quiet.lift w2.feAdd_zero) <| quiet.bind hAA <| quiet.bind (quiet.lift w2.feSub_zero) <| quiet.bind hAA <|
    quiet.bind (quiet.lift wAA.feSub_self) <| quiet.bind (quiet.lift w3.feAdd_zero) <|
    quiet.bind (quiet.lift w3.feSub_zero) <| quiet.bind hDA <| quiet.bind hDA <| quiet.bind (quiet.lift hsum) <|
    quiet.bind hx3' <| quiet.bind (quiet.lift wDA.feSub_self) <| quiet.bind (quiet_zero_mul bzero) <|
    quiet.bind (quiet_zero_mul bzero) <| quiet.bind hx2' <| quiet.bind (quiet_zero_mul ⟨rfl, by decide⟩) <|
    quiet.bind (quiet.lift wAA.feAdd_zero) <| quiet.bind (quiet_zero_mul (wAA.red.bnd.mono (by decide))) <| quiet.pure _

theorem Idle.run {s : Ladder} (h : Idle s) (k : Bytes) (ts : List Nat) :
    ∃ s', quiet.holds (ts.foldlM (ladderStepBy feMulTraced feZero k) s) s' ∧ Idle s' :=
  quiet.foldlM_sim (g := fun (_ : Unit) _ => ()) (r := fun s _ => Idle s) (t := ()) ts h fun t _ _ _ hs => hs.step k t

theorem Whole.inv {a : Fe} (ha : Whole a) : ∃ o, quiet.holds (feInvBy feMulTraced a) o ∧ Whole o := by
  refine quiet.foldlM_sim (g := fun (_ : Unit) _ => ()) (r := fun c _ => Whole c) (t := ()) _ ha fun i _ c _ hc => ?_
  obtain ⟨s, hs, ws⟩ := hc.mul hc
  unfold invStepBy
  by_cases hi : i ≠ 2 ∧ i ≠ 4
  · obtain ⟨o, ho, wo⟩ := ws.mul ha
    exact ⟨o, quiet.bind hs (by rw [if_pos hi]; exact ho), wo⟩
  · exact ⟨s, quiet.bind hs (by rw [if_neg hi]; exact quiet.pure s), ws⟩

/-- What comes after the loop. -/
theorem Idle.result {s : Ladder} (h : Idle s) : ∃ b, quiet.holds (feInvBy feMulTraced (feCswap s.swap s.z2 s.z3).1 >>=
    fun z2Inv => feMulTraced (feCswap s.swap s.x2 s.x3).1 z2Inv >>= fePackTraced) b := by
  have hx : Whole (feCswap s.swap s.x2 s.x3).1 := by
    rw [feCswap_ok _ h.x2.red.bnd h.x3.red.bnd (by decide)]
    cases s.swap with
    | false => exact h.x2
    | true => exact h.x3
  have hz : Whole (feCswap s.swap s.z2 s.z3).1 := by
    rw [h.z2, h.z3, feCswap_ok _ whole_zero.red.bnd whole_zero.red.bnd (by decide), ite_self]
    exact whole_zero
  obtain ⟨zi, hzi, wzi⟩ := hz.inv
  obtain ⟨o, ho, wo⟩ := hx.mul wzi
  obtain ⟨b, hb⟩ := quiet_pack wo
  exact ⟨b, quiet.bind hzi (quiet.bind ho hb)⟩

/-- Digits of value zero. -/
theorem eq_replicate_of_val : ∀ {l : List Int}, Digits (2 ^ 16) l → val l = 0 → l = List.replicate l.length 0
  | [], _, _ => rfl
  | x :: l, h, hval => by
    obtain ⟨hx, hl⟩ := List.forall_mem_cons.mp h
    have hle := (limbVal_digits (by decide) hl).1
    rw [val, limbVal_cons] at hval
    obtain ⟨rfl, hzero⟩ : x = 0 ∧ limbVal (2 ^ 16) l = 0 := by omega
    rw [List.length_cons, List.replicate_succ, ← eq_replicate_of_val hl hzero]

theorem feUnpack_zero {uIn : BytesN 32} (h : leNat uIn.1 % 2 ^ 255 = 0) : feUnpack uIn = feZero := by
  obtain ⟨hred, hval⟩ := feUnpack_ok uIn
  rw [h] at hval
  rw [eq_replicate_of_val hred.digits hval, hred.len]
  rfl

/-- The first turn swaps, as bit 254 of the scalar is set: `A` is 1 and `B` is -1, the limbs of `sum` are positive and
those of `diff` negative. -/
theorem first_turn_quiet (scalar : BytesN 32) :
    ∃ s, quiet.holds (ladderStepBy feMulTraced feZero (clamp scalar) (start feZero) 254) s ∧ Idle s := by
  have hx : feCswap true feOne feZero = (feZero, feOne) := by decide
  have hz : feCswap true feZero feOne = (feOne, feZero) := by decide
  have hB : feSub feZero feOne = .ok (two (-1) 0) := by decide
  have hcarry : feCarry feOne = .ok feOne := by decide
  have hone {b : Int} (hb : b = 1 ∨ b = -1) : quiet.holds (feMulTraced (two b 0) (two b 0)) feOne := by
    have hbnd : Bnd (2 ^ 17 + 2 ^ 8) (two b 0) := by rcases hb with rfl | rfl <;> exact ⟨rfl, by decide⟩
    have hv := (feCarry_nonneg hcarry (by decide)).2
    refine quiet_passes (emits_two feOne hbnd hbnd ?_ hcarry) ?_ hv <;> rcases hb with rfl | rfl
    · exact hcarry
    · exact hcarry
    · exact hv
    · exact hv
  have hCB : quiet.holds (feMulTraced (two 1 0) (two (-1) 0)) (65497 :: List.replicate 15 65535) :=
    quiet_passes (emits_two (65497 :: List.replicate 15 65535) ⟨rfl, by decide⟩ ⟨rfl, by decide⟩ (by decide) (by decide))
      (by decide) (by decide)
  have hsum : feAdd feOne (65497 :: List.replicate 15 65535) = .ok (65498 :: List.replicate 15 65535) := by decide
  have bsum : Bnd (2 ^ 17 + 2 ^ 8) (65498 :: List.replicate 15 65535) := ⟨rfl, by decide⟩
  obtain ⟨x3, hx3, wx3⟩ := quiet_mul bsum bsum fun i j =>
    mul_nonneg (getD_of_forall le_rfl (by decide) i) (getD_of_forall le_rfl (by decide) j)
  have hdiff : feSub feOne (65497 :: List.replicate 15 65535) = .ok (-65496 :: List.replicate 15 (-65535)) := by decide
  have bdiff : Bnd (2 ^ 17 + 2 ^ 8) (-65496 :: List.replicate 15 (-65535)) := ⟨rfl, by decide⟩
  obtain ⟨sqDiff, hsqDiff, wsqDiff⟩ := quiet_mul bdiff bdiff fun i j =>
    mul_nonneg_of_nonpos_of_nonpos (getD_of_forall (P := (· ≤ 0)) le_rfl (by decide) i)
      (getD_of_forall (P := (· ≤ 0)) le_rfl (by decide) j)
  have wone : Whole feOne := ⟨rep_one.red, by decide⟩
  refine ⟨⟨feOne, feZero, x3, feZero, true⟩, ?_, wone, rfl, wx3, rfl⟩
  unfold ladderStepBy ladderRestBy
  simp only [clamp_bit_254, start, Bool.false_xor, hx, hz]
  exact quiet.bind (quiet.lift (by decide : feAdd feZero feOne = .ok feOne)) <| quiet.bind (hone (.inl rfl)) <|
    quiet.bind (quiet.lift hB) <| quiet.bind (hone (.inr rfl)) <| quiet.bind (quiet.lift wone.feSub_self) <|
    quiet.bind (quiet.lift wone.feAdd_zero) <| quiet.bind (quiet.lift wone.feSub_zero) <| quiet.bind (hone (.inl rfl)) <|
    quiet.bind hCB <| quiet.bind (quiet.lift hsum) <| quiet.bind hx3 <| quiet.bind (quiet.lift hdiff) <| quiet.bind hsqDiff <|
    quiet.bind (quiet_zero_mul (wsqDiff.red.bnd.mono (by decide))) <| quiet.bind (hone (.inl rfl)) <|
    quiet.bind (quiet_zero_mul ⟨rfl, by decide⟩) <| quiet.bind (quiet.lift wone.feAdd_zero) <|
    quiet.bind (quiet_zero_mul ⟨rfl, by decide⟩) <| quiet.pure _

/-- For every scalar: if the low 255 bits of the coordinate are zero, the run with the trace is the run, and no shift in
it has a negative operand. -/
theorem shifts_defined_of_zero (scalar uIn : BytesN 32) (h : leNat uIn.1 % 2 ^ 255 = 0) :
    (∃ out, x25519Scalarmult scalar uIn = .ok out ∧
      (scalarmultTraced scalar uIn).run [] = .ok (out, trace scalar uIn)) ∧
    ∀ v, .limb v ∈ trace scalar uIn → 0 ≤ v := by
  obtain ⟨s₁, h₁, idle₁⟩ := first_turn_quiet scalar
  obtain ⟨s₂, h₂, idle₂⟩ := idle₁.run (clamp scalar) (List.range 254).reverse
  obtain ⟨b, hresult⟩ := idle₂.result
  have hrun : quiet.holds (scalarmultTraced scalar uIn) b := by
    have hloop : quiet.holds ((List.range 255).reverse.foldlM (ladderStepBy feMulTraced feZero (clamp scalar))
        (start feZero)) s₂ := by
      rw [List.range_succ, List.reverse_append, List.reverse_singleton, List.singleton_append, List.foldlM_cons]
      exact quiet.bind h₁ h₂
    unfold scalarmultTraced scalarmultBy
    rw [feUnpack_zero h]
    exact quiet.bind hloop hresult
  obtain ⟨events, hemits, hquiet⟩ := run_scalarmult traced traced_mul traced_pack scalar uIn
  obtain ⟨events', hemits', hquiet⟩ := hrun
  obtain ⟨-, rfl⟩ := hemits.unique hemits'
  rw [trace_of_emits hemits]
  exact ⟨⟨_, scalarmult_eq scalar uIn, hemits.run_nil⟩, hquiet⟩

/-- The coordinate zero with bit 255 set. -/
def topBit : BytesN 32 := ⟨List.replicate 31 0 ++ [128], rfl⟩

theorem shifts_defined_of_zero_top :
    leNat topBit.1 % 2 ^ 255 = 0 ∧ ∀ v, .limb v ∈ trace (zeros 32) topBit → 0 ≤ v :=
  ⟨by decide, (shifts_defined_of_zero (zeros 32) topBit (by decide)).2⟩

/-! ## Other coordinates -/

/-- One turn with its operands, after the swap, and the shifts in three of its products. -/
theorem emits_turn {x1 x2 z2 x3 z3 : Fe} {u X2 Z2 X3 Z3 : ZMod Spec.X25519.p} (hu : Rep x1 u) (r2 : Rep x2 X2) (q2 : Rep z2 Z2)
    (r3 : Rep x3 X3) (q3 : Rep z3 Z3) {k : Bytes} {s : Ladder} {t : Nat}
    (hx : feCswap (s.swap ^^ (k.getD (t / 8) 0).getLsbD (t % 8)) s.x2 s.x3 = (x2, x3))
    (hz : feCswap (s.swap ^^ (k.getD (t / 8) 0).getLsbD (t % 8)) s.z2 s.z3 = (z2, z3)) :
    ∃ A B C D s' events, feAdd x2 z2 = .ok A ∧ feSub x2 z2 = .ok B ∧ feAdd x3 z3 = .ok C ∧ feSub x3 z3 = .ok D ∧
      Emits (ladderStepBy feMulTraced x1 k s t) s' events ∧
      ∀ v ∈ biased 0 (productLimbs B B) ++ (biased 0 (productLimbs D A) ++ biased 0 (productLimbs C B)), .limb v ∈ events := by
  obtain ⟨A, hA, rA⟩ := rep_add r2 q2
  obtain ⟨AA, lA, hAA, rAA, -⟩ := emits_mul rA rA
  obtain ⟨B, hB, rB⟩ := rep_sub r2 q2
  obtain ⟨BB, lB, hBB, rBB, mB⟩ := emits_mul rB rB
  obtain ⟨E, hE, rE⟩ := rep_sub rAA rBB
  obtain ⟨C, hC, rC⟩ := rep_add r3 q3
  obtain ⟨D, hD, rD⟩ := rep_sub r3 q3
  obtain ⟨DA, lD, hDA, rDA, mD⟩ := emits_mul rD rA
  obtain ⟨CB, lC, hCB, rCB, mC⟩ := emits_mul rC rB
  obtain ⟨S, hS, rS⟩ := rep_add rDA rCB
  obtain ⟨x3', l₁, hx3', -, -⟩ := emits_mul rS rS
  obtain ⟨T, hT, rT⟩ := rep_sub rDA rCB
  obtain ⟨TT, l₂, hTT, rTT, -⟩ := emits_mul rT rT
  obtain ⟨z3', l₃, hz3', -, -⟩ := emits_mul hu.loose rTT.loose
  obtain ⟨x2', l₄, hx2', -, -⟩ := emits_mul rAA.loose rBB.loose
  obtain ⟨G, l₅, hG, rG, -⟩ := emits_mul rE rep_a24
  obtain ⟨H, hH, rH⟩ := rep_add rAA rG
  obtain ⟨z2', l₆, hz2', -, -⟩ := emits_mul rE rH
  unfold ladderStepBy ladderRestBy
  simp only [hx, hz]
  refine ⟨A, B, C, D, _, _, hA, hB, hC, hD, (emits_lift hA).bind <| hAA.bind <| (emits_lift hB).bind <| hBB.bind <|
    (emits_lift hE).bind <| (emits_lift hC).bind <| (emits_lift hD).bind <| hDA.bind <| hCB.bind <| (emits_lift hS).bind <|
    hx3'.bind <| (emits_lift hT).bind <| hTT.bind <| hz3'.bind <| hx2'.bind <| hG.bind <| (emits_lift hH).bind <| hz2'.bind <|
    emits_pure _, fun v hv => ?_⟩
  rcases List.mem_append.mp hv with hv | hv
  · simp [mB v hv]
  rcases List.mem_append.mp hv with hv | hv
  · simp [mD v hv]
  · simp [mC v hv]

/-- What is part of the first turns is part of the trace. -/
theorem mem_trace_of_turns {scalar uIn : BytesN 32} (n : Nat) {s : Ladder} {l : List Event}
    (h : Emits (((List.range 255).reverse.take n).foldlM (ladderStepBy feMulTraced (feUnpack uIn) (clamp scalar))
      (start (feUnpack uIn))) s l) {e : Event} (he : e ∈ l) : e ∈ trace scalar uIn := by
  obtain ⟨s', l', hrun, hprefix⟩ := exists_prefix_trace scalar uIn n
  obtain ⟨-, rfl⟩ := Prod.mk.inj (Except.ok.inj (hrun.symm.trans h.run_nil))
  exact hprefix.subset he

/-- The coordinate `2^32 - 2^16`, minus one, has the limbs -1, 65535 and zeros; limb 1 of its square is -131070. -/
theorem shift_of_negative :
    .limb (-131070 + 2 ^ 16) ∈ trace (zeros 32) ⟨0 :: 0 :: 255 :: 255 :: List.replicate 28 0, rfl⟩ := by
  have hx : feCswap true feOne (two 0 65535) = (two 0 65535, feOne) := by decide
  have hz : feCswap true feZero feOne = (feOne, feZero) := by decide
  have hu := rep_unpack ⟨0 :: 0 :: 255 :: 255 :: List.replicate 28 0, rfl⟩
  obtain ⟨A, B, C, D, s, l, -, hB, -, -, hturn, hmem⟩ := emits_turn (k := clamp (zeros 32)) (s := start (two 0 65535)) (t := 254)
    hu hu rep_one rep_one rep_zero hx hz
  obtain rfl := Except.ok.inj (hB.symm.trans (show feSub (two 0 65535) feOne = .ok (two (-1) 65535) by decide))
  refine mem_trace_of_turns 1 (hturn.bind (emits_pure s)) (List.mem_append_left _ (hmem _ (List.mem_append_left _ ?_)))
  rw [productLimbs_two]
  decide

/-- A product of two small numbers. -/
theorem emits_small {a b : Int} (ha : 0 ≤ a ∧ a < 2 ^ 16) (hb : 0 ≤ b ∧ b < 2 ^ 16) (hab : a * b < 2 ^ 16) :
    ∃ l, Emits (feMulTraced (two a 0) (two b 0)) (two (a * b) 0) l := by
  have hdigits {c : Int} (hc : 0 ≤ c ∧ c < 2 ^ 16) : Digits (2 ^ 16) (two c 0) :=
    List.forall_mem_cons.mpr ⟨hc, fun x hx => by rw [List.eq_of_mem_replicate (n := 15) hx]; decide⟩
  have hbnd {c : Int} (hc : 0 ≤ c ∧ c < 2 ^ 16) : Bnd (2 ^ 17 + 2 ^ 8) (two c 0) :=
    ⟨rfl, fun x hx => abs_le.mpr ⟨by have := hdigits hc x hx; omega, by have := hdigits hc x hx; omega⟩⟩
  have hcarry := feCarry_digits (hdigits ⟨mul_nonneg ha.1 hb.1, hab⟩) rfl
  refine ⟨_, emits_two _ (hbnd ha) (hbnd hb) ?_ hcarry⟩
  rw [mul_zero, zero_mul, add_zero, mul_zero]
  exact hcarry

/-- The limbs after the first turn with the base point. -/
theorem first_turn_base (scalar : BytesN 32) : ∃ l,
    Emits (ladderStepBy feMulTraced (feUnpack basePoint) (clamp scalar) (start (feUnpack basePoint)) 254)
      ⟨two 6400 0, two 1824 2406, two 324 0, two 36 0, true⟩ l := by
  have hu : feUnpack basePoint = two 9 0 := by decide
  have hx : feCswap true feOne (two 9 0) = (two 9 0, two 1 0) := by decide
  have hz : feCswap true feZero feOne = (two 1 0, two 0 0) := by decide
  obtain ⟨lAA, hAA⟩ := emits_small (a := 10) (b := 10) (by decide) (by decide) (by decide)
  obtain ⟨lBB, hBB⟩ := emits_small (a := 8) (b := 8) (by decide) (by decide) (by decide)
  obtain ⟨lDA, hDA⟩ := emits_small (a := 1) (b := 10) (by decide) (by decide) (by decide)
  obtain ⟨lCB, hCB⟩ := emits_small (a := 1) (b := 8) (by decide) (by decide) (by decide)
  obtain ⟨lx3, hx3⟩ := emits_small (a := 18) (b := 18) (by decide) (by decide) (by decide)
  obtain ⟨lsq, hsq⟩ := emits_small (a := 2) (b := 2) (by decide) (by decide) (by decide)
  obtain ⟨lz3, hz3⟩ := emits_small (a := 9) (b := 4) (by decide) (by decide) (by decide)
  obtain ⟨lx2, hx2⟩ := emits_small (a := 100) (b := 64) (by decide) (by decide) (by decide)
  have ha24E : Emits (feMulTraced (two 36 0) (two 121665 0)) (two 54564 66) _ :=
    emits_two (two 54564 66) ⟨rfl, by decide⟩ ⟨rfl, by decide⟩ (by decide) (by decide)
  have hz2 : Emits (feMulTraced (two 36 0) (two 54664 66)) (two 1824 2406) _ :=
    emits_two (two 1824 2406) ⟨rfl, by decide⟩ ⟨rfl, by decide⟩ (by decide) (by decide)
  rw [hu]
  unfold ladderStepBy ladderRestBy
  simp only [clamp_bit_254, start, Bool.false_xor, hx, hz]
  exact ⟨_, (emits_lift (by decide : feAdd (two 9 0) (two 1 0) = .ok (two 10 0))).bind <| hAA.bind <|
    (emits_lift (by decide : feSub (two 9 0) (two 1 0) = .ok (two 8 0))).bind <| hBB.bind <|
    (emits_lift (by decide : feSub (two 100 0) (two 64 0) = .ok (two 36 0))).bind <|
    (emits_lift (by decide : feAdd (two 1 0) (two 0 0) = .ok (two 1 0))).bind <|
    (emits_lift (by decide : feSub (two 1 0) (two 0 0) = .ok (two 1 0))).bind <| hDA.bind <| hCB.bind <|
    (emits_lift (by decide : feAdd (two 10 0) (two 8 0) = .ok (two 18 0))).bind <| hx3.bind <|
    (emits_lift (by decide : feSub (two 10 0) (two 8 0) = .ok (two 2 0))).bind <| hsq.bind <| hz3.bind <| hx2.bind <|
    ha24E.bind <| (emits_lift (by decide : feAdd (two 100 0) (two 54564 66) = .ok (two 54664 66))).bind <| hz2.bind <|
    emits_pure _⟩

/-- For every scalar, `nd_x25519_base` shifts a negative number. After the first turn `x2 - z2` has the limbs 4576 and
-2406 and `x3 + z3` is 360; whichever way the second turn swaps, it multiplies them. -/
theorem base_shifts_negative (scalar : BytesN 32) : .limb (-800599) ∈ trace scalar basePoint := by
  obtain ⟨l₁, h₁⟩ := first_turn_base scalar
  have r2 : Rep (two 6400 0) (_ : ZMod Spec.X25519.p) := ⟨⟨rfl, by decide, by unfold Digits; decide⟩, rfl⟩
  have q2 : Rep (two 1824 2406) (_ : ZMod Spec.X25519.p) := ⟨⟨rfl, by decide, by unfold Digits; decide⟩, rfl⟩
  have r3 : Rep (two 324 0) (_ : ZMod Spec.X25519.p) := ⟨⟨rfl, by decide, by unfold Digits; decide⟩, rfl⟩
  have q3 : Rep (two 36 0) (_ : ZMod Spec.X25519.p) := ⟨⟨rfl, by decide, by unfold Digits; decide⟩, rfl⟩
  have hdiff : feSub (two 6400 0) (two 1824 2406) = .ok (two 4576 (-2406)) := by decide
  have hsum : feAdd (two 324 0) (two 36 0) = .ok (two 360 0) := by decide
  suffices hsecond : ∃ s l₂, Emits (ladderStepBy feMulTraced (feUnpack basePoint) (clamp scalar)
      ⟨two 6400 0, two 1824 2406, two 324 0, two 36 0, true⟩ 253) s l₂ ∧ .limb (-800599) ∈ l₂ by
    obtain ⟨s, l₂, h₂, hmem⟩ := hsecond
    exact mem_trace_of_turns 2 (h₁.bind (h₂.bind (emits_pure s))) (List.mem_append_right _ (List.mem_append_left _ hmem))
  cases hbit : ((clamp scalar).getD (253 / 8) 0).getLsbD (253 % 8) with
  | false =>
    obtain ⟨A, B, C, D, s, l₂, hA, -, -, hD, h₂, hmem⟩ := emits_turn (k := clamp scalar) (t := 253)
      (s := ⟨two 6400 0, two 1824 2406, two 324 0, two 36 0, true⟩) (rep_unpack basePoint) r3 q3 r2 q2
      (by rw [hbit]; decide) (by rw [hbit]; decide)
    obtain rfl := Except.ok.inj (hA.symm.trans hsum)
    obtain rfl := Except.ok.inj (hD.symm.trans hdiff)
    refine ⟨s, l₂, h₂, hmem _ (List.mem_append_right _ (List.mem_append_left _ ?_))⟩
    rw [productLimbs_two]
    decide
  | true =>
    obtain ⟨A, B, C, D, s, l₂, -, hB, hC, -, h₂, hmem⟩ := emits_turn (k := clamp scalar) (t := 253)
      (s := ⟨two 6400 0, two 1824 2406, two 324 0, two 36 0, true⟩) (rep_unpack basePoint) r2 q2 r3 q3
      (by rw [hbit]; decide) (by rw [hbit]; decide)
    obtain rfl := Except.ok.inj (hB.symm.trans hdiff)
    obtain rfl := Except.ok.inj (hC.symm.trans hsum)
    refine ⟨s, l₂, h₂, hmem _ (List.mem_append_right _ (List.mem_append_right _ ?_))⟩
    rw [productLimbs_two]
    decide

end ND.Proof.X25519
