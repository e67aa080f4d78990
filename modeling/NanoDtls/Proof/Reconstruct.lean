import NanoDtls.Impl.Record

/-!
# Reconstruction of epochs and sequence numbers

The low bits on the wire and the highest value known give the full one. For
the epoch the bits are compared only: they reconstruct the known epoch if and
only if they are its own (`reconstructEpoch_eq_iff`). The sequence number is
the nearest one of its residue class: each turn of the loop keeps the best
candidate so far (`Best.step`), the three candidates enclose the known number
(`Best.nearest`), so the result is nearest below `2^48`
(`reconstruct_nearest`). Two numbers half a window away on either side are
equally near; the one in the window of the known number is returned, which is
the lower one only in the upper half of a window (`tie_lower_iff`).
-/

namespace ND.Proof.Record

open ND.Impl ND.Impl.Record

/-! ## The epoch -/

/-- The epoch's own two low bits reconstruct it. -/
theorem reconstructEpoch_low2 (e : BitVec 16) (b : Byte) (hb : b.toNat % 4 = e.toNat % 4) :
    reconstructEpoch e b = e := by
  have he := e.isLt
  simp only [reconstructEpoch, hb, List.foldl_cons, List.foldl_nil]
  generalize hn : e.toNat = n at he ⊢
  -- the middle candidate is the epoch itself, at distance 0
  have h0 : ∀ best : Int × Int, 0 < best.2 →
      epochCandidate n ↑(n % 4) ↑(n - n % 4) best 0 = ((n : Int), 0) := fun best hbest => by
    simp only [epochCandidate]
    rw [show ((n - n % 4 : Nat) : Int) + 0 * 4 + ↑(n % 4) = n by omega, if_neg (by omega), sub_self,
      abs_zero, if_pos hbest]
  have h1 : epochCandidate n ↑(n % 4) ↑(n - n % 4) ((n : Int), 0) 1 = ((n : Int), 0) := by
    simp only [epochCandidate]
    split
    · rfl
    · rw [if_neg (not_lt.mpr (abs_nonneg _))]
  have hm : 0 < (epochCandidate n ↑(n % 4) ↑(n - n % 4) (-1, 0x7fffffff) (-1)).2 := by
    simp only [epochCandidate]
    rw [show ((n - n % 4 : Nat) : Int) + -1 * 4 + ↑(n % 4) - n = -4 by omega]
    split
    · decide
    · rw [if_pos (by decide)]; exact abs_pos.mpr (by decide)
  rw [h0 _ hm, h1]
  apply BitVec.eq_of_toNat_eq
  rw [BitVec.toNat_ofInt, hn]
  omega

/-- A turn of the loop keeps the residue of the best candidate. -/
theorem epochCandidate_mod {h low2 base : Int} {best : Int × Int} (w : Int) (hbase : base % 4 = 0)
    (hlow : 0 ≤ low2 ∧ low2 < 4) (hbest : best.1 % 4 = low2) :
    (epochCandidate h low2 base best w).1 % 4 = low2 := by
  simp only [epochCandidate]
  split
  · exact hbest
  · split
    · show (base + w * 4 + low2) % 4 = low2
      omega
    · exact hbest

/-- Only the epoch's own two low bits reconstruct it. -/
theorem reconstructEpoch_eq_iff (e : BitVec 16) (b : Byte) :
    reconstructEpoch e b = e ↔ b.toNat % 4 = e.toNat % 4 := by
  refine ⟨?_, reconstructEpoch_low2 e b⟩
  intro heq
  have he := e.isLt
  have hval := congrArg BitVec.toNat heq
  simp only [reconstructEpoch, List.foldl_cons, List.foldl_nil, BitVec.toNat_ofInt] at hval
  generalize e.toNat = n at he hval ⊢
  generalize hlow2 : b.toNat % 4 = low2 at hval ⊢
  have hbase : ((n - n % 4 : Nat) : Int) % 4 = 0 := by omega
  have hlow : 0 ≤ (low2 : Int) ∧ (low2 : Int) < 4 := by omega
  -- the first turn leaves the start or takes a candidate; the second has one in range, nearer than the start
  have hfirst : ∀ best : Int × Int, best = epochCandidate n low2 ↑(n - n % 4) (-1, 0x7fffffff) (-1) →
      best.1 % 4 = low2 ∨ best.2 = 0x7fffffff := by
    rintro best rfl
    simp only [epochCandidate]
    split
    · exact .inr rfl
    · split
      · left
        show (((n - n % 4 : Nat) : Int) + -1 * 4 + low2) % 4 = low2
        omega
      · exact .inr rfl
  have hsecond : ∀ best : Int × Int, best.1 % 4 = low2 ∨ best.2 = 0x7fffffff →
      (epochCandidate n low2 ↑(n - n % 4) best 0).1 % 4 = low2 := by
    rintro best (hbest | hbest)
    · exact epochCandidate_mod 0 hbase hlow hbest
    · simp only [epochCandidate]
      rw [if_neg (by omega), if_pos (by rw [hbest, abs_lt]; omega)]
      show (((n - n % 4 : Nat) : Int) + 0 * 4 + low2) % 4 = low2
      omega
  have hres := epochCandidate_mod (h := n) 1 hbase hlow (hsecond _ (hfirst _ rfl))
  omega

/-! ## The sequence number -/

theorem toInt64_eq {v : Nat} (h : v < 2 ^ 63) : toInt64 v = v := by
  rw [toInt64, BitVec.toInt_eq_toNat_of_lt (by rw [BitVec.toNat_ofNat]; omega), BitVec.toNat_ofNat,
    Nat.mod_eq_of_lt (by omega)]

theorem seqDist_eq (a b : Nat) : seqDist a b = (a - b) + (b - a) := by
  unfold seqDist
  split <;> omega

theorem seqDist_eq_abs (a b : Nat) : (seqDist a b : Int) = |(a : Int) - b| := by
  rw [seqDist_eq, Int.abs_eq_natAbs]
  omega

variable {h t win base : Nat} {seen : Nat → Prop} {best : Nat × Nat}

/-- A turn of the loop keeps the residue. -/
theorem seqCandidate_mod (w : Int) (hdvd : (win : Int) ∣ toInt64 base) (ht : t < win) (hbest : best.1 % win = t) :
    (seqCandidate h base t win best w).1 % win = t := by
  simp only [seqCandidate]
  split
  · exact hbest
  · rename_i hin
    split
    · generalize hc : toInt64 base + w * win + t = c at hin ⊢
      obtain ⟨n, rfl⟩ := Int.eq_ofNat_of_zero_le (show 0 ≤ c by omega)
      obtain ⟨q, hq⟩ := hdvd
      have hn : (n : Int) % win = t % win := by
        rw [← hc, hq, ← Int.add_mul_emod_self_left (t : Int) win (q + w)]
        congr 1
        ring
      rw [← Int.natCast_mod, ← Int.natCast_mod, Nat.mod_eq_of_lt ht] at hn
      exact Int.natCast_inj.mp hn
    · exact hbest

theorem seqCandidate_lt {m : Nat} (w : Int) (hm : 2 ^ 48 ≤ m) (hbest : best.1 < m) :
    (seqCandidate h base t win best w).1 < m := by
  simp only [seqCandidate]
  split
  · exact hbest
  · split
    · show (toInt64 base + w * win + t).toNat < m
      omega
    · exact hbest

/-- A window divides the start of a window, also as an `int64_t`. -/
theorem dvd_toInt64 (hwin : win = 2 ^ 8 ∨ win = 2 ^ 16) (h : Nat) : (win : Int) ∣ toInt64 (h - h % win) := by
  rw [toInt64, BitVec.toInt_ofNat', Int.bmod_def]
  rcases hwin with rfl | rfl <;> split <;> omega

/-- The best candidate so far is given with its distance to `h`, and no candidate seen is nearer. -/
structure Best (h : Nat) (seen : Nat → Prop) (best : Nat × Nat) : Prop where
  dist : best.2 = seqDist best.1 h
  le : ∀ c, seen c → best.2 ≤ seqDist c h

/-- A turn of the loop has seen its candidate too. -/
theorem Best.step (hb : Best h seen best) (base win t : Nat) (w : Int) :
    Best h (fun c => seen c ∨ c < 2 ^ 48 ∧ (c : Int) = toInt64 base + w * win + t) (seqCandidate h base t win best w) := by
  simp only [seqCandidate]
  generalize toInt64 base + w * win + t = c
  split
  · refine ⟨hb.dist, ?_⟩
    rintro d (hd | ⟨hlt, hd⟩)
    · exact hb.le d hd
    · omega
  · rename_i hin
    obtain ⟨n, rfl⟩ := Int.eq_ofNat_of_zero_le (show 0 ≤ c by omega)
    rw [Int.toNat_natCast]
    split
    · rename_i hnear
      refine ⟨rfl, ?_⟩
      rintro d (hd | ⟨-, hd⟩)
      · exact hnear.le.trans (hb.le d hd)
      · rw [Int.natCast_inj.mp hd]
    · rename_i hfar
      refine ⟨hb.dist, ?_⟩
      rintro d (hd | ⟨-, hd⟩)
      · exact hb.le d hd
      · rw [Int.natCast_inj.mp hd]
        exact Nat.not_lt.mp hfar

/-- Where a number of the residue class lies: it is one of the three candidates, or a window beyond them. -/
theorem window_cases (hwin : win = 2 ^ 8 ∨ win = 2 ^ 16) {c : Nat} (hmod : c % win = t) :
    (c + win = h - h % win + t ∨ c = h - h % win + t ∨ c = h - h % win + t + win) ∨
      c + 2 * win ≤ h - h % win + t ∨ h - h % win + t + 2 * win ≤ c := by
  rcases hwin with rfl | rfl <;> omega

/-- The candidates in the window of `h` and in the two beside it enclose `h`. -/
theorem Best.nearest (hb : Best h seen best) (hwin : win = 2 ^ 8 ∨ win = 2 ^ 16) (hh : h < 2 ^ 48)
    (hseen : ∀ (w : Int) (c : Nat), w = -1 ∨ w = 0 ∨ w = 1 → c < 2 ^ 48 → (c : Int) = ↑(h - h % win) + w * win + t → seen c)
    {c : Nat} (hc : c < 2 ^ 48) (hmod : c % win = t) : best.2 ≤ seqDist c h := by
  have hle : ∀ (w : Int) (d : Nat), w = -1 ∨ w = 0 ∨ w = 1 → d < 2 ^ 48 → (d : Int) = ↑(h - h % win) + w * win + t →
      seqDist d h ≤ seqDist c h → best.2 ≤ seqDist c h := by
    intro w d hw hd he hnear
    exact (hb.le d (hseen w d hw hd he)).trans hnear
  have hpos : 0 < win := by rcases hwin with rfl | rfl <;> decide
  have hrem : h % win < win := Nat.mod_lt h hpos
  have hm := Nat.mod_le h win
  have ht : t < win := hmod ▸ Nat.mod_lt c hpos
  obtain (hbelow | hin | habove) | hlow | hhigh := window_cases (h := h) hwin hmod
  · exact hle (-1) c (.inl rfl) hc (by omega) le_rfl
  · exact hle 0 c (.inr (.inl rfl)) hc (by omega) le_rfl
  · exact hle 1 c (.inr (.inr rfl)) hc (by omega) le_rfl
  · -- the candidate below the window lies between `c` and `h`, the one above it between `h` and `c`
    refine hle (-1) (h - h % win + t - win) (.inl rfl) (by omega) (by omega) ?_
    rw [seqDist_eq, seqDist_eq]
    omega
  · refine hle 1 (h - h % win + t + win) (.inr (.inr rfl)) (by omega) (by omega) ?_
    rw [seqDist_eq, seqDist_eq]
    omega

theorem two_pow_window {b : Nat} (hb : b = 8 ∨ b = 16) : 2 ^ b = 2 ^ 8 ∨ 2 ^ b = 2 ^ 16 := by
  rcases hb with rfl | rfl
  · exact .inl rfl
  · exact .inr rfl

/-- The number has the bits of the wire, whatever the highest one known. -/
theorem reconstructSequenceNumber_congr {b : Nat} (hb : b = 8 ∨ b = 16) (h v : Nat) :
    reconstructSequenceNumber h v b % 2 ^ b = v % 2 ^ b := by
  have hwin := two_pow_window hb
  simp only [reconstructSequenceNumber, List.foldl_cons, List.foldl_nil]
  generalize 2 ^ b = win at hwin ⊢
  have ht : v % win < win := Nat.mod_lt v (by rcases hwin with rfl | rfl <;> decide)
  have hstart : (h - h % win + v % win) % 2 ^ 64 % win = v % win := by
    rcases hwin with rfl | rfl <;> omega
  exact seqCandidate_mod 1 (dvd_toInt64 hwin h) ht (seqCandidate_mod (-1) (dvd_toInt64 hwin h) ht hstart)

theorem reconstructSequenceNumber_lt_two_pow (h v b : Nat) : reconstructSequenceNumber h v b < 2 ^ 64 := by
  simp only [reconstructSequenceNumber, List.foldl_cons, List.foldl_nil]
  exact seqCandidate_lt 1 (by decide) (seqCandidate_lt (-1) (by decide) (Nat.mod_lt _ (by decide)))

/-- Below `2^48` no sum leaves its type: the loop starts in the window of `h`. -/
theorem start_lt (hwin : win = 2 ^ 8 ∨ win = 2 ^ 16) (hh : h < 2 ^ 48) (v : Nat) :
    (h - h % win + v % win) % 2 ^ 64 = h - h % win + v % win ∧ h - h % win + v % win < 2 ^ 48 := by
  rcases hwin with rfl | rfl <;> omega

theorem reconstructSequenceNumber_lt {b : Nat} (hb : b = 8 ∨ b = 16) (hh : h < 2 ^ 48) (v : Nat) :
    reconstructSequenceNumber h v b < 2 ^ 48 := by
  obtain ⟨hmod, hlt⟩ := start_lt (two_pow_window hb) hh v
  simp only [reconstructSequenceNumber, List.foldl_cons, List.foldl_nil, hmod]
  exact seqCandidate_lt 1 le_rfl (seqCandidate_lt (-1) le_rfl hlt)

/-- No number of the residue class below `2^48` is nearer. -/
theorem reconstructSequenceNumber_le {b : Nat} (hb : b = 8 ∨ b = 16) (hh : h < 2 ^ 48) {v c : Nat} (hc : c < 2 ^ 48)
    (hmod : c % 2 ^ b = v % 2 ^ b) : seqDist (reconstructSequenceNumber h v b) h ≤ seqDist c h := by
  have hwin := two_pow_window hb
  obtain ⟨hstart, -⟩ := start_lt hwin hh v
  have hbase : toInt64 (h - h % 2 ^ b) = ↑(h - h % 2 ^ b) :=
    toInt64_eq (by have := Nat.sub_le h (h % 2 ^ b); omega)
  -- the start is seen first, then the windows below and above
  have hfirst : Best h (fun c => (c : Int) = ↑(h - h % 2 ^ b) + 0 * ↑(2 ^ b) + ↑(v % 2 ^ b))
      (h - h % 2 ^ b + v % 2 ^ b, seqDist (h - h % 2 ^ b + v % 2 ^ b) h) := by
    refine ⟨rfl, ?_⟩
    intro c hc
    rw [show c = h - h % 2 ^ b + v % 2 ^ b by omega]
  have hall := (hfirst.step (h - h % 2 ^ b) (2 ^ b) (v % 2 ^ b) (-1)).step (h - h % 2 ^ b) (2 ^ b) (v % 2 ^ b) 1
  have hle := hall.nearest hwin hh (t := v % 2 ^ b) ?_ hc hmod
  · rw [hall.dist] at hle
    simpa only [reconstructSequenceNumber, List.foldl_cons, List.foldl_nil, hstart] using hle
  · rintro w c (rfl | rfl | rfl) hc he
    · exact .inl (.inr ⟨hc, by rw [hbase]; exact he⟩)
    · exact .inl (.inl he)
    · exact .inr ⟨hc, by rw [hbase]; exact he⟩

/-- The low bits of a number within half a window of the highest one seen reconstruct it. -/
theorem reconstructSequenceNumber_mod {h s b : Nat} (hb : b = 8 ∨ b = 16) (hh : h < 2 ^ 48)
    (hs : s < 2 ^ 48) (hd : seqDist s h < 2 ^ (b - 1)) :
    reconstructSequenceNumber h (s % 2 ^ b) b = s := by
  have hle := reconstructSequenceNumber_le hb hh (v := s % 2 ^ b) hs (Nat.mod_mod _ _).symm
  have hmod := reconstructSequenceNumber_congr hb h (s % 2 ^ b)
  rw [Nat.mod_mod] at hmod
  generalize reconstructSequenceNumber h (s % 2 ^ b) b = r at hle hmod ⊢
  rw [seqDist_eq] at hle hd
  rw [seqDist_eq] at hle
  -- both are within half a window of `h`, in one residue class
  rcases hb with rfl | rfl <;> omega

/-- The reconstructed number is below `2^48`, has the bits of the wire, and is nearest to the highest one known
among those; so it is the number sent, if that is within half a window of it. -/
theorem reconstruct_nearest {h b : Nat} (hh : h < 2 ^ 48) (hb : b = 8 ∨ b = 16) (v : Nat) :
    reconstructSequenceNumber h v b < 2 ^ 48 ∧ reconstructSequenceNumber h v b % 2 ^ b = v % 2 ^ b ∧
      (∀ c : Nat, c < 2 ^ 48 → c % 2 ^ b = v % 2 ^ b →
        |(reconstructSequenceNumber h v b : Int) - h| ≤ |(c : Int) - h|) ∧
      ∀ s : Nat, s < 2 ^ 48 → |(s : Int) - h| < 2 ^ (b - 1) → reconstructSequenceNumber h (s % 2 ^ b) b = s := by
  refine ⟨reconstructSequenceNumber_lt hb hh v, reconstructSequenceNumber_congr hb h v, ?_, ?_⟩
  · intro c hc hmod
    rw [← seqDist_eq_abs, ← seqDist_eq_abs]
    exact Int.ofNat_le.mpr (reconstructSequenceNumber_le hb hh hc hmod)
  · intro s hs hd
    rw [← seqDist_eq_abs] at hd
    exact reconstructSequenceNumber_mod hb hh hs (by exact_mod_cast hd)

theorem reconstruct_nearest_window : reconstructSequenceNumber 0x1FFFE (0x20003 % 2 ^ 8) 8 = 0x20003 :=
  (reconstruct_nearest (show 0x1FFFE < 2 ^ 48 by decide) (.inl rfl) 0).2.2.2 0x20003 (by decide) (by decide)

/-! ## Ties -/

/-- `lo` and `hi` have the bits of the wire, are equally far from the highest number known, and no other number
with these bits is nearer. -/
structure Tied (h v b lo hi : Nat) : Prop where
  lt : lo < hi
  hi_lt : hi < 2 ^ 48
  lo_mod : lo % 2 ^ b = v % 2 ^ b
  hi_mod : hi % 2 ^ b = v % 2 ^ b
  dist : |(lo : Int) - h| = |(hi : Int) - h|
  nearest : ∀ c : Nat, c < 2 ^ 48 → c % 2 ^ b = v % 2 ^ b → |(lo : Int) - h| ≤ |(c : Int) - h|

/-- A turn of the loop keeps a best candidate that its own is not nearer than. -/
theorem seqCandidate_keep (w : Int)
    (hfar : ∀ c : Nat, c < 2 ^ 48 → (c : Int) = toInt64 base + w * win + t → best.2 ≤ seqDist c h) :
    seqCandidate h base t win best w = best := by
  simp only [seqCandidate]
  generalize toInt64 base + w * win + t = c at hfar
  split
  · rfl
  · obtain ⟨n, rfl⟩ := Int.eq_ofNat_of_zero_le (show 0 ≤ c by omega)
    rw [Int.toNat_natCast, if_neg (Nat.not_lt.mpr (hfar n (by omega) rfl))]

/-- The loop returns the number in the window of `h` unless another one is nearer. -/
theorem reconstructSequenceNumber_window {b : Nat} (hb : b = 8 ∨ b = 16) (hh : h < 2 ^ 48) {v : Nat}
    (hnear : ∀ c : Nat, c < 2 ^ 48 → c % 2 ^ b = v % 2 ^ b →
      seqDist (h - h % 2 ^ b + v % 2 ^ b) h ≤ seqDist c h) :
    reconstructSequenceNumber h v b = h - h % 2 ^ b + v % 2 ^ b := by
  have hwin := two_pow_window hb
  obtain ⟨hstart, -⟩ := start_lt hwin hh v
  have hbase : toInt64 (h - h % 2 ^ b) = ↑(h - h % 2 ^ b) :=
    toInt64_eq (by have := Nat.sub_le h (h % 2 ^ b); omega)
  simp only [reconstructSequenceNumber, List.foldl_cons, List.foldl_nil, hstart]
  have hkeep : ∀ w : Int, seqCandidate h (h - h % 2 ^ b) (v % 2 ^ b) (2 ^ b)
      (h - h % 2 ^ b + v % 2 ^ b, seqDist (h - h % 2 ^ b + v % 2 ^ b) h) w =
        (h - h % 2 ^ b + v % 2 ^ b, seqDist (h - h % 2 ^ b + v % 2 ^ b) h) := by
    intro w
    apply seqCandidate_keep w
    intro c hc hval
    refine hnear c hc ?_
    rw [hbase] at hval
    generalize 2 ^ b = win at hwin hval ⊢
    rcases hwin with rfl | rfl <;> omega
  rw [hkeep, hkeep]

/-- Two numbers are tied if and only if they are half a window below and above `h`. -/
theorem tied_iff {b : Nat} (hb : b = 8 ∨ b = 16) {v lo hi : Nat} : Tied h v b lo hi ↔
    (h + 2 ^ (b - 1)) % 2 ^ b = v % 2 ^ b ∧ lo + 2 ^ (b - 1) = h ∧ hi = h + 2 ^ (b - 1) ∧ hi < 2 ^ 48 := by
  constructor
  · rintro ⟨hlt, hhi, hlo_mod, hhi_mod, hdist, hnear⟩
    have hnext := hnear (lo + 2 ^ b)
    rw [← seqDist_eq_abs, ← seqDist_eq_abs, seqDist_eq, seqDist_eq] at hdist hnext
    have hmid : lo + hi = 2 * h := by omega
    -- the next number of the residue class after `lo` is `hi`
    have hwindow : hi = lo + 2 ^ b := by
      have hge : lo + 2 ^ b ≤ hi := by rcases hb with rfl | rfl <;> omega
      have hmod : (lo + 2 ^ b) % 2 ^ b = v % 2 ^ b := by rw [Nat.add_mod_right, hlo_mod]
      have hdist_next := hnext (by omega) hmod
      rcases hb with rfl | rfl <;> omega
    rcases hb with rfl | rfl <;> omega
  · rintro ⟨hmod, hlo, rfl, hhi⟩
    refine ⟨by rcases hb with rfl | rfl <;> omega, hhi, ?_, hmod, ?_, ?_⟩
    · rcases hb with rfl | rfl <;> omega
    · rw [← seqDist_eq_abs, ← seqDist_eq_abs, seqDist_eq, seqDist_eq]
      rcases hb with rfl | rfl <;> omega
    · intro c _ hc
      rw [← seqDist_eq_abs, ← seqDist_eq_abs, seqDist_eq, seqDist_eq]
      rcases hb with rfl | rfl <;> omega

/-- Of two tied numbers, the one in the window of `h` is returned. -/
theorem Tied.reconstruct {b : Nat} (hb : b = 8 ∨ b = 16) (hh : h < 2 ^ 48) {v lo hi : Nat} (ht : Tied h v b lo hi) :
    reconstructSequenceNumber h v b = h - h % 2 ^ b + v % 2 ^ b := by
  obtain ⟨hmod, hlo, rfl, hhi⟩ := (tied_iff hb).mp ht
  apply reconstructSequenceNumber_window hb hh
  intro c _ hc
  rw [seqDist_eq, seqDist_eq]
  rcases hb with rfl | rfl <;> omega

/-- Ties go to the lower number, as they do for the epoch, unless the upper one is in the window of the highest
number known and the lower one in the window below it. -/
theorem tie_lower_iff {h b : Nat} (hh : h < 2 ^ 48) (hb : b = 8 ∨ b = 16) (v : Nat) :
    (∀ lo hi, Tied h v b lo hi → reconstructSequenceNumber h v b = lo) ↔
      (v % 2 ^ b = h % 2 ^ b + 2 ^ (b - 1) → h < 2 ^ (b - 1)) := by
  constructor
  · intro hlower hv
    by_contra hle
    have ht : Tied h v b (h - 2 ^ (b - 1)) (h + 2 ^ (b - 1)) := by
      refine (tied_iff hb).mpr ⟨?_, by omega, rfl, ?_⟩
      · rcases hb with rfl | rfl <;> omega
      · rcases hb with rfl | rfl <;> omega
    have hres := hlower _ _ ht
    rw [ht.reconstruct hb hh] at hres
    rcases hb with rfl | rfl <;> omega
  · intro hcond lo hi ht
    rw [ht.reconstruct hb hh]
    obtain ⟨hmod, hlo, rfl, hhi⟩ := (tied_iff hb).mp ht
    rcases hb with rfl | rfl <;> omega

/-- With 8 bits on the wire: 128 and 384 are tied after 256, and 384 is returned. -/
theorem tie_upper : Tied 256 128 8 128 384 ∧ reconstructSequenceNumber 256 128 8 = 384 :=
  ⟨(tied_iff (.inl rfl)).mpr (by decide), by decide⟩

theorem tie_lower_iff_sample : Tied 200 72 8 72 328 ∧ reconstructSequenceNumber 200 72 8 = 72 := by
  have ht : Tied 200 72 8 72 328 := (tied_iff (.inl rfl)).mpr (by decide)
  exact ⟨ht, (tie_lower_iff (h := 200) (b := 8) (by decide) (.inl rfl) 72).mpr (by decide) 72 328 ht⟩

end ND.Proof.Record
