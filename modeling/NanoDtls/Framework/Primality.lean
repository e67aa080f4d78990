import Mathlib.NumberTheory.LucasPrimality

/-!
# Primality certificates

Lucas's test with the prime factors of `n - 1` written out, each of them small
enough for trial division or certified before: a list of `Certificate`s in
that order is checked by evaluation (`certified_prime`).
-/

namespace ND

/-- `a ^ e % m` by repeated squaring; `e` has at most `fuel` bits. -/
def powMod (m : Nat) : Nat → Nat → Nat → Nat
  | 0, _, _ => 1 % m
  | fuel + 1, a, e =>
    if e = 0 then 1 % m
    else
      let h := powMod m fuel (a * a % m) (e / 2)
      if e % 2 = 1 then a * h % m else h

theorem powMod_eq (m : Nat) : ∀ (fuel a e : Nat), e < 2 ^ fuel → powMod m fuel a e = a ^ e % m
  | 0, a, e, h => by rw [powMod, Nat.lt_one_iff.mp h, pow_zero]
  | fuel + 1, a, e, h => by
    rw [powMod]
    split
    · rename_i h0; rw [h0, pow_zero]
    · have ih := powMod_eq m fuel (a * a % m) (e / 2) (by rw [Nat.pow_succ] at h; omega)
      have hsq : (a * a % m) ^ (e / 2) % m = a ^ (2 * (e / 2)) % m := by
        rw [← Nat.pow_mod, ← pow_two, ← pow_mul]
      dsimp only
      rw [ih, hsq]
      split
      · rw [← Nat.mul_mod_mod, Nat.mod_mod, Nat.mul_mod_mod, ← pow_succ', show 2 * (e / 2) + 1 = e by omega]
      · rw [show 2 * (e / 2) = e by omega]

/-- Trial division. -/
def trialPrime (n : Nat) : Bool := decide (2 ≤ n) && (List.range' 2 (n - 2)).all fun d => n % d != 0

theorem trialPrime_prime {n : Nat} (h : trialPrime n = true) : n.Prime := by
  simp only [trialPrime, Bool.and_eq_true, decide_eq_true_eq, List.all_eq_true, List.mem_range'_1,
    bne_iff_ne, ne_eq] at h
  refine Nat.prime_def.mpr ⟨h.1, fun d hd => ?_⟩
  by_contra hne
  rw [not_or] at hne
  have h0 := Nat.pos_of_dvd_of_pos hd (by omega)
  have hle := Nat.le_of_dvd (by omega) hd
  exact h.2 d ⟨by omega, by omega⟩ (Nat.mod_eq_zero_of_dvd hd)

/-- A prime, a primitive root of it and the prime factors of the number before it. -/
structure Certificate where
  n : Nat
  root : Nat
  factors : List Nat

/-- Lucas's test, with the factors known or small. -/
def Certificate.check (c : Certificate) (known : List Nat) : Bool :=
  c.factors.all (fun q => known.contains q || trialPrime q) && c.factors.prod + 1 == c.n &&
    powMod c.n 256 c.root (c.n - 1) == 1 % c.n && decide (1 < c.n) && decide (c.n ≤ 2 ^ 256) &&
    c.factors.all fun q => powMod c.n 256 c.root ((c.n - 1) / q) != 1 % c.n

theorem Certificate.prime {c : Certificate} {known : List Nat} (hk : ∀ q ∈ known, q.Prime)
    (h : c.check known = true) : c.n.Prime := by
  simp only [check, Bool.and_eq_true, List.all_eq_true, Bool.or_eq_true, List.contains_iff_mem, beq_iff_eq,
    decide_eq_true_eq, bne_iff_ne] at h
  obtain ⟨⟨⟨⟨⟨hfac, hprod⟩, hone⟩, h1⟩, hle⟩, hroot⟩ := h
  have hprime : ∀ q ∈ c.factors, q.Prime := fun q hq => (hfac q hq).elim (hk q) trialPrime_prime
  have hcast : ∀ e, (c.root : ZMod c.n) ^ e = 1 ↔ c.root ^ e % c.n = 1 % c.n := fun e => by
    rw [← Nat.cast_pow, ← Nat.cast_one, ZMod.natCast_eq_natCast_iff']
  refine lucas_primality c.n c.root ((hcast _).mpr ?_) fun q hq hqd => ?_
  · rw [← hone, powMod_eq _ _ _ _ (by omega)]
  · rw [ne_eq, hcast]
    have hmem : q ∈ c.factors := by
      rw [← hprod, Nat.add_sub_cancel, Prime.dvd_prod_iff hq.prime] at hqd
      obtain ⟨r, hr, hqr⟩ := hqd
      rwa [(Nat.prime_dvd_prime_iff_eq hq (hprime r hr)).mp hqr]
    have hlt := Nat.div_le_self (c.n - 1) q
    have := hroot q hmem
    rwa [powMod_eq _ _ _ _ (by omega)] at this

/-- Certificates, each of which may use those before it. -/
def checkAll : List Nat → List Certificate → Bool
  | _, [] => true
  | known, c :: cs => c.check known && checkAll (c.n :: known) cs

theorem checkAll_prime : ∀ (cs : List Certificate) (known : List Nat), (∀ q ∈ known, q.Prime) →
    checkAll known cs = true → ∀ c ∈ cs, c.n.Prime
  | [], _, _, _ => fun c hc => by cases hc
  | c :: cs, known, hk, h => by
    simp only [checkAll, Bool.and_eq_true] at h
    have hc := Certificate.prime hk h.1
    intro d hd
    obtain rfl | hd := List.mem_cons.mp hd
    · exact hc
    · exact checkAll_prime cs _ (List.forall_mem_cons.mpr ⟨hc, hk⟩) h.2 d hd

theorem certified_prime {n : Nat} (cs : List Certificate) (h : checkAll [] cs = true)
    (hn : (cs.map Certificate.n).contains n = true) : n.Prime := by
  rw [List.contains_iff_mem] at hn
  obtain ⟨c, hc, rfl⟩ := List.mem_map.mp hn
  exact checkAll_prime cs [] (fun q hq => by cases hq) h c hc

end ND
