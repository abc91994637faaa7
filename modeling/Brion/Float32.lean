import Mathlib.Algebra.Group.Nat.Basic
import Mathlib.Algebra.Group.Int
import Mathlib.Data.Rat.Floor

/-!
# Single precision, as the GID partition computes it

The partition of lines 175-177 of the converter computes in `float`:
`float( gids.size( )) / float( nRanks )`, then `rank * range`, then a truncation to
`size_t`. `F32` is a non-negative binary32 value `mant * 2 ^ exp`. `F32.round p q s` rounds
the exact value `p / q * 2 ^ s` to the nearest value with a 24-bit significand, ties to even:
IEEE 754 in its default rounding mode. The values the partition computes are naturals below
`2 ^ 33` and quotients of two such, so neither overflow nor subnormals arise, and the
exponent is left unbounded.

Everything is computed on naturals, so concrete cases are settled by `decide`.

**Theorem (`val_round_of_eq`).** `round p q s` is exact on every value with a 24-bit
significand: `floorLog2 p q` is `⌊log₂ (p / q)⌋` (`floorLog2_spec`), so the quotient the
significand divides is exact.

**Theorem (`val_mul_ofNat`).** `float( r ) * y` stands for `round24 (round24 r * y.mant)`
times `2 ^ y.exp`, where `round24 p` is the natural `p` rounded to 24 significant bits. Since
`round24` is monotone (`round24_mono`), so is `r ↦ float( r ) * y`, and so is its
truncation (`trunc_eq_floor`).
-/

namespace Brion

/-- `⌊log₂ n⌋` for `1 ≤ n ≤ fuel + 1`, by halving. -/
def log2Aux : Nat → Nat → Nat
  | 0, _ => 0
  | fuel + 1, n => if n < 2 then 0 else log2Aux fuel (n / 2) + 1

/-- `⌊log₂ (p / q)⌋` for `p, q ≥ 1`: `⌊log₂ p⌋ - ⌊log₂ q⌋`, or one less. -/
def floorLog2 (p q : Nat) : Int :=
  let d : Int := (log2Aux p p : Int) - log2Aux q q
  if q * 2 ^ d.toNat ≤ p * 2 ^ (-d).toNat then d else d - 1

/-- `a / b` rounded to the nearest natural, ties to even. -/
def divRoundEven (a b : Nat) : Nat :=
  if 2 * (a % b) < b then a / b
  else if b < 2 * (a % b) then a / b + 1
  else if a / b % 2 = 0 then a / b else a / b + 1

/-- A non-negative binary32 value `mant * 2 ^ exp`. -/
structure F32 where
  mant : Nat
  exp : Int
deriving DecidableEq, Repr

namespace F32

/-- `p / q * 2 ^ s` rounded to a 24-bit significand, ties to even. -/
def round (p q : Nat) (s : Int) : F32 :=
  if p = 0 then ⟨0, 0⟩ else
  let sh := floorLog2 p q - 23
  ⟨divRoundEven (p * 2 ^ (-sh).toNat) (q * 2 ^ sh.toNat), sh + s⟩

/-- The conversion of an integer to `float`. -/
def ofNat (n : Nat) : F32 := round n 1 0

/-- `float` multiplication. -/
def mul (x y : F32) : F32 := round (x.mant * y.mant) 1 (x.exp + y.exp)

/-- `float` division. -/
def div (x y : F32) : F32 := round x.mant y.mant (x.exp - y.exp)

/-- The conversion to `size_t`: truncation toward zero. -/
def trunc (x : F32) : Nat := x.mant * 2 ^ x.exp.toNat / 2 ^ (-x.exp).toNat

/-- `16777217 = 2^24 + 1` is the first natural `float` cannot hold; it rounds to `2^24`. -/
example : ofNat 16777217 = ⟨8388608, 1⟩ := by decide

/-- The rational a `float` stands for. -/
def val (x : F32) : ℚ := x.mant * 2 ^ x.exp

end F32

/-- The natural `p` rounded to 24 significant bits, ties to even. -/
def round24 (p : Nat) : Nat :=
  if p < 2 ^ 24 then p else divRoundEven p (2 ^ (p.log2 - 23)) * 2 ^ (p.log2 - 23)

/-! ## Rounding to the nearest, ties to even -/

section DivRoundEven

variable {a a' b n : Nat}

theorem divRoundEven_bounds : a / b ≤ divRoundEven a b ∧ divRoundEven a b ≤ a / b + 1 := by
  unfold divRoundEven; split_ifs <;> omega

theorem divRoundEven_le_of_lt (h : a < b * n) : divRoundEven a b ≤ n := by
  have := Nat.div_lt_of_lt_mul h
  have := (divRoundEven_bounds (a := a) (b := b)).2
  omega

theorem le_divRoundEven_of_le (hb : 0 < b) (h : n * b ≤ a) : n ≤ divRoundEven a b :=
  ((Nat.le_div_iff_mul_le hb).mpr h).trans divRoundEven_bounds.1

/-- Rounding is monotone in the numerator. -/
theorem divRoundEven_mono (h : a ≤ a') : divRoundEven a b ≤ divRoundEven a' b := by
  have hq : a / b ≤ a' / b := Nat.div_le_div_right h
  rcases Nat.lt_or_eq_of_le hq with hq | hq
  · have := (divRoundEven_bounds (a := a) (b := b)).2
    have := (divRoundEven_bounds (a := a') (b := b)).1
    omega
  · have hr : a % b ≤ a' % b := by
      have := Nat.div_add_mod a b
      have := Nat.div_add_mod a' b
      rw [hq] at *
      omega
    unfold divRoundEven
    rw [hq]
    split_ifs <;> omega

theorem divRoundEven_mul_right {c : Nat} (hc : 0 < c) :
    divRoundEven (a * c) (b * c) = divRoundEven a b := by
  simp only [divRoundEven, Nat.mul_div_mul_right _ _ hc, Nat.mul_mod_mul_right, ← Nat.mul_assoc,
    Nat.mul_lt_mul_right hc]

theorem divRoundEven_mul_self (hb : 0 < b) : divRoundEven (n * b) b = n := by
  simp [divRoundEven, Nat.mul_div_cancel _ hb, hb]

end DivRoundEven

/-! ## Binary logarithm -/

theorem log2Aux_eq : ∀ {fuel n : Nat}, n ≤ fuel + 1 → log2Aux fuel n = n.log2
  | 0, n, h => by
    rw [Nat.log2, if_neg (by omega)]; rfl
  | fuel + 1, n, h => by
    rw [log2Aux, Nat.log2]
    by_cases hn : n < 2
    · rw [if_pos hn, if_neg (by omega)]
    · rw [if_neg hn, if_pos (by omega), log2Aux_eq (by omega)]

theorem log2_mul_pow {p : Nat} (hp : 0 < p) (k : Nat) : (p * 2 ^ k).log2 = p.log2 + k := by
  have h0 : p * 2 ^ k ≠ 0 := by positivity
  refine le_antisymm (Nat.lt_succ_iff.mp ((Nat.log2_lt h0).mpr ?_)) ((Nat.le_log2 h0).mpr ?_)
  · rw [Nat.succ_eq_add_one, show p.log2 + k + 1 = p.log2 + 1 + k by omega, pow_add]
    exact Nat.mul_lt_mul_of_pos_right Nat.lt_log2_self (by positivity)
  · rw [pow_add]
    exact Nat.mul_le_mul_right _ (Nat.log2_self_le hp.ne')

/-! ## Binades -/

/-- `y` lies in the binade `[2 ^ d, 2 ^ (d + 1))`. -/
def InBinade (y : ℚ) (d : Int) : Prop := 2 ^ d ≤ y ∧ y < 2 ^ (d + 1)

theorem InBinade.unique {y : ℚ} {d d' : Int} (h : InBinade y d) (h' : InBinade y d') : d = d' := by
  have h1 := (zpow_lt_zpow_iff_right₀ one_lt_two).mp (h.1.trans_lt h'.2)
  have h2 := (zpow_lt_zpow_iff_right₀ one_lt_two).mp (h'.1.trans_lt h.2)
  omega

theorem InBinade.mul_zpow {y : ℚ} {d : Int} (h : InBinade y d) (e : Int) :
    InBinade (y * 2 ^ e) (d + e) := by
  have he : (0 : ℚ) < 2 ^ e := zpow_pos two_pos e
  refine ⟨?_, ?_⟩
  · rw [zpow_add₀ two_ne_zero]; exact mul_le_mul_of_nonneg_right h.1 he.le
  · rw [add_right_comm, zpow_add₀ two_ne_zero]; exact mul_lt_mul_of_pos_right h.2 he

theorem inBinade_natCast {n : Nat} (hn : 0 < n) : InBinade n n.log2 := by
  refine ⟨?_, ?_⟩
  · rw [zpow_natCast]; exact_mod_cast Nat.log2_self_le hn.ne'
  · rw [← Nat.cast_one, ← Nat.cast_add, zpow_natCast]; exact_mod_cast Nat.lt_log2_self

theorem two_zpow_eq_div (d : Int) : (2 : ℚ) ^ d = 2 ^ d.toNat / 2 ^ (-d).toNat := by
  rw [← zpow_natCast, ← zpow_natCast, ← zpow_sub₀ two_ne_zero]
  congr 1
  omega

/-- `floorLog2 p q` is `⌊log₂ (p / q)⌋`. -/
theorem floorLog2_spec {p q : Nat} (hp : 0 < p) (hq : 0 < q) :
    InBinade (p / q) (floorLog2 p q) := by
  have hP := (inBinade_natCast hp).mul_zpow (-(q.log2 : Int))
  have hQ := inBinade_natCast hq
  have hq' : (0 : ℚ) < q := by exact_mod_cast hq
  set d : Int := (p.log2 : Int) - q.log2
  have hC : q * 2 ^ d.toNat ≤ p * 2 ^ (-d).toNat ↔ (2 : ℚ) ^ d ≤ p / q := by
    rw [two_zpow_eq_div, div_le_div_iff₀ (by positivity) hq', ← Nat.cast_le (α := ℚ)]
    push_cast
    rw [mul_comm ((2 : ℚ) ^ d.toNat)]
  have hf : floorLog2 p q = if q * 2 ^ d.toNat ≤ p * 2 ^ (-d).toNat then d else d - 1 := by
    simp only [floorLog2, log2Aux_eq (Nat.le_succ p), log2Aux_eq (Nat.le_succ q)]
  have hQ' : (0 : ℚ) < 2 ^ (q.log2 : Int) := zpow_pos two_pos _
  -- `p / q` against `p / 2 ^ ⌊log₂ q⌋`, which lies in the binade `d`
  have hle : (p / q : ℚ) ≤ p * 2 ^ (-(q.log2 : Int)) := by
    rw [zpow_neg, ← div_eq_mul_inv]
    exact div_le_div_of_nonneg_left (by positivity) hQ' hQ.1
  have hlt : (p * 2 ^ (-(q.log2 : Int)) : ℚ) < p / q * 2 := by
    have h2 : (q : ℚ) / 2 < 2 ^ (q.log2 : Int) := by
      rw [div_lt_iff₀ two_pos, ← zpow_add_one₀ two_ne_zero]; exact hQ.2
    calc (p * 2 ^ (-(q.log2 : Int)) : ℚ) = p / 2 ^ (q.log2 : Int) := by
          rw [zpow_neg, div_eq_mul_inv]
      _ < p / (q / 2) := div_lt_div_of_pos_left (by exact_mod_cast hp) (by positivity) h2
      _ = p / q * 2 := by ring
  rw [hf]
  split_ifs with h
  · exact ⟨hC.mp h, hle.trans_lt hP.2⟩
  · refine ⟨?_, by rw [sub_add_cancel]; exact lt_of_not_le (hC.not.mp h)⟩
    have h1 : (2 : ℚ) ^ d ≤ p * 2 ^ (-(q.log2 : Int)) := hP.1
    rw [zpow_sub_one₀ two_ne_zero]
    linarith

theorem floorLog2_one {p : Nat} (hp : 0 < p) : floorLog2 p 1 = p.log2 :=
  (floorLog2_spec hp one_pos).unique (by rw [Nat.cast_one, div_one]; exact inBinade_natCast hp)

/-! ## Rounding a natural to 24 significant bits -/

section Round24

variable {p p' : Nat}

@[simp] theorem round24_zero : round24 0 = 0 := rfl

theorem round24_of_lt (h : p < 2 ^ 24) : round24 p = p := if_pos h

theorem log2_bounds (h : 2 ^ 24 ≤ p) :
    2 ^ 23 * 2 ^ (p.log2 - 23) ≤ p ∧ p < 2 ^ 24 * 2 ^ (p.log2 - 23) := by
  have hp : p ≠ 0 := by omega
  have hL : 24 ≤ p.log2 := (Nat.le_log2 hp).mpr h
  rw [← pow_add, ← pow_add, show 23 + (p.log2 - 23) = p.log2 by omega,
    show 24 + (p.log2 - 23) = p.log2 + 1 by omega]
  exact ⟨Nat.log2_self_le hp, Nat.lt_log2_self⟩

theorem pow_log2_le_round24 (hp : 0 < p) : 2 ^ p.log2 ≤ round24 p := by
  unfold round24
  split_ifs with h
  · exact Nat.log2_self_le hp.ne'
  · have hb := log2_bounds (Nat.not_lt.mp h)
    have hL : 24 ≤ p.log2 := (Nat.le_log2 hp.ne').mpr (Nat.not_lt.mp h)
    calc 2 ^ p.log2 = 2 ^ 23 * 2 ^ (p.log2 - 23) := by rw [← pow_add]; congr 1; omega
      _ ≤ _ := Nat.mul_le_mul_right _ (le_divRoundEven_of_le (by positivity) hb.1)

theorem round24_le_pow : round24 p ≤ 2 ^ (p.log2 + 1) := by
  unfold round24
  split_ifs with h
  · exact Nat.lt_log2_self.le
  · have hb := log2_bounds (Nat.not_lt.mp h)
    have hL : 24 ≤ p.log2 := (Nat.le_log2 (by omega)).mpr (Nat.not_lt.mp h)
    calc _ ≤ 2 ^ 24 * 2 ^ (p.log2 - 23) :=
          Nat.mul_le_mul_right _ (divRoundEven_le_of_lt (by rw [Nat.mul_comm]; exact hb.2))
      _ = 2 ^ (p.log2 + 1) := by rw [← pow_add]; congr 1; omega

/-- Rounding to 24 significant bits is monotone. -/
theorem round24_mono (h : p ≤ p') : round24 p ≤ round24 p' := by
  rcases Nat.eq_zero_or_pos p with rfl | hp
  · exact Nat.zero_le _
  have hL : p.log2 ≤ p'.log2 := (Nat.le_log2 (by omega)).mpr ((Nat.log2_self_le hp.ne').trans h)
  rcases Nat.lt_or_eq_of_le hL with hL | hL
  · calc round24 p ≤ 2 ^ (p.log2 + 1) := round24_le_pow
      _ ≤ 2 ^ p'.log2 := Nat.pow_le_pow_right two_pos hL
      _ ≤ round24 p' := pow_log2_le_round24 (by omega)
  · unfold round24
    by_cases h' : p' < 2 ^ 24
    · rw [if_pos (by omega), if_pos h']
      exact h
    · have hs : ¬ p < 2 ^ 24 := fun hs => by
        have := (Nat.log2_lt hp.ne').mpr hs
        have := (Nat.le_log2 (by omega)).mpr (Nat.not_lt.mp h')
        omega
      rw [if_neg hs, if_neg h', hL]
      exact Nat.mul_le_mul_right _ (divRoundEven_mono h)

/-- Rounding to 24 significant bits commutes with scaling by a power of two. -/
theorem round24_mul_pow (p k : Nat) : round24 (p * 2 ^ k) = round24 p * 2 ^ k := by
  rcases Nat.eq_zero_or_pos p with rfl | hp
  · simp
  by_cases hs : p * 2 ^ k < 2 ^ 24
  · have : p < 2 ^ 24 := lt_of_le_of_lt (Nat.le_mul_of_pos_right _ (by positivity)) hs
    simp only [round24, if_pos hs, if_pos this]
  have h24 : 24 ≤ p.log2 + k :=
    log2_mul_pow hp k ▸ (Nat.le_log2 (by positivity)).mpr (Nat.not_lt.mp hs)
  rw [round24, if_neg hs, log2_mul_pow hp, round24]
  split_ifs with hp'
  · have := (Nat.log2_lt hp.ne').mpr hp'
    have e : p * 2 ^ k = p * 2 ^ (23 - p.log2) * 2 ^ (p.log2 + k - 23) := by
      rw [Nat.mul_assoc, ← pow_add]; congr 2; omega
    rw [e, divRoundEven_mul_self (by positivity)]
  · have hL : 24 ≤ p.log2 := (Nat.le_log2 hp.ne').mpr (Nat.not_lt.mp hp')
    rw [show p.log2 + k - 23 = p.log2 - 23 + k by omega, pow_add,
      divRoundEven_mul_right (by positivity), Nat.mul_assoc]

/-- A natural that a power of two scales to a 24-bit natural keeps its value. -/
theorem round24_mul_zpow {G : Nat} {E : Int} (hG : G < 2 ^ 24) (h : (p : ℚ) * 2 ^ E = G) :
    (round24 p : ℚ) * 2 ^ E = G := by
  obtain ⟨k, rfl | rfl⟩ := Int.eq_nat_or_neg E
  · rw [zpow_natCast] at h ⊢
    have hp : p * 2 ^ k = G := by exact_mod_cast h
    rw [← Nat.cast_ofNat, ← Nat.cast_pow, ← Nat.cast_mul, ← round24_mul_pow, hp, round24_of_lt hG]
  · rw [zpow_neg, zpow_natCast, ← div_eq_mul_inv, div_eq_iff (by positivity)] at h ⊢
    have hp : p = G * 2 ^ k := by exact_mod_cast h
    rw [hp, round24_mul_pow, round24_of_lt hG]
    push_cast
    rfl

end Round24

/-! ## What a `float` stands for -/

namespace F32

theorem cast_mul_zpow_eq {m n j k : Nat} {e : Int} (he : e = (j : Int) - k)
    (h : m * 2 ^ j = n * 2 ^ k) : (m : ℚ) * 2 ^ e = n := by
  subst he
  rw [zpow_sub₀ two_ne_zero, zpow_natCast, zpow_natCast, mul_div_assoc',
    div_eq_iff (by positivity)]
  exact_mod_cast h

variable {p : Nat} {s : Int}

theorem round_one_exp (hp : 0 < p) : (round p 1 s).exp = (p.log2 : Int) - 23 + s := by
  simp [round, hp.ne', floorLog2_one hp]

theorem round_one_mant (hp : 0 < p) :
    (round p 1 s).mant * 2 ^ (p.log2 - 23) = round24 p * 2 ^ (23 - p.log2) := by
  have h₁ : (-((p.log2 : Int) - 23)).toNat = 23 - p.log2 := by omega
  have h₂ : ((p.log2 : Int) - 23).toNat = p.log2 - 23 := by omega
  simp only [round, hp.ne', if_false, floorLog2_one hp, h₁, h₂, Nat.one_mul, round24]
  split_ifs with h
  · have : p.log2 - 23 = 0 := by have := (Nat.log2_lt hp.ne').mpr h; omega
    simp [this, divRoundEven, Nat.mod_one]
  · have : 23 - p.log2 = 0 := by have := (Nat.le_log2 hp.ne').mpr (Nat.not_lt.mp h); omega
    simp [this]

/-- `round p 1 s` stands for `p` rounded to 24 significant bits, times `2 ^ s`. -/
theorem val_round_one (p : Nat) (s : Int) : (round p 1 s).val = round24 p * 2 ^ s := by
  rcases Nat.eq_zero_or_pos p with rfl | hp
  · simp [round, val]
  rw [val, round_one_exp hp, zpow_add₀ two_ne_zero, ← mul_assoc,
    cast_mul_zpow_eq (by omega) (round_one_mant hp)]

theorem val_mul_ofNat (r : Nat) (y : F32) :
    ((ofNat r).mul y).val = round24 (round24 r * y.mant) * 2 ^ y.exp := by
  rcases Nat.eq_zero_or_pos r with rfl | hr
  · simp [ofNat, mul, round, val]
  have hm : (ofNat r).mant * 2 ^ (r.log2 - 23) = round24 r * 2 ^ (23 - r.log2) :=
    round_one_mant hr
  have he : (ofNat r).exp = (r.log2 : Int) - 23 := by simpa using round_one_exp hr (s := 0)
  have key : round24 ((ofNat r).mant * y.mant) * 2 ^ (r.log2 - 23) =
      round24 (round24 r * y.mant) * 2 ^ (23 - r.log2) := by
    rw [← round24_mul_pow, ← round24_mul_pow, Nat.mul_right_comm, hm, Nat.mul_right_comm]
  rw [mul, val_round_one, he, zpow_add₀ two_ne_zero, ← mul_assoc,
    cast_mul_zpow_eq (by omega) key]

/-- `round p q s` is exact on a value with a 24-bit significand. -/
theorem val_round_of_eq {p q m : Nat} {s e : Int} (hq : 0 < q) (hm : m < 2 ^ 24)
    (h : (p / q : ℚ) * 2 ^ s = m * 2 ^ e) : (round p q s).val = m * 2 ^ e := by
  have hq' : (0 : ℚ) < q := by exact_mod_cast hq
  rcases Nat.eq_zero_or_pos p with rfl | hp
  · simp only [Nat.cast_zero, zero_div, zero_mul] at h
    simp [round, val, h]
  have hm0 : 0 < m := Nat.pos_of_ne_zero fun h0 => by
    subst h0
    have : (0 : ℚ) < p / q * 2 ^ s :=
      mul_pos (div_pos (by exact_mod_cast hp) hq') (zpow_pos two_pos s)
    simp [h] at this
  have hpq : (p / q : ℚ) = m * 2 ^ (e - s) := by
    rw [zpow_sub₀ two_ne_zero, ← mul_div_assoc, ← h,
      mul_div_cancel_right₀ _ (zpow_ne_zero _ two_ne_zero)]
  have hd : floorLog2 p q = m.log2 + (e - s) :=
    (floorLog2_spec hp hq).unique (hpq ▸ (inBinade_natCast hm0).mul_zpow (e - s))
  have hL : m.log2 < 24 := (Nat.log2_lt hm0.ne').mpr hm
  have hp' : (p : ℚ) = m * q * 2 ^ (e - s) := by
    rw [mul_right_comm, ← hpq, div_mul_cancel₀ _ hq'.ne']
  have hX : p * 2 ^ (-(floorLog2 p q - 23)).toNat =
      m * 2 ^ (23 - m.log2) * (q * 2 ^ (floorLog2 p q - 23).toNat) := by
    rw [← Nat.cast_inj (R := ℚ)]
    push_cast
    rw [hp', ← zpow_natCast, ← zpow_natCast, ← zpow_natCast (2 : ℚ) (floorLog2 p q - 23).toNat]
    calc _ = (m * q : ℚ) * 2 ^ (e - s + ((-(floorLog2 p q - 23)).toNat : Int)) := by
          rw [zpow_add₀ two_ne_zero]; ring
      _ = (m * q : ℚ) * 2 ^ (((23 - m.log2 : ℕ) : Int) + ((floorLog2 p q - 23).toNat : Int)) := by
          congr 2; omega
      _ = _ := by rw [zpow_add₀ two_ne_zero]; ring
  simp only [round, if_neg hp.ne', val]
  rw [hX, divRoundEven_mul_self (by positivity)]
  push_cast
  rw [← zpow_natCast, mul_assoc, ← zpow_add₀ two_ne_zero]
  congr 2
  omega

/-- The conversion to `size_t` is the floor of the value. -/
theorem trunc_eq_floor (x : F32) : x.trunc = ⌊x.val⌋₊ := by
  obtain ⟨m, e⟩ := x
  obtain ⟨k, rfl | rfl⟩ := Int.eq_nat_or_neg e
  · rw [val, zpow_natCast, ← Nat.cast_ofNat, ← Nat.cast_pow, ← Nat.cast_mul, Nat.floor_natCast]
    simp [trunc]
  · rw [val, zpow_neg, zpow_natCast, ← div_eq_mul_inv, ← Nat.cast_ofNat, ← Nat.cast_pow,
      Nat.floor_div_eq_div]
    simp [trunc]

end F32

end Brion
