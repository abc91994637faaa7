import Brion.Float32
import Brion.Report

/-!
# Times in single precision

The converter reads `start`, `step` and `end` as `float`s and computes its times in `float`:
`maxEnd = start + maxFrames * step` and `end = std::min( end, maxEnd )` (lines 156-160),
`nFrames = ( end - start ) / step` (line 191), and each frame's time `t = start + frame * step`
(line 269). The compare pass runs `for( float t = start; t < end; t += step )` (line 380). The
report's exact times are `Report.clampedEnd`, `Report.nFrames` and `Report.frameTime`; here the
times are computed as the code computes them, on the non-negative `F32` values, and related to
the exact ones. The writes of `Brion.Output` are at these `float` frame times, which never
decrease from one frame to the next (`frameTime_mono`).

`F32.add`, `F32.sub` and `F32.lt` align both operands to the lower exponent, so on values of a
common grid `N * 2 ^ g` a sum or difference rounds as `round24` rounds `N` (`val_add`,
`val_sub`, `val_mul`). Every time below `2 ^ 24` grid units is then exact.

**Theorem (`times_exact`).** For a report whose start, step and end lie on a grid `2 ^ g`, with
the end below `2 ^ 24` grid units and not before the start, the float computations are the
exact ones for every `maxFrames`: the clamped end, the frame count, the time of every frame
before the end, and the times the compare loop visits, `⌈(end - start) / step⌉` of them.

`OnGrid` packages the hypotheses of `times_exact` for a report; under it every frame before
the end gets its exact time (`OnGrid.frameTime_val`).

**Theorem (`step_absorbed`).** Once `2 ^ 25 * step ≤ start`, `start + step` rounds to `start`:
a compare loop with `start < end` never ends, and frames `0` and `1` get one time.
-/

namespace Brion

/-! ## Rounding on a grid -/

section Grid

theorem eq_mul_pow_of_cast {p n : Nat} {e g : Int} (hle : e ≤ g)
    (h : (p : ℚ) * 2 ^ e = n * 2 ^ g) : p = n * 2 ^ (g - e).toNat := by
  have h2 : (2 : ℚ) ^ g = 2 ^ (g - e).toNat * 2 ^ e := by
    rw [← zpow_natCast, ← zpow_add₀ two_ne_zero]; congr 1; omega
  rw [h2, ← mul_assoc] at h
  exact_mod_cast mul_right_cancel₀ (zpow_ne_zero e two_ne_zero) h

theorem round24_scale_of_le {p n : Nat} {e g : Int} (hle : e ≤ g)
    (h : (p : ℚ) * 2 ^ e = n * 2 ^ g) : (round24 p : ℚ) * 2 ^ e = round24 n * 2 ^ g := by
  rw [eq_mul_pow_of_cast hle h, round24_mul_pow]
  push_cast
  rw [mul_assoc, ← zpow_natCast, ← zpow_add₀ two_ne_zero]
  congr 2; omega

/-- Rounding to 24 significant bits sees only the value `p * 2 ^ e`. -/
theorem round24_scale {p n : Nat} {e g : Int} (h : (p : ℚ) * 2 ^ e = n * 2 ^ g) :
    (round24 p : ℚ) * 2 ^ e = round24 n * 2 ^ g := by
  rcases le_total e g with hle | hle
  · exact round24_scale_of_le hle h
  · exact (round24_scale_of_le hle h.symm).symm

/-- Rounding to 24 significant bits is monotone in the value it rounds. -/
theorem round24_val_mono {p q : Nat} {e f : Int} (h : (p : ℚ) * 2 ^ e ≤ q * 2 ^ f) :
    (round24 p : ℚ) * 2 ^ e ≤ round24 q * 2 ^ f := by
  have hpos : (0 : ℚ) < 2 ^ min e f := zpow_pos two_pos _
  -- both sides on the grid of the lower exponent
  have hscale : ∀ {n : Nat} {k : Int}, min e f ≤ k →
      (n : ℚ) * 2 ^ k = (n * 2 ^ (k - min e f).toNat : Nat) * 2 ^ min e f := fun hk => by
    push_cast
    rw [mul_assoc, ← zpow_natCast, ← zpow_add₀ two_ne_zero]
    congr 2; omega
  have hp := hscale (n := p) (min_le_left e f)
  have hq := hscale (n := q) (min_le_right e f)
  rw [round24_scale hp, round24_scale hq]
  rw [hp, hq, mul_le_mul_right hpos] at h
  exact mul_le_mul_of_nonneg_right (by exact_mod_cast round24_mono (by exact_mod_cast h)) hpos.le

theorem round24_two_pow_24 : round24 (2 ^ 24) = 2 ^ 24 := by
  rw [show (2 : Nat) ^ 24 = 2 ^ 23 * 2 ^ 1 by norm_num, round24_mul_pow,
    round24_of_lt (by norm_num)]

theorem min_le_round24 (p : Nat) : min p (2 ^ 24) ≤ round24 p := by
  by_cases h : p < 2 ^ 24
  · rw [round24_of_lt h]; exact min_le_left _ _
  · exact (min_le_right _ _).trans (round24_two_pow_24 ▸ round24_mono (Nat.not_lt.mp h))

/-- A value with a 24-bit significand absorbs an addend of at most `2 ^ -25` of it: the sum
stays within half a unit in the last place. -/
theorem round24_add_of_small {m k Y : Nat} (hm : m < 2 ^ 24) (hY : 2 ^ 25 * Y ≤ m * 2 ^ k) :
    round24 (m * 2 ^ k + Y) = m * 2 ^ k := by
  by_cases hX : m * 2 ^ k < 2 ^ 24
  · obtain rfl : Y = 0 := by omega
    rw [Nat.add_zero, round24_of_lt hX]
  have hm0 : 0 < m := Nat.pos_of_ne_zero fun h => by simp [h] at hX
  have hL := log2_mul_pow hm0 k
  have hml : m.log2 < 24 := (Nat.log2_lt hm0.ne').mpr hm
  have hb := log2_bounds (Nat.not_lt.mp hX)
  have h24 : 24 ≤ (m * 2 ^ k).log2 := (Nat.le_log2 (by positivity)).mpr (Nat.not_lt.mp hX)
  set L := (m * 2 ^ k).log2
  set u := 2 ^ (L - 23)
  -- the sum is `a * u + Y` with `a < 2 ^ 24` and `2 * Y < u`: it stays in the binade of `L`
  have hXa : m * 2 ^ k = m * 2 ^ (k - (L - 23)) * u := by
    rw [Nat.mul_assoc, ← pow_add]; congr 2; omega
  set a := m * 2 ^ (k - (L - 23))
  have ha : a < 2 ^ 24 := Nat.lt_of_mul_lt_mul_right (hXa ▸ hb.2)
  have hYu : 2 * Y < u := by omega
  have hpow : 2 ^ (L + 1) = 2 ^ 24 * u := by rw [← pow_add]; congr 1; omega
  have hL' : (m * 2 ^ k + Y).log2 = L := by
    apply le_antisymm
    · refine Nat.le_of_lt_succ ((Nat.log2_lt (by positivity)).mpr ?_)
      have := Nat.mul_le_mul_right u ha
      rw [Nat.succ_mul] at this
      rw [hpow, hXa]
      omega
    · exact (Nat.le_log2 (by positivity)).mpr ((Nat.log2_self_le (by positivity)).trans (by omega))
  have hdiv : divRoundEven (a * u + Y) u = a := by
    have hu : 0 < u := by positivity
    unfold divRoundEven
    rw [Nat.add_comm, Nat.add_mul_div_right _ _ hu, Nat.add_mul_mod_self_right,
      Nat.mod_eq_of_lt (by omega), Nat.div_eq_of_lt (by omega), Nat.zero_add, if_pos hYu]
  rw [round24, if_neg (by omega), hL', hXa, hdiv]

/-- Rounding to the nearest: `divRoundEven a b * b` is within `b / 2` of `a`. -/
theorem divRoundEven_near {a b : Nat} (hb : 0 < b) :
    2 * a ≤ (2 * divRoundEven a b + 1) * b ∧ 2 * (divRoundEven a b * b) ≤ 2 * a + b := by
  have h1 := Nat.div_add_mod a b
  have h2 := Nat.mod_lt a hb
  unfold divRoundEven
  generalize a / b = k at *
  generalize a % b = r at *
  subst h1
  split_ifs <;> constructor <;> ring_nf <;> omega

end Grid

namespace F32

/-! ## Addition, subtraction and comparison -/

/-- The exponent `x` and `y` are aligned to. -/
def lowExp (x y : F32) : Int := min x.exp y.exp

/-- The significand of `x` at an exponent `e ≤ x.exp`. -/
def scaled (x : F32) (e : Int) : Nat := x.mant * 2 ^ (x.exp - e).toNat

/-- `float` addition. -/
def add (x y : F32) : F32 :=
  round (x.scaled (lowExp x y) + y.scaled (lowExp x y)) 1 (lowExp x y)

/-- `float` subtraction; `none` when the difference is negative, which `F32` does not hold. -/
def sub (x y : F32) : Option F32 :=
  if y.scaled (lowExp x y) ≤ x.scaled (lowExp x y) then
    some (round (x.scaled (lowExp x y) - y.scaled (lowExp x y)) 1 (lowExp x y))
  else none

/-- `float` comparison `x < y`. -/
def lt (x y : F32) : Bool := x.scaled (lowExp x y) < y.scaled (lowExp x y)

theorem lowExp_le_left (x y : F32) : lowExp x y ≤ x.exp := min_le_left _ _

theorem lowExp_le_right (x y : F32) : lowExp x y ≤ y.exp := min_le_right _ _

theorem val_scaled {x : F32} {e : Int} (h : e ≤ x.exp) : (x.scaled e : ℚ) * 2 ^ e = x.val := by
  rw [scaled, val]
  push_cast
  rw [mul_assoc, ← zpow_natCast, ← zpow_add₀ two_ne_zero]
  congr 2; omega

variable {x y : F32} {N M : Nat} {g : Int}

theorem val_add (hx : x.val = N * 2 ^ g) (hy : y.val = M * 2 ^ g) :
    (x.add y).val = round24 (N + M) * 2 ^ g := by
  rw [add, val_round_one]
  apply round24_scale
  push_cast
  rw [add_mul, val_scaled (lowExp_le_left x y), val_scaled (lowExp_le_right x y), hx, hy]
  ring

theorem val_mul {h : Int} (hx : x.val = N * 2 ^ g) (hy : y.val = M * 2 ^ h) :
    (x.mul y).val = round24 (N * M) * 2 ^ (g + h) := by
  rw [mul, val_round_one]
  apply round24_scale
  rw [val] at hx hy
  push_cast
  rw [zpow_add₀ two_ne_zero, zpow_add₀ two_ne_zero]
  calc (x.mant * y.mant : ℚ) * (2 ^ x.exp * 2 ^ y.exp)
        = ((x.mant : ℚ) * 2 ^ x.exp) * ((y.mant : ℚ) * 2 ^ y.exp) := by ring
    _ = _ := by rw [hx, hy]; ring

theorem val_ofNat (n : Nat) : (ofNat n).val = round24 n := by
  rw [ofNat, val_round_one, zpow_zero, mul_one]

theorem val_nonneg (x : F32) : 0 ≤ x.val := mul_nonneg (Nat.cast_nonneg _) (zpow_pos two_pos _).le

theorem val_mul_mono {x x' : F32} (y : F32) (h : x.val ≤ x'.val) :
    (x.mul y).val ≤ (x'.mul y).val := by
  have e : ∀ z : F32, ((z.mant * y.mant : Nat) : ℚ) * 2 ^ (z.exp + y.exp) = z.val * y.val :=
    fun z => by rw [val, val, zpow_add₀ two_ne_zero]; push_cast; ring
  rw [mul, mul, val_round_one, val_round_one]
  apply round24_val_mono
  rw [e, e]
  exact mul_le_mul_of_nonneg_right h (val_nonneg y)

theorem val_add_mono (x : F32) {y y' : F32} (h : y.val ≤ y'.val) :
    (x.add y).val ≤ (x.add y').val := by
  have e : ∀ z : F32, ((x.scaled (lowExp x z) + z.scaled (lowExp x z) : Nat) : ℚ) *
      2 ^ lowExp x z = x.val + z.val := fun z => by
    push_cast
    rw [add_mul, val_scaled (lowExp_le_left x z), val_scaled (lowExp_le_right x z)]
  rw [add, add, val_round_one, val_round_one]
  apply round24_val_mono
  rw [e, e]
  linarith

theorem lt_iff : x.lt y = true ↔ x.val < y.val := by
  rw [lt, decide_eq_true_iff, ← val_scaled (lowExp_le_left x y),
    ← val_scaled (lowExp_le_right x y), mul_lt_mul_right (zpow_pos two_pos _)]
  exact_mod_cast Iff.rfl

theorem val_sub (hx : x.val = N * 2 ^ g) (hy : y.val = M * 2 ^ g) :
    (x.sub y).map val = if M ≤ N then some ((round24 (N - M) : ℚ) * 2 ^ g) else none := by
  have hle : y.scaled (lowExp x y) ≤ x.scaled (lowExp x y) ↔ M ≤ N := by
    rw [← Nat.cast_le (α := ℚ), ← mul_le_mul_right (zpow_pos (two_pos (α := ℚ)) (lowExp x y)),
      val_scaled (lowExp_le_left x y), val_scaled (lowExp_le_right x y), hx, hy,
      mul_le_mul_right (zpow_pos two_pos _)]
    exact_mod_cast Iff.rfl
  unfold sub
  by_cases h : M ≤ N
  · rw [if_pos (hle.mpr h), if_pos h, Option.map_some', val_round_one]
    congr 1
    apply round24_scale
    rw [Nat.cast_sub (hle.mpr h), Nat.cast_sub h, sub_mul, sub_mul,
      val_scaled (lowExp_le_left x y), val_scaled (lowExp_le_right x y), hx, hy]
  · rw [if_neg (mt hle.mp h), if_neg h, Option.map_none']

/-- A value with a 24-bit significand absorbs an addend of at most `2 ^ -25` of it. -/
theorem val_add_of_small {m : Nat} {k : Int} (hm : m < 2 ^ 24) (hx : x.val = m * 2 ^ k)
    (hy : 2 ^ 25 * y.val ≤ x.val) : (x.add y).val = x.val := by
  have hk : min k y.exp ≤ k := min_le_left _ _
  have hx' : x.val = ((⟨m, k⟩ : F32).scaled (min k y.exp) : ℚ) * 2 ^ min k y.exp := by
    rw [val_scaled hk, hx]; rfl
  have hy' := (val_scaled (min_le_right k y.exp)).symm
  have hsmall : 2 ^ 25 * y.scaled (min k y.exp) ≤ m * 2 ^ (k - min k y.exp).toNat := by
    rw [hx', hy', ← mul_assoc, mul_le_mul_right (zpow_pos two_pos _)] at hy
    exact_mod_cast hy
  rw [val_add hx' hy', hx']
  congr 2
  exact round24_add_of_small hm hsmall

/-! ## The rounding error of a quotient -/

/-- Rounding errs by at most half a unit in the last place, `2 ^ -24` of the value. -/
theorem abs_val_round_sub_le {p q : Nat} {s : Int} (hq : 0 < q) :
    |(round p q s).val - p / q * 2 ^ s| ≤ p / q * 2 ^ s / 2 ^ 24 := by
  rcases Nat.eq_zero_or_pos p with rfl | hp
  · simp [round, val]
  have hB := floorLog2_spec hp hq
  set d := floorLog2 p q
  set P := p * 2 ^ (-(d - 23)).toNat with hPdef
  set Q := q * 2 ^ (d - 23).toNat with hQdef
  have hQ : (0 : ℚ) < Q := by positivity
  have hPQ : (P / Q : ℚ) = p / q * 2 ^ (-(d - 23)) := by
    rw [two_zpow_eq_div, neg_neg, hPdef, hQdef]; push_cast; exact mul_div_mul_comm _ _ _ _
  obtain ⟨h1, h2⟩ := divRoundEven_near (a := P) (Nat.cast_pos.mp hQ)
  set r := divRoundEven P Q
  have hr : |(r : ℚ) - P / Q| ≤ 1 / 2 := by
    have e1 : (2 * P : ℚ) ≤ (2 * r + 1) * Q := by exact_mod_cast h1
    have e2 : (2 * (r * Q) : ℚ) ≤ 2 * P + Q := by exact_mod_cast h2
    rw [show (r : ℚ) - P / Q = (r * Q - P) / Q by field_simp, abs_div, abs_of_pos hQ,
      div_le_iff₀ hQ, abs_le]
    constructor <;> linarith only [e1, e2]
  have hv : (round p q s).val = r * 2 ^ (d - 23 + s) := by
    simp only [round, if_neg hp.ne', val, r, P, Q, d]
  have key : (round p q s).val - p / q * 2 ^ s = (r - P / Q) * 2 ^ (d - 23 + s) := by
    rw [hv, hPQ, sub_mul, mul_assoc, ← zpow_add₀ two_ne_zero]
    ring_nf
  rw [key, abs_mul, abs_of_pos (zpow_pos (two_pos (α := ℚ)) (d - 23 + s))]
  calc _ ≤ 1 / 2 * 2 ^ (d - 23 + s) := mul_le_mul_of_nonneg_right hr (zpow_pos two_pos _).le
    _ = 2 ^ d * 2 ^ s / 2 ^ 24 := by
      rw [zpow_add₀ two_ne_zero, zpow_sub₀ two_ne_zero]; norm_num; ring
    _ ≤ _ := div_le_div_of_nonneg_right
      (mul_le_mul_of_nonneg_right hB.1 (zpow_pos two_pos _).le) (by positivity)

/-- The quotient of two grid values below `2 ^ 24` units, truncated to `size_t`, is their
quotient in naturals: rounding moves it by less than `1 / M`, and never onto an integer it
is not. -/
theorem trunc_div (hx : x.val = N * 2 ^ g) (hy : y.val = M * 2 ^ g) (hM : 0 < M)
    (hN : N < 2 ^ 24) : (x.div y).trunc = N / M := by
  have hM' : (0 : ℚ) < M := by exact_mod_cast hM
  have hy0 : 0 < y.mant := Nat.pos_of_ne_zero fun h0 => by
    rw [val, h0, Nat.cast_zero, zero_mul] at hy
    exact absurd hy.symm (mul_ne_zero hM'.ne' (zpow_ne_zero g two_ne_zero))
  have hq : (x.mant / y.mant : ℚ) * 2 ^ (x.exp - y.exp) = N / M := by
    have hy' : (0 : ℚ) < y.mant := by exact_mod_cast hy0
    calc _ = x.val / y.val := by rw [val, val, mul_div_mul_comm, zpow_sub₀ two_ne_zero]
      _ = N / M := by rw [hx, hy, mul_div_mul_right _ _ (zpow_ne_zero g two_ne_zero)]
  have herr := abs_val_round_sub_le (p := x.mant) (s := x.exp - y.exp) hy0
  rw [hq] at herr
  rw [trunc_eq_floor, div]
  set v := (round x.mant y.mant (x.exp - y.exp)).val
  have hNM : (N : ℚ) / M = (N / M : ℕ) + (N % M : ℕ) / M := by
    rw [div_eq_iff hM'.ne', add_mul, div_mul_cancel₀ _ hM'.ne']
    exact_mod_cast (Nat.div_add_mod' N M).symm
  rcases Nat.eq_zero_or_pos (N % M) with h0 | h0
  · have hv : v = (N / M : ℕ) * 2 ^ (0 : Int) :=
      val_round_of_eq hy0 ((Nat.div_le_self N M).trans_lt hN) (by rw [hq, hNM, h0]; simp)
    rw [hv, zpow_zero, mul_one, Nat.floor_natCast]
  · have hsmall : (N : ℚ) / M / 2 ^ 24 < 1 / M := by
      rw [div_div, div_lt_div_iff₀ (by positivity) hM']
      have : (N : ℚ) < 2 ^ 24 := by exact_mod_cast hN
      rw [one_mul, mul_comm (M : ℚ)]
      exact mul_lt_mul_of_pos_right this hM'
    have hr1 : 1 / (M : ℚ) ≤ (N % M : ℕ) / M :=
      div_le_div_of_nonneg_right (by exact_mod_cast h0) hM'.le
    have hr2 : ((N % M : ℕ) : ℚ) / M ≤ 1 - 1 / M := by
      rw [le_sub_iff_add_le, div_add_div_same, div_le_one hM']
      exact_mod_cast Nat.mod_lt N hM
    obtain ⟨h1, h2⟩ := abs_le.mp herr
    have hlow : ((N / M : ℕ) : ℚ) ≤ v := by linarith only [h1, hNM, hsmall, hr1]
    rw [Nat.floor_eq_iff ((Nat.cast_nonneg _).trans hlow)]
    exact ⟨hlow, by linarith only [h2, hNM, hsmall, hr2]⟩

end F32

/-! ## The converter's times -/

namespace FloatTime

/-- Lines 156-160: `maxEnd = start + maxFrames * step`, with the `size_t maxFrames` converted
to `float`, and `end = std::min( end, maxEnd )`. -/
def clampedEnd (start step endTime : F32) (maxFrames : Nat) : F32 :=
  let maxEnd := start.add ((F32.ofNat maxFrames).mul step)
  if maxEnd.lt endTime then maxEnd else endTime

/-- Line 191: `nFrames = ( end - start ) / step` in `float`, truncated to `size_t`; `none`
when `end < start`, whose difference `F32` does not hold. -/
def nFrames (start step endTime : F32) : Option Nat :=
  (endTime.sub start).map fun d => (d.div step).trunc

/-- Line 269: `t = start + frame * step`, the `int frame` converted to `float`. -/
def frameTime (start step : F32) (frame : Nat) : F32 :=
  start.add ((F32.ofNat frame).mul step)

/-- Later frames never get earlier times: each operation of `start + frame * step` rounds
monotonically. Two frames can get one time (`step_absorbed`, `frame_times_collide`). -/
theorem frameTime_mono (start step : F32) {f f' : Nat} (h : f ≤ f') :
    (frameTime start step f).val ≤ (frameTime start step f').val :=
  F32.val_add_mono start (F32.val_mul_mono step (by
    rw [F32.val_ofNat, F32.val_ofNat]; exact_mod_cast round24_mono h))

/-- Line 380: the times `for( float t = start; t < end; t += step )` visits from `t` on;
`none` when `fuel` iterations do not reach the end. -/
def compareTimes (step endTime : F32) : Nat → F32 → Option (List F32)
  | 0, _ => none
  | fuel + 1, t =>
    if t.lt endTime then (compareTimes step endTime fuel (t.add step)).map (t :: ·) else some []

/-! ## On a grid -/

section Grid

variable {start step endTime : F32} {S D : Nat} {g : Int}

theorem val_start_add (hs : start.val = S * 2 ^ g) (hd : step.val = D * 2 ^ g) (m : Nat) :
    (start.add ((F32.ofNat m).mul step)).val = round24 (S + round24 (round24 m * D)) * 2 ^ g :=
  F32.val_add hs (by rw [F32.val_mul (g := 0) (by rw [F32.val_ofNat, zpow_zero, mul_one]) hd,
    zero_add])

theorem round24_start_add_of_lt {m : Nat} (hD : 0 < D) (h : S + m * D < 2 ^ 24) :
    round24 (S + round24 (round24 m * D)) = S + m * D := by
  have hm : m < 2 ^ 24 := lt_of_le_of_lt (Nat.le_mul_of_pos_right m hD) (by omega)
  rw [round24_of_lt hm, round24_of_lt (p := m * D) (by omega), round24_of_lt h]

theorem min_le_round24_start_add (hD : 0 < D) (m : Nat) :
    min (S + m * D) (2 ^ 24) ≤ round24 (S + round24 (round24 m * D)) := by
  have hA : min (m * D) (2 ^ 24) ≤ round24 m * D := by
    by_cases hm : m < 2 ^ 24
    · rw [round24_of_lt hm]; exact min_le_left _ _
    · have := min_le_round24 m
      calc min (m * D) (2 ^ 24) ≤ 2 ^ 24 := min_le_right _ _
        _ ≤ round24 m := by omega
        _ ≤ round24 m * D := Nat.le_mul_of_pos_right _ hD
  have hB := min_le_round24 (round24 m * D)
  have hC := min_le_round24 (S + round24 (round24 m * D))
  omega

/-- The clamped end is `min end (start + maxFrames * step)`, exactly. -/
theorem val_clampedEnd {E : Nat} (hs : start.val = S * 2 ^ g) (hd : step.val = D * 2 ^ g)
    (he : endTime.val = E * 2 ^ g) (hD : 0 < D) (hE : E < 2 ^ 24) (m : Nat) :
    (clampedEnd start step endTime m).val = (min E (S + m * D) : ℕ) * 2 ^ g := by
  have hmax := val_start_add hs hd m
  have hlt : (start.add ((F32.ofNat m).mul step)).lt endTime = true ↔
      round24 (S + round24 (round24 m * D)) < E := by
    rw [F32.lt_iff, hmax, he, mul_lt_mul_right (zpow_pos two_pos _)]; exact_mod_cast Iff.rfl
  unfold clampedEnd
  by_cases h : S + m * D < E
  · rw [if_pos (hlt.mpr (by rw [round24_start_add_of_lt hD (by omega)]; exact h)), hmax,
      round24_start_add_of_lt hD (by omega), min_eq_right h.le]
  · have := min_le_round24_start_add (S := S) hD m
    rw [if_neg (by rw [hlt]; omega), he, min_eq_left (by omega)]

/-- The frame count over a grid end `C` is `(C - S) / D` in naturals. -/
theorem nFrames_units {C : Nat} (hs : start.val = S * 2 ^ g) (hd : step.val = D * 2 ^ g)
    (he : endTime.val = C * 2 ^ g) (hD : 0 < D) (hSC : S ≤ C) (hC : C < 2 ^ 24) :
    nFrames start step endTime = some ((C - S) / D) := by
  have hsub := F32.val_sub he hs
  rw [if_pos hSC, round24_of_lt (by omega)] at hsub
  obtain ⟨d, hd', hdv⟩ := Option.map_eq_some'.mp hsub
  rw [nFrames, hd', Option.map_some', F32.trunc_div hdv hd hD (by omega)]

theorem compareTimes_of_not_lt {t : F32} {fuel : Nat} (h : t.lt endTime = false) :
    compareTimes step endTime (fuel + 1) t = some [] := by
  rw [compareTimes, h]; rfl

/-- The compare loop on a grid: from the time of frame `k`, it visits the times of the frames
`k, …, N - 1`, where `N` is the first frame at or past the end. -/
theorem compareTimes_units {C N : Nat} (hd : step.val = D * 2 ^ g)
    (he : endTime.val = C * 2 ^ g) (hC : C < 2 ^ 24) (hN : ∀ i, i < N ↔ S + i * D < C) :
    ∀ fuel k (t : F32), k ≤ N → N - k < fuel → t.val = (S + k * D : ℕ) * 2 ^ g →
      (compareTimes step endTime fuel t).map (List.map F32.val) =
        some ((List.range' k (N - k)).map fun i => ((S + i * D : ℕ) : ℚ) * 2 ^ g)
  | 0, _, _, _, h, _ => absurd h (Nat.not_lt_zero _)
  | fuel + 1, k, t, hk, hf, ht => by
    have hlt : ∀ {u : F32} {j : Nat}, u.val = j * 2 ^ g → (u.lt endTime = true ↔ j < C) :=
      fun hu => by rw [F32.lt_iff, hu, he, mul_lt_mul_right (zpow_pos two_pos _)]; norm_cast
    have hadd : (t.add step).val = round24 (S + (k + 1) * D) * 2 ^ g := by
      rw [F32.val_add ht hd]; congr 3; ring
    rcases Nat.lt_or_ge k N with h | h
    · rw [compareTimes, if_pos ((hlt ht).mpr ((hN k).mp h))]
      obtain ⟨j, hj⟩ : ∃ j, N - k = j + 1 := ⟨N - k - 1, by omega⟩
      rw [hj, List.range'_succ, List.map_cons]
      rcases Nat.lt_or_ge (k + 1) N with h1 | h1
      · have hex : round24 (S + (k + 1) * D) = S + (k + 1) * D :=
          round24_of_lt (((hN _).mp h1).trans hC)
        have ih := compareTimes_units hd he hC hN fuel (k + 1) (t.add step) h1.le (by omega)
          (by rw [hadd, hex])
        rw [show N - (k + 1) = j by omega] at ih
        rw [Option.map_map, show List.map F32.val ∘ (t :: ·) = (t.val :: ·) ∘ List.map F32.val
          from rfl, ← Option.map_map, ih, ht]
        rfl
      · obtain ⟨fuel', rfl⟩ : ∃ fuel', fuel = fuel' + 1 := ⟨fuel - 1, by omega⟩
        have hge := min_le_round24 (S + (k + 1) * D)
        have hnot : (t.add step).lt endTime = false := by
          rw [Bool.eq_false_iff, ne_eq, hlt hadd]
          have := (hN (k + 1)).not.mp (by omega)
          omega
        rw [compareTimes_of_not_lt hnot, show j = 0 by omega]
        simp [ht]
    · rw [compareTimes, if_neg (by rw [hlt ht]; exact fun h' => absurd ((hN k).mpr h') (by omega)),
        show N - k = 0 by omega]
      rfl

end Grid

/-! ## The float times are the exact ones on a grid -/

section Exact

variable {V : Type} {r : Report V} {start step endTime : F32} {S D E : Nat} {g : Int}

/-- On the grid, a frame before the end gets its exact time. -/
theorem frameTime_val_of_grid (hs : start.val = S * 2 ^ g) (hd : step.val = D * 2 ^ g)
    (he : endTime.val = E * 2 ^ g) (hD : 0 < D) (hE : E < 2 ^ 24)
    (hr : r.startTime = start.val ∧ r.timestep = step.val ∧ r.endTime = endTime.val) {f : Nat}
    (hf : r.frameTime f < r.endTime) : (frameTime start step f).val = r.frameTime f := by
  have hframe : r.frameTime f = ((S + f * D : ℕ) : ℚ) * 2 ^ g := by
    rw [Report.frameTime, hr.1, hr.2.1, hs, hd]; push_cast; ring
  have hlt : S + f * D < E := by
    rw [hframe, hr.2.2, he, mul_lt_mul_right (zpow_pos two_pos g)] at hf; exact_mod_cast hf
  rw [hframe, ← round24_start_add_of_lt hD (by omega)]
  exact val_start_add hs hd f

/-- **The float times are exact on a grid.** For a report whose start, step and end are
`S`, `D` and `E` units of `2 ^ g`, with `0 < D`, `S ≤ E < 2 ^ 24`: the float clamped end,
frame count and frame times are `Report.clampedEnd`, `Report.nFrames` and `Report.frameTime`,
and the compare loop visits the exact times of the frames before the end. -/
theorem times_exact (hs : start.val = S * 2 ^ g) (hd : step.val = D * 2 ^ g)
    (he : endTime.val = E * 2 ^ g) (hD : 0 < D) (hSE : S ≤ E) (hE : E < 2 ^ 24)
    (hr : r.startTime = start.val ∧ r.timestep = step.val ∧ r.endTime = endTime.val)
    (maxFrames : Nat) :
    (clampedEnd start step endTime maxFrames).val = r.clampedEnd maxFrames ∧
      nFrames start step (clampedEnd start step endTime maxFrames) = some (r.nFrames maxFrames) ∧
      (∀ f, r.frameTime f < r.clampedEnd maxFrames →
        (frameTime start step f).val = r.frameTime f) ∧
      ∀ fuel, ⌈(r.clampedEnd maxFrames - r.startTime) / r.timestep⌉₊ < fuel →
        (compareTimes step (clampedEnd start step endTime maxFrames) fuel start).map
            (List.map F32.val) =
          some ((List.range ⌈(r.clampedEnd maxFrames - r.startTime) / r.timestep⌉₊).map
            r.frameTime) := by
  obtain ⟨h1, h2, h3⟩ := hr
  set C := min E (S + maxFrames * D) with hCdef
  have hSC : S ≤ C := le_min hSE (Nat.le_add_right _ _)
  have hpos : (0 : ℚ) < 2 ^ g := zpow_pos two_pos g
  have hstep : 0 < r.timestep := by rw [h2, hd]; positivity
  have hCv := val_clampedEnd hs hd he hD hE maxFrames
  have hC : r.clampedEnd maxFrames = (C : ℚ) * 2 ^ g := by
    rw [Report.clampedEnd, h1, h2, h3, hs, hd, he, hCdef, Nat.cast_min,
      min_mul_of_nonneg _ _ hpos.le]
    push_cast; ring_nf
  have hframe : ∀ f, r.frameTime f = ((S + f * D : ℕ) : ℚ) * 2 ^ g := fun f => by
    rw [Report.frameTime, h1, h2, hs, hd]; push_cast; ring
  have hlt : ∀ f, r.frameTime f < r.clampedEnd maxFrames ↔ S + f * D < C := fun f => by
    rw [hframe, hC, mul_lt_mul_right hpos]; norm_cast
  refine ⟨hCv.trans hC.symm, ?_, fun f hf => ?_, fun fuel hfuel => ?_⟩
  · -- the frame count
    rw [nFrames_units hs hd hCv hD hSC (by omega), Report.nFrames, hC, h1, h2, hs, hd, ← sub_mul,
      mul_div_mul_right _ _ hpos.ne', ← Nat.cast_sub hSC, Nat.floor_div_eq_div]
  · -- the time of a frame before the end
    exact frameTime_val_of_grid hs hd he hD hE ⟨h1, h2, h3⟩ (hf.trans_le (min_le_left _ _))
  · -- the compare loop
    have hN : ∀ i, i < ⌈(r.clampedEnd maxFrames - r.startTime) / r.timestep⌉₊ ↔
        S + i * D < C := fun i => by
      rw [Nat.lt_ceil, lt_div_iff₀ hstep, ← hlt, Report.frameTime]
      exact lt_sub_iff_add_lt'
    have := compareTimes_units hd hCv (by omega) hN fuel 0 start (Nat.zero_le _) (by omega)
      (by rw [hs]; simp)
    rw [Nat.sub_zero, ← List.range_eq_range'] at this
    rw [this, List.map_congr_left fun i _ => hframe i]

/-- The report's start, step and end are the `float`s `start`, `step` and `endTime`, which lie
on a grid `2 ^ g` with the end below `2 ^ 24` units and not before the start: where
`times_exact` makes the float times exact. -/
structure OnGrid (r : Report V) (start step endTime : F32) : Prop where
  grid : ∃ (S D E : Nat) (g : Int), start.val = S * 2 ^ g ∧ step.val = D * 2 ^ g ∧
    endTime.val = E * 2 ^ g ∧ 0 < D ∧ S ≤ E ∧ E < 2 ^ 24
  report : r.startTime = start.val ∧ r.timestep = step.val ∧ r.endTime = endTime.val

theorem OnGrid.step_pos (h : OnGrid r start step endTime) : 0 < r.timestep := by
  obtain ⟨S, D, E, g, -, hd, -, hD, -⟩ := h.grid
  rw [h.report.2.1, hd]
  exact mul_pos (by exact_mod_cast hD) (zpow_pos two_pos g)

/-- On the grid, the code's time of a frame before the end is its exact time. -/
theorem OnGrid.frameTime_val (h : OnGrid r start step endTime) {f : Nat}
    (hf : r.frameTime f < r.endTime) : (frameTime start step f).val = r.frameTime f := by
  obtain ⟨S, D, E, g, hs, hd, he, hD, -, hE⟩ := h.grid
  exact frameTime_val_of_grid hs hd he hD hE h.report hf

/-- A report from `0` to `10` in steps of `1 / 4`, without neurons: only its times matter. -/
def quarterReport : Report Nat where
  startTime := 0
  endTime := 10
  timestep := 1 / 4
  dataUnit := "mV"
  timeUnit := "ms"
  gids := []
  offsets := []
  counts := []
  frameSize := 0
  loadFrame := fun _ => none
  gids_sorted := List.sorted_nil
  frame_length := fun _ _ h => by cases h

theorem times_exact_quarters :
    nFrames ⟨0, 0⟩ ⟨1, -2⟩ (clampedEnd ⟨0, 0⟩ ⟨1, -2⟩ ⟨10, 0⟩ 8) = some (quarterReport.nFrames 8) :=
  (times_exact (r := quarterReport) (S := 0) (D := 1) (E := 40) (g := -2)
    (by norm_num [F32.val]) (by norm_num [F32.val]) (by norm_num [F32.val]) one_pos
    (Nat.zero_le _) (by norm_num) (by norm_num [F32.val, quarterReport]) 8).2.1

end Exact

/-! ## A step below half a unit in the last place -/

section Absorbed

variable {start step endTime : F32}

/-- A loop whose `t += step` leaves `t` at `start` never reaches an end past `start`. -/
theorem compareTimes_stuck (hstay : ∀ t : F32, t.val = start.val → (t.add step).val = start.val)
    (hend : start.val < endTime.val) :
    ∀ fuel (t : F32), t.val = start.val → compareTimes step endTime fuel t = none
  | 0, _, _ => rfl
  | fuel + 1, t, ht => by
    rw [compareTimes, if_pos (F32.lt_iff.mpr (ht ▸ hend)),
      compareTimes_stuck hstay hend fuel _ (hstay t ht)]
    rfl

/-- **A step below half a unit in the last place is absorbed.** When `start` and `step` are
floats with `2 ^ 25 * step ≤ start`, `start + step` rounds to `start`: the compare loop, with
`start < end`, never ends, and the converter loads and writes frames `0` and `1` at one time. -/
theorem step_absorbed (hs : start.mant < 2 ^ 24) (hd : step.mant < 2 ^ 24)
    (habs : 2 ^ 25 * step.val ≤ start.val) (hend : start.val < endTime.val) :
    (∀ fuel, compareTimes step endTime fuel start = none) ∧
      (frameTime start step 1).val = (frameTime start step 0).val := by
  have hstay : ∀ {t y : F32}, t.val = start.val → 2 ^ 25 * y.val ≤ start.val →
      (t.add y).val = start.val := fun ht hy =>
    (F32.val_add_of_small hs ht (by rw [ht]; exact hy)).trans ht
  refine ⟨fun fuel => compareTimes_stuck (fun _ ht => hstay ht habs) hend fuel start rfl, ?_⟩
  have h1 : ((F32.ofNat 1).mul step).val = step.val := by
    rw [F32.val_mul (g := 0) (N := 1)
        (by rw [F32.val_ofNat, round24_of_lt (by norm_num)]; simp) rfl,
      Nat.one_mul,
      round24_of_lt hd, zero_add]
    rfl
  have h0 : ((F32.ofNat 0).mul step).val = 0 := by
    rw [F32.val_mul (g := 0) (N := 0) (by rw [F32.val_ofNat, round24_zero]; simp) rfl]
    simp
  have hnn : 0 ≤ start.val := mul_nonneg (Nat.cast_nonneg _) (zpow_pos two_pos _).le
  rw [frameTime, frameTime, hstay rfl (h1 ▸ habs), hstay rfl (by rw [h0]; linarith)]

theorem step_absorbed_two_pow_25 :
    (∀ fuel, compareTimes ⟨1, 0⟩ ⟨1, 26⟩ fuel ⟨1, 25⟩ = none) ∧
      (frameTime ⟨1, 25⟩ ⟨1, 0⟩ 1).val = (frameTime ⟨1, 25⟩ ⟨1, 0⟩ 0).val :=
  step_absorbed (by norm_num) (by norm_num) (by norm_num [F32.val]) (by norm_num [F32.val])

end Absorbed

/-! ## Frame indices past `2 ^ 24` -/

section Collide

/-- In the binade `[2 ^ 24, 2 ^ 25)` the conversion to `float` halves, rounding ties to even. -/
theorem ofNat_of_binade {n : Nat} (h1 : 2 ^ 24 ≤ n) (h2 : n < 2 ^ 25) :
    F32.ofNat n = ⟨divRoundEven n 2, 1⟩ := by
  have hn : n ≠ 0 := by omega
  have hL : n.log2 = 24 :=
    le_antisymm (Nat.lt_succ_iff.mp ((Nat.log2_lt hn).mpr h2)) ((Nat.le_log2 hn).mpr h1)
  simp only [F32.ofNat, F32.round, if_neg hn, floorLog2_one (Nat.pos_of_ne_zero hn), hL]
  norm_num
  rw [show (-1 : Int).toNat = 0 from rfl, pow_zero, mul_one]

theorem ofNat_two_pow_24_add {k : Nat} (hk : k < 2 ^ 22) :
    F32.ofNat (2 ^ 24 + 4 * k + 1) = F32.ofNat (2 ^ 24 + 4 * k) := by
  rw [ofNat_of_binade (by omega) (by omega), ofNat_of_binade (by omega) (by omega)]
  congr 1
  unfold divRoundEven
  split_ifs <;> omega

/-- **Frame times collide from frame `2 ^ 24` on.** Line 269 converts `int frame` to `float`:
below `2 ^ 24` distinct frames stay distinct, but for every report frames `2 ^ 24 + 4 k` and
`2 ^ 24 + 4 k + 1` get the same time `t = start + frame * step`, so both are loaded and written
at that one time. -/
theorem frame_times_collide (start step : F32) :
    (∀ f f', f < 2 ^ 24 → f' < 2 ^ 24 → F32.ofNat f = F32.ofNat f' → f = f') ∧
      ∀ k < 2 ^ 22, frameTime start step (2 ^ 24 + 4 * k + 1) =
        frameTime start step (2 ^ 24 + 4 * k) := by
  refine ⟨fun f f' hf hf' h => ?_, fun k hk => by rw [frameTime, frameTime,
    ofNat_two_pow_24_add hk]⟩
  have := congrArg F32.val h
  rwa [F32.val_ofNat, F32.val_ofNat, round24_of_lt hf, round24_of_lt hf', Nat.cast_inj] at this

end Collide

end FloatTime

end Brion
