import FlowTyping.Number.Double
import Mathlib.Algebra.Order.Field.Power
import Mathlib.Algebra.Order.Field.Rat
import Mathlib.Data.Rat.Cast.Order
import Mathlib.Tactic.Linarith
import Mathlib.Tactic.NormNum
import Mathlib.Tactic.Positivity
import Mathlib.Tactic.Ring

/-!
Bounds on rounded numbers. A ratio is read as a rational number; a number with significand `m` and
exponent `q` is an upper bound of everything that is less than half a step above it and a lower
bound of everything from it on, before and after rounding. Rounding itself is off by at most a part
of `2 ^ 53` above.
-/

namespace FlowTyping

namespace Double

namespace Ratio

/-- The ratio as a rational number. -/
def value (a : Ratio) : ℚ := (a.num : ℚ) / a.den

theorem value_natural (n : Nat) : (⟨n, 1⟩ : Ratio).value = n := by simp [value]

theorem value_nonneg (a : Ratio) : 0 ≤ a.value := by
  unfold value
  positivity

theorem value_scale (base : Nat) (a : Ratio) (e : Int) :
    (a.scale base e).value = a.value * (base : ℚ) ^ e := by
  cases e with
  | ofNat k =>
      simp only [scale, value, Nat.pow_eq, Nat.cast_mul, Nat.cast_pow, Int.ofNat_eq_natCast,
        zpow_natCast]
      ring
  | negSucc k =>
      simp only [scale, value, Nat.pow_eq, Nat.cast_mul, Nat.cast_pow, zpow_negSucc]
      rw [div_mul_eq_div_div, div_eq_mul_inv _ ((base : ℚ) ^ (k + 1))]

theorem value_mul (a b : Ratio) : (a.mul b).value = a.value * b.value := by
  simp only [mul, value, Nat.cast_mul]
  rw [div_mul_div_comm]

theorem value_div (a b : Ratio) : (a.div b).value = a.value / b.value := by
  simp only [div, value, Nat.cast_mul]
  rw [div_div_div_eq]

theorem den_scale_pos {b : Nat} (hb : 0 < b) {a : Ratio} (ha : 0 < a.den) (e : Int) :
    0 < (a.scale b e).den := by
  cases e with
  | ofNat k => exact ha
  | negSucc k => exact Nat.mul_pos ha (Nat.pow_pos hb)

variable {a : Ratio} {m : Nat}

theorem value_lt_iff (ha : 0 < a.den) {r : ℚ} : a.value < r ↔ (a.num : ℚ) < r * a.den :=
  div_lt_iff₀ (by exact_mod_cast ha)

theorem le_value_iff (ha : 0 < a.den) {r : ℚ} : r ≤ a.value ↔ r * a.den ≤ (a.num : ℚ) :=
  le_div_iff₀ (by exact_mod_cast ha)

theorem le_floor_iff (ha : 0 < a.den) : m ≤ a.num / a.den ↔ (m : ℚ) ≤ a.value := by
  rw [Nat.le_div_iff_mul_le ha, le_value_iff ha]
  exact_mod_cast Iff.rfl

/-- Rounding to an integer adds a half at most. -/
theorem round_le_add_half (ha : 0 < a.den) : (a.round : ℚ) ≤ a.value + 1 / 2 := by
  have hnum : 2 * a.round * a.den ≤ 2 * a.num + a.den := by
    have hsplit := Nat.div_add_mod a.num a.den
    simp only [round]
    generalize a.num / a.den = q at hsplit ⊢
    generalize a.num % a.den = r at hsplit ⊢
    split_ifs with hbelow habove
    · nlinarith
    · nlinarith
    · have hparity : q % 2 ≤ 1 := by omega
      nlinarith
  have hcast : (2 : ℚ) * a.round * a.den ≤ 2 * a.num + a.den := by exact_mod_cast hnum
  have hvalue : (a.round : ℚ) - 1 / 2 ≤ a.value := by
    rw [le_value_iff ha]
    linarith
  linarith

/-- Rounding to an integer does not pass an integer that is less than a half below. -/
theorem round_le (ha : 0 < a.den) (h : a.value < m + 1 / 2) : a.round ≤ m := by
  have hround := round_le_add_half ha
  have hlt : (a.round : ℚ) < (m + 1 : Nat) := by
    push_cast
    linarith
  exact Nat.le_of_lt_succ (by exact_mod_cast hlt)

/-- Rounding to an integer does not pass an integer below. -/
theorem le_round (ha : 0 < a.den) (h : (m : ℚ) ≤ a.value) : m ≤ a.round := by
  rw [← le_floor_iff ha] at h
  refine h.trans ?_
  simp only [round]
  split_ifs <;> omega

end Ratio

section Powers

variable {p q : Int}

theorem two_zpow_le (h : p ≤ q) : (2 : ℚ) ^ p ≤ 2 ^ q := zpow_le_zpow_right₀ (by norm_num) h

theorem two_zpow_add (p q : Int) : (2 : ℚ) ^ (p + q) = 2 ^ p * 2 ^ q := zpow_add₀ (by norm_num) p q

theorem two_zpow_succ (q : Int) : (2 : ℚ) ^ (q + 1) = 2 * 2 ^ q := by
  rw [two_zpow_add]
  ring

/-- A ratio lies between the powers of two that its terms have. -/
theorem two_zpow_lt_value {a : Ratio} (ha : 0 < a.den) (hnum : a.num ≠ 0) :
    (2 : ℚ) ^ ((a.num.log2 : Int) - a.den.log2 - 1) ≤ a.value ∧
      a.value < 2 ^ ((a.num.log2 : Int) - a.den.log2 + 1) := by
  have hden : (0 : ℚ) < a.den := by exact_mod_cast ha
  have hnumLow : (2 : ℚ) ^ (a.num.log2 : Int) ≤ a.num := by
    rw [zpow_natCast]
    exact_mod_cast Nat.log2_self_le hnum
  have hnumHigh : (a.num : ℚ) < 2 ^ ((a.num.log2 : Int) + 1) := by
    rw [← Nat.cast_succ, zpow_natCast]
    exact_mod_cast Nat.lt_log2_self
  have hdenLow : (2 : ℚ) ^ (a.den.log2 : Int) ≤ a.den := by
    rw [zpow_natCast]
    exact_mod_cast Nat.log2_self_le (Nat.ne_of_gt ha)
  have hdenHigh : (a.den : ℚ) < 2 ^ ((a.den.log2 : Int) + 1) := by
    rw [← Nat.cast_succ, zpow_natCast]
    exact_mod_cast Nat.lt_log2_self
  constructor
  · rw [Ratio.le_value_iff ha]
    calc (2 : ℚ) ^ ((a.num.log2 : Int) - a.den.log2 - 1) * a.den
        ≤ 2 ^ ((a.num.log2 : Int) - a.den.log2 - 1) * 2 ^ ((a.den.log2 : Int) + 1) :=
          mul_le_mul_of_nonneg_left hdenHigh.le (by positivity)
      _ = 2 ^ (a.num.log2 : Int) := by
          rw [← two_zpow_add]
          congr 1
          ring
      _ ≤ a.num := hnumLow
  · rw [Ratio.value_lt_iff ha]
    calc (a.num : ℚ) < 2 ^ ((a.num.log2 : Int) + 1) := hnumHigh
      _ = 2 ^ ((a.num.log2 : Int) - a.den.log2 + 1) * 2 ^ (a.den.log2 : Int) := by
          rw [← two_zpow_add]
          congr 1
          ring
      _ ≤ 2 ^ ((a.num.log2 : Int) - a.den.log2 + 1) * a.den :=
          mul_le_mul_of_nonneg_left hdenLow (by positivity)

end Powers

/-- The significands and exponents of doubles. Only the least exponent has short significands. -/
structure OnGrid (m : Nat) (q : Int) : Prop where
  exponent : -1074 ≤ q
  lt : m < 2 ^ 53
  normal : q ≠ -1074 → 2 ^ 52 ≤ m

/-- The bits of a significand and an exponent. -/
def gridBits (m : Nat) (q : Int) : Nat := (q + 1074).toNat * Nat.pow 2 52 + m

section Bounds

variable {a : Ratio} {m : Nat} {q : Int}

/-- The exponent that a ratio is rounded with: the one at which it has 53 bits, or the least. -/
theorem exists_exponent (ha : 0 < a.den) (hnum : a.num ≠ 0) : ∃ p : Int, -1074 ≤ p ∧
    a.value < 2 ^ (p + 53) ∧ (p ≠ -1074 → 2 ^ (p + 52) ≤ a.value) ∧
      nearestBits a = min (gridBits (a.scale 2 (-p)).round p) infinityBits := by
  obtain ⟨hlow, hhigh⟩ := two_zpow_lt_value ha hnum
  obtain ⟨low, hlowEq⟩ : ∃ low, low = max ((a.num.log2 : Int) - a.den.log2 - 53) (-1074) := ⟨_, rfl⟩
  have hscaled : 2 ^ 53 ≤ (a.scale 2 (-low)).num / (a.scale 2 (-low)).den ↔
      (2 : ℚ) ^ (low + 53) ≤ a.value := by
    rw [Ratio.le_floor_iff (Ratio.den_scale_pos (by decide) ha _), Ratio.value_scale]
    have hpos : (0 : ℚ) < 2 ^ low := by positivity
    rw [Nat.cast_ofNat, zpow_neg, ← div_eq_mul_inv, le_div_iff₀ hpos, Int.add_comm, two_zpow_add]
    norm_num
  have hwide : a.value < 2 ^ (low + 54) :=
    hhigh.trans_le (two_zpow_le (by omega))
  by_cases hcarry : (2 : ℚ) ^ (low + 53) ≤ a.value
  · refine ⟨low + 1, by omega, ?_, fun _ => ?_, ?_⟩
    · rwa [Int.add_assoc]
    · rwa [Int.add_assoc]
    · have hq : Nat.pow 2 53 ≤ (a.scale 2 (-low)).num / (a.scale 2 (-low)).den :=
        hscaled.mpr hcarry
      simp only [nearestBits, hnum, if_false, ← hlowEq, hq, if_true, gridBits]
  · refine ⟨low, by omega, not_le.mp hcarry, fun hne => ?_, ?_⟩
    · exact (two_zpow_le (by omega)).trans hlow
    · have hq : ¬ Nat.pow 2 53 ≤ (a.scale 2 (-low)).num / (a.scale 2 (-low)).den :=
        fun h => hcarry (hscaled.mp h)
      simp only [nearestBits, hnum, if_false, ← hlowEq, hq, if_false, gridBits]

/-- A number less than half a step above a point of the grid is rounded to that point or below. -/
theorem nearestBits_le (ha : 0 < a.den) (h : OnGrid m q) (hlt : a.value < (m + 1 / 2) * 2 ^ q) :
    nearestBits a ≤ gridBits m q := by
  by_cases hnum : a.num = 0
  · simp [nearestBits, hnum]
  obtain ⟨p, hp, hhigh, hlow, hbits⟩ := exists_exponent ha hnum
  rw [hbits]
  refine (Nat.min_le_left _ _).trans ?_
  have hround {n : Nat} (hn : a.value < (n + 1 / 2) * 2 ^ p) : (a.scale 2 (-p)).round ≤ n := by
    refine Ratio.round_le (Ratio.den_scale_pos (by decide) ha _) ?_
    rw [Ratio.value_scale, Nat.cast_ofNat, zpow_neg, ← div_eq_mul_inv,
      div_lt_iff₀ (by positivity)]
    exact hn
  have hm : (m : ℚ) + 1 ≤ 2 ^ (53 : Int) := by
    rw [zpow_ofNat]
    exact_mod_cast h.lt
  simp only [gridBits, Nat.pow_eq]
  obtain hlt' | rfl | hgt := lt_trichotomy p q
  · -- below the exponent of the point, a carry to the next exponent is the most that can happen
    have hcarry : (a.scale 2 (-p)).round ≤ 2 ^ 53 := by
      refine hround (hhigh.trans_le ?_)
      rw [Int.add_comm, two_zpow_add]
      refine mul_le_mul_of_nonneg_right ?_ (by positivity)
      norm_num
    have hnormal := h.normal (by omega)
    have hexp : (p + 1074).toNat + 1 ≤ (q + 1074).toNat := by omega
    nlinarith
  · exact Nat.add_le_add_left (hround hlt) _
  · -- above it the number is too great to be below the point
    have hlarge := hlow (by have := h.exponent; omega)
    have hstep : (2 : ℚ) ^ (q + 53) ≤ 2 ^ (p + 52) := two_zpow_le (by omega)
    have hbound : ((m : ℚ) + 1 / 2) * 2 ^ q ≤ 2 ^ (53 : Int) * 2 ^ q :=
      mul_le_mul_of_nonneg_right (by linarith) (by positivity)
    rw [← two_zpow_add, Int.add_comm] at hbound
    exact absurd (hlarge.trans_lt hlt) (not_lt.mpr (hbound.trans hstep))

/-- A number from a point of the grid on is rounded to that point or above. -/
theorem le_nearestBits (ha : 0 < a.den) (h : OnGrid m q) (hq : q ≤ 971)
    (hle : m * 2 ^ q ≤ a.value) : gridBits m q ≤ nearestBits a := by
  have hm := h.lt
  have hexp := h.exponent
  by_cases hnum : a.num = 0
  · have hzero : m = 0 := by
      have hpos : (0 : ℚ) < 2 ^ q := by positivity
      rw [Ratio.value, hnum, Nat.cast_zero, zero_div] at hle
      exact_mod_cast le_antisymm (nonpos_of_mul_nonpos_left hle hpos) m.cast_nonneg
    obtain rfl : q = -1074 := by
      by_contra hne
      exact absurd (h.normal hne) (by omega)
    simp [gridBits, hzero]
  obtain ⟨p, hp, hhigh, hlow, hbits⟩ := exists_exponent ha hnum
  rw [hbits]
  have hfinite : gridBits m q ≤ infinityBits := by
    simp only [gridBits, infinityBits, Nat.pow_eq]
    omega
  refine Nat.le_min.mpr ⟨?_, hfinite⟩
  have hround {n : Nat} (hn : (n : ℚ) * 2 ^ p ≤ a.value) : n ≤ (a.scale 2 (-p)).round := by
    refine Ratio.le_round (Ratio.den_scale_pos (by decide) ha _) ?_
    rw [Ratio.value_scale, Nat.cast_ofNat, zpow_neg, ← div_eq_mul_inv, le_div_iff₀ (by positivity)]
    exact hn
  simp only [gridBits, Nat.pow_eq]
  obtain hlt | rfl | hgt := lt_trichotomy p q
  · -- below the exponent of the point the number is too small to be above it
    have hnormal : (2 : ℚ) ^ (52 : Int) ≤ m := by
      rw [zpow_ofNat]
      exact_mod_cast h.normal (by omega)
    have hpoint : (2 : ℚ) ^ (52 + q) ≤ m * 2 ^ q := by
      rw [two_zpow_add]
      exact mul_le_mul_of_nonneg_right hnormal (by positivity)
    have hstep : (2 : ℚ) ^ (p + 53) ≤ 2 ^ (52 + q) := two_zpow_le (by omega)
    exact absurd (hpoint.trans hle) (not_le.mpr (hhigh.trans_le hstep))
  · exact Nat.add_le_add_left (hround hle) _
  · -- above it the leading bit alone passes the point
    have hlead : 2 ^ 52 ≤ (a.scale 2 (-p)).round := by
      refine hround (le_of_eq_of_le ?_ (hlow (by omega)))
      rw [Int.add_comm, two_zpow_add]
      norm_num
    have hstep : (q + 1074).toNat + 1 ≤ (p + 1074).toNat := by omega
    nlinarith

end Bounds

section Magnitudes

variable {x : Double} {a : Ratio} {m n : Nat} {p q : Int} {negative : Bool}

theorem decompose_onGrid (x : Double) : OnGrid x.decompose.1 x.decompose.2 := by
  have hrest : x.magnitudeBits % 2 ^ 52 < 2 ^ 52 := Nat.mod_lt _ (by decide)
  simp only [decompose, Nat.pow_eq]
  generalize x.magnitudeBits / 2 ^ 52 = biased
  generalize x.magnitudeBits % 2 ^ 52 = fraction at hrest ⊢
  split_ifs with h
  · exact ⟨le_refl _, by omega, fun hne => absurd rfl hne⟩
  · exact ⟨by dsimp only; omega, by dsimp only; omega, fun _ => by dsimp only; omega⟩

theorem gridBits_decompose (x : Double) :
    gridBits x.decompose.1 x.decompose.2 = x.magnitudeBits := by
  have hsplit := Nat.div_add_mod x.magnitudeBits (2 ^ 52)
  simp only [decompose, gridBits, Nat.pow_eq]
  generalize x.magnitudeBits / 2 ^ 52 = biased at hsplit ⊢
  generalize x.magnitudeBits % 2 ^ 52 = fraction at hsplit ⊢
  split_ifs with h
  · simp only
    omega
  · simp only
    omega

theorem value_magnitude (x : Double) :
    x.magnitude.value = x.decompose.1 * 2 ^ x.decompose.2 := by
  rw [magnitude, Ratio.value_scale, Ratio.value_natural, Nat.cast_ofNat]

theorem den_magnitude_pos (x : Double) : 0 < x.magnitude.den :=
  Ratio.den_scale_pos (by decide) Nat.one_pos _

/-- Points of the grid are ordered as their bits. -/
theorem grid_le (h : OnGrid m p) (h' : OnGrid n q) (hle : gridBits m p ≤ gridBits n q) :
    (m : ℚ) * 2 ^ p ≤ n * 2 ^ q := by
  have hp := h.exponent
  have hm := h.lt
  have hn := h'.lt
  simp only [gridBits, Nat.pow_eq] at hle
  obtain hlt | rfl | hgt := lt_trichotomy p q
  · have hnormal := h'.normal (by omega)
    have hmq : (m : ℚ) ≤ 2 ^ (53 : Int) := by
      rw [zpow_ofNat]
      exact_mod_cast hm.le
    have hnq : (2 : ℚ) ^ (52 : Int) ≤ n := by
      rw [zpow_ofNat]
      exact_mod_cast hnormal
    calc (m : ℚ) * 2 ^ p ≤ 2 ^ (53 : Int) * 2 ^ p :=
          mul_le_mul_of_nonneg_right hmq (by positivity)
      _ = 2 ^ (53 + p) := (two_zpow_add _ _).symm
      _ ≤ 2 ^ (52 + q) := two_zpow_le (by omega)
      _ = 2 ^ (52 : Int) * 2 ^ q := two_zpow_add _ _
      _ ≤ n * 2 ^ q := mul_le_mul_of_nonneg_right hnq (by positivity)
  · have hmn : m ≤ n := by omega
    exact mul_le_mul_of_nonneg_right (by exact_mod_cast hmn) (by positivity)
  · have hnormal := h.normal (by have := h'.exponent; omega)
    have hexp : (q + 1074).toNat + 1 ≤ (p + 1074).toNat := by have := h'.exponent; omega
    have hmul : ((q + 1074).toNat + 1) * 2 ^ 52 ≤ (p + 1074).toNat * 2 ^ 52 :=
      Nat.mul_le_mul_right _ hexp
    omega

theorem magnitude_le (h : OnGrid m q) (hbits : x.magnitudeBits ≤ gridBits m q) :
    x.magnitude.value ≤ m * 2 ^ q := by
  rw [value_magnitude]
  refine grid_le (decompose_onGrid x) h ?_
  rwa [gridBits_decompose]

theorem nearestBits_le_infinityBits (a : Ratio) : nearestBits a ≤ infinityBits := by
  rw [nearestBits]
  split_ifs
  · exact Nat.zero_le _
  · exact Nat.min_le_right _ _

@[simp] theorem magnitudeBits_ofRatio : (ofRatio negative a).magnitudeBits = nearestBits a := by
  have hbits : nearestBits a < 2 ^ 63 :=
    (nearestBits_le_infinityBits a).trans_lt (by decide)
  have hword : (if negative then 2 ^ 63 else 0) + nearestBits a < 2 ^ 64 := by
    split_ifs <;> omega
  simp only [ofRatio, magnitudeBits, Nat.pow_eq, UInt64.toNat_ofNat']
  rw [Nat.mod_eq_of_lt hword]
  split_ifs
  · rw [Nat.add_mod_left, Nat.mod_eq_of_lt hbits]
  · rw [Nat.zero_add, Nat.mod_eq_of_lt hbits]

@[simp] theorem magnitudeBits_neg (x : Double) : x.neg.magnitudeBits = x.magnitudeBits := by
  have hbits : x.magnitudeBits < 2 ^ 63 := Nat.mod_lt _ (by decide)
  have hword : (if x.isNegative then x.magnitudeBits else x.magnitudeBits + 2 ^ 63) < 2 ^ 64 := by
    split_ifs <;> omega
  rw [neg, magnitudeBits]
  simp only [Nat.pow_eq, UInt64.toNat_ofNat']
  rw [Nat.mod_eq_of_lt hword]
  split_ifs
  · rw [Nat.mod_eq_of_lt hbits]
  · rw [Nat.add_mod_right, Nat.mod_eq_of_lt hbits]

/-- The nearest double is no greater than a point of the grid less than half a step below. -/
theorem magnitude_ofRatio_le (ha : 0 < a.den) (h : OnGrid m q)
    (hlt : a.value < (m + 1 / 2) * 2 ^ q) : (ofRatio negative a).magnitude.value ≤ m * 2 ^ q :=
  magnitude_le h (by
    rw [magnitudeBits_ofRatio]
    exact nearestBits_le ha h hlt)

/-- The nearest double is no less than a point of the grid below. -/
theorem le_magnitude_ofRatio (ha : 0 < a.den) (h : OnGrid m q) (hq : q ≤ 971)
    (hle : m * 2 ^ q ≤ a.value) : m * 2 ^ q ≤ (ofRatio negative a).magnitude.value := by
  rw [value_magnitude]
  refine grid_le h (decompose_onGrid _) ?_
  rw [gridBits_decompose, magnitudeBits_ofRatio]
  exact le_nearestBits ha h hq hle

/-- The nearest double of a number of normal size is above it by at most a part of `2 ^ 53`. -/
theorem magnitude_ofRatio_le_mul (ha : 0 < a.den) (hsize : 2 ^ (-1022 : Int) ≤ a.value) :
    (ofRatio negative a).magnitude.value ≤ (1 + 1 / 2 ^ 53) * a.value := by
  have hnum : a.num ≠ 0 := by
    intro hnum
    have hpos : (0 : ℚ) < 2 ^ (-1022 : Int) := by positivity
    rw [Ratio.value, hnum, Nat.cast_zero, zero_div] at hsize
    exact absurd hpos (not_lt.mpr hsize)
  obtain ⟨p, hp, hhigh, hlow, hbits⟩ := exists_exponent ha hnum
  have hlead : (2 : ℚ) ^ 52 * 2 ^ p ≤ a.value := by
    have hle : (2 : ℚ) ^ (p + 52) ≤ a.value := by
      obtain rfl | hne := eq_or_ne p (-1074)
      · exact hsize
      · exact hlow hne
    rwa [Int.add_comm, two_zpow_add] at hle
  have hden := Ratio.den_scale_pos (b := 2) (by decide) ha (-p)
  have hvalue : (a.scale 2 (-p)).value * 2 ^ p = a.value := by
    rw [Ratio.value_scale, Nat.cast_ofNat, zpow_neg, inv_mul_cancel_right₀]
    positivity
  generalize a.scale 2 (-p) = b at hbits hden hvalue
  have hstep : (0 : ℚ) < 2 ^ p := by positivity
  have hrounded : (ofRatio negative a).magnitude.value ≤ b.round * 2 ^ p := by
    have hleast : 2 ^ 52 ≤ b.round := by
      refine Ratio.le_round hden ?_
      rw [← hvalue] at hlead
      exact_mod_cast le_of_mul_le_mul_right hlead hstep
    have hgreatest : b.round ≤ 2 ^ 53 := by
      refine Ratio.round_le hden ?_
      rw [← hvalue, Int.add_comm, two_zpow_add] at hhigh
      have hlt := lt_of_mul_lt_mul_right hhigh hstep.le
      exact hlt.trans (by norm_num)
    have hle : (ofRatio negative a).magnitudeBits ≤ gridBits b.round p := by
      rw [magnitudeBits_ofRatio, hbits]
      exact Nat.min_le_left _ _
    obtain hlt | hcarry := Nat.lt_or_eq_of_le hgreatest
    · exact magnitude_le ⟨hp, hlt, fun _ => hleast⟩ hle
    · -- the carry is the first point of the next exponent
      have hnext : gridBits b.round p = gridBits (2 ^ 52) (p + 1) := by
        simp only [gridBits, hcarry, Nat.pow_eq]
        omega
      rw [hnext] at hle
      refine (magnitude_le ⟨by omega, by decide, fun _ => le_refl _⟩ hle).trans_eq ?_
      rw [hcarry, two_zpow_succ]
      push_cast
      ring
  have hhalf : (b.round : ℚ) * 2 ^ p ≤ a.value + 1 / 2 * 2 ^ p := by
    rw [← hvalue, ← add_mul]
    exact mul_le_mul_of_nonneg_right (Ratio.round_le_add_half hden) hstep.le
  linarith

/-- A number less than half a step above the greatest double is rounded to a finite one. -/
theorem isFinite_ofRatio (ha : 0 < a.den) (hlt : a.value < (2 ^ 53 - 1 / 2) * 2 ^ (971 : Int)) :
    (ofRatio negative a).isFinite = true := by
  have hgrid : OnGrid (2 ^ 53 - 1) 971 := ⟨by decide, by decide, fun _ => by decide⟩
  have hbits : nearestBits a ≤ gridBits (2 ^ 53 - 1) 971 :=
    nearestBits_le ha hgrid (hlt.trans_eq (by norm_num))
  rw [isFinite, magnitudeBits_ofRatio, decide_eq_true_eq]
  exact hbits.trans_lt (by decide)

end Magnitudes

end Double

end FlowTyping
