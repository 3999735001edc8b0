import FlowTyping.Proofs.Number.Shortest
import Mathlib.Tactic.FieldSimp

/-!
Doubles are written and read again. The numeral of a finite double is always read as some double:
reading rounds twice, and yet the shortest decimal leaves enough room below infinity. Numerals have
finite doubles only.
-/

namespace FlowTyping

namespace Numeral

open Double (OnGrid Ratio)

section Absorbing

theorem le_foldl_digits (s : Nat) (ds : List Nat) : s ≤ ds.foldl (fun n d => 10 * n + d) s := by
  induction ds generalizing s with
  | nil => exact Nat.le_refl s
  | cons d more ih => exact Nat.le_trans (by omega) (ih (10 * s + d))

/-- Digits are all read if the whole number has 64 bits. -/
theorem absorb_eq {s : Nat} {ds : List Nat}
    (h : ds.foldl (fun n d => 10 * n + d) s < 2 ^ 64) :
    absorb s ds = (ds.foldl (fun n d => 10 * n + d) s, ds.length, []) := by
  induction ds generalizing s with
  | nil => rfl
  | cons d more ih =>
      have hfits : 10 * s + d < Nat.pow 2 64 := Nat.lt_of_le_of_lt (le_foldl_digits _ more) h
      rw [absorb, if_pos hfits, ih h]
      rfl

theorem absorb_lt {s : Nat} (hs : s < 2 ^ 64) (ds : List Nat) : (absorb s ds).1 < 2 ^ 64 := by
  induction ds generalizing s with
  | nil => exact hs
  | cons d more ih =>
      rw [absorb]
      split_ifs with hfits
      · exact ih hfits
      · exact hs

/-- A numeral with a point or an exponent is its digits, scaled. -/
theorem toDouble?_eq_scaled {n : Numeral} (hn : n.isIntegral = false)
    (h : ofDigits (n.whole ++ n.fraction) < 2 ^ 64) :
    n.toDouble? = (scaled? (ofDigits (n.whole ++ n.fraction))
      (n.exponent.getD 0 - n.fraction.length)).map fun x => if n.negative then x.neg else x := by
  have hdigits : ofDigits (n.whole ++ n.fraction) =
      n.fraction.foldl (fun n d => 10 * n + d) (ofDigits n.whole) := List.foldl_append
  have hfraction := absorb_eq (hdigits ▸ h)
  have hwhole : absorb 0 n.whole = (ofDigits n.whole, n.whole.length, []) :=
    absorb_eq (Nat.lt_of_le_of_lt (le_foldl_digits _ n.fraction) (hdigits ▸ h))
  have hexponent : (([] : List Nat).length : Int) - n.fraction.length + n.exponent.getD 0 =
      n.exponent.getD 0 - n.fraction.length := by
    rw [List.length_nil]
    omega
  rw [toDouble?, hwhole]
  simp only [hn, Bool.false_eq_true, false_and, if_false, hfraction, hexponent, hdigits]

end Absorbing

section Powers

/-- A number of half steps between the greatest doubles. -/
def halfSteps (n : Nat) : Ratio := Ratio.scale 2 ⟨n, 1⟩ 970

theorem value_halfSteps (n : Nat) : (halfSteps n).value = n / 2 * 2 ^ (971 : Int) := by
  have hstep : (2 : ℚ) ^ (971 : Int) = 2 * 2 ^ (970 : Int) := Double.two_zpow_succ 970
  rw [halfSteps, Ratio.value_scale, Ratio.value_natural, hstep, Nat.cast_ofNat]
  ring

/-- The greatest number of at most seventeen digits that, times a power of ten, is no greater than
what rounds to the last double but one. -/
def ceiling (e : Nat) : Nat :=
  min (Nat.pow 10 17) ((halfSteps (Nat.pow 2 54 - 3)).num / Nat.pow 10 e)

/-- The next power of ten is past all doubles, and all ceilings are doubles. -/
theorem ceiling_checked :
    (halfSteps (Nat.pow 2 54 - 3)).num < Nat.pow 10 (largestPower + 1) ∧
      ∀ e < 309, ceiling e ≠ 0 ∧ ceiling e % Nat.pow 2 ((ceiling e).log2 - 52) = 0 := by
  decide +kernel

theorem value_last : (halfSteps (Nat.pow 2 54 - 3)).value = (2 ^ 53 - 3 / 2) * 2 ^ (971 : Int) := by
  rw [value_halfSteps]
  norm_num

theorem ceiling_mul_le (e : Nat) :
    (ceiling e : ℚ) * 10 ^ e ≤ (halfSteps (Nat.pow 2 54 - 3)).value := by
  have hle : ceiling e * 10 ^ e ≤ (halfSteps (Nat.pow 2 54 - 3)).num :=
    (Nat.mul_le_mul_right _ (Nat.min_le_right _ _)).trans (Nat.div_mul_le_self _ _)
  have hden : (halfSteps (Nat.pow 2 54 - 3)).den = 1 := rfl
  rw [Ratio.value, hden, Nat.cast_one, div_one]
  exact_mod_cast hle

theorem value_power (e : Nat) : (⟨Nat.pow 10 e, 1⟩ : Ratio).value = 10 ^ e := by
  rw [Ratio.value_natural, Nat.pow_eq, Nat.cast_pow, Nat.cast_ofNat]

/-- No power of ten is rounded below one. -/
theorem one_le_powerOfTen (e : Nat) : 1 ≤ (powerOfTen e).magnitude.value := by
  have hgrid : OnGrid (2 ^ 52) (-52) := ⟨by decide, by decide, fun _ => by decide⟩
  have hone : ((2 ^ 52 : Nat) : ℚ) * 2 ^ (-52 : Int) = 1 := by norm_num
  rw [← hone]
  refine Double.le_magnitude_ofRatio Nat.one_pos hgrid (by decide) ?_
  rw [hone, value_power]
  exact one_le_pow₀ (by norm_num)

theorem powerOfTen_le (e : Nat) :
    (powerOfTen e).magnitude.value ≤ (1 + 1 / 2 ^ 53) * 10 ^ e := by
  rw [← value_power]
  refine Double.magnitude_ofRatio_le_mul Nat.one_pos ?_
  rw [value_power]
  calc (2 : ℚ) ^ (-1022 : Int) ≤ 2 ^ (0 : Int) := Double.two_zpow_le (by decide)
    _ = 1 := zpow_zero 2
    _ ≤ 10 ^ e := one_le_pow₀ (by norm_num)

/-- The ceilings leave room for the error of the power of ten. -/
theorem ceiling_mul_powerOfTen_lt (e : Nat) :
    ceiling e * (powerOfTen e).magnitude.value < (2 ^ 53 - 1 / 2) * 2 ^ (971 : Int) := by
  have hstep : (0 : ℚ) < 2 ^ (971 : Int) := by positivity
  calc ceiling e * (powerOfTen e).magnitude.value
      ≤ ceiling e * ((1 + 1 / 2 ^ 53) * 10 ^ e) :=
        mul_le_mul_of_nonneg_left (powerOfTen_le e) (Nat.cast_nonneg _)
    _ = (1 + 1 / 2 ^ 53) * (ceiling e * 10 ^ e) := by ring
    _ ≤ (1 + 1 / 2 ^ 53) * ((2 ^ 53 - 3 / 2) * 2 ^ (971 : Int)) := by
        rw [← value_last]
        exact mul_le_mul_of_nonneg_left (ceiling_mul_le e) (by norm_num)
    _ < (2 ^ 53 - 1 / 2) * 2 ^ (971 : Int) := by
        rw [← mul_assoc]
        exact mul_lt_mul_of_pos_right (by norm_num) hstep

/-- A whole number is on the grid if what is past its first 53 bits is zero. -/
theorem exists_onGrid {n : Nat} (hn : n ≠ 0) (h : n % 2 ^ (n.log2 - 52) = 0) :
    ∃ m q, OnGrid m q ∧ (m : ℚ) * 2 ^ q = n := by
  have hlow := Nat.log2_self_le hn
  have hhigh := Nat.lt_log2_self (n := n)
  by_cases hshort : n.log2 ≤ 52
  · refine ⟨n * 2 ^ (52 - n.log2), (n.log2 : Int) - 52, ⟨by omega, ?_, fun _ => ?_⟩, ?_⟩
    · calc n * 2 ^ (52 - n.log2) < 2 ^ (n.log2 + 1) * 2 ^ (52 - n.log2) :=
            Nat.mul_lt_mul_of_pos_right hhigh (Nat.two_pow_pos _)
        _ = 2 ^ 53 := by
            rw [← Nat.pow_add]
            congr 1
            omega
    · calc 2 ^ 52 = 2 ^ n.log2 * 2 ^ (52 - n.log2) := by
            rw [← Nat.pow_add]
            congr 1
            omega
        _ ≤ n * 2 ^ (52 - n.log2) := Nat.mul_le_mul_right _ hlow
    · have hexp : (n.log2 : Int) - 52 = -((52 - n.log2 : Nat) : Int) := by omega
      rw [hexp, zpow_neg, zpow_natCast]
      push_cast
      field_simp
  · have hsplit : n = n / 2 ^ (n.log2 - 52) * 2 ^ (n.log2 - 52) :=
      (Nat.div_mul_cancel (Nat.dvd_of_mod_eq_zero h)).symm
    refine ⟨n / 2 ^ (n.log2 - 52), (n.log2 : Int) - 52, ⟨by omega, ?_, fun _ => ?_⟩, ?_⟩
    · refine Nat.div_lt_of_lt_mul ?_
      rw [← Nat.pow_add]
      refine hhigh.trans_eq ?_
      congr 1
      omega
    · rw [Nat.le_div_iff_mul_le (Nat.two_pow_pos _), ← Nat.pow_add]
      refine le_of_eq_of_le ?_ hlow
      congr 1
      omega
    · have hexp : (n.log2 : Int) - 52 = ((n.log2 - 52 : Nat) : Int) := by omega
      rw [hexp, zpow_natCast]
      exact_mod_cast hsplit.symm

end Powers

section Finite

/-- A whole number of 64 bits is rounded to one of at most 65. -/
theorem nearestBits_ofNat_le {n : Nat} (hn : n < 2 ^ 64) :
    (Double.ofNat n).magnitudeBits ≤ Double.gridBits (2 ^ 52) 12 := by
  have hgrid : OnGrid (2 ^ 52) 12 := ⟨by decide, by decide, fun _ => by decide⟩
  rw [Double.ofNat, Double.magnitudeBits_ofRatio]
  refine Double.nearestBits_le Nat.one_pos hgrid ?_
  have hlt : (n : ℚ) < 2 ^ 64 := by exact_mod_cast hn
  rw [Ratio.value_natural]
  refine hlt.trans_le ?_
  norm_num

/-- A double is not raised by a division by a power of ten. -/
theorem magnitudeBits_div_le {x : Double} (k : Nat)
    (hx : x.magnitudeBits ≤ Double.gridBits (2 ^ 52) 12) :
    (Double.ofRatio false (x.magnitude.div (powerOfTen k).magnitude)).magnitudeBits ≤
      Double.gridBits (2 ^ 52) 12 := by
  have hgrid : OnGrid (2 ^ 52) 12 := ⟨by decide, by decide, fun _ => by decide⟩
  have hpower := one_le_powerOfTen k
  have hnum : 0 < (powerOfTen k).magnitude.num := by
    rw [Ratio.le_value_iff (Double.den_magnitude_pos _)] at hpower
    have hden : (0 : ℚ) < (powerOfTen k).magnitude.den := by
      exact_mod_cast Double.den_magnitude_pos _
    have hpos : (0 : ℚ) < (powerOfTen k).magnitude.num := by linarith
    exact_mod_cast hpos
  rw [Double.magnitudeBits_ofRatio]
  refine Double.nearestBits_le (Nat.mul_pos (Double.den_magnitude_pos x) hnum) hgrid ?_
  rw [Ratio.value_div]
  have hmagnitude := Double.magnitude_le hgrid hx
  have hdiv := div_le_self x.magnitude.value_nonneg hpower
  have hhalf :
      ((2 ^ 52 : Nat) : ℚ) * 2 ^ (12 : Int) < ((2 ^ 52 : Nat) + 1 / 2) * 2 ^ (12 : Int) := by
    norm_num
  exact (hdiv.trans hmagnitude).trans_lt hhalf

theorem descend_le {fuel k : Nat} {x : Double}
    (hx : x.magnitudeBits ≤ Double.gridBits (2 ^ 52) 12) :
    (descend fuel x k).magnitudeBits ≤ Double.gridBits (2 ^ 52) 12 := by
  induction fuel generalizing x k with
  | zero => exact hx
  | succ fuel ih =>
      rw [descend]
      split_ifs with hzero hk
      · exact hx
      · exact magnitudeBits_div_le k hx
      · exact ih (magnitudeBits_div_le largestPower hx)

theorem isFinite_of_le {x : Double} (hx : x.magnitudeBits ≤ Double.gridBits (2 ^ 52) 12) :
    x.isFinite = true := by
  rw [Double.isFinite, decide_eq_true_eq]
  exact hx.trans_lt (by decide)

theorem scaled?_isFinite {s : Nat} (hs : s < 2 ^ 64) {e : Int} {x : Double}
    (h : scaled? s e = some x) : x.isFinite = true := by
  cases e with
  | ofNat k =>
      simp only [scaled?] at h
      split_ifs at h with hk hzero hfinite
      · obtain rfl := Option.some.inj h
        exact isFinite_of_le (nearestBits_ofNat_le hs)
      · obtain rfl := Option.some.inj h
        exact hfinite
  | negSucc k =>
      obtain rfl := Option.some.inj h
      exact isFinite_of_le (descend_le (nearestBits_ofNat_le hs))

/-- The double of a numeral is finite. -/
theorem toDouble?_isFinite {n : Numeral} {x : Double} (h : n.toDouble? = some x) :
    x.isFinite = true := by
  rw [toDouble?] at h
  obtain ⟨y, hy, rfl⟩ := Option.map_eq_some_iff.mp h
  have hfinite : y.isFinite = true := by
    split_ifs at hy with hintegral
    · obtain rfl := Option.some.inj hy
      exact isFinite_of_le (nearestBits_ofNat_le hintegral.2)
    · exact scaled?_isFinite (absorb_lt (absorb_lt (by decide) n.whole) n.fraction) hy
  split_ifs
  · rw [Double.isFinite, Double.magnitudeBits_neg]
    exact hfinite
  · exact hfinite

end Finite

section Ceilings

/-- A decimal up to the ceiling of its exponent is read as a finite double. -/
theorem scaled?_isSome {d e : Nat} (he : e < 309) (hd : d ≤ ceiling e) :
    (scaled? d e).isSome = true := by
  obtain ⟨hne, hgrid⟩ := ceiling_checked.2 e he
  obtain ⟨m, q, hgrid, hvalue⟩ := exists_onGrid hne hgrid
  have hrounded : (Double.ofNat d).magnitude.value ≤ ceiling e := by
    rw [← hvalue]
    refine Double.magnitude_ofRatio_le Nat.one_pos hgrid ?_
    have hle : (d : ℚ) ≤ m * 2 ^ q := by
      rw [hvalue]
      exact_mod_cast hd
    rw [Ratio.value_natural, add_mul]
    exact lt_add_of_le_of_pos hle (by positivity)
  have hfinite : (Double.ofRatio false
      ((Double.ofNat d).magnitude.mul (powerOfTen e).magnitude)).isFinite = true := by
    refine Double.isFinite_ofRatio (Nat.mul_pos (Double.den_magnitude_pos _)
      (Double.den_magnitude_pos _)) ?_
    rw [Ratio.value_mul]
    exact (mul_le_mul_of_nonneg_right hrounded (Ratio.value_nonneg _)).trans_lt
      (ceiling_mul_powerOfTen_lt e)
  have hpower : ¬ largestPower < e := Nat.not_lt.mpr (Nat.le_of_lt_succ he)
  rw [← Int.ofNat_eq_natCast]
  simp only [scaled?, hpower, if_false, hfinite, if_true, Option.isSome_some]

/-- The interval of every double but the last ends below that of the last. -/
theorem interval_le {x : Double} (hx : x.magnitudeBits < Double.gridBits (2 ^ 53 - 1) 971) :
    ((x.decompose.1 : ℚ) + 1 / 2) * 2 ^ x.decompose.2 ≤
      (halfSteps (Nat.pow 2 54 - 3)).value := by
  have hgrid := Double.decompose_onGrid x
  rw [← Double.gridBits_decompose] at hx
  generalize x.decompose.1 = m at hx hgrid ⊢
  generalize x.decompose.2 = q at hx hgrid ⊢
  have hexp := hgrid.exponent
  have hlt := hgrid.lt
  have hq : q ≤ 971 := by
    by_contra hq
    have hnormal := hgrid.normal (by omega)
    simp only [Double.gridBits, Nat.pow_eq] at hx
    have hbig : (971 + 1074 : Int).toNat + 1 ≤ (q + 1074).toNat := by omega
    omega
  rw [value_last]
  obtain rfl | hq := eq_or_ne q 971
  · have hm : m + 2 ≤ 2 ^ 53 := by
      simp only [Double.gridBits] at hx
      omega
    have hm' : (m : ℚ) + 2 ≤ 2 ^ 53 := by exact_mod_cast hm
    exact mul_le_mul_of_nonneg_right (by linarith) (by positivity)
  · have hm : (m : ℚ) + 1 ≤ 2 ^ 53 := by exact_mod_cast hlt
    calc ((m : ℚ) + 1 / 2) * 2 ^ q ≤ 2 ^ 53 * 2 ^ (970 : Int) :=
          mul_le_mul (by linarith) (Double.two_zpow_le (by omega)) (by positivity) (by positivity)
      _ ≤ (2 ^ 53 - 3 / 2) * (2 * 2 ^ (970 : Int)) := by
          have hpos : (0 : ℚ) < 2 ^ (970 : Int) := by positivity
          generalize (2 : ℚ) ^ (970 : Int) = p at hpos
          linarith
      _ = (2 ^ 53 - 3 / 2) * 2 ^ (971 : Int) := by rw [← Double.two_zpow_succ 970]; rfl

/-- The shortest decimal of a double below the last keeps under the ceiling of its exponent. -/
theorem le_ceiling {x : Double} {d e : Nat} (hd : 0 < d)
    (hx : x.magnitudeBits < Double.gridBits (2 ^ 53 - 1) 971) (h : Double.ShortFor x d e) :
    e < 309 ∧ d ≤ ceiling e := by
  have hvalue : d * 10 ^ e ≤ (halfSteps (Nat.pow 2 54 - 3)).num := by
    have hle := h.value.trans (interval_le hx)
    rw [zpow_natCast, Ratio.le_value_iff Nat.one_pos] at hle
    generalize (halfSteps (Nat.pow 2 54 - 3)).num = limit at hle ⊢
    have hden : (halfSteps (Nat.pow 2 54 - 3)).den = 1 := rfl
    rw [hden, Nat.cast_one, mul_one] at hle
    exact_mod_cast hle
  constructor
  · by_contra he
    have hpower (k : Nat) (hk : k ≤ e) : Nat.pow 10 k ≤ 10 ^ e :=
      Nat.pow_le_pow_right (by decide) hk
    have hone : 10 ^ e ≤ d * 10 ^ e := Nat.le_mul_of_pos_left _ hd
    have hlimit := ceiling_checked.1.trans_le (hpower (largestPower + 1) (Nat.le_of_not_lt he))
    exact absurd hvalue (Nat.not_le.mpr (hlimit.trans_le hone))
  · exact Nat.le_min.mpr ⟨h.digits,
      (Nat.le_div_iff_mul_le (Nat.pow_pos (by decide))).mpr hvalue⟩

end Ceilings

section Rereading

variable {x : Double} {d : Nat} {e : Int}

theorem ofDigits_cons_zero (ds : List Nat) : ofDigits (0 :: ds) = ofDigits ds := rfl

theorem ofDigits_replicate_zero (k : Nat) (ds : List Nat) :
    ofDigits (List.replicate k 0 ++ ds) = ofDigits ds := by
  induction k with
  | zero => rfl
  | succ k ih =>
      rw [List.replicate_succ, List.cons_append, ofDigits_cons_zero]
      exact ih

theorem ofDigits_lt {ds : List Nat} (h : ∀ d ∈ ds, d < 10) : ofDigits ds < 10 ^ ds.length := by
  have hfold (s : Nat) : ds.foldl (fun n d => 10 * n + d) s < (s + 1) * 10 ^ ds.length := by
    induction ds generalizing s with
    | nil => simp
    | cons d more ih =>
        rw [List.forall_mem_cons] at h
        calc more.foldl (fun n d => 10 * n + d) (10 * s + d)
            < (10 * s + d + 1) * 10 ^ more.length := ih h.2 _
          _ ≤ (10 * (s + 1)) * 10 ^ more.length := Nat.mul_le_mul_right _ (by omega)
          _ = (s + 1) * 10 ^ (d :: more).length := by
              rw [List.length_cons, Nat.pow_succ]
              ring
  simpa [ofDigits] using hfold 0

/-- A numeral with more places after the point than its exponent is always read. -/
theorem toDouble?_isSome_of_places {n : Numeral}
    (hplaces : n.exponent.getD 0 - n.fraction.length < 0)
    (h : ofDigits (n.whole ++ n.fraction) < 2 ^ 64) : n.toDouble?.isSome = true := by
  have hn : n.isIntegral = false := by
    rw [isIntegral, Bool.and_eq_false_iff]
    obtain ⟨negative, whole, _ | ⟨d, fraction⟩, _ | e⟩ := n
    · simp at hplaces
    all_goals simp
  rw [toDouble?_eq_scaled hn h]
  obtain ⟨k, hk⟩ := Int.eq_negSucc_of_lt_zero hplaces
  rw [hk]
  rfl

/-- A decimal under the ceiling of its exponent, spelled with an exponent, is read. -/
theorem toDouble?_isSome_of_exponent {n : Numeral} {e : Nat}
    (hexponent : n.exponent = some ((e : Int) + n.fraction.length))
    (h : ofDigits (n.whole ++ n.fraction) < 2 ^ 64) (he : e < 309)
    (hd : ofDigits (n.whole ++ n.fraction) ≤ ceiling e) : n.toDouble?.isSome = true := by
  have hn : n.isIntegral = false := by
    rw [isIntegral, hexponent]
    simp
  rw [toDouble?_eq_scaled hn h, hexponent, Option.getD_some, Int.add_sub_cancel, Option.isSome_map]
  exact scaled?_isSome he hd

/-- The greatest doubles are read, although their decimal is rounded up to them. -/
theorem toDouble?_ofDouble_last :
    (ofDouble ⟨0x7FEFFFFFFFFFFFFF⟩).toDouble?.isSome = true ∧
      (ofDouble ⟨0xFFEFFFFFFFFFFFFF⟩).toDouble?.isSome = true := by
  decide +kernel

theorem eq_last {x : Double} (h : x.magnitudeBits = Double.gridBits (2 ^ 53 - 1) 971) :
    x = ⟨0x7FEFFFFFFFFFFFFF⟩ ∨ x = ⟨0xFFEFFFFFFFFFFFFF⟩ := by
  have hbits : x.bits.toNat = 0x7FEFFFFFFFFFFFFF ∨ x.bits.toNat = 0xFFEFFFFFFFFFFFFF := by
    have hword := x.bits.toNat_lt
    have hlast : Double.gridBits (2 ^ 53 - 1) 971 = 0x7FEFFFFFFFFFFFFF := by decide
    rw [hlast, Double.magnitudeBits, Nat.pow_eq] at h
    omega
  obtain ⟨bits⟩ := x
  refine hbits.imp ?_ ?_
  · exact fun hbits => congrArg Double.mk (UInt64.toNat_inj.mp hbits)
  · exact fun hbits => congrArg Double.mk (UInt64.toNat_inj.mp hbits)

/-- Every finite double is read from its numeral, if not always as itself. -/
theorem toDouble?_ofDouble_isSome {x : Double} (hx : x.isFinite = true) :
    (ofDouble x).toDouble?.isSome = true := by
  obtain hlast | hlast := eq_or_ne x.magnitudeBits (Double.gridBits (2 ^ 53 - 1) 971)
  · obtain rfl | rfl := eq_last hlast
    · exact toDouble?_ofDouble_last.1
    · exact toDouble?_ofDouble_last.2
  have hbelow : x.magnitudeBits < Double.gridBits (2 ^ 53 - 1) 971 := by
    have hinfinity : Double.infinityBits = Double.gridBits (2 ^ 53 - 1) 971 + 1 := by decide
    rw [Double.isFinite, decide_eq_true_eq, hinfinity] at hx
    omega
  have hshort := Double.shortest_short x
  simp only [ofDouble]
  generalize x.shortest.1 = d at hshort ⊢
  generalize x.shortest.2 = e at hshort ⊢
  have hvalue : ofDigits (digitsOf d) = d := ofDigits_digitsOf d
  have hword : ofDigits (digitsOf d) < 2 ^ 64 := by
    rw [hvalue]
    exact hshort.digits.trans_lt (by decide)
  have hne : 0 < (digitsOf d).length := List.length_pos_iff.mpr (digitsOf_ne_nil d)
  split_ifs with hzero hwhole hpoint hsmall
  · exact toDouble?_isSome_of_places (by simp) (by simp [ofDigits])
  · refine toDouble?_isSome_of_places (by simp) (Nat.lt_trans (ofDigits_lt ?_) ?_)
    · intro c hc
      simp only [List.mem_append, List.mem_replicate, List.mem_singleton] at hc
      obtain (hc | hc) | hc := hc
      · exact lt_of_mem_digitsOf hc
      · omega
      · omega
    · refine Nat.lt_of_le_of_lt (Nat.pow_le_pow_right (by decide) (?_ : _ ≤ 17)) (by decide)
      simp only [List.length_append, List.length_replicate, List.length_singleton]
      omega
  · refine toDouble?_isSome_of_places ?_ (by rwa [List.take_append_drop])
    simp only [Option.getD_none, List.length_drop]
    omega
  · refine toDouble?_isSome_of_places ?_ ?_
    · simp only [Option.getD_none, List.length_append, List.length_replicate]
      omega
    · rwa [List.singleton_append, ofDigits_cons_zero, ofDigits_replicate_zero]
  · have hdigits : ofDigits ((digitsOf d).take 1 ++ (digitsOf d).drop 1) < 2 ^ 64 := by
      rwa [List.take_append_drop]
    by_cases he : e < 0
    · refine toDouble?_isSome_of_places ?_ hdigits
      simp only [Option.getD_some, List.length_drop]
      omega
    · obtain ⟨k, rfl⟩ := Int.eq_ofNat_of_zero_le (Int.not_lt.mp he)
      obtain ⟨hk, hceiling⟩ := le_ceiling (Nat.pos_of_ne_zero hzero) hbelow hshort
      refine toDouble?_isSome_of_exponent ?_ hdigits hk (by rwa [List.take_append_drop, hvalue])
      simp only [List.length_drop, Option.some.injEq]
      omega

/-- The double nearest to `1e-60` is read as the next one. -/
example : (ofDouble ⟨0x3379B604AAACA626⟩).toDouble? = some ⟨0x3379B604AAACA627⟩ :=
  rfl

end Rereading

section Spelling

/-- Digits that start with no zero can stand before the point. -/
theorem wellFormed_of_digits {n : Numeral} (hne : n.whole ≠ [])
    (hlt : ∀ d ∈ n.whole ++ n.fraction, d < 10) (hhead : n.whole.head? = some 0 → n.whole = [0]) :
    n.WellFormed where
  whole_ne_nil := hne
  whole_lt := fun d hd => hlt d (List.mem_append_left _ hd)
  leading := hhead
  fraction_lt := fun d hd => hlt d (List.mem_append_right _ hd)

theorem head?_take {ds : List Nat} {k : Nat} (hk : 0 < k) (h : ds.head? ≠ some 0) :
    (ds.take k).head? ≠ some 0 := by
  cases ds with
  | nil => simp
  | cons d more =>
      obtain ⟨k, rfl⟩ := Nat.exists_eq_succ_of_ne_zero (Nat.ne_of_gt hk)
      exact h

theorem ofDouble_wellFormed (x : Double) : (ofDouble x).WellFormed := by
  simp only [ofDouble]
  generalize x.shortest.1 = d
  generalize x.shortest.2 = e
  have hlt : ∀ c ∈ digitsOf d, c < 10 := fun c => lt_of_mem_digitsOf
  have hne := digitsOf_ne_nil d
  split_ifs with hzero hwhole hpoint hsmall
  · exact wellFormed_of_digits (List.cons_ne_nil 0 []) (by simp) fun _ => rfl
  all_goals have hhead := head?_digitsOf (Nat.pos_of_ne_zero hzero)
  · refine wellFormed_of_digits (by simp [hne]) ?_ fun h => ?_
    · intro c hc
      simp only [List.mem_append, List.mem_replicate, List.mem_singleton] at hc
      obtain (hc | hc) | hc := hc
      · exact hlt c hc
      · omega
      · omega
    · obtain ⟨c, more, hdigits⟩ := List.exists_cons_of_ne_nil hne
      rw [hdigits] at hhead
      simp only [hdigits, List.cons_append, List.head?_cons] at h
      exact absurd h hhead
  · refine wellFormed_of_digits ?_ ?_ fun h => absurd h (head?_take (by omega) hhead)
    · simp only [ne_eq, List.take_eq_nil_iff, hne, or_false]
      omega
    · simpa only [List.take_append_drop] using hlt
  · refine wellFormed_of_digits (List.cons_ne_nil 0 []) ?_ fun _ => rfl
    intro c hc
    simp only [List.mem_append, List.mem_replicate, List.mem_singleton] at hc
    obtain hc | hc | hc := hc
    · omega
    · omega
    · exact hlt c hc
  · refine wellFormed_of_digits (by simp [hne]) ?_ fun h => absurd h (head?_take (by decide) hhead)
    simpa only [List.take_append_drop] using hlt

end Spelling

end Numeral

end FlowTyping
