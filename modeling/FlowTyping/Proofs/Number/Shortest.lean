import FlowTyping.Json.Shape
import FlowTyping.Proofs.Json.Tokens
import FlowTyping.Proofs.Number.Rounding

/-!
Digits of whole numbers: they are spelled in the grammar, and a whole number of 64 bits is read
back from its numeral.
-/

namespace FlowTyping

namespace Numeral

theorem digitsOf_of_lt {n : Nat} (h : n < 10) : digitsOf n = [n] := by
  rw [digitsOf, Nat.toDigits_of_lt_base h, List.map_singleton]
  exact congrArg (fun d => [d]) (Nat.toNat_digitChar_sub_48_of_lt_ten h)

theorem digitsOf_of_le {n : Nat} (h : 10 ≤ n) : digitsOf n = digitsOf (n / 10) ++ [n % 10] := by
  have hlast : (n % 10).digitChar.toNat - '0'.toNat = n % 10 :=
    Nat.toNat_digitChar_sub_48_of_lt_ten (Nat.mod_lt n (by decide))
  rw [digitsOf, Nat.toDigits_of_base_le (by decide) h, List.map_append, List.map_singleton, hlast,
    digitsOf]

theorem digitsOf_ne_nil (n : Nat) : digitsOf n ≠ [] := by
  rw [digitsOf, ne_eq, List.map_eq_nil_iff]
  exact Nat.toDigits_ne_nil

theorem lt_of_mem_digitsOf {n d : Nat} (hd : d ∈ digitsOf n) : d < 10 := by
  induction n using Nat.strongRecOn generalizing d with
  | ind n ih =>
      by_cases h : n < 10
      · rw [digitsOf_of_lt h, List.mem_singleton] at hd
        omega
      · rw [digitsOf_of_le (by omega), List.mem_append, List.mem_singleton] at hd
        obtain hd | rfl := hd
        · exact ih (n / 10) (by omega) hd
        · exact Nat.mod_lt n (by decide)

/-- Only zero starts with a zero. -/
theorem head?_digitsOf {n : Nat} (hn : 0 < n) : (digitsOf n).head? ≠ some 0 := by
  induction n using Nat.strongRecOn with
  | ind n ih =>
      by_cases h : n < 10
      · rw [digitsOf_of_lt h, List.head?_singleton, ne_eq, Option.some.injEq]
        omega
      · have hhead := ih (n / 10) (by omega) (by omega)
        obtain ⟨d, more, hdigits⟩ := List.exists_cons_of_ne_nil (digitsOf_ne_nil (n / 10))
        rw [digitsOf_of_le (by omega), hdigits]
        rwa [hdigits] at hhead

theorem ofInt_wellFormed (n : Int) : (ofInt n).WellFormed where
  whole_ne_nil := digitsOf_ne_nil n.natAbs
  whole_lt := fun _ => lt_of_mem_digitsOf
  leading := by
    intro h
    by_cases hn : n.natAbs = 0
    · rw [ofInt, hn]
      exact digitsOf_of_lt (by decide)
    · exact absurd h (head?_digitsOf (by omega))
  fraction_lt := nofun

theorem toInt?_ofInt {n : Int} (hlow : -9223372036854775808 ≤ n)
    (hhigh : n < 18446744073709551616) :
    (ofInt n).toInt? = some n := by
  have hvalue : ofDigits (ofInt n).whole = n.natAbs := ofDigits_digitsOf n.natAbs
  have hintegral : (ofInt n).isIntegral = true := rfl
  by_cases hneg : n < 0
  · have hbound : 0 < n.natAbs ∧ n.natAbs ≤ Nat.pow 2 63 := by
      simp only [Nat.pow_eq, Nat.reducePow]
      omega
    simp only [toInt?, hvalue, hintegral, Bool.true_eq_false, if_false, if_pos hbound]
    simp only [ofInt, hneg, decide_true, if_true, Option.some.injEq]
    omega
  · have hbound : n.natAbs < Nat.pow 2 64 := by
      simp only [Nat.pow_eq, Nat.reducePow]
      omega
    simp only [toInt?, hvalue, hintegral, Bool.true_eq_false, if_false, if_pos hbound]
    simp only [ofInt, hneg, decide_false, Bool.false_eq_true, if_false, Option.some.injEq]
    omega

theorem le_of_toInt? {n : Numeral} {k : Int} (h : n.toInt? = some k) :
    -9223372036854775808 ≤ k := by
  simp only [toInt?, Nat.pow_eq, Nat.reducePow] at h
  split at h
  · cases h
  split at h
  · obtain ⟨hbound, hk⟩ := Option.ite_none_right_eq_some.mp h
    obtain rfl := Option.some.inj hk
    omega
  · obtain ⟨-, hk⟩ := Option.ite_none_right_eq_some.mp h
    obtain rfl := Option.some.inj hk
    omega

end Numeral

namespace Json

theorem unsigned?_nat {n : Nat} (h : n < 18446744073709551616) : (nat n).unsigned? = some n := by
  have hint : (Numeral.ofNat n).toInt? = some n := Numeral.toInt?_ofInt (by omega) (by omega)
  rw [nat, unsigned?, hint]
  rfl

theorem signed?_int {n : Int} (hlow : -9223372036854775808 ≤ n) (hhigh : n ≤ 9223372036854775807) :
    (int n).signed? = some n := by
  have hint : (Numeral.ofInt n).toInt? = some n := Numeral.toInt?_ofInt hlow (by omega)
  simp only [int, signed?, hint]
  exact if_pos hhigh

theorem le_of_signed? {v : Json} {k : Int} (h : v.signed? = some k) :
    -9223372036854775808 ≤ k ∧ k ≤ 9223372036854775807 := by
  cases v with
  | num n =>
      simp only [signed?] at h
      split at h
      · rename_i j hj
        obtain ⟨hhigh, hk⟩ := Option.ite_none_right_eq_some.mp h
        obtain rfl := Option.some.inj hk
        exact ⟨Numeral.le_of_toInt? hj, hhigh⟩
      · cases h
  | _ => cases h

end Json

end FlowTyping

/-!
Bounds on the shortest decimal of a double: it has at most seventeen digits, and it does not pass
the upper end of the interval that rounds to the double.
-/

namespace FlowTyping

namespace Double

namespace Ratio

variable {a b : Ratio}

theorem le_iff (ha : 0 < a.den) (hb : 0 < b.den) : a.le b = true ↔ a.value ≤ b.value := by
  rw [le, decide_eq_true_eq, value, value, div_le_div_iff₀ (by exact_mod_cast ha)
    (by exact_mod_cast hb)]
  exact_mod_cast Iff.rfl

theorem lt_iff (ha : 0 < a.den) (hb : 0 < b.den) : a.lt b = true ↔ a.value < b.value := by
  rw [lt, decide_eq_true_eq, value, value, div_lt_div_iff₀ (by exact_mod_cast ha)
    (by exact_mod_cast hb)]
  exact_mod_cast Iff.rfl

theorem lt_ten_pow (n : Nat) : n < 10 ^ (Nat.toDigits 10 n).length :=
  (Nat.length_toDigits_le_iff (by decide) Nat.length_toDigits_pos).mp (Nat.le_refl _)

theorem ten_pow_le {n : Nat} (hn : 0 < n) : 10 ^ ((Nat.toDigits 10 n).length - 1) ≤ n := by
  by_cases h : (Nat.toDigits 10 n).length - 1 = 0
  · rw [h]
    exact hn
  · have hiff := Nat.length_toDigits_le_iff (b := 10) (n := n) (by decide)
      (Nat.pos_of_ne_zero h)
    have hpos := Nat.length_toDigits_pos (b := 10) (n := n)
    by_contra hlt
    have := hiff.mpr (not_le.mp hlt)
    omega

/-- The decimal exponent of a ratio is not below its own. -/
theorem value_lt_ten_zpow (ha : 0 < a.den) : a.value < 10 ^ (a.decimalExponent + 1) := by
  have hten (p q : Int) : (10 : ℚ) ^ (p + q) = 10 ^ p * 10 ^ q := zpow_add₀ (by norm_num) p q
  obtain ⟨k, hk⟩ : ∃ k : Int, k = (Nat.toDigits 10 a.num).length - (Nat.toDigits 10 a.den).length :=
    ⟨_, rfl⟩
  have hshifted : (a.scale 10 (-k)).den ≤ (a.scale 10 (-k)).num ↔ (10 : ℚ) ^ k ≤ a.value := by
    have hden := den_scale_pos (b := 10) (by decide) ha (-k)
    have hone : (a.scale 10 (-k)).den ≤ (a.scale 10 (-k)).num ↔
        (1 : ℚ) ≤ (a.scale 10 (-k)).value := by
      rw [le_value_iff hden, one_mul]
      exact_mod_cast Iff.rfl
    rw [hone, value_scale, Nat.cast_ofNat, zpow_neg, ← div_eq_mul_inv,
      le_div_iff₀ (by positivity), one_mul]
  simp only [decimalExponent, ← hk]
  split_ifs with h
  · have hnum : (a.num : ℚ) < 10 ^ ((Nat.toDigits 10 a.num).length : Int) := by
      rw [zpow_natCast]
      exact_mod_cast lt_ten_pow a.num
    have hdenLow : (10 : ℚ) ^ (((Nat.toDigits 10 a.den).length : Int) - 1) ≤ a.den := by
      have hpos := Nat.length_toDigits_pos (b := 10) (n := a.den)
      rw [← Nat.cast_pred hpos, zpow_natCast]
      exact_mod_cast ten_pow_le ha
    rw [value_lt_iff ha]
    calc (a.num : ℚ) < 10 ^ ((Nat.toDigits 10 a.num).length : Int) := hnum
      _ = 10 ^ (k + 1) * 10 ^ (((Nat.toDigits 10 a.den).length : Int) - 1) := by
          rw [← hten, hk]
          congr 1
          ring
      _ ≤ 10 ^ (k + 1) * a.den := mul_le_mul_of_nonneg_left hdenLow (by positivity)
  · rw [sub_add_cancel]
    exact not_le.mp fun hle => h (hshifted.mpr hle)

theorem round_eq (a : Ratio) : a.round = a.num / a.den ∨ a.round = a.num / a.den + 1 := by
  simp only [round]
  generalize a.num / a.den = q
  split_ifs <;> omega

end Ratio

variable {x : Double} {d : Nat} {e : Int}

/-- The upper end of the interval that rounds to a double. -/
theorem value_roundingInterval (x : Double) :
    x.roundingInterval.2.1.value = (x.decompose.1 + 1 / 2) * 2 ^ x.decompose.2 := by
  simp only [roundingInterval, Ratio.value_scale, Ratio.value_natural, Nat.cast_ofNat]
  rw [sub_eq_add_neg, two_zpow_add]
  push_cast
  norm_num
  ring

theorem roundsTo_le {a : Ratio} (ha : 0 < a.den) (h : x.roundsTo a = true) :
    a.value ≤ (x.decompose.1 + 1 / 2) * 2 ^ x.decompose.2 := by
  have hhigh : 0 < x.roundingInterval.2.1.den := Ratio.den_scale_pos (by decide) Nat.one_pos _
  rw [← value_roundingInterval]
  simp only [roundsTo] at h
  split_ifs at h
  · exact (Ratio.le_iff ha hhigh).mp (Bool.and_eq_true_iff.mp h).2
  · exact ((Ratio.lt_iff ha hhigh).mp (Bool.and_eq_true_iff.mp h).2).le

/-- A decimal that is not past a number of digits, and not past the interval of a double. -/
structure ShortFor (x : Double) (d : Nat) (e : Int) : Prop where
  digits : d ≤ 10 ^ 17
  value : (d : ℚ) * 10 ^ e ≤ (x.decompose.1 + 1 / 2) * 2 ^ x.decompose.2

theorem gridPoint?_short {k : Int} {n : Nat} (hn : n ≤ 16) (hk : x.magnitude.value < 10 ^ (k + 1))
    (h : x.gridPoint? (k - n) = some d) : ShortFor x d (k - n) := by
  have hden := Ratio.den_scale_pos (b := 10) (by decide) (den_magnitude_pos x) (-(k - n))
  obtain ⟨below, hbelow⟩ : ∃ below, below = (x.magnitude.scale 10 (-(k - n))).num /
    (x.magnitude.scale 10 (-(k - n))).den := ⟨_, rfl⟩
  have hfew : below < 10 ^ (n + 1) := by
    rw [← not_le, hbelow, Ratio.le_floor_iff hden, not_le, Ratio.value_scale]
    calc x.magnitude.value * ((10 : Nat) : ℚ) ^ (-(k - (n : Int)))
        < 10 ^ (k + 1) * 10 ^ (-(k - (n : Int))) := by
          rw [Nat.cast_ofNat]
          exact mul_lt_mul_of_pos_right hk (by positivity)
      _ = 10 ^ ((n : Int) + 1) := by
          rw [← zpow_add₀ (by norm_num)]
          congr 1
          ring
      _ = ((10 ^ (n + 1) : Nat) : ℚ) := by
          rw [← Nat.cast_succ, zpow_natCast]
          push_cast
          rfl
  have hwide : 10 ^ (n + 1) ≤ 10 ^ 17 := Nat.pow_le_pow_right (by decide) (by omega)
  have hpoint {d : Nat} (hd : d ≤ below + 1)
      (hrounds : x.roundsTo (Ratio.scale 10 ⟨d, 1⟩ (k - n)) = true) : ShortFor x d (k - n) := by
    refine ⟨by omega, ?_⟩
    have hle := roundsTo_le (Ratio.den_scale_pos (by decide) Nat.one_pos _) hrounds
    rwa [Ratio.value_scale, Ratio.value_natural, Nat.cast_ofNat] at hle
  simp only [gridPoint?, ← hbelow] at h
  split at h
  · rename_i hlow hhigh
    obtain rfl := Option.some.inj h
    obtain heq | heq := Ratio.round_eq (x.magnitude.scale 10 (-(k - n)))
    · rw [heq, ← hbelow]
      exact hpoint (Nat.le_succ _) hlow
    · rw [heq, ← hbelow]
      exact hpoint (Nat.le_refl _) hhigh
  · rename_i hlow _
    obtain rfl := Option.some.inj h
    exact hpoint (Nat.le_succ _) hlow
  · rename_i _ hhigh
    obtain rfl := Option.some.inj h
    exact hpoint (Nat.le_refl _) hhigh
  · cases h

theorem shortFor_zero (x : Double) (e : Int) : ShortFor x 0 e := by
  refine ⟨Nat.zero_le _, ?_⟩
  rw [Nat.cast_zero, zero_mul]
  positivity

theorem searchDigits_short {k : Int} (hk : x.magnitude.value < 10 ^ (k + 1)) {ns : List Nat}
    (hns : ∀ n ∈ ns, n ≤ 16) :
    ShortFor x (x.searchDigits k ns).1 (x.searchDigits k ns).2 := by
  induction ns with
  | nil => exact shortFor_zero x 0
  | cons n more ih =>
      rw [List.forall_mem_cons] at hns
      rw [searchDigits]
      split
      · rename_i d hd
        exact gridPoint?_short hns.1 hk hd
      · exact ih hns.2

theorem dropZeros_short (fuel : Nat) (h : ShortFor x d e) :
    ShortFor x (dropZeros fuel (d, e)).1 (dropZeros fuel (d, e)).2 := by
  induction fuel generalizing d e with
  | zero => exact h
  | succ fuel ih =>
      rw [dropZeros]
      split_ifs with hzero
      · refine ih ⟨(Nat.div_le_self d 10).trans h.digits, ?_⟩
        have hdiv : ((d / 10 : Nat) : ℚ) * 10 = d := by
          exact_mod_cast Nat.div_mul_cancel (Nat.dvd_of_mod_eq_zero hzero)
        refine le_of_eq_of_le ?_ h.value
        rw [zpow_add_one₀ (by norm_num), ← hdiv]
        ring
      · exact h

theorem shortest_short (x : Double) : ShortFor x x.shortest.1 x.shortest.2 := by
  have hplaces : ∀ n ∈ List.range 17, n ≤ 16 := fun n hn => by
    have := List.mem_range.mp hn
    omega
  have hsearch := searchDigits_short (Ratio.value_lt_ten_zpow (den_magnitude_pos x)) hplaces
  rw [shortest]
  split_ifs
  · exact shortFor_zero x 0
  · exact dropZeros_short 17 hsearch

end Double

end FlowTyping
