import AddonIndex.Proofs.Number.Rounding

/-!
# The shortest decimal reads back

The decimal that stands for a finite number lies in the interval of the number,
so that reading it gives the number back. A grid of 17 digits is finer than the
interval of every number, so the search for a decimal always ends with a hit.
-/

namespace AddonIndex

namespace Binary64

variable {range : Interval} {size : Int} {count : Nat}

/-! ## Powers of ten -/

/-- A power of ten with an integer exponent, in two natural parts. -/
theorem pow_toNat_add (p : Int) (k : Nat) :
    10 ^ (p + k).toNat * 10 ^ (-p).toNat = 10 ^ k * 10 ^ p.toNat * 10 ^ (-(p + k)).toNat := by
  rw [← Nat.pow_add, ← Nat.pow_add, ← Nat.pow_add]
  congr 1
  omega

/-- A bound by a power of ten is a bound by a smaller one with a larger factor. -/
theorem scaled_le_of_le {a b : Nat} (p : Int) (k : Nat)
    (bound : a * 10 ^ (p + k).toNat ≤ b * 10 ^ (-(p + k)).toNat) :
    a * 10 ^ k * 10 ^ p.toNat ≤ b * 10 ^ (-p).toNat := by
  refine Nat.le_of_mul_le_mul_right ?_ (show 0 < 10 ^ (-(p + k)).toNat by positivity)
  calc
    a * 10 ^ k * 10 ^ p.toNat * 10 ^ (-(p + k)).toNat
        = a * (10 ^ k * 10 ^ p.toNat * 10 ^ (-(p + k)).toNat) := by ring
    _ = a * 10 ^ (p + k).toNat * 10 ^ (-p).toNat := by
      rw [← pow_toNat_add]
      ring
    _ ≤ b * 10 ^ (-(p + k)).toNat * 10 ^ (-p).toNat := Nat.mul_le_mul_right _ bound
    _ = b * 10 ^ (-p).toNat * 10 ^ (-(p + k)).toNat := by ring

/-- A number in decimal digits is at least the power of ten with as many digits. -/
theorem pow_length_toDigits_le {n : Nat} (positive : 0 < n) :
    10 ^ ((Nat.toDigits 10 n).length - 1) ≤ n := by
  have nonempty : 0 < (Nat.toDigits 10 n).length := Nat.length_toDigits_pos
  generalize isLength : (Nat.toDigits 10 n).length = length at *
  rcases Nat.eq_zero_or_pos (length - 1) with single | several
  · rw [single]
    exact positive
  · by_contra less
    have short := (Nat.length_toDigits_le_iff (by decide) several).2 (Nat.lt_of_not_le less)
    omega

/-- The first digit of a number stands at its magnitude. -/
theorem unitsPerOne_le_decimalMagnitude {value : Nat} (least : 4 ≤ value) :
    unitsPerOne * 10 ^ (decimalMagnitude value - 1).toNat ≤
      value * 10 ^ (-(decimalMagnitude value - 1)).toNat := by
  have unitsPositive : 0 < unitsPerOne := by
    rw [unitsPerOne_eq]
    positivity
  unfold decimalMagnitude
  split
  · rename_i large
    have quotientPositive : 0 < value / unitsPerOne := Nat.div_pos large unitsPositive
    have first := pow_length_toDigits_le quotientPositive
    have nonempty : 0 < (Nat.toDigits 10 (value / unitsPerOne)).length := Nat.length_toDigits_pos
    generalize (Nat.toDigits 10 (value / unitsPerOne)).length = length at *
    rw [show ((length : Int) - 1).toNat = length - 1 by omega,
      show (-((length : Int) - 1)).toNat = 0 by omega, Nat.pow_zero, Nat.mul_one, Nat.mul_comm]
    exact (Nat.le_div_iff_mul_le unitsPositive).1 first
  · split
    · rename_i zeros found
      have enough := List.find?_some found
      rw [show (-(zeros : Int) - 1).toNat = 0 by omega,
        show (-(-(zeros : Int) - 1)).toNat = zeros + 1 by omega, Nat.pow_zero, Nat.mul_one]
      exact of_decide_eq_true enough
    · rename_i missing
      have last := List.find?_eq_none.1 missing 329 (List.mem_range.2 (by decide))
      have bound : unitsPerOne ≤ 4 * Nat.pow 10 (329 + 1) := by decide +kernel
      exact absurd (decide_eq_true (bound.trans (Nat.mul_le_mul_right _ least))) last

/-! ## The search for a decimal -/

/-- The ratio that a decimal stands for lies in the interval. -/
def Interval.ContainsDecimal (range : Interval) (digits : Nat) (exponent : Int) : Prop :=
  range.Contains (digits * 10 ^ exponent.toNat) (10 ^ (-exponent).toNat)

instance (digits : Nat) (exponent : Int) : Decidable (range.ContainsDecimal digits exponent) := by
  unfold Interval.ContainsDecimal Interval.Contains
  infer_instance

/-- The grid is searched at the two neighbours of the number. -/
theorem onGrid?_eq {exponent : Int} {step value below : Nat} (isExponent : exponent = size - count)
    (isStep : step = unitsPerOne * 10 ^ exponent.toNat)
    (isValue : value = range.value * 10 ^ (-exponent).toNat) (isBelow : below = value / step) :
    onGrid? range size count =
      if range.ContainsDecimal below exponent then
        if range.ContainsDecimal (below + 1) exponent then
          if value - below * step < (below + 1) * step - value then some ⟨below, exponent⟩
          else some ⟨below + 1, exponent⟩
        else some ⟨below, exponent⟩
      else if range.ContainsDecimal (below + 1) exponent then some ⟨below + 1, exponent⟩
      else none := by
  have regroup : ∀ point, point * 10 ^ exponent.toNat * unitsPerOne = point * step := by
    intro point
    rw [isStep]
    ring
  unfold onGrid? Interval.ContainsDecimal Interval.Contains
  simp only [Nat.pow_eq, regroup, ← isExponent, ← isStep, ← isValue, ← isBelow]
  cases range.closed <;> simp only [Bool.false_eq_true, if_false, if_true]
  all_goals
    split
    all_goals
      rename_i first second
      simp only [decide_eq_true_eq, decide_eq_false_iff_not] at first second
      simp only [first, second, and_self, if_true, if_false]

/-- A decimal that is found on a grid lies in the interval. -/
theorem containsDecimal_of_onGrid? {decimal : Decimal}
    (found : onGrid? range size count = some decimal) :
    range.ContainsDecimal decimal.digits decimal.exponent := by
  rw [onGrid?_eq rfl rfl rfl rfl] at found
  split at found
  · rename_i first
    split at found
    · rename_i second
      split at found
      · obtain rfl := Option.some.inj found
        exact first
      · obtain rfl := Option.some.inj found
        exact second
    · obtain rfl := Option.some.inj found
      exact first
  · split at found
    · rename_i second
      obtain rfl := Option.some.inj found
      exact second
    · cases found

/-- A ratio strictly between the ends of an interval lies in it. -/
theorem Interval.contains_of_lt {num den : Nat} (above : range.low * den < num * unitsPerOne)
    (below : num * unitsPerOne < range.high * den) : range.Contains num den := by
  unfold Interval.Contains
  split
  · exact ⟨above.le, below.le⟩
  · exact ⟨above, below⟩

/-- A grid that is finer than an interval has a point in it. -/
theorem onGrid?_ne_none {exponent : Int} (isExponent : exponent = size - count)
    (lowLess : range.low < range.value) (highMore : range.value < range.high)
    (fine : range.low * 10 ^ (-exponent).toNat + unitsPerOne * 10 ^ exponent.toNat <
      range.high * 10 ^ (-exponent).toNat) :
    onGrid? range size count ≠ none := by
  intro missing
  rw [onGrid?_eq isExponent rfl rfl rfl] at missing
  have finerPositive : 0 < 10 ^ (-exponent).toNat := by positivity
  have lowScaled := Nat.mul_lt_mul_of_pos_right lowLess finerPositive
  have highScaled := Nat.mul_lt_mul_of_pos_right highMore finerPositive
  have stepPositive : 0 < unitsPerOne * 10 ^ exponent.toNat := by
    rw [unitsPerOne_eq]
    positivity
  have lower := Nat.div_mul_le_self (range.value * 10 ^ (-exponent).toNat)
    (unitsPerOne * 10 ^ exponent.toNat)
  have upper := Nat.lt_div_mul_add stepPositive (a := range.value * 10 ^ (-exponent).toNat)
  generalize range.value * 10 ^ (-exponent).toNat / (unitsPerOne * 10 ^ exponent.toNat) = below at *
  have regroup : ∀ point, point * 10 ^ exponent.toNat * unitsPerOne =
      point * (unitsPerOne * 10 ^ exponent.toNat) := fun point => by ring
  have next : (below + 1) * (unitsPerOne * 10 ^ exponent.toNat) =
      below * (unitsPerOne * 10 ^ exponent.toNat) + unitsPerOne * 10 ^ exponent.toNat := by ring
  have isOutside : ¬ range.ContainsDecimal below exponent ∧
      ¬ range.ContainsDecimal (below + 1) exponent := by
    split at missing
    · split at missing
      · split at missing <;> cases missing
      · cases missing
    · rename_i first
      split at missing
      · cases missing
      · rename_i second
        exact ⟨first, second⟩
  -- One of the two neighbours is closer to the number than the end on its side.
  rcases Nat.lt_or_ge (range.low * 10 ^ (-exponent).toNat)
    (below * (unitsPerOne * 10 ^ exponent.toNat)) with inside | outside
  · refine isOutside.1 (Interval.contains_of_lt ?_ ?_)
    · rw [regroup]
      exact inside
    · rw [regroup]
      omega
  · refine isOutside.2 (Interval.contains_of_lt ?_ ?_)
    · rw [regroup, next]
      omega
    · rw [regroup, next]
      omega

/-- The interval of a number has the number inside. -/
theorem interval_value_mem (x : Binary64) (nonzero : x.isZero = false) :
    x.interval.low < x.interval.value ∧ x.interval.value < x.interval.high := by
  have positive := x.mantissa_pos nonzero
  have unitPositive : 0 < Nat.pow 2 x.scale := Nat.pow_pos (by decide)
  constructor
  · refine Nat.mul_lt_mul_of_pos_right ?_ unitPositive
    split <;> omega
  · exact Nat.mul_lt_mul_of_pos_right (by omega) unitPositive

/-- A step of the grid of 17 digits is smaller than the interval of a number. -/
theorem interval_fine (x : Binary64) {finer step : Nat} (finerPositive : 0 < finer)
    (small : step * 10 ^ 16 ≤ x.interval.value * finer) :
    x.interval.low * finer + step < x.interval.high * finer := by
  have isSmall := x.mantissa_lt
  simp only [interval, Nat.pow_eq] at small isSmall ⊢
  generalize x.mantissa = m at *
  have unitPositive : 0 < 2 ^ x.scale * finer := by positivity
  have regroup : ∀ k, k * 2 ^ x.scale * finer = k * (2 ^ x.scale * finer) := fun k =>
    Nat.mul_assoc k _ _
  simp only [regroup] at small ⊢
  generalize 2 ^ x.scale * finer = unit at *
  have most : 4 * m * unit ≤ (4 * m - 2) * unit + 2 * unit := by
    rw [← Nat.add_mul]
    exact Nat.mul_le_mul_right _ (by omega)
  split
  · rename_i narrow
    obtain ⟨rfl, -⟩ := narrow
    omega
  · have bound : 4 * m * unit ≤ 4 * (2 ^ 53 - 1) * unit := Nat.mul_le_mul_right _ (by omega)
    have high : (4 * m + 2) * unit = 4 * m * unit + 2 * unit := Nat.add_mul _ _ _
    rcases Nat.eq_zero_or_pos m with rfl | positive
    · omega
    · have low : (4 * m - 2) * unit + 2 * unit = 4 * m * unit := by
        rw [← Nat.add_mul]
        congr 1
        omega
      omega

/-- The shortest decimal of a number lies in the interval of the number. -/
theorem containsDecimal_shortest (x : Binary64) (nonzero : x.isZero = false) :
    x.interval.ContainsDecimal x.shortest.digits x.shortest.exponent := by
  unfold shortest
  rw [if_neg (by rw [nonzero]; decide)]
  simp only
  split
  · rename_i decimal found
    obtain ⟨count, -, hit⟩ := List.exists_of_findSome?_eq_some found
    exact containsDecimal_of_onGrid? hit
  · rename_i missing
    obtain ⟨lowLess, highMore⟩ := x.interval_value_mem nonzero
    have least : 4 ≤ x.interval.value := by
      have positive := x.mantissa_pos nonzero
      have unitPositive : 0 < Nat.pow 2 x.scale := Nat.pow_pos (by decide)
      calc
        4 = 4 * 1 * 1 := rfl
        _ ≤ 4 * x.mantissa * Nat.pow 2 x.scale :=
          Nat.mul_le_mul (Nat.mul_le_mul_left 4 positive) unitPositive
    have first := unitsPerOne_le_decimalMagnitude least
    generalize decimalMagnitude x.interval.value = size at *
    have bound := scaled_le_of_le (size - 17) 16
      (by rwa [show size - 17 + (16 : Nat) = size - 1 by omega])
    have last := List.findSome?_eq_none_iff.1 missing 17 (by decide)
    refine absurd last (onGrid?_ne_none rfl lowLess highMore ?_)
    refine x.interval_fine (by positivity) ?_
    rw [Nat.mul_right_comm]
    exact bound

/-! ## Reading a decimal -/

/-- The ends of an interval, as bounds that hold whether they belong to it or not. -/
theorem Interval.Contains.bounds {num den : Nat} (inside : range.Contains num den) :
    range.low * den ≤ num * unitsPerOne ∧ num * unitsPerOne ≤ range.high * den := by
  unfold Interval.Contains at inside
  split at inside
  · exact inside
  · exact ⟨inside.1.le, inside.2.le⟩

theorem interval_low_pos (x : Binary64) (nonzero : x.isZero = false) : 0 < x.interval.low := by
  have positive := x.mantissa_pos nonzero
  have unitPositive : 0 < Nat.pow 2 x.scale := Nat.pow_pos (by decide)
  refine Nat.mul_pos ?_ unitPositive
  split <;> omega

theorem scale_le (x : Binary64) (finite : x.isFinite) : x.scale ≤ 2045 := by
  have bounded : x.magnitude < infinityBits := by simpa [isFinite] using finite
  have quotient : x.magnitude / Nat.pow 2 52 < 2047 :=
    Nat.div_lt_of_lt_mul (bounded.trans_le (by decide))
  unfold scale
  omega

theorem interval_high_le (x : Binary64) (finite : x.isFinite) : x.interval.high ≤ 2 ^ 2100 := by
  have isSmall : x.mantissa < 2 ^ 53 := x.mantissa_lt
  have scaled := x.scale_le finite
  calc
    x.interval.high = (4 * x.mantissa + 2) * 2 ^ x.scale := rfl
    _ ≤ 2 ^ 55 * 2 ^ x.scale := Nat.mul_le_mul_right _ (by omega)
    _ = 2 ^ (55 + x.scale) := (Nat.pow_add 2 55 x.scale).symm
    _ ≤ 2 ^ 2100 := Nat.pow_le_pow_right (by decide) (by omega)

/-- A decimal in the interval of a number is neither too small nor too large to be read. -/
theorem size_of_containsDecimal {x : Binary64} (finite : x.isFinite) (nonzero : x.isZero = false)
    {digits : Nat} {exponent : Int} (positive : 0 < digits)
    (inside : x.interval.ContainsDecimal digits exponent) :
    -330 ≤ ((Nat.toDigits 10 digits).length : Int) + exponent ∧
      ((Nat.toDigits 10 digits).length : Int) + exponent ≤ 320 := by
  obtain ⟨above, below⟩ := inside.bounds
  have first := pow_length_toDigits_le positive
  have nonempty : 0 < (Nat.toDigits 10 digits).length := Nat.length_toDigits_pos
  have digitsLess := (Nat.length_toDigits_le_iff (n := digits) (by decide) nonempty).1 le_rfl
  generalize (Nat.toDigits 10 digits).length = length at *
  constructor
  · by_contra small
    have low := x.interval_low_pos nonzero
    have units : unitsPerOne ≤ 10 ^ 331 := by decide +kernel
    rw [show exponent.toNat = 0 by omega, Nat.pow_zero, Nat.mul_one] at above
    refine absurd above (Nat.not_le_of_lt ?_)
    calc
      digits * unitsPerOne < 10 ^ length * unitsPerOne :=
        Nat.mul_lt_mul_of_pos_right digitsLess (by rw [unitsPerOne_eq]; positivity)
      _ ≤ 10 ^ length * 10 ^ 331 := Nat.mul_le_mul_left _ units
      _ = 10 ^ (length + 331) := (Nat.pow_add 10 length 331).symm
      _ ≤ 10 ^ (-exponent).toNat := Nat.pow_le_pow_right (by decide) (by omega)
      _ ≤ x.interval.low * 10 ^ (-exponent).toNat := Nat.le_mul_of_pos_left _ low
  · by_contra large
    have high := x.interval_high_le finite
    have units : 2 ^ 2100 < 10 ^ 320 * unitsPerOne := by decide +kernel
    refine absurd below (Nat.not_le_of_lt ?_)
    calc
      x.interval.high * 10 ^ (-exponent).toNat ≤ 2 ^ 2100 * 10 ^ (-exponent).toNat :=
        Nat.mul_le_mul_right _ high
      _ < 10 ^ 320 * unitsPerOne * 10 ^ (-exponent).toNat :=
        Nat.mul_lt_mul_of_pos_right units (by positivity)
      _ = 10 ^ (320 + (-exponent).toNat) * unitsPerOne := by
        rw [Nat.pow_add, Nat.mul_right_comm]
      _ ≤ 10 ^ (length - 1 + exponent.toNat) * unitsPerOne :=
        Nat.mul_le_mul_right _ (Nat.pow_le_pow_right (by decide) (by omega))
      _ = 10 ^ (length - 1) * 10 ^ exponent.toNat * unitsPerOne := by rw [Nat.pow_add]
      _ ≤ digits * 10 ^ exponent.toNat * unitsPerOne :=
        Nat.mul_le_mul_right _ (Nat.mul_le_mul_right _ first)

/-- A decimal in the interval of a finite number other than zero reads as that number. -/
theorem ofDecimal_of_containsDecimal {x : Binary64} (finite : x.isFinite)
    (nonzero : x.isZero = false) {digits : Nat} {exponent : Int} (positive : 0 < digits)
    (inside : x.interval.ContainsDecimal digits exponent) (negative : Bool) :
    ofDecimal negative digits exponent = ofMagnitude negative x.magnitude := by
  obtain ⟨notTiny, notHuge⟩ := size_of_containsDecimal finite nonzero positive inside
  unfold ofDecimal
  simp only
  rw [if_neg (by omega), if_neg (by omega)]
  exact ofRatio_of_contains finite nonzero (Nat.pow_pos (by decide)) inside negative

/-- The interval of a number contains equal ratios together. -/
theorem Interval.Contains.of_ratio {num den otherNum otherDen : Nat} (positive : 0 < den)
    (otherPositive : 0 < otherDen) (same : num * otherDen = otherNum * den)
    (inside : range.Contains num den) : range.Contains otherNum otherDen := by
  have move : ∀ bound, bound * otherDen * den = otherDen * (bound * den) := fun bound => by ring
  have moveOther : otherNum * unitsPerOne * den = otherDen * (num * unitsPerOne) := by
    calc
      otherNum * unitsPerOne * den = otherNum * den * unitsPerOne := Nat.mul_right_comm _ _ _
      _ = num * otherDen * unitsPerOne := by rw [same]
      _ = otherDen * (num * unitsPerOne) := by ring
  unfold Interval.Contains at *
  split
  · rename_i closed
    rw [if_pos closed] at inside
    refine ⟨Nat.le_of_mul_le_mul_right (c := den) ?_ positive,
      Nat.le_of_mul_le_mul_right (c := den) ?_ positive⟩
    · rw [move, moveOther]
      exact Nat.mul_le_mul_left _ inside.1
    · rw [move, moveOther]
      exact Nat.mul_le_mul_left _ inside.2
  · rename_i isOpen
    rw [if_neg isOpen] at inside
    refine ⟨Nat.lt_of_mul_lt_mul_right (a := den) ?_, Nat.lt_of_mul_lt_mul_right (a := den) ?_⟩
    · rw [move, moveOther]
      exact Nat.mul_lt_mul_of_pos_left inside.1 otherPositive
    · rw [move, moveOther]
      exact Nat.mul_lt_mul_of_pos_left inside.2 otherPositive

/-- Zeros at the end of the digits may move into the exponent. -/
theorem containsDecimal_mul_pow {digits zeros : Nat} {exponent : Int} :
    range.ContainsDecimal (digits * 10 ^ zeros) exponent ↔
      range.ContainsDecimal digits (exponent + zeros) := by
  have same : digits * 10 ^ zeros * 10 ^ exponent.toNat * 10 ^ (-(exponent + zeros)).toNat =
      digits * 10 ^ (exponent + zeros).toNat * 10 ^ (-exponent).toNat := by
    rw [Nat.mul_assoc digits (10 ^ (exponent + zeros).toNat), pow_toNat_add]
    ring
  constructor
  · exact Interval.Contains.of_ratio (Nat.pow_pos (by decide)) (Nat.pow_pos (by decide)) same
  · exact Interval.Contains.of_ratio (Nat.pow_pos (by decide)) (Nat.pow_pos (by decide)) same.symm

end Binary64

end AddonIndex
