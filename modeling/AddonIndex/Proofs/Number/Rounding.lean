import AddonIndex.Number.Shortest
import Mathlib.Tactic.Linarith
import Mathlib.Tactic.Ring

/-!
# Which ratios round to a number

A ratio rounds to a finite number if it lies in the interval of that number. The
scale of a ratio is that of the number, except just below a power of two, where
the ratio has one binary digit more and its mantissa carries.
-/

namespace AddonIndex

namespace Binary64

variable {num den : Nat}

/-! ## The parts of a number -/

theorem magnitude_eq (x : Binary64) : x.magnitude = x.scale * Nat.pow 2 52 + x.mantissa := by
  unfold scale mantissa
  have parts := Nat.div_add_mod x.magnitude (Nat.pow 2 52)
  split
  · rename_i small
    rw [small]
    omega
  · rename_i large
    obtain ⟨quotient, isQuotient⟩ := Nat.exists_eq_succ_of_ne_zero large
    rw [isQuotient] at parts ⊢
    generalize x.magnitude % Nat.pow 2 52 = rest at parts ⊢
    rw [Nat.succ_eq_add_one] at parts ⊢
    rw [Nat.add_sub_cancel, ← parts]
    ring

theorem mantissa_lt (x : Binary64) : x.mantissa < Nat.pow 2 53 := by
  have rest := Nat.mod_lt x.magnitude (show 0 < Nat.pow 2 52 by decide)
  unfold mantissa
  split
  · rename_i small
    have bound : x.magnitude < Nat.pow 2 52 :=
      (Nat.div_eq_zero_iff.1 small).resolve_left (by decide)
    exact bound.trans (by decide)
  · have sum : Nat.pow 2 52 + Nat.pow 2 52 = Nat.pow 2 53 := by decide
    omega

/-- All but the smallest numbers have a mantissa of 53 binary digits. -/
theorem mantissa_ge (x : Binary64) (scaled : 0 < x.scale) : Nat.pow 2 52 ≤ x.mantissa := by
  unfold scale at scaled
  unfold mantissa
  rw [if_neg (by omega)]
  exact Nat.le_add_right _ _

theorem mantissa_pos (x : Binary64) (nonzero : x.isZero = false) : 0 < x.mantissa := by
  have isNonzero : x.magnitude ≠ 0 := by simpa [isZero] using nonzero
  rcases Nat.eq_zero_or_pos x.scale with none | scaled
  · have parts := x.magnitude_eq
    rw [none, Nat.zero_mul, Nat.zero_add] at parts
    omega
  · exact lt_of_lt_of_le (by decide) (x.mantissa_ge scaled)

/-! ## Rounding to a natural number -/

/-- A ratio is rounded to the natural number that it is nearest to, and to the even one of two. -/
theorem roundRatio_eq {near : Nat} (positive : 0 < den)
    (low : 2 * near * den ≤ 2 * num + den) (high : 2 * num ≤ (2 * near + 1) * den)
    (tie : near % 2 = 0 ∨ (2 * near * den < 2 * num + den ∧ 2 * num < (2 * near + 1) * den)) :
    roundRatio num den = near := by
  have parts := Nat.div_add_mod num den
  have rest := Nat.mod_lt num positive
  unfold roundRatio
  generalize num / den = quotient at *
  generalize num % den = left at *
  subst parts
  -- The quotient is the number itself or the one below it.
  have least : near ≤ quotient + 1 := by
    by_contra above
    have far : quotient + 2 ≤ near := by omega
    have scaled := Nat.mul_le_mul_right den far
    nlinarith
  have most : quotient ≤ near := by
    by_contra below
    have far : near + 1 ≤ quotient := by omega
    have scaled := Nat.mul_le_mul_right den far
    nlinarith
  simp only
  rcases Nat.lt_or_ge quotient near with less | equal
  · obtain rfl : near = quotient + 1 := by omega
    have expand : 2 * (quotient + 1) * den = 2 * (den * quotient) + 2 * den := by ring
    have expandHigh : (2 * (quotient + 1) + 1) * den = 2 * (den * quotient) + 3 * den := by ring
    rw [expand] at low tie
    rw [expandHigh] at tie
    rw [if_neg (by omega)]
    split
    · rfl
    · omega
  · obtain rfl : near = quotient := by omega
    have expand : 2 * near * den = 2 * (den * near) := by ring
    have expandHigh : (2 * near + 1) * den = 2 * (den * near) + den := by ring
    rw [expand] at tie
    rw [expandHigh] at high tie
    split
    · rfl
    · rw [if_neg (by omega)]
      omega

/-- Rounding depends only on the ratio. -/
theorem roundRatio_eq_of_ratio {near other otherDen : Nat} (positive : 0 < den)
    (otherPositive : 0 < otherDen) (same : num * otherDen = den * other)
    (low : 2 * near * otherDen ≤ 2 * other + otherDen)
    (high : 2 * other ≤ (2 * near + 1) * otherDen)
    (tie : near % 2 = 0 ∨
      (2 * near * otherDen < 2 * other + otherDen ∧ 2 * other < (2 * near + 1) * otherDen)) :
    roundRatio num den = near := by
  have lowScaled : otherDen * (2 * num + den) = den * (2 * other + otherDen) := by
    rw [Nat.mul_add, Nat.mul_add, show otherDen * (2 * num) = 2 * (num * otherDen) by ring, same]
    ring
  have highScaled : otherDen * (2 * num) = den * (2 * other) := by
    rw [show otherDen * (2 * num) = 2 * (num * otherDen) by ring, same]
    ring
  have move : ∀ k, otherDen * (k * den) = den * (k * otherDen) := fun k => by ring
  refine roundRatio_eq positive ?_ ?_ (tie.imp_right fun strict => ⟨?_, ?_⟩)
  · refine Nat.le_of_mul_le_mul_left ?_ otherPositive
    rw [move, lowScaled]
    exact Nat.mul_le_mul_left den low
  · refine Nat.le_of_mul_le_mul_left ?_ otherPositive
    rw [move, highScaled]
    exact Nat.mul_le_mul_left den high
  · refine Nat.lt_of_mul_lt_mul_left (a := otherDen) ?_
    rw [move, lowScaled]
    exact Nat.mul_lt_mul_of_pos_left strict.1 positive
  · refine Nat.lt_of_mul_lt_mul_left (a := otherDen) ?_
    rw [move, highScaled]
    exact Nat.mul_lt_mul_of_pos_left strict.2 positive

/-! ## The scale of a ratio -/

/-- A ratio has its binary digits from its scale on, 53 of them if the scale is not the least. -/
theorem scaleOfRatio_bounds (numPositive : 0 < num) (denPositive : 0 < den) :
    num * Nat.pow 2 1074 < den * Nat.pow 2 (scaleOfRatio num den + 53) ∧
      (0 < scaleOfRatio num den →
        den * Nat.pow 2 (scaleOfRatio num den + 52) ≤ num * Nat.pow 2 1074) := by
  have numLow := Nat.log2_self_le numPositive.ne'
  have numHigh := Nat.lt_log2_self (n := num)
  have denLow := Nat.log2_self_le denPositive.ne'
  have denHigh := Nat.lt_log2_self (n := den)
  unfold scaleOfRatio
  simp only [Nat.pow_eq]
  generalize num.log2 = a at *
  generalize den.log2 = b at *
  generalize 1074 = unit
  -- Both numbers lie between neighbouring powers of two, which settles one side in each case.
  have above : ∀ t, a + unit + 1 ≤ b + t → num * 2 ^ unit < den * 2 ^ t := by
    intro t enough
    calc
      num * 2 ^ unit < 2 ^ (a + 1) * 2 ^ unit := Nat.mul_lt_mul_of_pos_right numHigh (by positivity)
      _ = 2 ^ (a + 1 + unit) := (Nat.pow_add 2 (a + 1) unit).symm
      _ ≤ 2 ^ (b + t) := Nat.pow_le_pow_right (by decide) (by omega)
      _ = 2 ^ b * 2 ^ t := Nat.pow_add 2 b t
      _ ≤ den * 2 ^ t := Nat.mul_le_mul_right _ denLow
  have below : ∀ t, b + 1 + t ≤ a + unit → den * 2 ^ t ≤ num * 2 ^ unit := by
    intro t enough
    calc
      den * 2 ^ t ≤ 2 ^ (b + 1) * 2 ^ t := Nat.mul_le_mul_right _ denHigh.le
      _ = 2 ^ (b + 1 + t) := (Nat.pow_add 2 (b + 1) t).symm
      _ ≤ 2 ^ (a + unit) := Nat.pow_le_pow_right (by decide) enough
      _ = 2 ^ a * 2 ^ unit := Nat.pow_add 2 a unit
      _ ≤ num * 2 ^ unit := Nat.mul_le_mul_right _ numLow
  have atLeast : ∀ t, den * 2 ^ (a - b) ≤ num * 2 ^ (b - a) → a + unit = b + t →
      den * 2 ^ t ≤ num * 2 ^ unit := by
    intro t least exact
    refine Nat.le_of_mul_le_mul_right ?_ (show 0 < 2 ^ (b - a) by positivity)
    calc
      den * 2 ^ t * 2 ^ (b - a) = den * 2 ^ (a - b) * 2 ^ unit := by
        rw [Nat.mul_assoc, ← Nat.pow_add, Nat.mul_assoc, ← Nat.pow_add]
        congr 2
        omega
      _ ≤ num * 2 ^ (b - a) * 2 ^ unit := Nat.mul_le_mul_right _ least
      _ = num * 2 ^ unit * 2 ^ (b - a) := Nat.mul_right_comm _ _ _
  have less : ∀ t, num * 2 ^ (b - a) < den * 2 ^ (a - b) → a + unit ≤ b + t →
      num * 2 ^ unit < den * 2 ^ t := by
    intro t less enough
    refine Nat.lt_of_mul_lt_mul_right (a := 2 ^ (b - a)) ?_
    calc
      num * 2 ^ unit * 2 ^ (b - a) = num * 2 ^ (b - a) * 2 ^ unit := Nat.mul_right_comm _ _ _
      _ < den * 2 ^ (a - b) * 2 ^ unit := Nat.mul_lt_mul_of_pos_right less (by positivity)
      _ = den * 2 ^ (a - b + unit) := by rw [Nat.mul_assoc, ← Nat.pow_add]
      _ ≤ den * 2 ^ (t + (b - a)) :=
        Nat.mul_le_mul_left den (Nat.pow_le_pow_right (by decide) (by omega))
      _ = den * 2 ^ t * 2 ^ (b - a) := by rw [Nat.pow_add, Nat.mul_assoc]
  have decides : (if b ≤ a then den * 2 ^ (a - b) ≤ num else den ≤ num * 2 ^ (b - a)) ↔
      den * 2 ^ (a - b) ≤ num * 2 ^ (b - a) := by
    split
    · rename_i order
      rw [Nat.sub_eq_zero_of_le order, Nat.pow_zero, Nat.mul_one]
    · rename_i order
      rw [Nat.sub_eq_zero_of_le (by omega : a ≤ b), Nat.pow_zero, Nat.mul_one]
  simp only [decides]
  split
  · rename_i least
    refine ⟨above _ (by omega), fun scaled => atLeast _ least (by omega)⟩
  · rename_i most
    refine ⟨less _ (by omega) (by omega), fun scaled => below _ (by omega)⟩

/-! ## The interval of a number -/

/-- The ratio lies between the ends of the interval, or at one that belongs to it. -/
def Interval.Contains (range : Interval) (num den : Nat) : Prop :=
  if range.closed then
    range.low * den ≤ num * unitsPerOne ∧ num * unitsPerOne ≤ range.high * den
  else
    range.low * den < num * unitsPerOne ∧ num * unitsPerOne < range.high * den

theorem unitsPerOne_eq : unitsPerOne = 4 * 2 ^ 1074 := by
  have sum : ∀ k, 2 ^ (2 + k) = 4 * 2 ^ k := fun k => Nat.pow_add 2 2 k
  simp only [unitsPerOne, Nat.pow_eq, ← sum, -Nat.reducePow]

/-- The bounds of an interval in units of the number's last binary digit. -/
theorem interval_bounds (x : Binary64) (inside : x.interval.Contains num den) :
    4 * x.mantissa * (den * 2 ^ x.scale) ≤ 4 * (num * 2 ^ 1074) + 2 * (den * 2 ^ x.scale) ∧
      4 * (num * 2 ^ 1074) ≤ (4 * x.mantissa + 2) * (den * 2 ^ x.scale) ∧
      (x.mantissa % 2 = 0 ∨
        (4 * x.mantissa * (den * 2 ^ x.scale) < 4 * (num * 2 ^ 1074) + 2 * (den * 2 ^ x.scale) ∧
          4 * (num * 2 ^ 1074) < (4 * x.mantissa + 2) * (den * 2 ^ x.scale))) ∧
      (x.mantissa = 2 ^ 52 → 0 < x.scale →
        4 * x.mantissa * (den * 2 ^ x.scale) ≤ 4 * (num * 2 ^ 1074) + den * 2 ^ x.scale) := by
  unfold Interval.Contains interval at inside
  rw [unitsPerOne_eq, Nat.mul_left_comm] at inside
  simp only [Nat.pow_eq, beq_iff_eq, -Nat.reducePow] at inside
  generalize num * 2 ^ 1074 = amount at *
  generalize x.mantissa = m at *
  generalize x.scale = s at *
  obtain ⟨step, isStep⟩ : ∃ step, step = if m = 2 ^ 52 ∧ 0 < s then 1 else 2 := ⟨_, rfl⟩
  rw [← isStep] at inside
  have atMost : step ≤ 2 := by split at isStep <;> omega
  have lowEnd : 4 * m * (den * 2 ^ s) ≤ (4 * m - step) * 2 ^ s * den + step * (den * 2 ^ s) := by
    calc
      4 * m * (den * 2 ^ s) ≤ (4 * m - step + step) * (den * 2 ^ s) :=
        Nat.mul_le_mul_right _ (by omega)
      _ = (4 * m - step) * 2 ^ s * den + step * (den * 2 ^ s) := by ring
  have highEnd : (4 * m + 2) * 2 ^ s * den = (4 * m + 2) * (den * 2 ^ s) := by ring
  have wide : step * (den * 2 ^ s) ≤ 2 * (den * 2 ^ s) := Nat.mul_le_mul_right _ atMost
  rw [highEnd] at inside
  generalize den * 2 ^ s = unit at *
  generalize (4 * m - step) * 2 ^ s * den = low at *
  generalize (4 * m + 2) * unit = high at *
  generalize 4 * m * unit = middle at *
  have ends : low ≤ 4 * amount ∧ 4 * amount ≤ high := by
    split at inside <;> omega
  refine ⟨by omega, ends.2, ?_, fun isPower scaled => ?_⟩
  · split at inside
    · exact .inl ‹_›
    · exact .inr (by omega)
  · rw [if_pos ⟨isPower, scaled⟩] at isStep
    subst isStep
    omega

/-- A ratio at the scale of the number is rounded to the mantissa. -/
theorem magnitudeAtScale_eq {scale near : Nat} (denPositive : 0 < den)
    (low : 2 * near * (den * 2 ^ scale) ≤ 2 * (num * 2 ^ 1074) + den * 2 ^ scale)
    (high : 2 * (num * 2 ^ 1074) ≤ (2 * near + 1) * (den * 2 ^ scale))
    (tie : near % 2 = 0 ∨
      (2 * near * (den * 2 ^ scale) < 2 * (num * 2 ^ 1074) + den * 2 ^ scale ∧
        2 * (num * 2 ^ 1074) < (2 * near + 1) * (den * 2 ^ scale))) :
    magnitudeAtScale num den scale = scale * 2 ^ 52 + near := by
  unfold magnitudeAtScale
  simp only [Nat.pow_eq]
  generalize 1074 = unit at *
  refine congrArg (scale * 2 ^ 52 + ·) ?_
  refine roundRatio_eq_of_ratio (by positivity) (by positivity) ?_ low high tie
  -- Of the two differences to the unit's exponent one is zero.
  calc
    num * 2 ^ (unit - scale) * (den * 2 ^ scale) = num * den * 2 ^ (unit - scale + scale) := by
      rw [Nat.pow_add]
      ring
    _ = num * den * 2 ^ (scale - unit + unit) := by
      congr 2
      omega
    _ = den * 2 ^ (scale - unit) * (num * 2 ^ unit) := by
      rw [Nat.pow_add]
      ring

/-- The scale of a ratio in the interval of a number is that of the number, or one
less just below a power of two. -/
theorem scaleOfRatio_of_contains (x : Binary64) (numPositive : 0 < num) (denPositive : 0 < den)
    (inside : x.interval.Contains num den) :
    scaleOfRatio num den = x.scale ∨
      (x.mantissa = 2 ^ 52 ∧ scaleOfRatio num den + 1 = x.scale ∧
        num * 2 ^ 1074 < 2 ^ 52 * (den * 2 ^ x.scale)) := by
  obtain ⟨low, high, -, power⟩ := x.interval_bounds inside
  obtain ⟨top, bottom⟩ := scaleOfRatio_bounds numPositive denPositive
  have isSmall := x.mantissa_lt
  have isLarge := x.mantissa_ge
  simp only [Nat.pow_eq] at top bottom isSmall isLarge
  generalize num * 2 ^ 1074 = amount at *
  generalize scaleOfRatio num den = t at *
  generalize x.scale = s at *
  generalize x.mantissa = m at *
  have unitPositive : 0 < den * 2 ^ s := by positivity
  have binade : ∀ k, den * 2 ^ (s + k) = 2 ^ k * (den * 2 ^ s) := fun k => by
    rw [Nat.pow_add]
    ring
  have mono : ∀ a b, a ≤ b → den * 2 ^ a ≤ den * 2 ^ b := fun a b le =>
    Nat.mul_le_mul_left den (Nat.pow_le_pow_right (by decide) le)
  have atMost : t ≤ s := by
    by_contra above
    have least := (mono (s + 53) (t + 52) (by omega)).trans (bottom (by omega))
    have most : (4 * m + 2) * (den * 2 ^ s) ≤ (4 * 2 ^ 53 - 2) * (den * 2 ^ s) :=
      Nat.mul_le_mul_right _ (by omega)
    rw [binade] at least
    omega
  rcases Nat.eq_or_lt_of_le atMost with same | below
  · exact .inl same
  · have most := top.trans_le (mono (t + 53) (s + 52) (by omega))
    rw [binade] at most
    have isPower : m = 2 ^ 52 := by
      by_contra larger
      have least : (4 * (2 ^ 52 + 1)) * (den * 2 ^ s) ≤ 4 * m * (den * 2 ^ s) :=
        Nat.mul_le_mul_right _ (by have := isLarge (by omega); omega)
      omega
    refine .inr ⟨isPower, ?_, most⟩
    by_contra far
    have half := top.trans_le (mono (t + 53) (s + 51) (by omega))
    rw [binade] at half
    rw [isPower] at low
    omega

/-- A ratio in the interval of a finite number other than zero is rounded to it. -/
theorem magnitudeAtScale_of_contains (x : Binary64) (numPositive : 0 < num)
    (denPositive : 0 < den) (inside : x.interval.Contains num den) :
    magnitudeAtScale num den (scaleOfRatio num den) = x.magnitude := by
  obtain ⟨low, high, strict, power⟩ := x.interval_bounds inside
  rw [x.magnitude_eq, Nat.pow_eq]
  rcases x.scaleOfRatio_of_contains numPositive denPositive inside with
    same | ⟨isPower, less, most⟩
  · rw [same]
    generalize x.mantissa = m at *
    have expandLow : 4 * m * (den * 2 ^ x.scale) = 2 * (2 * m * (den * 2 ^ x.scale)) := by ring
    have expandHigh :
        (4 * m + 2) * (den * 2 ^ x.scale) = 2 * ((2 * m + 1) * (den * 2 ^ x.scale)) := by ring
    rw [expandLow] at low strict
    rw [expandHigh] at high strict
    refine magnitudeAtScale_eq denPositive (by omega) (by omega) (strict.imp_right ?_)
    rintro ⟨strictLow, strictHigh⟩
    omega
  · -- The mantissa rounds up to the next power of two and carries.
    have scaled : x.scale = scaleOfRatio num den + 1 := less.symm
    have double : den * 2 ^ x.scale = 2 * (den * 2 ^ scaleOfRatio num den) := by
      rw [scaled, Nat.pow_succ]
      ring
    have least := power isPower (by omega)
    rw [isPower, double] at least
    rw [double] at most
    have carried : magnitudeAtScale num den (scaleOfRatio num den) =
        scaleOfRatio num den * 2 ^ 52 + 2 ^ 53 :=
      magnitudeAtScale_eq denPositive (by omega) (by omega) (.inl (by decide))
    rw [carried, isPower, scaled]
    omega

/-- Rounding a ratio in the interval of a finite number gives the number back. -/
theorem ofRatio_of_contains {x : Binary64} (finite : x.isFinite) (nonzero : x.isZero = false)
    (denPositive : 0 < den) (inside : x.interval.Contains num den) (negative : Bool) :
    ofRatio negative num den = ofMagnitude negative x.magnitude := by
  have numPositive : 0 < num := by
    refine Nat.pos_of_ne_zero fun isZero => ?_
    obtain ⟨low, -⟩ := x.interval_bounds inside
    have isPositive := x.mantissa_pos nonzero
    have unitPositive : 0 < den * 2 ^ x.scale := by positivity
    have least : 4 * 1 * (den * 2 ^ x.scale) ≤ 4 * x.mantissa * (den * 2 ^ x.scale) :=
      Nat.mul_le_mul_right _ (by omega)
    rw [isZero] at low
    omega
  unfold ofRatio
  rw [if_neg numPositive.ne', x.magnitudeAtScale_of_contains numPositive denPositive inside]
  have bounded : x.magnitude < infinityBits := by simpa [isFinite] using finite
  rw [Nat.min_eq_right bounded.le]

end Binary64

end AddonIndex
