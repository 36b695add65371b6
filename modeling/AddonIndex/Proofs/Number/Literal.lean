import AddonIndex.Number.Literal
import AddonIndex.Proofs.Number.Shortest

/-!
# Literals and the numbers they stand for

The plain form of a finite number is a literal, and reading it gives the number
back. A sign before a literal changes nothing but the sign of the number, and the
sign of a number nothing but the sign before its plain form.
-/

namespace AddonIndex

/-! ## Digits -/

theorem decimalValue_append (a b : Text) :
    decimalValue (a ++ b) = decimalValue a * 10 ^ b.length + decimalValue b := by
  have parts : decimalValue (a ++ b) = Nat.ofDigitChars 10 b (decimalValue a) :=
    List.foldl_append
  rw [parts, Nat.ofDigitChars_eq_ofDigitChars_zero, Nat.mul_comm]
  rfl

theorem decimalValue_replicate_zero (n : Nat) : decimalValue (List.replicate n '0') = 0 :=
  Nat.ofDigitChars_replicate_zero.trans (Nat.mul_zero _)

theorem decimalValue_toDigits (n : Nat) : decimalValue (Nat.toDigits 10 n) = n :=
  Nat.ofDigitChars_ten_toDigits

/-- Digits and what follows them are told apart. -/
theorem spanDigits_append {digits rest : Text} (areDigits : ∀ c ∈ digits, c.isDigit)
    (ends : ∀ c ∈ rest.head?, c.isDigit = false) :
    (digits ++ rest).takeWhile Char.isDigit = digits ∧
      (digits ++ rest).dropWhile Char.isDigit = rest := by
  rw [List.takeWhile_append_of_pos areDigits, List.dropWhile_append_of_pos areDigits]
  cases rest with
  | nil => simp
  | cons c rest => simp [ends c rfl]

theorem spanDigits_eq {digits : Text} (areDigits : ∀ c ∈ digits, c.isDigit) :
    digits.takeWhile Char.isDigit = digits ∧ digits.dropWhile Char.isDigit = [] := by
  have parts := spanDigits_append areDigits
    (show ∀ c ∈ ([] : Text).head?, c.isDigit = false by simp)
  rwa [List.append_nil] at parts

/-! ## Signs -/

/-- A text that does not begin with a sign has none to take off. -/
theorem takeSign_eq_self {c : Char} {rest : Text} (notMinus : c ≠ '-') (notPlus : c ≠ '+') :
    takeSign (c :: rest) = (false, c :: rest) := by
  unfold takeSign
  split
  · rename_i isMinus
    exact absurd (List.cons.inj isMinus).1 notMinus
  · rename_i isPlus
    exact absurd (List.cons.inj isPlus).1 notPlus
  · rfl

/-- What follows the sign of a literal decides which decimal is read, and the sign its sign. -/
theorem exists_decimal (body : Text) :
    ∃ decimal : Option (Nat × Int), ∀ text negative, takeSign text = (negative, body) →
      readDecimal? text = decimal.map fun d => Binary64.ofDecimal negative d.1 d.2 := by
  -- All texts with this sign and body are read like the one that writes the sign.
  have written : ∀ negative : Bool,
      takeSign ((if negative then ['-'] else ['+']) ++ body) = (negative, body) := by
    intro negative
    cases negative <;> rfl
  have alike : ∀ text negative, takeSign text = (negative, body) →
      readDecimal? text = readDecimal? ((if negative then ['-'] else ['+']) ++ body) := by
    intro text negative signed
    unfold readDecimal?
    rw [signed, written]
  suffices decides : ∃ decimal : Option (Nat × Int), ∀ negative : Bool,
      readDecimal? ((if negative then ['-'] else ['+']) ++ body) =
        decimal.map fun d => Binary64.ofDecimal negative d.1 d.2 by
    obtain ⟨decimal, reads⟩ := decides
    refine ⟨decimal, fun text negative signed => ?_⟩
    exact (alike text negative signed).trans (reads negative)
  unfold readDecimal?
  simp only [written]
  generalize body.takeWhile Char.isDigit = whole
  generalize body.dropWhile Char.isDigit = after
  have ending : ∀ fraction tail : Text, ∃ decimal : Option (Nat × Int), ∀ negative : Bool,
      (if whole.isEmpty ∧ fraction.isEmpty then none
      else (readExponent? tail).map fun exponent => Binary64.ofDecimal negative
        (decimalValue (whole ++ fraction)) (exponent - fraction.length)) =
        decimal.map fun d => Binary64.ofDecimal negative d.1 d.2 := by
    intro fraction tail
    split
    · exact ⟨none, fun _ => rfl⟩
    · refine ⟨(readExponent? tail).map fun exponent =>
        (decimalValue (whole ++ fraction), exponent - fraction.length), fun negative => ?_⟩
      rw [Option.map_map]
      rfl
  split
  · exact ending _ _
  · exact ending _ _

/-- The sign that is taken off a text, and what follows it. -/
theorem exists_sign (text : Text) :
    ∃ sign body, text = sign ++ body ∧ (sign = [] ∨ sign = ['-'] ∨ sign = ['+']) ∧
      (takeSign text).2 = body := by
  unfold takeSign
  split
  · exact ⟨['-'], _, rfl, .inr (.inl rfl), rfl⟩
  · exact ⟨['+'], _, rfl, .inr (.inr rfl), rfl⟩
  · exact ⟨[], _, rfl, .inl rfl, rfl⟩

/-- An exponent part: `e`, a sign or none, and digits. -/
def IsExponent (text : Text) : Prop :=
  ∃ e sign digits, text = e :: (sign ++ digits) ∧ (e = 'e' ∨ e = 'E') ∧
    (sign = [] ∨ sign = ['-'] ∨ sign = ['+']) ∧ digits ≠ [] ∧ ∀ c ∈ digits, c.isDigit

theorem isExponent_of_readExponent? {text : Text} {exponent : Int}
    (reads : readExponent? text = some exponent) : text = [] ∨ IsExponent text := by
  cases text with
  | nil => exact .inl rfl
  | cons e rest =>
      by_cases isE : e = 'e' ∨ e = 'E'
      · obtain ⟨sign, digits, parts, signs, taken⟩ := exists_sign rest
        rw [readExponent?, if_pos isE] at reads
        generalize takeSign rest = signed at reads taken
        obtain ⟨negative, body⟩ := signed
        obtain rfl : body = digits := taken
        simp only at reads
        split at reads
        · cases reads
        · rename_i areDigits
          rw [not_or, List.isEmpty_iff, Bool.not_eq_true', Bool.not_eq_false,
            List.all_eq_true] at areDigits
          exact .inr ⟨e, sign, _, congrArg (e :: ·) parts, isE, signs, areDigits.1, areDigits.2⟩
      · rw [readExponent?, if_neg isE] at reads
        cases reads

/-- What is read as a decimal consists of digits and points and of an exponent part or none. -/
theorem parts_of_readDecimal? {text : Text} {value : Binary64}
    (unsigned : takeSign text = (false, text)) (reads : readDecimal? text = some value) :
    ∃ mantissa exponent, text = mantissa ++ exponent ∧
      (∀ c ∈ mantissa, c.isDigit ∨ c = '.') ∧ (exponent = [] ∨ IsExponent exponent) := by
  have parts := List.takeWhile_append_dropWhile (p := Char.isDigit) (l := text)
  have wholeDigits : ∀ c ∈ text.takeWhile Char.isDigit, c.isDigit :=
    List.all_eq_true.1 List.all_takeWhile
  unfold readDecimal? at reads
  simp only [unsigned] at reads
  generalize text.takeWhile Char.isDigit = whole at *
  generalize text.dropWhile Char.isDigit = after at *
  subst parts
  split at reads
  · rename_i rest
    have follow := List.takeWhile_append_dropWhile (p := Char.isDigit) (l := rest)
    have followDigits : ∀ c ∈ rest.takeWhile Char.isDigit, c.isDigit :=
      List.all_eq_true.1 List.all_takeWhile
    simp only at reads
    split at reads
    · cases reads
    · obtain ⟨exponent, isExponent, -⟩ := Option.map_eq_some_iff.1 reads
      refine ⟨whole ++ '.' :: rest.takeWhile Char.isDigit, rest.dropWhile Char.isDigit, ?_, ?_,
        isExponent_of_readExponent? isExponent⟩
      · rw [List.append_assoc, List.cons_append, follow]
      · intro c member
        rcases List.mem_append.1 member with early | late
        · exact .inl (wholeDigits c early)
        · rcases List.mem_cons.1 late with rfl | digit
          · exact .inr rfl
          · exact .inl (followDigits c digit)
  · simp only at reads
    split at reads
    · cases reads
    · obtain ⟨exponent, isExponent, -⟩ := Option.map_eq_some_iff.1 reads
      exact ⟨whole, _, rfl, fun c member => .inl (wholeDigits c member),
        isExponent_of_readExponent? isExponent⟩

/-! ## Literals without an exponent part -/

/-- Digits alone write a natural number. -/
theorem readDecimal?_digits {text digits : Text} {negative : Bool}
    (signed : takeSign text = (negative, digits)) (areDigits : ∀ c ∈ digits, c.isDigit)
    (nonempty : digits ≠ []) :
    readDecimal? text = some (Binary64.ofDecimal negative (decimalValue digits) 0) := by
  obtain ⟨whole, after⟩ := spanDigits_eq areDigits
  unfold readDecimal?
  simp [signed, whole, after, nonempty, readExponent?]

/-- Digits with a point among them write a fraction of a power of ten. -/
theorem readDecimal?_point {text digits fraction : Text} {negative : Bool}
    (signed : takeSign text = (negative, digits ++ '.' :: fraction))
    (areDigits : ∀ c ∈ digits, c.isDigit) (nonempty : digits ≠ [])
    (followDigits : ∀ c ∈ fraction, c.isDigit) :
    readDecimal? text = some
      (Binary64.ofDecimal negative (decimalValue (digits ++ fraction)) (-fraction.length)) := by
  obtain ⟨whole, after⟩ := spanDigits_append areDigits
    (show ∀ c ∈ ('.' :: fraction).head?, c.isDigit = false by simp)
  obtain ⟨follow, rest⟩ := spanDigits_eq followDigits
  unfold readDecimal?
  simp [signed, whole, after, follow, rest, nonempty, readExponent?]

namespace Binary64

/-! ## Signs of numbers -/

theorem magnitude_ofMagnitude {negative : Bool} {magnitude : Nat} (bound : magnitude < signWeight) :
    (ofMagnitude negative magnitude).magnitude = magnitude := by
  have small : magnitude < 2 ^ 63 := bound
  unfold ofMagnitude Binary64.magnitude signWeight
  rw [UInt64.toNat_ofNat', Nat.pow_eq]
  split <;> omega

theorem isNegative_ofMagnitude {negative : Bool} {magnitude : Nat}
    (bound : magnitude < signWeight) : (ofMagnitude negative magnitude).isNegative = negative := by
  have small : magnitude < 2 ^ 63 := bound
  unfold ofMagnitude isNegative signWeight
  rw [UInt64.toNat_ofNat', Nat.pow_eq]
  cases negative
  · simp only [Bool.false_eq_true, if_false, decide_eq_false_iff_not]
    omega
  · simp only [if_true, decide_eq_true_eq]
    omega

theorem ofMagnitude_magnitude (x : Binary64) : ofMagnitude x.isNegative x.magnitude = x := by
  have bound := x.bits.toNat_lt
  have parts : (if x.isNegative then signWeight + x.magnitude else x.magnitude) =
      x.bits.toNat := by
    unfold isNegative Binary64.magnitude signWeight
    simp only [Nat.pow_eq, decide_eq_true_eq]
    split <;> omega
  unfold ofMagnitude
  rw [parts, UInt64.ofNat_toNat]

/-- The sign of a decimal decides nothing but the sign of the number. -/
theorem exists_magnitude (digits : Nat) (exponent : Int) :
    ∃ magnitude, magnitude ≤ infinityBits ∧
      ∀ negative, ofDecimal negative digits exponent = ofMagnitude negative magnitude := by
  unfold ofDecimal ofRatio
  simp only
  split
  · exact ⟨0, Nat.zero_le _, fun _ => rfl⟩
  · split
    · exact ⟨infinityBits, Nat.le_refl _, fun _ => rfl⟩
    · split
      · exact ⟨0, Nat.zero_le _, fun _ => rfl⟩
      · exact ⟨_, Nat.min_le_left _ _, fun _ => rfl⟩

theorem shortest_eq_of_magnitude_eq {x y : Binary64} (same : x.magnitude = y.magnitude) :
    x.shortest = y.shortest := by
  unfold shortest interval isZero mantissa scale
  rw [same]

/-- A negative number is written as the positive one with a minus sign before it. -/
theorem plain_ofMagnitude_true {magnitude : Nat} (bound : magnitude ≤ infinityBits) :
    (ofMagnitude true magnitude).plain = '-' :: (ofMagnitude false magnitude).plain := by
  have less : magnitude < signWeight := bound.trans_lt (by decide)
  have magnitudes : ∀ negative, (ofMagnitude negative magnitude).magnitude = magnitude :=
    fun _ => magnitude_ofMagnitude less
  have shortests : (ofMagnitude true magnitude).shortest = (ofMagnitude false magnitude).shortest :=
    shortest_eq_of_magnitude_eq ((magnitudes true).trans (magnitudes false).symm)
  unfold plain signed isFinite isInfinite
  rw [shortests, magnitudes, magnitudes, isNegative_ofMagnitude less, isNegative_ofMagnitude less]
  rcases Nat.lt_or_ge magnitude infinityBits with finite | infinite
  · simp [finite]
  · obtain rfl : magnitude = infinityBits := Nat.le_antisymm bound infinite
    decide

/-- A literal without a sign is read as a number without one, and a sign before the literal is
that of the number. -/
theorem exists_magnitude_of_readDecimal? {text : Text} {value : Binary64}
    (unsigned : takeSign text = (false, text)) (reads : readDecimal? text = some value) :
    ∃ magnitude, magnitude ≤ infinityBits ∧ value = ofMagnitude false magnitude ∧
      readDecimal? ('+' :: text) = some (ofMagnitude false magnitude) ∧
      readDecimal? ('-' :: text) = some (ofMagnitude true magnitude) := by
  obtain ⟨decimal, alike⟩ := exists_decimal text
  rw [alike text false unsigned] at reads
  obtain ⟨⟨digits, exponent⟩, rfl, isValue⟩ := Option.map_eq_some_iff.1 reads
  obtain ⟨magnitude, bound, sameMagnitude⟩ := exists_magnitude digits exponent
  refine ⟨magnitude, bound, isValue.symm.trans (sameMagnitude false), ?_, ?_⟩
  · rw [alike _ false rfl, Option.map_some, sameMagnitude]
  · rw [alike _ true rfl, Option.map_some, sameMagnitude]

theorem negate_ofMagnitude_false {magnitude : Nat} (bound : magnitude ≤ infinityBits) :
    (ofMagnitude false magnitude).negate = ofMagnitude true magnitude := by
  have less : magnitude < signWeight := bound.trans_lt (by decide)
  unfold negate
  rw [isNegative_ofMagnitude less, magnitude_ofMagnitude less]
  rfl

end Binary64

/-! ## The plain form -/

namespace Decimal

/-- The digits of a decimal without the zeros at their end, and those zeros. -/
theorem exists_zeros (digits : Nat) :
    ∃ zeros, Nat.toDigits 10 digits =
      Text.dropEndWhile (· == '0') (Nat.toDigits 10 digits) ++ List.replicate zeros '0' := by
  generalize Nat.toDigits 10 digits = written
  unfold Text.dropEndWhile
  refine ⟨(written.reverse.takeWhile (· == '0')).length, ?_⟩
  have areZeros : written.reverse.takeWhile (· == '0') =
      List.replicate (written.reverse.takeWhile (· == '0')).length '0' :=
    List.eq_replicate_of_mem fun c member => by
      simpa using List.all_eq_true.1 List.all_takeWhile c member
  calc
    written = written.reverse.reverse := written.reverse_reverse.symm
    _ = (written.reverse.takeWhile (· == '0') ++
        written.reverse.dropWhile (· == '0')).reverse := by
      rw [List.takeWhile_append_dropWhile]
    _ = (written.reverse.dropWhile (· == '0')).reverse ++
        (written.reverse.takeWhile (· == '0')).reverse := List.reverse_append
    _ = _ := by
      congr 1
      rw [areZeros]
      simp

/-- The digits of a decimal other than zero, without the zeros at their end. -/
theorem parts_of_ne_zero {decimal : Decimal} (nonzero : decimal.digits ≠ 0) :
    ∃ (trimmed : Text) (zeros : Nat),
      decimal.parts = (trimmed, trimmed.length + (decimal.exponent + zeros)) ∧
        decimal.digits = decimalValue trimmed * 10 ^ zeros ∧
        trimmed ≠ [] ∧ ∀ c ∈ trimmed, c.isDigit := by
  obtain ⟨digits, exponent⟩ := decimal
  obtain ⟨zeros, written⟩ := exists_zeros digits
  generalize isTrimmed : Text.dropEndWhile (· == '0') (Nat.toDigits 10 digits) = trimmed at written
  have value : digits = decimalValue trimmed * 10 ^ zeros := by
    rw [← decimalValue_toDigits digits, written, decimalValue_append, decimalValue_replicate_zero,
      List.length_replicate, Nat.add_zero]
  refine ⟨trimmed, zeros, ?_, value, ?_, fun c member => ?_⟩
  · unfold parts
    rw [if_neg nonzero]
    simp only [isTrimmed]
    rw [written, List.length_append, List.length_replicate]
    congr 1
    push_cast
    omega
  · rintro rfl
    exact nonzero (value.trans (Nat.zero_mul _))
  · refine Nat.isDigit_of_mem_toDigits (b := 10) (n := digits) (by decide) (by decide) ?_
    rw [written]
    exact List.mem_append_left _ member

/-- The positional form begins with a digit. -/
theorem exists_digit_positional (decimal : Decimal) :
    ∃ c rest, decimal.positional false = c :: rest ∧ c.isDigit := by
  unfold positional
  rcases Nat.eq_zero_or_pos decimal.digits with isZero | positive
  · have isParts : decimal.parts = (['0'], 1) := if_pos isZero
    rw [isParts]
    exact ⟨'0', [], rfl, by decide⟩
  · obtain ⟨trimmed, zeros, isParts, -, nonempty, areDigits⟩ := parts_of_ne_zero positive.ne'
    obtain ⟨first, rest, rfl⟩ := List.exists_cons_of_ne_nil nonempty
    have isDigit := areDigits first List.mem_cons_self
    rw [isParts]
    simp only
    split
    · exact ⟨'0', _, rfl, by decide⟩
    · split
      · exact ⟨first, _, rfl, isDigit⟩
      · obtain ⟨size, isSize⟩ : ∃ size, ((((first :: rest).length : Int) +
            (decimal.exponent + zeros)).toNat) = size + 1 :=
          ⟨_, (Nat.succ_pred_eq_of_pos (by omega)).symm⟩
        rw [isSize]
        exact ⟨first, _, rfl, isDigit⟩

end Decimal

namespace Binary64

/-- The digits of a decimal in the interval of a number, without the zeros at their end. -/
theorem parts_of_containsDecimal {x : Binary64} (nonzero : x.isZero = false) {decimal : Decimal}
    (inside : x.interval.ContainsDecimal decimal.digits decimal.exponent) :
    ∃ (trimmed : Text) (exponent : Int), decimal.parts = (trimmed, trimmed.length + exponent) ∧
      0 < decimalValue trimmed ∧ trimmed ≠ [] ∧ (∀ c ∈ trimmed, c.isDigit) ∧
      x.interval.ContainsDecimal (decimalValue trimmed) exponent := by
  have positive : 0 < decimal.digits := by
    refine Nat.pos_of_ne_zero fun isZero => ?_
    obtain ⟨above, -⟩ := inside.bounds
    have low := x.interval_low_pos nonzero
    rw [isZero, Nat.zero_mul, Nat.zero_mul] at above
    exact absurd above (Nat.not_le_of_lt (Nat.mul_pos low (Nat.pow_pos (by decide))))
  obtain ⟨trimmed, zeros, isParts, value, nonempty, areDigits⟩ :=
    Decimal.parts_of_ne_zero positive.ne'
  rw [value] at positive inside
  exact ⟨trimmed, decimal.exponent + zeros, isParts, Nat.pos_of_mul_pos_right positive, nonempty,
    areDigits, containsDecimal_mul_pow.1 inside⟩

/-- The positional form of a decimal in the interval of a number reads as the number. -/
theorem readDecimal?_positional_of_containsDecimal {x : Binary64} (finite : x.isFinite)
    (nonzero : x.isZero = false) {decimal : Decimal}
    (inside : x.interval.ContainsDecimal decimal.digits decimal.exponent) {text : Text}
    {negative : Bool} (signed : takeSign text = (negative, decimal.positional false)) :
    readDecimal? text = some (ofMagnitude negative x.magnitude) := by
  obtain ⟨trimmed, exponent, isParts, positive, nonempty, areDigits, trimmedInside⟩ :=
    parts_of_containsDecimal nonzero inside
  unfold Decimal.positional at signed
  rw [isParts] at signed
  simp only [Bool.false_eq_true, if_false, List.append_nil] at signed
  have value : ∀ zeros,
      decimalValue (List.replicate zeros '0' ++ trimmed) = decimalValue trimmed := by
    intro zeros
    rw [decimalValue_append, decimalValue_replicate_zero, Nat.zero_mul, Nat.zero_add]
  have zeroIsDigit : ∀ zeros, ∀ c ∈ List.replicate zeros '0', c.isDigit := by
    intro zeros c member
    rw [List.eq_of_mem_replicate member]
    decide
  split at signed
  · -- The digits stand after the point and some zeros.
    rename_i small
    generalize isZeros : (-((trimmed.length : Int) + exponent)).toNat = zeros at signed
    have fractionDigits : ∀ c ∈ List.replicate zeros '0' ++ trimmed, c.isDigit := by
      intro c member
      rcases List.mem_append.1 member with zero | digit
      · exact zeroIsDigit zeros c zero
      · exact areDigits c digit
    have split :
        takeSign text = (negative, ['0'] ++ '.' :: (List.replicate zeros '0' ++ trimmed)) := by
      rw [signed, List.append_assoc]
      rfl
    have allValue : decimalValue (['0'] ++ (List.replicate zeros '0' ++ trimmed)) =
        decimalValue trimmed := by
      rw [← value (zeros + 1), List.replicate_succ]
      rfl
    rw [readDecimal?_point split (List.forall_mem_singleton.2 rfl) (by decide) fractionDigits, allValue]
    refine congrArg some (ofDecimal_of_containsDecimal finite nonzero positive ?_ negative)
    convert trimmedInside using 1
    rw [List.length_append, List.length_replicate]
    push_cast
    omega
  · split at signed
    · -- The digits and some zeros form a whole number.
      rename_i large whole
      generalize isZeros : ((trimmed.length : Int) + exponent).toNat - trimmed.length = zeros
        at signed
      have allDigits : ∀ c ∈ trimmed ++ List.replicate zeros '0', c.isDigit := by
        intro c member
        rcases List.mem_append.1 member with digit | zero
        · exact areDigits c digit
        · exact zeroIsDigit zeros c zero
      have scaled : 0 < decimalValue trimmed * 10 ^ zeros :=
        Nat.mul_pos positive (Nat.pow_pos (by decide))
      rw [readDecimal?_digits signed allDigits (by simp [nonempty]), decimalValue_append,
        decimalValue_replicate_zero, List.length_replicate, Nat.add_zero]
      refine congrArg some (ofDecimal_of_containsDecimal finite nonzero scaled ?_ negative)
      rw [containsDecimal_mul_pow]
      convert trimmedInside using 1
      omega
    · -- The point stands among the digits.
      rename_i large fraction
      generalize isSize : ((trimmed.length : Int) + exponent).toNat = size at signed
      have split : takeSign text = (negative, trimmed.take size ++ '.' :: trimmed.drop size) := by
        rw [signed, List.append_assoc]
        rfl
      have wholeNonempty : trimmed.take size ≠ [] := by
        rw [Ne, List.take_eq_nil_iff, not_or]
        exact ⟨by omega, nonempty⟩
      rw [readDecimal?_point split (fun c member => areDigits c (List.mem_of_mem_take member))
        wholeNonempty (fun c member => areDigits c (List.mem_of_mem_drop member)),
        List.take_append_drop]
      refine congrArg some (ofDecimal_of_containsDecimal finite nonzero positive ?_ negative)
      convert trimmedInside using 1
      rw [List.length_drop]
      omega

/-- The positional form of a number's shortest decimal reads as the number. -/
theorem readDecimal?_shortest {x : Binary64} (finite : x.isFinite) {text : Text} {negative : Bool}
    (signed : takeSign text = (negative, x.shortest.positional false)) :
    readDecimal? text = some (ofMagnitude negative x.magnitude) := by
  cases nonzero : x.isZero
  · exact readDecimal?_positional_of_containsDecimal finite nonzero
      (x.containsDecimal_shortest nonzero) signed
  · have isZero : x.magnitude = 0 := by simpa [isZero] using nonzero
    have isShortest : x.shortest = ⟨0, 0⟩ := if_pos nonzero
    rw [isShortest] at signed
    have isDigit : takeSign text = (negative, ['0']) := signed
    rw [readDecimal?_digits isDigit (List.forall_mem_singleton.2 rfl) (by decide), isZero]
    rfl

/-- A finite number is read from its plain form. -/
theorem readDecimal?_plain (x : Binary64) (finite : x.isFinite) :
    readDecimal? x.plain = some x := by
  obtain ⟨c, rest, isPositional, isDigit⟩ := x.shortest.exists_digit_positional
  have notSign : c ≠ '-' ∧ c ≠ '+' := by
    constructor <;> rintro rfl <;> cases isDigit
  have unsigned :
      takeSign (x.shortest.positional false) = (false, x.shortest.positional false) := by
    rw [isPositional]
    exact takeSign_eq_self notSign.1 notSign.2
  have signed : takeSign x.plain = (x.isNegative, x.shortest.positional false) := by
    unfold plain Binary64.signed
    rw [if_pos finite]
    cases x.isNegative
    · exact unsigned
    · rfl
  rw [readDecimal?_shortest finite signed, ofMagnitude_magnitude]

end Binary64

end AddonIndex
