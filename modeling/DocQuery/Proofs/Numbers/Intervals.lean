import DocQuery.Number.Shortest
import Mathlib.Algebra.Order.Field.Rat
import Mathlib.Algebra.Order.Field.Power
import Mathlib.Tactic.Linarith
import Mathlib.Tactic.NormNum
import Mathlib.Tactic.Ring

/-!
# The interval of a double

The numbers that round to a double form an interval around it (`Double.Rounds`). Its ends are the boundaries to the two
neighbouring doubles (`upperEnd_mul`, `lowerEnd_mul`), and belong to the neighbour with the even mantissa, so that no
number rounds to two doubles (`Rounds.bits_eq`). The shortest decimal of a double rounds to it (`rounds_shortest`): on
the finest grid of the search the steps are shorter than half of any interval. Hence a double can be told from the
number that its shortest decimal stands for.
-/

namespace DocQuery

namespace Double

variable {x y : Double}

/-! ## Neighbours -/

/-- The mantissa of a double with the given bits. -/
def mantissaOf (bits : Nat) : Nat := if bits < leadingBit then bits else leadingBit + bits % leadingBit

/-- How far the last place of a double with the given bits lies above that of a subnormal one. -/
def placeOf (bits : Nat) : Nat := max (bits / leadingBit) 1 - 1

theorem mantissaOf_cases (bits : Nat) :
    (bits < leadingBit ∧ mantissaOf bits = bits) ∨
      (leadingBit ≤ bits ∧ mantissaOf bits = leadingBit + bits % leadingBit) := by
  unfold mantissaOf
  split
  · exact .inl ⟨by assumption, rfl⟩
  · exact .inr ⟨by omega, rfl⟩

theorem exponent_eq (x : Double) : x.exponent = placeOf x.bits - 1074 := by
  simp only [exponent, placeOf]
  omega

/-- The next double has the next mantissa, or it carries into the next place. -/
theorem succ_cases (bits : Nat) :
    (mantissaOf (bits + 1) = mantissaOf bits + 1 ∧ placeOf (bits + 1) = placeOf bits ∧
        (mantissaOf (bits + 1) = leadingBit → placeOf bits = 0)) ∨
      (mantissaOf bits = 2 * leadingBit - 1 ∧ mantissaOf (bits + 1) = leadingBit ∧
        placeOf (bits + 1) = placeOf bits + 1) := by
  have hthis := mantissaOf_cases bits
  have hnext := mantissaOf_cases (bits + 1)
  simp only [placeOf, leadingBit] at *
  omega

/-- The boundary between the double with the given bits and the next one. It is counted in quarters of the last place
of a subnormal double. -/
def boundary (bits : Nat) : Nat := (4 * mantissaOf bits + 2) * 2 ^ placeOf bits

theorem boundary_lt_succ (bits : Nat) : boundary bits < boundary (bits + 1) := by
  unfold boundary
  rcases succ_cases bits with ⟨hm, hp, _⟩ | ⟨hm, hm', hp⟩
  · rw [hm, hp]
    exact Nat.mul_lt_mul_of_pos_right (by omega) (Nat.two_pow_pos _)
  · rw [hm, hm', hp, Nat.pow_succ', ← Nat.mul_assoc]
    exact Nat.mul_lt_mul_of_pos_right (by simp only [leadingBit]; omega) (Nat.two_pow_pos _)

theorem boundary_strictMono : StrictMono boundary := strictMono_nat_of_lt_succ boundary_lt_succ

theorem upperEnd_mul (x : Double) : x.upperEnd * 2 ^ placeOf x.bits = boundary x.bits := rfl

theorem lowerEnd_mul {bits : Nat} (hx : x.bits = bits + 1) : x.lowerEnd * 2 ^ placeOf x.bits = boundary bits := by
  have hmantissa : x.mantissa = mantissaOf (bits + 1) := by rw [← hx]; rfl
  unfold lowerEnd boundary
  rw [exponent_eq, hmantissa, hx]
  rcases succ_cases bits with ⟨hm, hp, hleading⟩ | ⟨hm, hm', hp⟩
  · have hdense : ¬ (mantissaOf (bits + 1) = leadingBit ∧ (-1074 : Int) < placeOf (bits + 1) - 1074) := by
      rintro ⟨h, hplace⟩
      have := hleading h
      omega
    rw [if_neg hdense, hm, hp]
    congr 1
  · have hdense : mantissaOf (bits + 1) = leadingBit ∧ (-1074 : Int) < placeOf (bits + 1) - 1074 := ⟨hm', by omega⟩
    rw [if_pos hdense, hm, hm', hp, Nat.pow_succ', ← Nat.mul_assoc]
    congr 1

theorem mantissa_mod_two (x : Double) : x.mantissa % 2 = x.bits % 2 := by
  have hmantissa : x.mantissa = mantissaOf x.bits := rfl
  have hcases := mantissaOf_cases x.bits
  simp only [leadingBit] at hcases
  omega

/-! ## Intervals -/

/-- A quarter of the last place of a double. -/
def quarter (x : Double) : ℚ := 2 ^ (x.exponent - 2)

theorem quarter_pos (x : Double) : 0 < x.quarter := by
  unfold quarter
  positivity

/-- Whether a number rounds to the absolute value of a double. -/
def Rounds (x : Double) (v : ℚ) : Prop :=
  x.lowerEnd * x.quarter ≤ v ∧ v ≤ x.upperEnd * x.quarter ∧
    (x.mantissa % 2 = 1 → x.lowerEnd * x.quarter < v ∧ v < x.upperEnd * x.quarter)

/-- A quarter of the last place of a subnormal double. -/
def unit : ℚ := 2 ^ (-1076 : ℤ)

theorem unit_pos : 0 < unit := by
  unfold unit
  positivity

theorem quarter_eq (x : Double) : x.quarter = (2 ^ placeOf x.bits : ℕ) * unit := by
  rw [quarter, exponent_eq, unit, Nat.cast_pow, Nat.cast_ofNat, ← zpow_natCast, ← zpow_add₀ two_ne_zero]
  congr 1
  omega

theorem upperEnd_quarter (x : Double) : x.upperEnd * x.quarter = boundary x.bits * unit := by
  rw [quarter_eq, ← mul_assoc, ← Nat.cast_mul, upperEnd_mul]

theorem lowerEnd_quarter {bits : Nat} (hx : x.bits = bits + 1) : x.lowerEnd * x.quarter = boundary bits * unit := by
  rw [quarter_eq, ← mul_assoc, ← Nat.cast_mul, lowerEnd_mul hx]

/-- A number that rounds to two doubles is an end of both intervals, and one of the two does not have its ends. -/
theorem Rounds.not_lt {v : ℚ} (hx : x.Rounds v) (hy : y.Rounds v) : ¬ x.bits < y.bits := by
  intro hlt
  obtain ⟨bits, hbits⟩ : ∃ bits, y.bits = bits + 1 := ⟨y.bits - 1, by omega⟩
  obtain ⟨_, hxv, hxodd⟩ := hx
  obtain ⟨hyv, _, hyodd⟩ := hy
  rw [upperEnd_quarter] at hxv hxodd
  rw [lowerEnd_quarter hbits] at hyv hyodd
  rcases Nat.lt_or_ge x.bits bits with hfar | hnear
  · have hboundary : (boundary x.bits : ℚ) < boundary bits := by exact_mod_cast boundary_strictMono hfar
    have := mul_lt_mul_of_pos_right hboundary unit_pos
    linarith
  · obtain rfl : x.bits = bits := by omega
    have hxmod := mantissa_mod_two x
    have hymod := mantissa_mod_two y
    rcases Nat.mod_two_eq_zero_or_one x.bits with heven | hodd
    · have := (hyodd (by omega)).1
      linarith
    · have := (hxodd (by omega)).2
      linarith

/-- **No number rounds to two doubles.** -/
theorem Rounds.bits_eq {v : ℚ} (hx : x.Rounds v) (hy : y.Rounds v) : x.bits = y.bits :=
  Nat.le_antisymm (Nat.le_of_not_lt (hy.not_lt hx)) (Nat.le_of_not_lt (hx.not_lt hy))

/-! ## The search -/

/-- Lengths on the scale of a grid are lengths, up to one factor. -/
theorem exists_scales (x : Double) (e : Int) :
    ∃ c : ℚ, 0 < c ∧ ((x.scales e).1 : ℚ) = x.quarter * c ∧ ((x.scales e).2 : ℚ) = 10 ^ e * c := by
  refine ⟨2 ^ (-(x.exponent - 2)).toNat * 10 ^ (-e).toNat, by positivity, ?_, ?_⟩
  · have htwo : x.quarter * 2 ^ (-(x.exponent - 2)).toNat = 2 ^ (x.exponent - 2).toNat := by
      rw [quarter, ← zpow_natCast, ← zpow_natCast, ← zpow_add₀ two_ne_zero]
      congr 1
      omega
    rw [← mul_assoc, htwo]
    simp [scales]
  · have hten : (10 : ℚ) ^ e * 10 ^ (-e).toNat = 10 ^ e.toNat := by
      rw [← zpow_natCast, ← zpow_natCast, ← zpow_add₀ (by norm_num)]
      congr 1
      omega
    rw [mul_comm (2 ^ _), ← mul_assoc, hten]
    simp [scales, mul_comm]

/-- A decimal is in reach if it rounds to the double. -/
theorem reaches_iff (x : Double) (e : Int) (d : Nat) : x.reaches e d = true ↔ x.Rounds (d * 10 ^ e) := by
  obtain ⟨c, hc, hplace, hgrid⟩ := x.exists_scales e
  have hend : ∀ n : Nat, ((n * (x.scales e).1 : ℕ) : ℚ) = n * x.quarter * c := fun n => by
    rw [Nat.cast_mul, hplace, mul_assoc]
  have hd : ((d * (x.scales e).2 : ℕ) : ℚ) = d * 10 ^ e * c := by
    rw [Nat.cast_mul, hgrid, mul_assoc]
  have hle : ∀ n, n * (x.scales e).1 ≤ d * (x.scales e).2 ↔ n * x.quarter ≤ (d * 10 ^ e : ℚ) := fun n => by
    rw [← Nat.cast_le (α := ℚ), hend, hd, mul_le_mul_iff_left₀ hc]
  have hge : ∀ n, d * (x.scales e).2 ≤ n * (x.scales e).1 ↔ (d * 10 ^ e : ℚ) ≤ n * x.quarter := fun n => by
    rw [← Nat.cast_le (α := ℚ), hend, hd, mul_le_mul_iff_left₀ hc]
  unfold reaches Rounds
  simp only
  split
  · rename_i heven
    have hodd : ¬ x.mantissa % 2 = 1 := by omega
    simp [hle, hge, hodd]
  · have hodd : x.mantissa % 2 = 1 := by omega
    rw [decide_eq_true_iff, ← Nat.not_le, ← Nat.not_le, hle, hge, not_le, not_le]
    simp only [hodd, forall_const]
    exact ⟨fun h => ⟨h.1.le, h.2.le, h⟩, fun h => h.2.2⟩

theorem rounds_of_nearestOn? {e : Int} {d : Nat} (h : x.nearestOn? e = some d) : x.Rounds (d * 10 ^ e) := by
  rw [← reaches_iff]
  simp only [nearestOn?] at h
  split at h
  · cases h
    assumption
  split at h
  · cases h
    assumption
  split at h
  · cases h
    assumption
  · cases h

theorem roundHalfEven_bounds (a : Nat) {b : Nat} (hb : 0 < b) :
    2 * a ≤ 2 * (roundHalfEven a b * b) + b ∧ 2 * (roundHalfEven a b * b) ≤ 2 * a + b := by
  have hdiv := Nat.div_add_mod a b
  have hmod := Nat.mod_lt a hb
  rw [Nat.mul_comm] at hdiv
  unfold roundHalfEven
  split
  · omega
  · rw [Nat.add_mul]
    omega

/-- A grid with steps shorter than a quarter of the least place. -/
theorem scales_lt (x : Double) {e : Int} (he : e ≤ 0) (hfine : 2 ^ 1076 < 10 ^ (-e).toNat) :
    (x.scales e).2 < (x.scales e).1 := by
  have hquarter : (-(x.exponent - 2)).toNat ≤ 1076 := by rw [exponent_eq]; omega
  have hpositive : e.toNat = 0 := by omega
  simp only [scales, Nat.pow_eq, hpositive, Nat.pow_zero, Nat.mul_one]
  generalize 1076 = least at hquarter hfine
  calc 2 ^ (-(x.exponent - 2)).toNat
      ≤ 2 ^ least := Nat.pow_le_pow_right (by decide) hquarter
    _ < 10 ^ (-e).toNat := hfine
    _ ≤ 2 ^ (x.exponent - 2).toNat * 10 ^ (-e).toNat := Nat.le_mul_of_pos_left _ (Nat.two_pow_pos _)

theorem mantissa_pos (hx : 0 < x.bits) : 0 < x.mantissa := by
  have hcases := mantissaOf_cases x.bits
  have heq : x.mantissa = mantissaOf x.bits := rfl
  simp only [leadingBit] at hcases
  omega

/-- On such a grid, the step nearest to the double rounds to it. -/
theorem isSome_nearestOn? {e : Int} (hx : 0 < x.bits) (hgrid : (x.scales e).2 < (x.scales e).1) :
    (x.nearestOn? e).isSome = true := by
  have hmantissa := mantissa_pos hx
  have hlower : x.lowerEnd + 1 ≤ 4 * x.mantissa := by
    unfold lowerEnd
    split <;> omega
  have hreaches : x.reaches e (roundHalfEven (4 * x.mantissa * (x.scales e).1) (x.scales e).2) = true := by
    have hpos : 0 < (x.scales e).2 := Nat.mul_pos (Nat.pow_pos (by decide)) (Nat.pow_pos (by decide))
    obtain ⟨hbelow, habove⟩ := roundHalfEven_bounds (4 * x.mantissa * (x.scales e).1) hpos
    have hlow := Nat.mul_le_mul_right (x.scales e).1 hlower
    have hhigh : x.upperEnd * (x.scales e).1 = 4 * x.mantissa * (x.scales e).1 + 2 * (x.scales e).1 := by
      rw [upperEnd, Nat.add_mul]
    rw [Nat.add_mul] at hlow
    unfold reaches
    simp only
    split
    · rw [decide_eq_true_iff]
      omega
    · rw [decide_eq_true_iff]
      omega
  simp only [nearestOn?, hreaches, if_true, Option.isSome_some]

/-- Every grid of the search that is not given up has a decimal that rounds to the double. -/
theorem rounds_searchDown (h : 0 < x.bits) (steps : Nat) :
    x.Rounds ((x.searchDown steps).digits * 10 ^ (x.searchDown steps).exponent) := by
  induction steps with
  | zero =>
    have hfinest := isSome_nearestOn? h (x.scales_lt (e := -324) (by decide) (by decide +kernel))
    obtain ⟨d, hd⟩ := Option.isSome_iff_exists.mp hfinest
    simp only [searchDown, hd, Option.getD_some]
    exact rounds_of_nearestOn? hd
  | succ steps ih =>
    unfold searchDown
    split
    · rename_i d hd
      exact rounds_of_nearestOn? hd
    · exact ih

/-- Zero does not round to any other double. -/
theorem digits_searchDown_ne_zero (h : 0 < x.bits) (steps : Nat) : (x.searchDown steps).digits ≠ 0 := by
  intro hdigits
  have hrounds := (rounds_searchDown h steps).1
  have hlower : (0 : ℚ) < x.lowerEnd := by
    have hmantissa := mantissa_pos h
    unfold lowerEnd
    split <;> exact_mod_cast (by omega)
  have := mul_pos hlower x.quarter_pos
  rw [hdigits, Nat.cast_zero, zero_mul] at hrounds
  linarith

end Double

/-- The number that a short decimal stands for. -/
def ShortDecimal.value (d : ShortDecimal) : ℚ := d.digits * 10 ^ d.exponent

namespace Double

variable {x : Double}

/-- The shortest decimal of zero, or one that a search has found. -/
theorem shortest_cases (x : Double) :
    (x.bits = 0 ∧ x.shortest = ⟨0, 0⟩) ∨ (0 < x.bits ∧ x.shortest = x.searchDown 633) := by
  unfold shortest isZero
  rcases Nat.eq_zero_or_pos x.bits with h | h
  · exact .inl ⟨h, by simp [h]⟩
  · exact .inr ⟨h, by simp [Nat.ne_of_gt h]⟩

/-- **The shortest decimal of a double rounds to it.** -/
theorem rounds_shortest (x : Double) : x.Rounds x.shortest.value := by
  rcases x.shortest_cases with ⟨hbits, heq⟩ | ⟨hbits, heq⟩
  · have hmantissa : x.mantissa = 0 := by simp [mantissa, hbits, leadingBit]
    have hquarter := x.quarter_pos
    simp [heq, Rounds, ShortDecimal.value, lowerEnd, upperEnd, hmantissa, hquarter.le]
  · rw [heq]
    exact rounds_searchDown hbits 633

theorem exponent_shortest (h : x.shortest.digits = 0) : x.shortest.exponent = 0 := by
  rcases x.shortest_cases with ⟨_, heq⟩ | ⟨hbits, heq⟩
  · rw [heq]
  · rw [heq] at h
    exact absurd h (digits_searchDown_ne_zero hbits 633)

end Double

end DocQuery
