import Mathlib.Algebra.Order.Field.Power
import Mathlib.Algebra.Order.Floor.Semifield
import Mathlib.Data.Rat.Floor
import Mathlib.Tactic.FieldSimp
import Mathlib.Tactic.Linarith
import Mathlib.Tactic.Positivity
import Letterpress.Measure

/-!
# Sizes in half points

Rounding to a format leaves a number as it is that the format has, and twice a number of a format is
one, apart from its greatest. So the half points of a size are the whole number nearest to twice the
size.
-/

namespace Letterpress

open Number

namespace Number

theorem roundEven_mul (k : Nat) {den : Nat} (h : 0 < den) : roundEven (k * den) den = k := by
  simp [roundEven, Nat.mul_div_cancel k h, h]

theorem roundUp_eq_floor (num : Nat) {den : Nat} (h : 0 < den) :
    roundUp num den = ⌊(num / den + 1 / 2 : ℚ)⌋₊ := by
  have hden : (den : ℚ) ≠ 0 := by positivity
  have hsum : (num / den + 1 / 2 : ℚ) = (2 * num + den : ℕ) / (2 * den : ℕ) := by
    push_cast
    field_simp
  rw [hsum, Nat.floor_div_eq_div, roundUp]

namespace Binary

/-- The value of a number that is finite. -/
def value? : Binary → Option ℚ
  | .finite negative m e => some ((if negative then -(m : ℚ) else m) * 2 ^ e)
  | .infinite _ => none

/-- Whether a format has the number. -/
def IsIn (f : Format) : Binary → Prop
  | .finite _ m e => m < 2 ^ f.precision ∧ f.least ≤ e ∧ e ≤ f.greatest
  | .infinite _ => True

instance (f : Format) (x : Binary) : Decidable (x.IsIn f) := by
  cases x <;> unfold IsIn <;> infer_instance

theorem scaled_pos {num den : Nat} (hnum : 0 < num) (hden : 0 < den) (shift : Int) :
    0 < (scaled num den shift).1 ∧ 0 < (scaled num den shift).2 :=
  ⟨Nat.mul_pos hnum (Nat.pow_pos Nat.two_pos), Nat.mul_pos hden (Nat.pow_pos Nat.two_pos)⟩

theorem div_scaled (num den : Nat) (shift : Int) :
    ((scaled num den shift).1 / (scaled num den shift).2 : ℚ) = num / den * 2 ^ shift := by
  have hpow : (2 : ℚ) ^ shift = 2 ^ shift.toNat / 2 ^ (-shift).toNat := by
    rw [← zpow_natCast, ← zpow_natCast, ← zpow_sub₀ two_ne_zero]
    congr 1
    omega
  simp only [scaled, Nat.pow_eq, Nat.cast_mul, Nat.cast_pow, Nat.cast_ofNat]
  rw [hpow, mul_div_mul_comm]

theorem log2_bounds {n : Nat} (h : 0 < n) :
    (2 : ℚ) ^ (n.log2 : ℤ) ≤ n ∧ (n : ℚ) < 2 ^ (n.log2 + 1 : ℤ) := by
  have hle := Nat.log2_self_le h.ne'
  have hlt := Nat.lt_log2_self (n := n)
  constructor
  · rw [zpow_natCast]
    exact_mod_cast hle
  · have hcast : (n.log2 + 1 : ℤ) = (n.log2 + 1 : ℕ) := by push_cast; rfl
    rw [hcast, zpow_natCast]
    exact_mod_cast hlt

/-- With the exponent that is tried first, the mantissa has one bit too many at the most. -/
theorem guess_bounds {num den : Nat} (hnum : 0 < num) (hden : 0 < den) (p : ℤ) :
    (2 : ℚ) ^ (p - 1) < num / den * 2 ^ (-((num.log2 : ℤ) - den.log2 - p)) ∧
      (num / den * 2 ^ (-((num.log2 : ℤ) - den.log2 - p)) : ℚ) < 2 ^ (p + 1) := by
  obtain ⟨hn, hn'⟩ := log2_bounds hnum
  obtain ⟨hd, hd'⟩ := log2_bounds hden
  have hden' : (0 : ℚ) < den := by exact_mod_cast hden
  rw [div_mul_eq_mul_div, lt_div_iff₀ hden', div_lt_iff₀ hden']
  constructor
  · calc (2 : ℚ) ^ (p - 1) * den < 2 ^ (p - 1) * 2 ^ (den.log2 + 1 : ℤ) := by gcongr
      _ = 2 ^ (num.log2 : ℤ) * 2 ^ (-((num.log2 : ℤ) - den.log2 - p)) := by
        rw [← zpow_add₀ two_ne_zero, ← zpow_add₀ two_ne_zero]
        congr 1
        ring
      _ ≤ num * 2 ^ (-((num.log2 : ℤ) - den.log2 - p)) := by gcongr
  · calc (num : ℚ) * 2 ^ (-((num.log2 : ℤ) - den.log2 - p))
        < 2 ^ (num.log2 + 1 : ℤ) * 2 ^ (-((num.log2 : ℤ) - den.log2 - p)) := by gcongr
      _ = 2 ^ (p + 1) * 2 ^ (den.log2 : ℤ) := by
        rw [← zpow_add₀ two_ne_zero, ← zpow_add₀ two_ne_zero]
        congr 1
        ring
      _ ≤ 2 ^ (p + 1) * den := by gcongr

/-- An exponent leaves room for the mantissa, and is the least one if the mantissa is not full. -/
theorem exponentOf_bounds (f : Format) {num den : Nat} (hnum : 0 < num) (hden : 0 < den) :
    f.least ≤ exponentOf f num den ∧
      (num / den * 2 ^ (-exponentOf f num den) : ℚ) < 2 ^ (f.precision : ℤ) ∧
        (exponentOf f num den = f.least ∨
          (2 : ℚ) ^ ((f.precision : ℤ) - 1) ≤ num / den * 2 ^ (-exponentOf f num den)) := by
  have hratio : (0 : ℚ) < num / den := by positivity
  obtain ⟨hlower, hupper⟩ := guess_bounds hnum hden f.precision
  -- the exponent before it is raised to the least one
  obtain ⟨e, he, hfull, hroom⟩ : ∃ e, exponentOf f num den = max f.least e ∧
      (2 : ℚ) ^ ((f.precision : ℤ) - 1) ≤ num / den * 2 ^ (-e) ∧
        (num / den * 2 ^ (-e) : ℚ) < 2 ^ (f.precision : ℤ) := by
    set guess : ℤ := (num.log2 : ℤ) - den.log2 - f.precision with hguess
    have hpos := (scaled_pos hnum hden (-guess)).2
    have hiff : (scaled num den (-guess)).1 < 2 ^ f.precision * (scaled num den (-guess)).2 ↔
        (num / den * 2 ^ (-guess) : ℚ) < 2 ^ (f.precision : ℤ) := by
      rw [← div_scaled, div_lt_iff₀ (by exact_mod_cast hpos), zpow_natCast]
      exact_mod_cast Iff.rfl
    by_cases hlt : (num / den * 2 ^ (-guess) : ℚ) < 2 ^ (f.precision : ℤ)
    · refine ⟨guess, ?_, hlower.le, hlt⟩
      simp only [exponentOf, Nat.pow_eq, ← hguess, if_pos (hiff.mpr hlt)]
    · have hhalf : (num / den * 2 ^ (-(guess + 1)) : ℚ) = num / den * 2 ^ (-guess) / 2 := by
        rw [neg_add, zpow_add₀ two_ne_zero, zpow_neg_one]
        ring
      refine ⟨guess + 1, ?_, ?_, ?_⟩
      · simp only [exponentOf, Nat.pow_eq, ← hguess, if_neg (mt hiff.mp hlt)]
      · rw [hhalf, zpow_sub_one₀ two_ne_zero]
        linarith [not_lt.mp hlt]
      · rw [hhalf]
        rw [zpow_add_one₀ two_ne_zero] at hupper
        linarith
  rw [he]
  refine ⟨le_max_left .., ?_, ?_⟩
  · refine lt_of_le_of_lt ?_ hroom
    gcongr
    · norm_num
    · exact le_max_right ..
  · rcases max_choice f.least e with h | h
    · exact .inl h
    · exact .inr (by rwa [h])

/-- A number that the format has, but for its greatest exponent, is not changed by rounding. The
mantissa is full or the exponent is the least one. -/
theorem round_exact {f : Format} (negative : Bool) {m k : Nat} {e j : Int} (hm : 0 < m)
    (hk : k < 2 ^ f.precision) (hj : f.least ≤ j) (hvalue : (m * 2 ^ e : ℚ) = k * 2 ^ j) :
    ∃ (k' : Nat) (e' : Int), (k' * 2 ^ e' : ℚ) = m * 2 ^ e ∧
      (e' = f.least ∨ (2 : ℚ) ^ ((f.precision : ℤ) - 1) ≤ k') ∧
        round f negative m 1 e =
          if e' > f.greatest then .infinite negative else .finite negative k' e' := by
  obtain ⟨hnum, hden⟩ := scaled_pos hm Nat.one_pos e
  have hratio : ((scaled m 1 e).1 / (scaled m 1 e).2 : ℚ) = k * 2 ^ j := by
    rw [div_scaled, Nat.cast_one, div_one, hvalue]
  obtain ⟨-, hroom, hfull⟩ := exponentOf_bounds f hnum hden
  set e' := exponentOf f (scaled m 1 e).1 (scaled m 1 e).2 with he'
  have hshift : (k * 2 ^ j * 2 ^ (-e') : ℚ) = k * 2 ^ (j - e') := by
    rw [mul_assoc, ← zpow_add₀ two_ne_zero, sub_eq_add_neg]
  rw [hratio, hshift] at hroom hfull
  have hkbound : (k : ℚ) < 2 ^ (f.precision : ℤ) := by
    rw [zpow_natCast]
    exact_mod_cast hk
  have hle : e' ≤ j := by
    rcases hfull with h | h
    · exact h ▸ hj
    · by_contra hlt
      have hhalf : (2 : ℚ) ^ (j - e') ≤ 2 ^ (-1 : ℤ) :=
        zpow_le_zpow_right₀ one_le_two (by omega)
      have hsmall : (k : ℚ) * 2 ^ (j - e') < 2 ^ ((f.precision : ℤ) - 1) :=
        calc (k : ℚ) * 2 ^ (j - e') ≤ k * 2 ^ (-1 : ℤ) := by gcongr
          _ < 2 ^ (f.precision : ℤ) * 2 ^ (-1 : ℤ) := by gcongr
          _ = 2 ^ ((f.precision : ℤ) - 1) := by rw [← zpow_add₀ two_ne_zero, sub_eq_add_neg]
      exact absurd h hsmall.not_ge
  obtain ⟨k', hk'⟩ : ∃ k' : Nat, (k' : ℚ) = k * 2 ^ (j - e') := by
    refine ⟨k * 2 ^ (j - e').toNat, ?_⟩
    have hto : (j - e') = ((j - e').toNat : ℤ) := (Int.toNat_of_nonneg (by omega)).symm
    rw [hto, zpow_natCast]
    push_cast
    rfl
  have hpow : (2 : ℚ) ^ (-e') * 2 ^ e' = 1 := by
    rw [← zpow_add₀ two_ne_zero, neg_add_cancel, zpow_zero]
  refine ⟨k', e', ?_, hk' ▸ hfull, ?_⟩
  · rw [hk', ← hshift, mul_assoc _ ((2 : ℚ) ^ (-e')), hpow, mul_one, hvalue]
  · obtain ⟨-, hd⟩ := scaled_pos hnum hden (-e')
    have hn : (scaled (scaled m 1 e).1 (scaled m 1 e).2 (-e')).1 =
        k' * (scaled (scaled m 1 e).1 (scaled m 1 e).2 (-e')).2 := by
      have hd' : ((scaled (scaled m 1 e).1 (scaled m 1 e).2 (-e')).2 : ℚ) ≠ 0 := by
        exact_mod_cast hd.ne'
      have hdiv := div_scaled (scaled m 1 e).1 (scaled m 1 e).2 (-e')
      rw [hratio, hshift, ← hk', div_eq_iff hd'] at hdiv
      exact_mod_cast hdiv
    have hk'bound : k' ≠ 2 ^ f.precision := by
      rw [← hk', zpow_natCast] at hroom
      exact_mod_cast hroom.ne
    simp only [round, if_neg hm.ne', ← he', hn, roundEven_mul k' hd, Nat.pow_eq,
      if_neg hk'bound]

theorem toNat_toUInt32 (m : Nat) (e : Int) :
    (Binary.finite false m e).toUInt32.toNat =
      min ⌊(m * 2 ^ e + 1 / 2 : ℚ)⌋₊ (UInt32.size - 1) := by
  have hden : 0 < (scaled m 1 e).2 := Nat.mul_pos Nat.one_pos (Nat.pow_pos Nat.two_pos)
  have hfloor : roundUp (scaled m 1 e).1 (scaled m 1 e).2 = ⌊(m * 2 ^ e + 1 / 2 : ℚ)⌋₊ := by
    rw [roundUp_eq_floor _ hden, div_scaled, Nat.cast_one, div_one]
  simp only [toUInt32, hfloor]
  exact UInt32.toNat_ofNat_of_lt' (lt_of_le_of_lt (min_le_right ..) (by decide))

end Binary

end Number

/-! ### Half points -/

namespace Points

/-- The half points of a size are the whole number nearest to twice the size, a tie going up, as far
as a word reaches. -/
theorem toNat_halves {p : Points} (h : p.IsIn single) (hpos : p.isPositive) {x : ℚ}
    (hx : p.value? = some x) :
    p.halves.toNat = min ⌊2 * x + 1 / 2⌋₊ (UInt32.size - 1) := by
  cases p with
  | infinite negative => cases hx
  | finite negative m e =>
    obtain ⟨rfl, hm⟩ : negative = false ∧ m ≠ 0 := by simpa [isPositive] using hpos
    obtain rfl : (m * 2 ^ e : ℚ) = x := by simpa [Binary.value?] using hx
    have htwo : Binary.ofNat single false 2 = .finite false (2 ^ 23) (-22) := by decide
    have hpow : (2 : ℚ) ^ (e + 1) = 2 ^ 23 * 2 ^ (e + -22) := by
      rw [← zpow_natCast, ← zpow_add₀ two_ne_zero]
      congr 1
      omega
    have hproduct : ((m * 2 ^ 23 : ℕ) * 2 ^ (e + -22) : ℚ) = m * 2 ^ (e + 1) := by
      rw [hpow, Nat.cast_mul, Nat.cast_pow, Nat.cast_ofNat, mul_assoc]
    have hdouble : (m * 2 ^ (e + 1) : ℚ) = 2 * (m * 2 ^ e) := by
      rw [zpow_add_one₀ two_ne_zero]
      ring
    obtain ⟨k, e', hk, hfull, hround⟩ := Binary.round_exact (f := single) false
      (Nat.mul_pos (Nat.pos_of_ne_zero hm) (Nat.two_pow_pos 23)) h.1
      (Int.le_add_one h.2.1) hproduct
    have hhalves : halves (.finite false m e) =
        (Binary.round single false (m * 2 ^ 23) 1 (e + -22)).toUInt32 := by
      rw [halves, times, htwo]
      rfl
    rw [hproduct, hdouble] at hk
    rw [hhalves, hround]
    split
    · next hgreat =>
      -- beyond the format the size is beyond a word, too
      have hk' : (2 : ℚ) ^ (23 : ℤ) ≤ k := hfull.resolve_left fun hleast => by
        rw [hleast] at hgreat
        exact absurd hgreat (by decide)
      have he' : (2 : ℚ) ^ (9 : ℤ) ≤ 2 ^ e' :=
        zpow_le_zpow_right₀ one_le_two (le_trans (by decide) hgreat.le)
      have hlarge : ((UInt32.size - 1 : ℕ) : ℚ) ≤ 2 * (m * 2 ^ e) + 1 / 2 := by
        calc ((UInt32.size - 1 : ℕ) : ℚ) ≤ 2 ^ (23 : ℤ) * 2 ^ (9 : ℤ) := by norm_num [UInt32.size]
          _ ≤ k * 2 ^ e' := by gcongr
          _ ≤ 2 * (m * 2 ^ e) + 1 / 2 := by rw [hk]; linarith
      rw [min_eq_right (Nat.le_floor hlarge)]
      decide
    · rw [Binary.toNat_toUInt32, hk]

theorem isPositive_iff {p : Points} {x : ℚ} (hx : p.value? = some x) : p.isPositive ↔ 0 < x := by
  cases p with
  | infinite negative => cases hx
  | finite negative m e =>
    have hpow : (0 : ℚ) < 2 ^ e := by positivity
    cases negative with
    | false =>
      obtain rfl : (m * 2 ^ e : ℚ) = x := by simpa [Binary.value?] using hx
      simp [isPositive, mul_pos_iff_of_pos_right hpow, Nat.pos_iff_ne_zero]
    | true =>
      obtain rfl : (-m * 2 ^ e : ℚ) = x := by simpa [Binary.value?] using hx
      have hm : (0 : ℚ) ≤ m := Nat.cast_nonneg m
      simp [isPositive, mul_nonneg hm hpow.le]

/-- Sizes below a quarter of a point have no half points. -/
theorem halves_eq_zero_iff {p : Points} (h : p.IsIn single) (hpos : p.isPositive) :
    p.halves = 0 ↔ ∃ x ∈ p.value?, x < 1 / 4 := by
  cases hvalue : p.value? with
  | none =>
    cases p with
    | finite negative m e => cases hvalue
    | infinite negative =>
      obtain rfl : negative = false := by simpa [isPositive] using hpos
      exact iff_of_false (by decide) (by simp)
  | some x =>
    have hx := (isPositive_iff hvalue).mp hpos
    have hfloor : p.halves = 0 ↔ ⌊2 * x + 1 / 2⌋₊ = 0 := by
      rw [← UInt32.toNat_inj, toNat_halves h hpos hvalue, UInt32.toNat_zero]
      have hsize : UInt32.size - 1 ≠ 0 := by decide
      omega
    rw [hfloor, Nat.floor_eq_zero]
    constructor
    · exact fun h => ⟨x, rfl, by linarith⟩
    · rintro ⟨y, hy, hlt⟩
      obtain rfl := Option.mem_some_iff.mp hy
      linarith

end Points

end Letterpress
