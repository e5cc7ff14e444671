import DiamondScript.Number.Shortest
import Mathlib.Algebra.Order.Field.Power
import Mathlib.Data.Rat.Cast.Order
import Mathlib.Tactic.FieldSimp
import Mathlib.Tactic.Order
import Mathlib.Tactic.Positivity
import Mathlib.Tactic.Ring

namespace DiamondScript

def Decimal.value (d : Decimal) : ℚ := d.coefficient * (10 : ℚ) ^ d.exponent

theorem zpow_eq_div {b : ℚ} (hb : b ≠ 0) (e : ℤ) : b ^ e = b ^ e.toNat / b ^ (-e).toNat := by
  rw [eq_div_iff (pow_ne_zero _ hb), ← zpow_natCast, ← zpow_natCast, ← zpow_add₀ hb]
  congr 1
  omega

namespace Shortest

/-- The numbers between the ends, which count when the interval is closed. -/
def Interval.Within (i : Interval) (v : ℚ) : Prop :=
  if i.closed then (i.low : ℚ) / i.den ≤ v ∧ v ≤ (i.high : ℚ) / i.den
  else (i.low : ℚ) / i.den < v ∧ v < (i.high : ℚ) / i.den

theorem Interval.contains_iff {i : Interval} (hden : 0 < i.den) (d : Decimal) :
    i.contains d ↔ i.Within d.value := by
  have hden' : (0 : ℚ) < i.den := Nat.cast_pos.mpr hden
  have hunit : (0 : ℚ) < 10 ^ (-d.exponent).toNat := by positivity
  have hvalue : d.value =
      d.coefficient * 10 ^ d.exponent.toNat / 10 ^ (-d.exponent).toNat := by
    rw [Decimal.value, zpow_eq_div (by norm_num), mul_div_assoc]
  have hpow (k : ℕ) : Nat.pow 10 k = 10 ^ k := rfl
  rw [contains, Within, hvalue, div_le_div_iff₀ hden' hunit, div_le_div_iff₀ hunit hden',
    div_lt_div_iff₀ hden' hunit, div_lt_div_iff₀ hunit hden', hpow, hpow]
  split <;> rw [Bool.and_eq_true, decide_eq_true_eq, decide_eq_true_eq] <;> norm_cast

theorem contains_of_onGrid {tie : Tie} {i : Interval} {g : ℤ} {d : Decimal}
    (h : onGrid tie i g = some d) : i.contains d := by
  unfold onGrid at h
  extract_lets num den below above at h
  cases hb : i.contains below <;> cases ha : i.contains above <;> rw [hb, ha] at h
  · cases h
  · exact Option.some.inj h ▸ ha
  · exact Option.some.inj h ▸ hb
  · have heither : below = d ∨ above = d := by
      dsimp only at h
      split at h
      · exact .inl (Option.some.inj h)
      · exact .inr (Option.some.inj h)
      · exact .inr (Option.some.inj h)
      · rw [Option.some.injEq] at h
        split at h
        · exact .inl h
        · exact .inr h
    rcases heither with h | h
    · exact h ▸ hb
    · exact h ▸ ha

theorem value_trim (n : ℕ) (d : Decimal) : (trim n d).value = d.value := by
  induction n generalizing d with
  | zero => rfl
  | succ n ih =>
      rw [trim]
      by_cases hd : d.coefficient % 10 = 0
      · obtain ⟨k, hk⟩ := Nat.dvd_of_mod_eq_zero hd
        rw [if_pos hd, ih, Decimal.value, Decimal.value, hk, Nat.mul_div_cancel_left k (by decide),
          zpow_add_one₀ (by norm_num)]
        push_cast
        ring
      · rw [if_neg hd]

end Shortest

namespace Binary64

open Shortest (interval)

variable {x y : Binary64}

/-- How many quarters of the least distance between numbers make one. -/
@[irreducible] def grid : ℚ := 2 ^ 1076

theorem grid_pos : 0 < grid := by
  rw [grid]
  exact pow_pos (by norm_num) 1076

/-- The distance to the next greater number, counted in the least one there is. -/
def unit (x : Binary64) : ℕ := 2 ^ (x.scale + 1074).toNat

def lowEnd (x : Binary64) : ℕ :=
  (4 * x.significand - if x.significand = 2 ^ 52 ∧ x.scale ≠ -1074 then 1 else 2) * x.unit

def highEnd (x : Binary64) : ℕ := (4 * x.significand + 2) * x.unit

theorem neg_le_scale (x : Binary64) : -1074 ≤ x.scale := by
  have hpow : Nat.pow 2 52 = 4503599627370496 := rfl
  rw [scale, hpow]
  split <;> omega

theorem den_interval_pos (x : Binary64) : 0 < (interval x).den := Nat.pow_pos (by decide)

theorem unit_eq (x : Binary64) : (x.unit : ℚ) = 2 ^ (x.scale - 2) * grid := by
  have hscale := x.neg_le_scale
  rw [unit, grid, ← zpow_natCast (2 : ℚ) 1076, ← zpow_add₀ (by norm_num)]
  push_cast
  rw [← zpow_natCast]
  congr 1
  omega

theorem scaled_div_den (x : Binary64) (k : ℕ) :
    ((k * Nat.pow 2 (x.scale - 2).toNat : ℕ) : ℚ) / (interval x).den = (k * x.unit : ℕ) / grid := by
  have hgrid := grid_pos.ne'
  have hden : ((interval x).den : ℚ) = 2 ^ (-(x.scale - 2)).toNat := by
    rw [interval]
    norm_cast
  have hpow : ((Nat.pow 2 (x.scale - 2).toNat : ℕ) : ℚ) = 2 ^ (x.scale - 2).toNat := by
    norm_cast
  rw [Nat.cast_mul, Nat.cast_mul, unit_eq, hpow, hden, mul_div_assoc, ← zpow_eq_div (by norm_num),
    ← mul_assoc, mul_div_cancel_right₀ _ hgrid]

theorem within_iff (x : Binary64) (v : ℚ) :
    (interval x).Within v ↔
      if x.significand % 2 = 0 then (x.lowEnd : ℚ) ≤ v * grid ∧ v * grid ≤ x.highEnd
      else (x.lowEnd : ℚ) < v * grid ∧ v * grid < x.highEnd := by
  have hnarrow : (x.significand == Nat.pow 2 52 && x.scale != -1074) = true ↔
      x.significand = 2 ^ 52 ∧ x.scale ≠ -1074 := by
    rw [Bool.and_eq_true, beq_iff_eq, bne_iff_ne]
    rfl
  have hlow : (interval x).low = (4 * x.significand -
      if x.significand = 2 ^ 52 ∧ x.scale ≠ -1074 then 1 else 2) *
        Nat.pow 2 (x.scale - 2).toNat := by
    rw [← if_congr hnarrow rfl rfl, interval]
  have hhigh : (interval x).high = (4 * x.significand + 2) * Nat.pow 2 (x.scale - 2).toNat := by
    rw [interval]
  have hclosed : (interval x).closed = true ↔ x.significand % 2 = 0 := beq_iff_eq
  rw [Shortest.Interval.Within, hlow, hhigh, scaled_div_den, scaled_div_den, ← lowEnd, ← highEnd,
    if_congr hclosed rfl rfl, div_le_iff₀ grid_pos, le_div_iff₀ grid_pos, div_lt_iff₀ grid_pos,
    lt_div_iff₀ grid_pos]

theorem unit_pos (x : Binary64) : 0 < x.unit := Nat.pow_pos (by decide)

theorem value_exact (x : Binary64) :
    (Decimal.mk (x.significand * Nat.pow 2 x.scale.toNat * Nat.pow 5 (-x.scale).toNat)
      (min x.scale 0)).value * grid = (4 * x.significand * x.unit : ℕ) := by
  have hten : (10 : ℚ) ^ min x.scale 0 = 1 / (2 ^ (-x.scale).toNat * 5 ^ (-x.scale).toNat) := by
    rw [← mul_pow, show min x.scale 0 = -((-x.scale).toNat : ℤ) by omega, zpow_neg, zpow_natCast]
    norm_num
  have hpow (b k : ℕ) : ((Nat.pow b k : ℕ) : ℚ) = (b : ℚ) ^ k := Nat.cast_pow b k
  have htwo := zpow_eq_div (b := 2) (by norm_num) x.scale
  have hquarter : (2 : ℚ) ^ (x.scale - 2) = 2 ^ x.scale / 4 := by
    rw [zpow_sub₀ (by norm_num)]
    norm_num
  rw [Decimal.value, hten, Nat.cast_mul (4 * x.significand), unit_eq, hquarter, htwo]
  push_cast [hpow]
  field_simp

/-- The decimal that is chosen for a number reads back to it. -/
theorem within_shortest (tie : Tie) (x : Binary64) :
    (interval x).Within (shortest tie x).value := by
  rw [shortest]
  split
  · next d hd =>
      obtain ⟨n, -, hgrid⟩ := List.exists_of_findSome?_eq_some hd
      have hcontains := Shortest.contains_of_onGrid hgrid
      rw [Shortest.value_trim]
      exact (Shortest.Interval.contains_iff x.den_interval_pos d).mp hcontains
  · have hlow : x.lowEnd ≤ 4 * x.significand * x.unit :=
      Nat.mul_le_mul_right _ (Nat.sub_le _ _)
    have hhigh : 4 * x.significand * x.unit < x.highEnd :=
      Nat.mul_lt_mul_of_pos_right (by omega) x.unit_pos
    rw [within_iff, value_exact, Nat.cast_le, Nat.cast_le, Nat.cast_lt, Nat.cast_lt]
    split
    · exact ⟨hlow, hhigh.le⟩
    · have hlow' : x.lowEnd < 4 * x.significand * x.unit := by
        apply Nat.mul_lt_mul_of_pos_right _ x.unit_pos
        split <;> omega
      exact ⟨hlow', hhigh⟩

/-- A finite number is subnormal, or its pattern has an exponent field from one on and a fraction.
The gap below it is narrow where a new exponent begins, but not at the first. -/
theorem fields_cases (x : Binary64) :
    (x.magnitude.toNat < 2 ^ 52 ∧ x.significand = x.magnitude.toNat ∧ x.unit = 1 ∧
      x.lowEnd = 4 * x.significand - 2) ∨
    ∃ e f, x.magnitude.toNat = (e + 1) * 2 ^ 52 + f ∧ f < 2 ^ 52 ∧
      x.significand = 2 ^ 52 + f ∧ x.unit = 2 ^ e ∧
        x.lowEnd = (4 * x.significand - if f = 0 ∧ e ≠ 0 then 1 else 2) * x.unit := by
  have hpow : Nat.pow 2 52 = 2 ^ 52 := rfl
  by_cases hn : x.magnitude.toNat < 2 ^ 52
  · left
    have hsignificand : x.significand = x.magnitude.toNat := by
      rw [significand, hpow, if_pos hn]
    have hscale : x.scale = -1074 := by
      rw [scale, hpow, if_pos hn]
    have hunit : x.unit = 1 := by
      rw [unit, hscale]
      rfl
    refine ⟨hn, hsignificand, hunit, ?_⟩
    rw [lowEnd, hunit, Nat.mul_one, if_neg fun h => h.2 hscale]
  · right
    have hsignificand : x.significand = 2 ^ 52 + x.magnitude.toNat % 2 ^ 52 := by
      rw [significand, hpow, if_neg hn]
    have hscale : x.scale = (x.magnitude.toNat / 2 ^ 52 : ℕ) - 1075 := by
      rw [scale, hpow, if_neg hn]
    have hfield : 1 ≤ x.magnitude.toNat / 2 ^ 52 := by omega
    refine ⟨x.magnitude.toNat / 2 ^ 52 - 1, x.magnitude.toNat % 2 ^ 52, by omega,
      Nat.mod_lt _ (by decide), hsignificand, ?_, ?_⟩
    · rw [unit, hscale]
      congr 1
      omega
    · rw [lowEnd]
      congr 2
      apply if_congr _ rfl rfl
      rw [hsignificand, hscale]
      omega

theorem ends_mul {a b u w : ℕ} (hu : 0 < u) (huw : u ≤ w) (hab : a ≤ b) :
    a * u ≤ b * w ∧ (a < b → a * u < b * w) := by
  constructor
  · exact Nat.mul_le_mul hab huw
  · intro hlt
    calc a * u < b * u := Nat.mul_lt_mul_of_pos_right hlt hu
      _ ≤ b * w := Nat.mul_le_mul_left b huw

/-- The intervals of different numbers lie apart, or meet in an end that belongs to one of them at
most. -/
theorem highEnd_lowEnd (h : x.magnitude.toNat < y.magnitude.toNat) :
    x.highEnd ≤ y.lowEnd ∧
      (x.significand % 2 = 0 → y.significand % 2 = 0 → x.highEnd < y.lowEnd) := by
  have hx := x.fields_cases
  have hy := y.fields_cases
  have hp : 2 ≤ 2 ^ 52 ∧ 2 ^ 52 % 2 = 0 := by decide
  -- Only the parity of the hidden bit counts from here on.
  generalize 2 ^ 52 = p at hx hy hp
  rcases hx with ⟨hx, hmx, hux, -⟩ | ⟨e, f, hx, hf, hmx, hux, -⟩ <;>
    rcases hy with ⟨hy, hmy, -, hly⟩ | ⟨e', f', hy, hf', hmy, huy, hly⟩
  · rw [highEnd, hux, hly]
    omega
  · rw [highEnd, hux, hly, hmy, huy]
    by_cases he : e' = 0
    · rw [if_neg fun hnarrow => hnarrow.2 he, he]
      omega
    · have hlow : (4 * p - 1) * 2 ≤ (4 * (p + f') - if f' = 0 ∧ e' ≠ 0 then 1 else 2) * 2 ^ e' := by
        apply Nat.mul_le_mul
        · split <;> omega
        · exact Nat.le_self_pow he 2
      omega
  · have hle : p ≤ (e + 1) * p := Nat.le_mul_of_pos_left p e.succ_pos
    omega
  · rw [highEnd, hux, hly, huy]
    rcases Nat.lt_trichotomy e e' with he | rfl | he
    · -- Twice the unit of the smaller number makes up for the narrow gap below the greater one.
      have hhigh := ends_mul (a := 4 * x.significand + 2) (b := (4 * p - 1) * 2)
        (Nat.two_pow_pos e) le_rfl (by omega)
      have hlow : (4 * p - 1) * 2 ^ (e + 1) ≤
          (4 * y.significand - if f' = 0 ∧ e' ≠ 0 then 1 else 2) * 2 ^ e' := by
        apply Nat.mul_le_mul
        · split <;> omega
        · exact Nat.pow_le_pow_right (by decide) he
      rw [Nat.pow_succ, Nat.mul_comm (2 ^ e), ← Nat.mul_assoc] at hlow
      exact ⟨hhigh.1.trans hlow, fun hxe hye => (hhigh.2 (by omega)).trans_le hlow⟩
    · have hwide : ¬ (f' = 0 ∧ e ≠ 0) := by omega
      have hends := ends_mul (a := 4 * x.significand + 2) (b := 4 * y.significand - 2)
        (Nat.two_pow_pos e) le_rfl (by omega)
      rw [if_neg hwide]
      exact ⟨hends.1, fun hxe hye => hends.2 (by omega)⟩
    · have hle : (e' + 2) * p ≤ (e + 1) * p := Nat.mul_le_mul_right p (by omega)
      rw [show e' + 2 = e' + 1 + 1 from rfl, Nat.succ_mul] at hle
      omega

theorem magnitude_eq_of_within {v : ℚ} (hx : (interval x).Within v) (hy : (interval y).Within v) :
    x.magnitude = y.magnitude := by
  have happart : ∀ {x y : Binary64}, x.magnitude.toNat < y.magnitude.toNat →
      (interval x).Within v → ¬ (interval y).Within v := by
    intro x y h hx hy
    obtain ⟨hle, hlt⟩ := highEnd_lowEnd h
    rw [← Nat.cast_le (α := ℚ)] at hle
    rw [← Nat.cast_lt (α := ℚ)] at hlt
    rw [within_iff] at hx hy
    split at hx <;> split at hy
    · next hxe hye => order [hlt hxe hye, hx.2, hy.1]
    all_goals order [hx.2, hy.1]
  apply BitVec.eq_of_toNat_eq
  rcases Nat.lt_trichotomy x.magnitude.toNat y.magnitude.toNat with h | h | h
  · exact absurd hy (happart h hx)
  · exact h
  · exact absurd hx (happart h hy)

end Binary64

end DiamondScript
