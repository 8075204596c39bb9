import Mathlib.Algebra.Order.Field.Rat
import Mathlib.Order.Monotone.Basic
import Mathlib.Tactic.FieldSimp
import Mathlib.Tactic.Linarith
import Mathlib.Tactic.Positivity
import Mathlib.Tactic.Ring
import ScopedScript.Number.Shortest

/-!
# Shortest decimals round to their numbers

The numbers that round to a finite double form an interval.  The intervals of two neighbours share
an end, and the end belongs to the one with the even significand, so that no number rounds to two
doubles.  The search for the shortest decimal ends inside of the interval, since the exact
expansion is reached before its bound.

## Main definitions

* `Decimal.value`: what a decimal stands for.
* `Dyadic.Rounds`: a number rounds to a binary number.
* `Dyadic.ofIndex`: the doubles from zero on, in order.

## Main results

* `Dyadic.rounds_shortest`: the shortest decimal rounds to the number.
* `Dyadic.index_unique`: a number rounds to one double only.
-/

namespace ScopedScript

/-- **What a decimal stands for.** -/
def Decimal.value (d : Decimal) : ℚ := d.coefficient * 10 ^ d.exponent

namespace Dyadic

variable {d : Dyadic}

/-! ## Rounding intervals -/

/-- A quarter of the unit of the last place. -/
def quarter (d : Dyadic) : ℚ := 2 ^ (d.exponent - 2)

theorem quarter_pos (d : Dyadic) : 0 < d.quarter := by
  exact zpow_pos (by norm_num) _

/-- **The number rounds to the binary number**: it lies in the interval, whose ends belong to it
when the significand is even. -/
def Rounds (d : Dyadic) (x : ℚ) : Prop :=
  if d.significand % 2 = 0 then
    d.lowQuarters * d.quarter ≤ x ∧ x ≤ d.highQuarters * d.quarter
  else d.lowQuarters * d.quarter < x ∧ x < d.highQuarters * d.quarter

/-- An integer power as a fraction of natural numbers. -/
theorem zpow_eq_div (base : ℕ) (hb : 0 < base) (n : ℤ) :
    (base : ℚ) ^ n = (Nat.pow base n.toNat : ℕ) / (Nat.pow base (-n).toNat : ℕ) := by
  have hb : (base : ℚ) ≠ 0 := by positivity
  rcases Int.le_total 0 n with hn | hn
  · rw [Int.toNat_of_nonpos (by omega : -n ≤ 0)]
    obtain ⟨m, rfl⟩ := Int.eq_ofNat_of_zero_le hn
    simp
  · rw [Int.toNat_of_nonpos hn]
    obtain ⟨m, hm⟩ := Int.eq_ofNat_of_zero_le (by omega : 0 ≤ -n)
    obtain rfl : n = -m := by omega
    simp

theorem quarter_eq (d : Dyadic) : d.quarter = d.quarterNum / d.quarterDen := by
  rw [quarter, ← Nat.cast_two, zpow_eq_div 2 (by decide), quarterNum, quarterDen, neg_sub]

theorem quarterDen_pos (d : Dyadic) : 0 < d.quarterDen := Nat.pow_pos (by decide)

theorem quarterNum_pos (d : Dyadic) : 0 < d.quarterNum := Nat.pow_pos (by decide)

theorem admits_iff {num den : ℕ} (hd : 0 < den) :
    d.admits num den = true ↔ d.Rounds (num / den) := by
  have hq : (0 : ℚ) < d.quarterDen := Nat.cast_pos.2 d.quarterDen_pos
  have hd : (0 : ℚ) < den := Nat.cast_pos.2 hd
  -- an end of the interval is compared with the fraction by multiplying out
  have hlow (a : ℕ) :
      a * d.quarterNum * den ≤ num * d.quarterDen ↔ a * d.quarter ≤ (num : ℚ) / den := by
    rw [quarter_eq, ← mul_div_assoc, div_le_div_iff₀ hq hd]
    norm_cast
  have hhigh (a : ℕ) :
      num * d.quarterDen ≤ a * d.quarterNum * den ↔ (num : ℚ) / den ≤ a * d.quarter := by
    rw [quarter_eq, ← mul_div_assoc, div_le_div_iff₀ hd hq]
    norm_cast
  simp only [admits, Rounds]
  split
  · rw [Bool.and_eq_true, decide_eq_true_iff, decide_eq_true_iff, hlow, hhigh]
  · rw [Bool.and_eq_true, decide_eq_true_iff, decide_eq_true_iff, ← Nat.not_le, ← Nat.not_le,
      hlow, hhigh, not_le, not_le]

/-- The number itself lies inside of the interval. -/
theorem rounds_self (hs : 0 < d.significand) : d.Rounds (d.quarters * d.quarter) := by
  have hlow : (d.lowQuarters : ℚ) * d.quarter < d.quarters * d.quarter := by
    refine mul_lt_mul_of_pos_right (Nat.cast_lt.2 ?_) d.quarter_pos
    unfold lowQuarters quarters
    split <;> omega
  have hhigh : (d.quarters : ℚ) * d.quarter < d.highQuarters * d.quarter := by
    refine mul_lt_mul_of_pos_right (Nat.cast_lt.2 ?_) d.quarter_pos
    unfold highQuarters
    omega
  unfold Rounds
  split
  · exact ⟨hlow.le, hhigh.le⟩
  · exact ⟨hlow, hhigh⟩

/-! ## The search -/

theorem admits_of_onGrid? {place : ℤ} {decimal : Decimal} (h : d.onGrid? place = some decimal) :
    decimal.exponent = place ∧
      d.admits (decimal.coefficient * Nat.pow 10 place.toNat)
        (Nat.pow 10 (-place).toNat) = true := by
  simp only [onGrid?] at h
  split at h
  · next hb =>
    rw [Bool.and_eq_true] at hb
    split at h <;> cases h
    · exact ⟨rfl, hb.1⟩
    · exact ⟨rfl, hb.2⟩
  · split at h
    · next hb =>
      cases h
      exact ⟨rfl, hb⟩
    · split at h
      · next ha =>
        cases h
        exact ⟨rfl, ha⟩
      · cases h

/-- **A decimal that is found on a grid rounds to the number.** -/
theorem rounds_of_onGrid? {place : ℤ} {decimal : Decimal} (h : d.onGrid? place = some decimal) :
    d.Rounds decimal.value := by
  obtain ⟨he, ha⟩ := admits_of_onGrid? h
  have hdown : 0 < Nat.pow 10 (-place).toNat := Nat.pow_pos (by decide)
  have ha := (admits_iff hdown).1 ha
  have hp := zpow_eq_div 10 (by decide) place
  rw [Nat.cast_ofNat] at hp
  rwa [Nat.cast_mul, mul_div_assoc, ← hp, ← he] at ha

/-- The power of two in the denominator is made up for by a power of ten. -/
theorem quarterDen_dvd {place : ℤ} (he : place ≤ d.exponent) (h0 : place ≤ 0) :
    d.quarterDen ∣ d.quarters * d.quarterNum * Nat.pow 10 (-place).toNat := by
  have hpow : Nat.pow 2 (2 - d.exponent).toNat ∣ 4 * Nat.pow 10 (-place).toNat := by
    have hle : (2 - d.exponent).toNat ≤ 2 + (-place).toNat := by omega
    refine (Nat.pow_dvd_pow 2 hle).trans ?_
    rw [Nat.pow_add]
    exact Nat.mul_dvd_mul_left 4 (pow_dvd_pow_of_dvd (by decide) _)
  obtain ⟨c, hc⟩ := hpow
  refine ⟨d.significand * d.quarterNum * c, ?_⟩
  calc d.quarters * d.quarterNum * Nat.pow 10 (-place).toNat
      = d.significand * d.quarterNum * (4 * Nat.pow 10 (-place).toNat) := by
        rw [quarters]
        ring
    _ = d.quarterDen * (d.significand * d.quarterNum * c) := by
      rw [hc, quarterDen, Nat.mul_left_comm]

/-- Where the grid is as fine as the number, the number lies on it. -/
theorem onGrid?_isSome (hs : 0 < d.significand) {place : ℤ} (he : place ≤ d.exponent)
    (h0 : place ≤ 0) : (d.onGrid? place).isSome = true := by
  have hup : Nat.pow 10 place.toNat = 1 := by rw [Int.toNat_of_nonpos h0]
  obtain ⟨below, hb⟩ := quarterDen_dvd he h0
  have hdown : 0 < Nat.pow 10 (-place).toNat := Nat.pow_pos (by decide)
  have hfits : d.admits below (Nat.pow 10 (-place).toNat) = true := by
    rw [admits_iff hdown]
    have hval : (below : ℚ) / (Nat.pow 10 (-place).toNat : ℕ) = d.quarters * d.quarter := by
      have hq : (d.quarterDen : ℚ) ≠ 0 := Nat.cast_ne_zero.2 d.quarterDen_pos.ne'
      have hd : ((Nat.pow 10 (-place).toNat : ℕ) : ℚ) ≠ 0 := Nat.cast_ne_zero.2 hdown.ne'
      rw [quarter_eq, ← mul_div_assoc, div_eq_div_iff hd hq]
      exact_mod_cast (Nat.mul_comm ..).trans hb.symm
    rw [hval]
    exact rounds_self hs
  simp only [onGrid?, hup, hb, Nat.mul_one, Nat.mul_div_cancel_left _ d.quarterDen_pos, hfits]
  split
  · split <;> rfl
  · rfl

/-- The search finds a decimal if it comes to a grid on which there is one. -/
theorem rounds_search {place grid : ℤ} {fuel : ℕ} (hg : (d.onGrid? grid).isSome = true)
    (hle : grid ≤ place) (hf : place - grid < fuel) : d.Rounds (d.search place fuel).value := by
  induction fuel generalizing place with
  | zero => omega
  | succ fuel ih =>
    rw [search]
    split
    · next decimal h => exact rounds_of_onGrid? h
    · next h =>
      have hne : grid ≠ place := by
        rintro rfl
        rw [h] at hg
        cases hg
      exact ih (by omega) (by omega)

/-- Ten is more than the third power of two. -/
theorem two_pow_le_ten_pow {m n : ℕ} (h : m ≤ 3 * n) : 2 ^ m ≤ 10 ^ n :=
  calc 2 ^ m ≤ 2 ^ (3 * n) := Nat.pow_le_pow_right (by decide) h
    _ = (2 ^ 3) ^ n := Nat.pow_mul ..
    _ ≤ 10 ^ n := Nat.pow_le_pow_left (by decide) n

/-- A number that is not too large has a leading digit that is not too far out. -/
theorem leadingExponent_lt (hs : d.significand < 2 ^ 53) {n : ℕ} (hn : 0 < n)
    (he : d.exponent + 55 ≤ 3 * n) (hn' : 55 ≤ 3 * n) : d.leadingExponent < n := by
  have hnum : d.quarters * d.quarterNum < 10 ^ n := by
    have hq : d.quarters < 2 ^ 55 := by
      unfold quarters
      omega
    calc d.quarters * d.quarterNum < 2 ^ 55 * 2 ^ (d.exponent - 2).toNat :=
          Nat.mul_lt_mul_of_pos_right hq d.quarterNum_pos
      _ = 2 ^ (55 + (d.exponent - 2).toNat) := by rw [Nat.pow_add]
      _ ≤ 10 ^ n := two_pow_le_ten_pow (by omega)
  simp only [leadingExponent]
  split
  · have hdiv := Nat.lt_of_le_of_lt (Nat.div_le_self (d.quarters * d.quarterNum) d.quarterDen) hnum
    have hlen := (Nat.length_toDigits_le_iff (by decide) hn).2 hdiv
    omega
  · omega

/-- **The shortest decimal rounds to the number.** -/
theorem rounds_shortest (hs : 0 < d.significand) (hs' : d.significand < 2 ^ 53)
    (he : -1074 ≤ d.exponent) (he' : d.exponent ≤ 971) : d.Rounds d.shortest.value := by
  have hl := leadingExponent_lt hs' (n := 342) (by omega) (by omega) (by omega)
  -- the exact expansion is on any grid that is fine enough
  have hg : (d.onGrid? (min d.leadingExponent (min d.exponent 0))).isSome = true :=
    onGrid?_isSome hs (by omega) (by omega)
  exact rounds_search hg (by omega) (by omega)

/-! ## Neighbours -/

/-- **The doubles from zero on**, in order: the number of a double is the one that its bits
spell. -/
def ofIndex (k : ℕ) : Dyadic := ofFields (k / 2 ^ 52) (k % 2 ^ 52)

/-- The lower end of the interval of a double. -/
def low (k : ℕ) : ℚ := (ofIndex k).lowQuarters * (ofIndex k).quarter

theorem ofFields_zero (fraction : ℕ) : ofFields 0 fraction = ⟨fraction, -1074, false⟩ := rfl

theorem ofFields_succ (field fraction : ℕ) : ofFields (field + 1) fraction =
    ⟨2 ^ 52 + fraction, (field : ℤ) - 1074, fraction = 0 && 0 < field⟩ := by
  rw [ofFields, if_neg (by omega)]
  congr 1
  · push_cast
    ring
  · simp

/-- **The upper end of an interval is the lower end of the next.** -/
theorem high_eq_low_succ (k : ℕ) :
    ((ofIndex k).highQuarters : ℚ) * (ofIndex k).quarter = low (k + 1) := by
  unfold low ofIndex
  by_cases hr : k % 2 ^ 52 + 1 < 2 ^ 52
  · -- the next double has the same exponent, and its significand is the next one
    obtain ⟨hd, hm⟩ : (k + 1) / 2 ^ 52 = k / 2 ^ 52 ∧ (k + 1) % 2 ^ 52 = k % 2 ^ 52 + 1 := by omega
    rw [hd, hm]
    cases k / 2 ^ 52 with
    | zero => rfl
    | succ f =>
      have hq : (ofFields (f + 1) (k % 2 ^ 52)).highQuarters =
          (ofFields (f + 1) (k % 2 ^ 52 + 1)).lowQuarters := by
        simp only [ofFields_succ, highQuarters, lowQuarters, quarters, Nat.add_eq_zero_iff,
          one_ne_zero, and_false, decide_false, Bool.false_and, Bool.false_eq_true, if_false]
        omega
      rw [hq]
      simp only [ofFields_succ, quarter]
  · -- the next double begins a new exponent
    obtain ⟨hd, hm, hr⟩ : (k + 1) / 2 ^ 52 = k / 2 ^ 52 + 1 ∧ (k + 1) % 2 ^ 52 = 0 ∧
        k % 2 ^ 52 = 2 ^ 52 - 1 := by omega
    rw [hd, hm, hr]
    cases k / 2 ^ 52 with
    | zero => rfl
    | succ f =>
      have hq : (2 : ℚ) ^ (((f + 1 : ℕ) : ℤ) - 1074 - 2) = 2 * 2 ^ ((f : ℤ) - 1074 - 2) := by
        rw [← zpow_one_add₀ (by norm_num)]
        congr 1
        push_cast
        ring
      simp only [ofFields_succ, highQuarters, lowQuarters, quarters, quarter, hq,
        Nat.zero_lt_succ, decide_true, Bool.and_self, if_true]
      norm_num
      ring

theorem low_strictMono : StrictMono low := by
  refine strictMono_nat_of_lt_succ fun k => ?_
  rw [← high_eq_low_succ]
  refine mul_lt_mul_of_pos_right (Nat.cast_lt.2 ?_) (quarter_pos _)
  unfold lowQuarters highQuarters
  split <;> omega

theorem significand_parity (k : ℕ) : (ofIndex k).significand % 2 = k % 2 := by
  have hk := Nat.div_add_mod k (2 ^ 52)
  unfold ofIndex
  rcases hf : k / 2 ^ 52 with _ | f
  · change k % 2 ^ 52 % 2 = k % 2
    omega
  · rw [ofFields_succ]
    change (2 ^ 52 + k % 2 ^ 52) % 2 = k % 2
    omega

/-- A number that rounds to a double lies between two ends, and an end belongs to the even
doubles. -/
theorem rounds_le {x : ℚ} {k : ℕ} (h : (ofIndex k).Rounds x) :
    low k ≤ x ∧ x ≤ low (k + 1) ∧ ((x = low k ∨ x = low (k + 1)) → k % 2 = 0) := by
  unfold Rounds at h
  rw [high_eq_low_succ, significand_parity] at h
  change if k % 2 = 0 then low k ≤ x ∧ _ else low k < x ∧ _ at h
  split at h
  · next hk => exact ⟨h.1, h.2, fun _ => hk⟩
  · refine ⟨h.1.le, h.2.le, fun he => ?_⟩
    rcases he with he | he
    · exact absurd he h.1.ne'
    · exact absurd he h.2.ne

/-- **A number rounds to one double only.** -/
theorem index_unique {x : ℚ} {k m : ℕ} (hk : (ofIndex k).Rounds x) (hm : (ofIndex m).Rounds x) :
    k = m := by
  wlog hlt : k < m generalizing k m
  · rcases Nat.lt_or_ge m k with h | h
    · exact (this hm hk h).symm
    · omega
  obtain ⟨-, hle, hek⟩ := rounds_le hk
  obtain ⟨hge, -, hem⟩ := rounds_le hm
  -- the two intervals have at most an end in common, and then they are neighbours
  have hmono : low (k + 1) ≤ low m := low_strictMono.monotone hlt
  have hx : x = low (k + 1) := le_antisymm hle (hmono.trans hge)
  have hx' : x = low m := le_antisymm (hle.trans hmono) hge
  have hkm : k + 1 = m := low_strictMono.injective (hx.symm.trans hx')
  have := hek (.inr hx)
  have := hem (.inl hx')
  omega

end Dyadic

end ScopedScript
