import Mathlib.Data.List.TakeWhile
import ScopedScript.Number.Text
import ScopedScript.Proofs.Number.Shortest
import ScopedScript.Proofs.Scan.Lexical

/-!
# Numbers are told apart by their texts

The text of a finite number spells a decimal that rounds to the number, wherever the point stands
and whether or not there is an exponent.  A decimal rounds to one number only, so that two finite
numbers with one text are the same.

## Main definitions

* `Number.Spells`: the numerals that are written, and the decimals that they spell.

## Main results

* `Number.exists_spells_write`: a decimal is spelled by what is written for it.
* `Number.text_injective`: finite numbers with one text are the same.
-/

namespace ScopedScript.Number

/-! ## Digits -/

theorem ofDigits_append (xs ys : List Char) :
    ofDigits (xs ++ ys) = ofDigits xs * 10 ^ ys.length + ofDigits ys := by
  calc ofDigits (xs ++ ys) = Nat.ofDigitChars 10 ys (ofDigits xs) := Nat.ofDigitChars_append 0
    _ = 10 ^ ys.length * ofDigits xs + ofDigits ys := Nat.ofDigitChars_eq_ofDigitChars_zero
    _ = ofDigits xs * 10 ^ ys.length + ofDigits ys := by rw [Nat.mul_comm]

theorem ofDigits_replicate_zero (n : ℕ) : ofDigits (List.replicate n '0') = 0 :=
  Nat.ofDigitChars_replicate_zero.trans (Nat.mul_zero _)

theorem ofDigits_toDigits (n : ℕ) : ofDigits (Nat.toDigits 10 n) = n :=
  Nat.ofDigitChars_toDigits (by decide) (by decide)

theorem isDigit_of_mem_replicate {n : ℕ} {c : Char} (h : c ∈ List.replicate n '0') :
    c.isDigit = true := by
  rw [List.eq_of_mem_replicate h]
  rfl

/-- Only zeros are left out. -/
theorem exists_toDigits_eq (coefficient : ℕ) :
    ∃ n, Nat.toDigits 10 coefficient = significantDigits coefficient ++ List.replicate n '0' := by
  let zeros := (Nat.toDigits 10 coefficient).reverse.takeWhile (· == '0')
  have hz : zeros = List.replicate zeros.length '0' := by
    refine List.eq_replicate_of_mem fun c hc => ?_
    have hc : (c == '0') = true := List.mem_takeWhile_imp (p := (· == '0')) hc
    exact eq_of_beq hc
  refine ⟨zeros.length, ?_⟩
  rw [significantDigits, ← List.reverse_replicate, ← hz, ← List.reverse_append,
    List.takeWhile_append_dropWhile, List.reverse_reverse]

theorem isDigit_of_mem_significantDigits {coefficient : ℕ} {c : Char}
    (h : c ∈ significantDigits coefficient) : c.isDigit = true := by
  obtain ⟨n, hn⟩ := exists_toDigits_eq coefficient
  exact Nat.isDigit_of_mem_toDigits (by decide) (by decide) (hn ▸ List.mem_append_left _ h)

theorem significantDigits_ne_nil {coefficient : ℕ} (h : coefficient ≠ 0) :
    significantDigits coefficient ≠ [] := by
  intro hs
  obtain ⟨n, hn⟩ := exists_toDigits_eq coefficient
  rw [hs, List.nil_append] at hn
  exact h (by rw [← ofDigits_toDigits coefficient, hn, ofDigits_replicate_zero])

/-! ## Numerals -/

/-- The sign of an exponent. -/
def signChar (negative : Bool) : Char := if negative then '-' else '+'

/-- **The numerals that are written**, and the decimals that they spell. -/
inductive Spells : List Char → Decimal → Prop
  | positional {whole fraction : List Char} (hn : whole ≠ [])
      (hw : ∀ c ∈ whole, c.isDigit = true) (hf : ∀ c ∈ fraction, c.isDigit = true) :
      Spells (whole ++ '.' :: fraction) ⟨ofDigits (whole ++ fraction), -fraction.length⟩
  | scientific {first : Char} {fraction size : List Char} (negative : Bool)
      (hw : first.isDigit = true) (hf : ∀ c ∈ fraction, c.isDigit = true) (hn : size ≠ [])
      (hs : ∀ c ∈ size, c.isDigit = true) :
      Spells (first :: ((if fraction.isEmpty then [] else '.' :: fraction) ++
          'e' :: signChar negative :: size))
        ⟨ofDigits (first :: fraction),
          (if negative then -(ofDigits size : ℤ) else ofDigits size) - fraction.length⟩

/-- The decimal that a numeral spells: digits, perhaps a point and digits, and perhaps an
exponent. -/
def spelled? (chars : List Char) : Option Decimal :=
  let whole := chars.takeWhile Char.isDigit
  let rest := chars.dropWhile Char.isDigit
  let fraction := if rest.head? = some '.' then rest.tail.takeWhile Char.isDigit else []
  let power := if rest.head? = some '.' then rest.tail.dropWhile Char.isDigit else rest
  (readExponent? power).map fun exponent =>
    ⟨ofDigits (whole ++ fraction), exponent - fraction.length⟩

theorem readExponent?_eq (negative : Bool) {size : List Char} (hn : size ≠ [])
    (hs : ∀ c ∈ size, c.isDigit = true) :
    readExponent? ('e' :: signChar negative :: size) =
      some (if negative then -(ofDigits size : ℤ) else ofDigits size) := by
  have he : ¬ (size.isEmpty || !size.all Char.isDigit) = true := by
    simp [hn, List.all_eq_true.2 hs]
  cases negative
  · exact if_neg he
  · exact if_neg he

theorem Spells.spelled?_eq {chars : List Char} {decimal : Decimal} (h : Spells chars decimal) :
    spelled? chars = some decimal := by
  cases h with
  | @positional whole fraction hn hw hf =>
    obtain ⟨ht, hd⟩ := takeWhile_append_stop ('.' :: fraction) hw (by simp)
    obtain ⟨ht', hd'⟩ := takeWhile_append_stop [] hf (by simp)
    rw [List.append_nil] at ht' hd'
    simp [spelled?, ht, hd, ht', hd', readExponent?]
  | @scientific first fraction size negative hw hf hn hs =>
    have he := readExponent?_eq negative hn hs
    cases fraction with
    | nil => simp [spelled?, hw, he]
    | cons d ds =>
      obtain ⟨ht, hd⟩ :=
        takeWhile_append_stop ('e' :: signChar negative :: size) hf (by simp)
      rw [List.cons_append] at ht hd
      simp [spelled?, hw, ht, hd, he]

/-- **A numeral spells one decimal.** -/
theorem Spells.unique {chars : List Char} {d e : Decimal} (hd : Spells chars d)
    (he : Spells chars e) : d = e :=
  Option.some.inj (hd.spelled?_eq.symm.trans he.spelled?_eq)

/-! ## What is written -/

/-- A decimal by its significant digits and the exponent of the leading one. -/
theorem value_eq (decimal : Decimal) :
    decimal.value = (ofDigits (significantDigits decimal.coefficient) : ℚ) *
      10 ^ (((Nat.toDigits 10 decimal.coefficient).length : ℤ) - 1 + decimal.exponent + 1 -
        (significantDigits decimal.coefficient).length) := by
  obtain ⟨n, hn⟩ := exists_toDigits_eq decimal.coefficient
  have hc : decimal.coefficient = ofDigits (significantDigits decimal.coefficient) * 10 ^ n := by
    conv_lhs => rw [← ofDigits_toDigits decimal.coefficient, hn, ofDigits_append,
      ofDigits_replicate_zero, Nat.add_zero, List.length_replicate]
  have he : ((Nat.toDigits 10 decimal.coefficient).length : ℤ) - 1 + decimal.exponent + 1 -
      (significantDigits decimal.coefficient).length = n + decimal.exponent := by
    rw [hn, List.length_append, List.length_replicate]
    push_cast
    ring
  rw [he, zpow_add₀ (by norm_num), zpow_natCast, ← mul_assoc, Decimal.value]
  nth_rewrite 1 [hc]
  push_cast
  ring

theorem exists_spells_positional {digits : List Char} (hd : ∀ c ∈ digits, c.isDigit = true)
    (leading : ℤ) : ∃ decimal, Spells (positional digits leading) decimal ∧
      decimal.value = ofDigits digits * 10 ^ (leading + 1 - digits.length) := by
  have hzeros : ∀ n, ∀ c ∈ List.replicate n '0', c.isDigit = true :=
    fun n c hc => isDigit_of_mem_replicate hc
  unfold positional
  split
  · next hl =>
    have hf : ∀ c ∈ List.replicate ((-leading).toNat - 1) '0' ++ digits, c.isDigit = true :=
      List.forall_mem_append.2 ⟨hzeros _, hd⟩
    refine ⟨_, .positional (List.cons_ne_nil '0' []) (by simp) hf, ?_⟩
    have he : -((List.replicate ((-leading).toNat - 1) '0' ++ digits).length : ℤ) =
        leading + 1 - digits.length := by
      rw [List.length_append, List.length_replicate]
      omega
    rw [Decimal.value, he, ofDigits_append, ofDigits_append, ofDigits_replicate_zero]
    simp [ofDigits, digitValue]
  · next hl =>
    obtain ⟨n, rfl⟩ := Int.eq_ofNat_of_zero_le (Int.not_lt.1 hl)
    dsimp only [Int.toNat_natCast]
    by_cases hlen : digits.length ≤ n + 1
    · rw [List.take_of_length_le hlen, List.drop_of_length_le hlen, if_pos List.isEmpty_nil]
      have hne : digits ++ List.replicate (n + 1 - digits.length) '0' ≠ [] := by
        refine List.ne_nil_of_length_pos ?_
        rw [List.length_append, List.length_replicate]
        omega
      refine ⟨_, .positional hne (List.forall_mem_append.2 ⟨hd, hzeros _⟩) (hzeros 1), ?_⟩
      have he : (n : ℤ) + 1 - digits.length = ((n + 1 - digits.length : ℕ) : ℤ) := by omega
      have h0 : ofDigits ['0'] = 0 := rfl
      have h1 : (10 : ℚ) ^ (-(['0'].length : ℤ)) = 1 / 10 := by norm_num
      rw [Decimal.value, he, h1, zpow_natCast, ofDigits_append, ofDigits_append,
        ofDigits_replicate_zero, h0, List.length_replicate, List.length_singleton]
      push_cast
      ring
    · have hz : n + 1 - digits.length = 0 := by omega
      have hf : ¬ (digits.drop (n + 1)).isEmpty = true := by
        rw [List.isEmpty_iff, List.drop_eq_nil_iff]
        exact hlen
      rw [hz, if_neg hf, List.replicate_zero, List.append_nil]
      have hne : digits.take (n + 1) ≠ [] := by
        refine List.ne_nil_of_length_pos ?_
        rw [List.length_take]
        omega
      refine ⟨_, .positional hne (fun c hc => hd c (List.mem_of_mem_take hc))
        (fun c hc => hd c (List.mem_of_mem_drop hc)), ?_⟩
      have he : (n : ℤ) + 1 - digits.length = -((digits.drop (n + 1)).length : ℤ) := by
        rw [List.length_drop]
        omega
      rw [Decimal.value, he, List.take_append_drop]

/-- The digits of an exponent. -/
theorem exponentDigits (width n : ℕ) :
    let size := List.replicate (width - (Nat.toDigits 10 n).length) '0' ++ Nat.toDigits 10 n
    size ≠ [] ∧ (∀ c ∈ size, c.isDigit = true) ∧ ofDigits size = n := by
  refine ⟨?_, List.forall_mem_append.2 ⟨fun c hc => isDigit_of_mem_replicate hc,
    fun c hc => Nat.isDigit_of_mem_toDigits (by decide) (by decide) hc⟩, ?_⟩
  · exact List.append_ne_nil_of_right_ne_nil _ (List.ne_nil_of_length_pos Nat.length_toDigits_pos)
  · rw [ofDigits_append, ofDigits_replicate_zero, ofDigits_toDigits, Nat.zero_mul, Nat.zero_add]

theorem exists_spells_scientific (width : ℕ) {digits : List Char} (hn : digits ≠ [])
    (hd : ∀ c ∈ digits, c.isDigit = true) (leading : ℤ) :
    ∃ decimal, Spells (scientific width digits leading) decimal ∧
      decimal.value = ofDigits digits * 10 ^ (leading + 1 - digits.length) := by
  obtain ⟨first, fraction, rfl⟩ := List.exists_cons_of_ne_nil hn
  obtain ⟨hf, hr⟩ := List.forall_mem_cons.1 hd
  obtain ⟨hne, hs, hsize⟩ := exponentDigits width leading.natAbs
  have hspells := Spells.scientific (decide (leading < 0)) hf hr hne hs
  have hchars : scientific width (first :: fraction) leading =
      first :: ((if fraction.isEmpty then [] else '.' :: fraction) ++
        'e' :: signChar (leading < 0) ::
          (List.replicate (width - (Nat.toDigits 10 leading.natAbs).length) '0' ++
            Nat.toDigits 10 leading.natAbs)) := by
    simp [scientific, signChar]
  have he : (if decide (leading < 0) = true then -(leading.natAbs : ℤ) else leading.natAbs) -
      fraction.length = leading + 1 - (first :: fraction).length := by
    rw [List.length_cons]
    simp only [decide_eq_true_eq]
    split <;> omega
  rw [hsize, he] at hspells
  exact ⟨_, hchars ▸ hspells, rfl⟩

/-- **A decimal is spelled by what is written for it.** -/
theorem exists_spells_write (format : Layout) {decimal : Decimal} (h : decimal.coefficient ≠ 0) :
    ∃ written, Spells (format.write decimal) written ∧ written.value = decimal.value := by
  have hn := significantDigits_ne_nil h
  have hd : ∀ c ∈ significantDigits decimal.coefficient, c.isDigit = true :=
    fun c hc => isDigit_of_mem_significantDigits hc
  rw [value_eq decimal]
  simp only [Layout.write]
  split
  · exact exists_spells_positional hd _
  · exact exists_spells_scientific _ hn hd _

/-! ## Finite numbers -/

open Float.Model in
/-- The exponent of a finite number is not the one that is kept for the others. -/
theorem field_lt_of_isFinite {x : Float} (h : x.isFinite = true) :
    x.toBits.toNat / Nat.pow 2 52 % 2048 < 2047 := by
  by_contra hc
  have he : x.toBits.toNat / Nat.pow 2 52 % 2048 = 2047 := by omega
  have hx : @UnpackedFloat.unpackExponent Format.binary64 x.toModel.toBits.toBitVec = -1#11 := by
    apply BitVec.eq_of_toNat_eq
    rw [UnpackedFloat.unpackExponent, BitVec.toNat_cast, BitVec.extractLsb_toNat,
      Nat.shiftRight_eq_div_pow]
    exact he
  change (UnpackedFloat.unpack Format.binary64 x.toModel.toBits.toBitVec).isFinite = true at h
  delta UnpackedFloat.unpack at h
  dsimp only at h
  rw [if_pos hx] at h
  split at h <;> cases h

theorem ofFields_eq_ofIndex (field : ℕ) {fraction : ℕ} (h : fraction < 2 ^ 52) :
    Dyadic.ofFields field fraction = Dyadic.ofIndex (field * 2 ^ 52 + fraction) := by
  unfold Dyadic.ofIndex
  congr 1 <;> omega

theorem rounds_zero : (Dyadic.ofIndex 0).Rounds 0 := by
  have hq := (Dyadic.ofIndex 0).quarter_pos
  refine ⟨?_, by positivity⟩
  change ((0 : ℕ) : ℚ) * _ ≤ 0
  rw [Nat.cast_zero, zero_mul]

theorem rounds_shortest_ofFields {field fraction : ℕ} (hf : field < 2047) (hr : fraction < 2 ^ 52)
    (h0 : ¬ (field = 0 ∧ fraction = 0)) :
    (Dyadic.ofFields field fraction).Rounds (Dyadic.ofFields field fraction).shortest.value := by
  rcases field with _ | field
  · rw [Dyadic.ofFields_zero]
    apply Dyadic.rounds_shortest <;> dsimp only <;> omega
  · rw [Dyadic.ofFields_succ]
    apply Dyadic.rounds_shortest <;> dsimp only <;> omega

/-- **The text of a magnitude spells a decimal that rounds to it.** -/
theorem exists_spells_magnitudeText {field fraction : ℕ} (hf : field < 2047)
    (hr : fraction < 2 ^ 52) : ∃ decimal, Spells (magnitudeText field fraction).toList decimal ∧
      (Dyadic.ofIndex (field * 2 ^ 52 + fraction)).Rounds decimal.value := by
  rw [magnitudeText, if_neg hf.ne]
  split
  · next h =>
    obtain ⟨rfl, rfl⟩ := h
    have hs : Spells ['0', '.', '0'] ⟨0, -1⟩ :=
      .positional (List.cons_ne_nil '0' []) (by simp) (by simp)
    refine ⟨⟨0, -1⟩, hs, ?_⟩
    simpa [Decimal.value] using rounds_zero
  · next h =>
    have hrounds := rounds_shortest_ofFields hf hr h
    rw [ofFields_eq_ofIndex field hr] at hrounds ⊢
    have hc : (Dyadic.ofIndex (field * 2 ^ 52 + fraction)).shortest.coefficient ≠ 0 := by
      intro hc
      have hv : (Dyadic.ofIndex (field * 2 ^ 52 + fraction)).shortest.value = 0 := by
        rw [Decimal.value, hc, Nat.cast_zero, zero_mul]
      rw [hv] at hrounds
      have := Dyadic.index_unique hrounds rounds_zero
      omega
    obtain ⟨written, hs, hv⟩ := exists_spells_write layout hc
    rw [String.toList_ofList]
    exact ⟨written, hs, hv ▸ hrounds⟩

/-- **Magnitudes are told apart by their texts.** -/
theorem magnitudeText_injective {f g r t : ℕ} (hf : f < 2047) (hg : g < 2047) (hr : r < 2 ^ 52)
    (ht : t < 2 ^ 52) (h : magnitudeText f r = magnitudeText g t) : f = g ∧ r = t := by
  obtain ⟨d, hd, hrd⟩ := exists_spells_magnitudeText hf hr
  obtain ⟨e, he, hre⟩ := exists_spells_magnitudeText hg ht
  rw [h] at hd
  obtain rfl := hd.unique he
  have := Dyadic.index_unique hrd hre
  omega

/-! ## Signs -/

theorem Spells.exists_digit {chars : List Char} {decimal : Decimal} (h : Spells chars decimal) :
    ∃ digit rest, chars = digit :: rest ∧ digit.isDigit = true := by
  cases h with
  | positional hn hw hf =>
    obtain ⟨digit, rest, rfl⟩ := List.exists_cons_of_ne_nil hn
    exact ⟨digit, _, rfl, hw digit List.mem_cons_self⟩
  | scientific negative hw hf hn hs => exact ⟨_, _, rfl, hw⟩

/-- A numeral is made of digits, a point, and an exponent with its sign. -/
theorem Spells.chars {chars : List Char} {decimal : Decimal} (h : Spells chars decimal) :
    ∀ c ∈ chars, c.isDigit = true ∨ c ∈ ['.', 'e', '+', '-'] := by
  cases h with
  | positional hn hw hf =>
    refine List.forall_mem_append.2 ⟨fun c hc => .inl (hw c hc), List.forall_mem_cons.2
      ⟨.inr (by decide), fun c hc => .inl (hf c hc)⟩⟩
  | @scientific first fraction size negative hw hf hn hs =>
    have hsign : signChar negative ∈ ['.', 'e', '+', '-'] := by cases negative <;> decide
    refine List.forall_mem_cons.2 ⟨.inl hw, List.forall_mem_append.2 ⟨?_, List.forall_mem_cons.2
      ⟨.inr (by decide), List.forall_mem_cons.2 ⟨.inr hsign, fun c hc => .inl (hs c hc)⟩⟩⟩⟩
    split
    · simp
    · exact List.forall_mem_cons.2 ⟨.inr (by decide), fun c hc => .inl (hf c hc)⟩

/-- The sign of a finite number is shown before its magnitude. -/
theorem text_eq {x : Float} (h : x.isFinite = true) :
    text x = (if Nat.pow 2 63 ≤ x.toBits.toNat then "-" else "") ++
      magnitudeText (x.toBits.toNat / Nat.pow 2 52 % 2048) (x.toBits.toNat % Nat.pow 2 52) := by
  have hf := field_lt_of_isFinite h
  simp only [text, hf.ne, false_and, not_false_eq_true, and_true]

/-- **The text of a finite number is a numeral**, perhaps after a sign. -/
theorem exists_spells_text {x : Float} (h : x.isFinite = true) :
    ∃ chars decimal, Spells chars decimal ∧
      ((text x).toList = chars ∨ (text x).toList = '-' :: chars) := by
  obtain ⟨decimal, hs, -⟩ := exists_spells_magnitudeText (field_lt_of_isFinite h)
    (Nat.mod_lt x.toBits.toNat (by decide))
  refine ⟨_, decimal, hs, ?_⟩
  rw [text_eq h, String.toList_append]
  split
  · exact .inr rfl
  · exact .inl rfl

theorem eq_of_toBits_eq {x y : Float} (h : x.toBits = y.toBits) : x = y := by
  obtain ⟨⟨a, _⟩⟩ := x
  obtain ⟨⟨b, _⟩⟩ := y
  obtain rfl : a = b := h
  rfl

theorem magnitudeText_ne_sign {field fraction : ℕ} (hf : field < 2047) (hr : fraction < 2 ^ 52)
    (rest : List Char) : (magnitudeText field fraction).toList ≠ '-' :: rest := by
  intro h
  obtain ⟨decimal, hs, -⟩ := exists_spells_magnitudeText hf hr
  obtain ⟨digit, more, he, hd⟩ := hs.exists_digit
  rw [h] at he
  cases he
  cases hd

/-- The bits of a number are its sign, its exponent and its fraction. -/
theorem bits_eq {a b : ℕ} (ha : a < 2 ^ 64) (hb : b < 2 ^ 64)
    (hs : Nat.pow 2 63 ≤ a ↔ Nat.pow 2 63 ≤ b)
    (h : a / Nat.pow 2 52 % 2048 = b / Nat.pow 2 52 % 2048 ∧
      a % Nat.pow 2 52 = b % Nat.pow 2 52) : a = b := by
  change 2 ^ 63 ≤ a ↔ 2 ^ 63 ≤ b at hs
  change a / 2 ^ 52 % 2048 = b / 2 ^ 52 % 2048 ∧ a % 2 ^ 52 = b % 2 ^ 52 at h
  omega

/-- **Finite numbers are told apart by their texts.** -/
theorem text_injective {x y : Float} (hx : x.isFinite = true) (hy : y.isFinite = true)
    (h : text x = text y) : x = y := by
  have hfx := field_lt_of_isFinite hx
  have hfy := field_lt_of_isFinite hy
  have hrx : x.toBits.toNat % Nat.pow 2 52 < 2 ^ 52 := Nat.mod_lt _ (by decide)
  have hry : y.toBits.toNat % Nat.pow 2 52 < 2 ^ 52 := Nat.mod_lt _ (by decide)
  rw [text_eq hx, text_eq hy, ← String.toList_inj, String.toList_append, String.toList_append] at h
  apply eq_of_toBits_eq
  apply UInt64.toNat_inj.1
  have hbits := bits_eq x.toBits.toNat_lt y.toBits.toNat_lt
  have hmagnitude := magnitudeText_injective hfx hfy hrx hry
  -- with one sign the magnitudes are the same, and two signs would be seen
  by_cases hnx : Nat.pow 2 63 ≤ x.toBits.toNat <;> by_cases hny : Nat.pow 2 63 ≤ y.toBits.toNat
  · rw [if_pos hnx, if_pos hny] at h
    exact hbits (iff_of_true hnx hny)
      (hmagnitude (String.toList_injective (List.append_cancel_left h)))
  · rw [if_pos hnx, if_neg hny] at h
    exact absurd h.symm (magnitudeText_ne_sign hfy hry _)
  · rw [if_neg hnx, if_pos hny] at h
    exact absurd h (magnitudeText_ne_sign hfx hrx _)
  · rw [if_neg hnx, if_neg hny] at h
    exact hbits (iff_of_false hnx hny) (hmagnitude (String.toList_injective h))

end ScopedScript.Number
