import Mathlib.Data.List.TakeDrop
import ScopedScript.Number.Read

/-!
# Numerals spell numbers

Numbers can be given in more ways than a program can write them.  A numeral of a program, with
digits and perhaps a point and more digits, is one of these ways, so that it always has a value.

## Main results

* `Number.read_numeral`: the number that a numeral spells.
* `Number.exists_read_numeral`: there always is one.
-/

namespace ScopedScript.Number

/-- The characters of numerals. -/
def numeralChars : List Char := ['0', '1', '2', '3', '4', '5', '6', '7', '8', '9', '.']

theorem mem_numeralChars {c : Char} (h : c.isDigit = true ∨ c = '.') : c ∈ numeralChars := by
  rcases h with h | rfl
  · obtain ⟨hl, hu⟩ := Text.toNat_bounds_of_isDigit h
    have hc : c.toNat - '0'.toNat < 10 := by omega
    have hd : ∀ n < 10, Char.ofNat ('0'.toNat + n) ∈ numeralChars := by decide
    have := hd _ hc
    rwa [Nat.add_sub_cancel' hl, Char.ofNat_toNat] at this
  · decide

theorem dropMargins_eq_self {chars : List Char} (h : ∀ c ∈ chars, isMargin c = false) :
    dropMargins chars = chars := by
  have hd : ∀ cs : List Char, (∀ c ∈ cs, isMargin c = false) → cs.dropWhile isMargin = cs := by
    intro cs hcs
    cases cs with
    | nil => rfl
    | cons c cs => rw [List.dropWhile_cons, hcs c List.mem_cons_self, if_neg Bool.false_ne_true]
  rw [dropMargins, hd chars h, hd _ fun c hc => h c (List.mem_reverse.1 hc), List.reverse_reverse]

theorem readMagnitude_numeral {whole fraction : List Char} (hn : whole ≠ [])
    (hw : ∀ c ∈ whole, c.isDigit = true)
    (hf : fraction = [] ∨ ∃ ds, fraction = '.' :: ds ∧ ∀ c ∈ ds, c.isDigit = true) :
    readMagnitude? (whole ++ fraction) = some (ofDecimal whole (fraction.drop 1) 0) := by
  obtain ⟨d, ds, rfl⟩ := List.exists_cons_of_ne_nil hn
  have hd := mem_numeralChars (.inl (hw d List.mem_cons_self))
  have hname : ∀ name : String, numeralChars.all (name.toList.head? != some ·.toLower) = true →
      String.ofList ((d :: ds ++ fraction).map Char.toLower) ≠ name := by
    rintro _ h rfl
    simpa using List.all_eq_true.1 h d hd
  rw [readMagnitude?]
  dsimp only
  rw [if_neg (not_or.2 ⟨hname "inf" (by decide), hname "infinity" (by decide)⟩),
    if_neg (hname "nan" (by decide)), List.span_eq_takeWhile_dropWhile]
  rw [List.takeWhile_append_of_pos hw, List.dropWhile_append_of_pos hw]
  rcases hf with rfl | ⟨es, rfl, he⟩
  · simp [readExponent?]
  · have hp : Char.isDigit '.' = false := by decide
    have hx : (es ++ []).dropWhile Char.isDigit = [] := List.dropWhile_append_of_pos he
    have ht : (es ++ []).takeWhile Char.isDigit = es ++ [] := List.takeWhile_append_of_pos he
    rw [List.append_nil] at hx ht
    simp [hp, List.span_eq_takeWhile_dropWhile, hx, ht, readExponent?]

/-- **The number that a numeral spells**: the double nearest to its decimal. -/
theorem read_numeral {whole fraction : List Char} (hn : whole ≠ [])
    (hw : ∀ c ∈ whole, c.isDigit = true)
    (hf : fraction = [] ∨ ∃ ds, fraction = '.' :: ds ∧ ∀ c ∈ ds, c.isDigit = true) :
    read? (String.ofList (whole ++ fraction)) =
      some (ofDecimal whole (fraction.drop 1) 0) := by
  have hall : ∀ c ∈ whole ++ fraction, c ∈ numeralChars := by
    intro c hc
    apply mem_numeralChars
    rcases List.mem_append.1 hc with hc | hc
    · exact .inl (hw c hc)
    · rcases hf with rfl | ⟨ds, rfl, hd⟩
      · cases hc
      · exact (List.mem_cons.1 hc).symm.imp_left (hd c)
  have hm (c : Char) (hc : c ∈ numeralChars) :
      isMargin c = false ∧ Text.plainDigit c = c ∧ c ≠ '_' ∧ c ≠ '-' ∧ c ≠ '+' := by
    have h : numeralChars.all (fun c => decide (isMargin c = false ∧ Text.plainDigit c = c ∧
        c ≠ '_' ∧ c ≠ '-' ∧ c ≠ '+')) = true := by decide
    exact of_decide_eq_true (List.all_eq_true.1 h c hc)
  have hmargins : dropMargins (whole ++ fraction) = whole ++ fraction :=
    dropMargins_eq_self fun c hc => (hm c (hall c hc)).1
  have hplain : (whole ++ fraction).map Text.plainDigit = whole ++ fraction :=
    (List.map_congr_left fun c hc => (hm c (hall c hc)).2.1).trans (List.map_id' _)
  have hunder := dropUnderscores?_eq_some (fun hu => (hm _ (hall _ hu)).2.2.1 rfl) false
  rw [read?, String.toList_ofList, hmargins, hplain, hunder]
  dsimp only [bind, Option.bind]
  split
  · next heq => exact absurd rfl (hm '-' (hall '-' (heq ▸ List.mem_cons_self))).2.2.2.1
  · next heq => exact absurd rfl (hm '+' (hall '+' (heq ▸ List.mem_cons_self))).2.2.2.2
  · exact readMagnitude_numeral hn hw hf

/-- **A numeral spells a number.** -/
theorem exists_read_numeral {whole fraction : List Char} (hn : whole ≠ [])
    (hw : ∀ c ∈ whole, c.isDigit = true)
    (hf : fraction = [] ∨ ∃ ds, fraction = '.' :: ds ∧ ∀ c ∈ ds, c.isDigit = true) :
    ∃ value, read? (String.ofList (whole ++ fraction)) = some value :=
  ⟨_, read_numeral hn hw hf⟩

end ScopedScript.Number
