import ScopedScript.Proofs.Number.Text

/-!
# S-expressions as text

An s-expression is a word, a number, a string between quotation marks, or a list of s-expressions
between parentheses.  Words have no delimiters in them and do not look like numbers, and strings
have no quotation marks in them.  So the text of an s-expression says where it ends and what it is.

## Main definitions

* `Sexp`: s-expressions.  `Sexp.chars` is their text.
* `Sexp.WellFormed`: the words, numbers and strings in it can be told apart.

## Main results

* `Sexp.append_inj`: a text begins with one s-expression only.
* `Sexp.lines_inj`: s-expressions on lines of their own are told apart by their text.
-/

namespace ScopedScript

/-- **S-expressions.** -/
inductive Sexp where
  | word (text : String)
  | number (value : Float)
  | quoted (body : String)
  | node (parts : List Sexp)

namespace Sexp

mutual

/-- **The text of an s-expression.** -/
def chars : Sexp → List Char
  | word text => text.toList
  | number value => (Number.text value).toList
  | quoted body => '"' :: (body.toList ++ ['"'])
  | node parts => '(' :: ((separated ' ' parts).tail ++ [')'])

/-- The texts of s-expressions, with the separator before each. -/
def separated (separator : Char) : List Sexp → List Char
  | [] => []
  | s :: ss => separator :: (s.chars ++ separated separator ss)

end

/-! ## What can be told apart -/

/-- The characters that words do not contain. -/
def delimiters : List Char := [' ', '\n', '(', ')', '"']

/-- One or more characters that are no delimiters. -/
def IsBare (text : List Char) : Prop := text ≠ [] ∧ ∀ c ∈ text, c ∉ delimiters

/-- Whether a text looks like a number: it begins with a digit, perhaps after a sign. -/
def looksNumeric (text : List Char) : Bool :=
  (text.dropWhile (· == '-')).head?.any Char.isDigit

/-- Whether a text is a word. -/
def isWord (text : List Char) : Bool :=
  !text.isEmpty && text.all (!delimiters.contains ·) && !looksNumeric text

theorem isWord_iff {text : List Char} :
    isWord text = true ↔ IsBare text ∧ looksNumeric text = false := by
  simp [isWord, IsBare]

mutual

/-- **The words, the numbers and the strings of an s-expression can be told apart.** -/
def WellFormed : Sexp → Prop
  | word text => isWord text.toList = true
  | number value => value.isFinite = true
  | quoted body => '"' ∉ body.toList
  | node parts => AllWellFormed parts

/-- Well-formed s-expressions in order. -/
def AllWellFormed : List Sexp → Prop
  | [] => True
  | s :: ss => s.WellFormed ∧ AllWellFormed ss

end

/-- The text begins with what may stand behind a word, or is empty. -/
def Ends (rest : List Char) : Prop := ∀ c ∈ rest.head?, c ∈ [' ', '\n', ')']

/-- The text begins with a closing parenthesis, or is empty. -/
def Closes (rest : List Char) : Prop := ∀ c ∈ rest.head?, c = ')'

theorem Closes.ends {rest : List Char} (h : Closes rest) : Ends rest := by
  intro c hc
  rw [h c hc]
  decide

theorem IsBare.append_inj {text text' rest rest' : List Char} (ht : IsBare text)
    (ht' : IsBare text') (hr : Ends rest) (hr' : Ends rest') (h : text ++ rest = text' ++ rest') :
    text = text' ∧ rest = rest' := by
  have hstop {rest : List Char} (hr : Ends rest) :
      ∀ c ∈ rest.head?, decide (c ∉ delimiters) = false := by
    intro c hc
    have hall : ∀ c ∈ [' ', '\n', ')'], decide (c ∉ delimiters) = false := by simp [delimiters]
    exact hall c (hr c hc)
  obtain ⟨hw, hd⟩ := takeWhile_append_stop rest (fun c hc => decide_eq_true (ht.2 c hc)) (hstop hr)
  obtain ⟨hw', hd'⟩ :=
    takeWhile_append_stop rest' (fun c hc => decide_eq_true (ht'.2 c hc)) (hstop hr')
  rw [h] at hw hd
  exact ⟨hw.symm.trans hw', hd.symm.trans hd'⟩

/-- A string ends at the first quotation mark. -/
theorem quoted_append_inj {body body' rest rest' : List Char} (hb : '"' ∉ body) (hb' : '"' ∉ body')
    (h : body ++ '"' :: rest = body' ++ '"' :: rest') : body = body' ∧ rest = rest' := by
  have hne {body : List Char} (hb : '"' ∉ body) : ∀ c ∈ body, (c != '"') = true := by
    intro c hc
    exact bne_iff_ne.2 (ne_of_mem_of_not_mem hc hb)
  obtain ⟨hw, hd⟩ := takeWhile_append_stop ('"' :: rest) (hne hb) (by simp)
  obtain ⟨hw', hd'⟩ := takeWhile_append_stop ('"' :: rest') (hne hb') (by simp)
  rw [h] at hw hd
  exact ⟨hw.symm.trans hw', (List.cons.inj (hd.symm.trans hd')).2⟩

theorem isBare_numberText {x : Float} (h : x.isFinite = true) :
    IsBare (Number.text x).toList ∧ looksNumeric (Number.text x).toList = true := by
  obtain ⟨numeral, decimal, hs, ht⟩ := Number.exists_spells_text h
  obtain ⟨digit, rest, hd, hdigit⟩ := hs.exists_digit
  have hchars : ∀ c ∈ numeral, c ∉ delimiters := by
    intro c hc hmem
    have hnone : ∀ c ∈ delimiters, ¬ (c.isDigit = true ∨ c ∈ ['.', 'e', '+', '-']) := by
      simp [delimiters]
    exact hnone c hmem (hs.chars c hc)
  have hlooks : looksNumeric numeral = true := by
    have hsign : (digit == '-') = false := by
      refine beq_eq_false_iff_ne.2 ?_
      rintro rfl
      cases hdigit
    rw [hd, looksNumeric, List.dropWhile_cons, hsign]
    exact hdigit
  have hne : numeral ≠ [] := hd ▸ List.cons_ne_nil digit rest
  rcases ht with ht | ht
  · rw [ht]
    exact ⟨⟨hne, hchars⟩, hlooks⟩
  · rw [ht]
    exact ⟨⟨List.cons_ne_nil _ _, List.forall_mem_cons.2 ⟨by decide, hchars⟩⟩, hlooks⟩

/-! ## Where an s-expression ends -/

/-- Whether an s-expression is a word or a number. -/
def isAtom : Sexp → Bool
  | word _ | number _ => true
  | _ => false

theorem WellFormed.isBare {s : Sexp} (h : s.WellFormed) (ha : s.isAtom = true) :
    IsBare s.chars := by
  cases s with
  | word text => exact (isWord_iff.1 h).1
  | number value => exact (isBare_numberText h).1
  | quoted body => cases ha
  | node parts => cases ha

/-- Words and numbers are told apart by their texts. -/
theorem WellFormed.eq_of_chars_eq {s s' : Sexp} (h : s.WellFormed) (h' : s'.WellFormed)
    (ha : s.isAtom = true) (ha' : s'.isAtom = true) (hc : s.chars = s'.chars) : s = s' := by
  cases s with
  | word text =>
    cases s' with
    | word text' => rw [String.toList_injective hc]
    | number value =>
      have hn : looksNumeric text.toList = true :=
        (congrArg looksNumeric hc).trans (isBare_numberText h').2
      exact absurd hn (by rw [(isWord_iff.1 h).2]; decide)
    | quoted | node => cases ha'
  | number value =>
    cases s' with
    | word text =>
      have hn : looksNumeric text.toList = true :=
        (congrArg looksNumeric hc.symm).trans (isBare_numberText h).2
      exact absurd hn (by rw [(isWord_iff.1 h').2]; decide)
    | number value' => rw [Number.text_injective h h' (String.toList_injective hc)]
    | quoted | node => cases ha'
  | quoted | node => cases ha

/-- Strings and lists begin with a delimiter. -/
theorem exists_chars_eq_of_not_isAtom {s : Sexp} (ha : s.isAtom = false) :
    ∃ c rest, s.chars = c :: rest ∧ c ∈ ['"', '('] := by
  cases s with
  | word | number => cases ha
  | quoted body => exact ⟨'"', _, rfl, by decide⟩
  | node parts => exact ⟨'(', _, rfl, by decide⟩

theorem WellFormed.atom_append_inj {s s' : Sexp} (h : s.WellFormed) (h' : s'.WellFormed)
    (ha : s.isAtom = true) {rest rest' : List Char} (hr : Ends rest) (hr' : Ends rest')
    (hc : s.chars ++ rest = s'.chars ++ rest') : s = s' ∧ rest = rest' := by
  have hb := h.isBare ha
  cases ha' : s'.isAtom with
  | false =>
    obtain ⟨c, more, hc', hm⟩ := exists_chars_eq_of_not_isAtom ha'
    obtain ⟨d, others, hd⟩ := List.exists_cons_of_ne_nil hb.1
    rw [hc', hd] at hc
    obtain rfl := (List.cons.inj hc).1
    have hall : ∀ c ∈ ['"', '('], c ∈ delimiters := by simp [delimiters]
    exact absurd (hall d hm) (hb.2 d (hd ▸ List.mem_cons_self))
  | true =>
    obtain ⟨htext, hrest⟩ := hb.append_inj (h'.isBare ha') hr hr' hc
    exact ⟨h.eq_of_chars_eq h' ha ha' htext, hrest⟩

/-- The text of an s-expression is not empty, and does not begin like the end of a list. -/
theorem WellFormed.exists_chars_eq {s : Sexp} (h : s.WellFormed) :
    ∃ c rest, s.chars = c :: rest ∧ c ≠ ')' := by
  cases ha : s.isAtom with
  | true =>
    have hb := h.isBare ha
    obtain ⟨c, rest, hc⟩ := List.exists_cons_of_ne_nil hb.1
    refine ⟨c, rest, hc, ?_⟩
    rintro rfl
    exact hb.2 ')' (hc ▸ List.mem_cons_self) (by decide)
  | false =>
    obtain ⟨c, rest, hc, hm⟩ := exists_chars_eq_of_not_isAtom ha
    refine ⟨c, rest, hc, ?_⟩
    rintro rfl
    revert hm
    decide

theorem ends_separated {separator : Char} (hs : separator ∈ [' ', '\n']) (ss : List Sexp)
    {rest : List Char} (hr : Closes rest) : Ends (separated separator ss ++ rest) := by
  cases ss with
  | nil => exact hr.ends
  | cons s ss =>
    intro c hc
    cases hc
    exact List.mem_append_left [')'] hs

theorem not_closes_separated {separator : Char} (hs : separator ∈ [' ', '\n']) {s : Sexp}
    {ss : List Sexp} {rest : List Char} : ¬ Closes (separated separator (s :: ss) ++ rest) := by
  intro h
  have hc : separator = ')' := h separator rfl
  rw [hc] at hs
  revert hs
  decide

/-- Without the first separator nothing is lost. -/
theorem separated_tail_inj {separator : Char} {ss ss' : List Sexp} (hs : AllWellFormed ss)
    (hs' : AllWellFormed ss') {rest rest' : List Char} (hr : Closes rest) (hr' : Closes rest')
    (hinj : separated separator ss ++ rest = separated separator ss' ++ rest' →
      ss = ss' ∧ rest = rest')
    (h : (separated separator ss).tail ++ rest = (separated separator ss').tail ++ rest') :
    ss = ss' ∧ rest = rest' := by
  -- what is left of one list begins with an item, and what is left of none with its end
  have hbegins {s : Sexp} (hs : s.WellFormed) (more : List Char) : ¬ Closes (s.chars ++ more) := by
    obtain ⟨c, others, hc, hne⟩ := hs.exists_chars_eq
    rw [hc]
    exact fun hcl => hne (hcl c rfl)
  cases ss with
  | nil =>
    cases ss' with
    | nil => exact ⟨rfl, h⟩
    | cons s' ss' =>
      simp only [separated, List.tail_nil, List.tail_cons, List.nil_append, List.append_assoc] at h
      exact absurd (h ▸ hr) (hbegins hs'.1 _)
  | cons s ss =>
    cases ss' with
    | nil =>
      simp only [separated, List.tail_nil, List.tail_cons, List.nil_append, List.append_assoc] at h
      exact absurd (h ▸ hr') (hbegins hs.1 _)
    | cons s' ss' => exact hinj (congrArg (separator :: ·) h)

mutual

/-- **A text begins with one s-expression only.** -/
theorem append_inj : (s s' : Sexp) → s.WellFormed → s'.WellFormed → {rest rest' : List Char} →
    Ends rest → Ends rest' → s.chars ++ rest = s'.chars ++ rest' → s = s' ∧ rest = rest'
  | word text, s', hs, hs', rest, rest', hr, hr', h => hs.atom_append_inj hs' rfl hr hr' h
  | number value, s', hs, hs', rest, rest', hr, hr', h => hs.atom_append_inj hs' rfl hr hr' h
  | quoted body, s', hs, hs', rest, rest', hr, hr', h => by
    cases s' with
    | word | number =>
      obtain ⟨he, hrest⟩ := hs'.atom_append_inj hs rfl hr' hr h.symm
      exact ⟨he.symm, hrest.symm⟩
    | quoted body' =>
      have hq := (List.cons.inj h).2
      simp only [List.append_eq, List.append_assoc, List.singleton_append] at hq
      obtain ⟨hb, rfl⟩ := quoted_append_inj hs hs' hq
      exact ⟨by rw [String.toList_injective hb], rfl⟩
    | node parts => cases h
  | node parts, s', hs, hs', rest, rest', hr, hr', h => by
    cases s' with
    | word | number =>
      obtain ⟨he, hrest⟩ := hs'.atom_append_inj hs rfl hr' hr h.symm
      exact ⟨he.symm, hrest.symm⟩
    | quoted body => cases h
    | node parts' =>
      have hp := (List.cons.inj h).2
      simp only [List.append_eq, List.append_assoc, List.singleton_append] at hp
      have hclose (rest : List Char) : Closes (')' :: rest) := fun c hc => by cases hc; rfl
      obtain ⟨hparts, hrest⟩ := separated_tail_inj hs hs' (hclose rest) (hclose rest')
        (separated_inj (by decide) parts parts' hs hs' (hclose rest) (hclose rest')) hp
      exact ⟨by rw [hparts], (List.cons.inj hrest).2⟩

theorem separated_inj {separator : Char} (hsep : separator ∈ [' ', '\n']) :
    (ss ss' : List Sexp) → AllWellFormed ss → AllWellFormed ss' → {rest rest' : List Char} →
    Closes rest → Closes rest' →
    separated separator ss ++ rest = separated separator ss' ++ rest' → ss = ss' ∧ rest = rest'
  | [], [], hs, hs', rest, rest', hr, hr', h => ⟨rfl, h⟩
  | [], s' :: ss', hs, hs', rest, rest', hr, hr', h => by
    rw [separated, List.nil_append] at h
    exact absurd (h ▸ hr) (not_closes_separated hsep)
  | s :: ss, [], hs, hs', rest, rest', hr, hr', h => by
    rw [separated.eq_1, List.nil_append] at h
    exact absurd (h ▸ hr') (not_closes_separated hsep)
  | s :: ss, s' :: ss', hs, hs', rest, rest', hr, hr', h => by
    have h := (List.cons.inj h).2
    simp only [List.append_eq, List.append_assoc] at h
    obtain ⟨hfirst, hmore⟩ := append_inj s s' hs.1 hs'.1 (ends_separated hsep ss hr)
      (ends_separated hsep ss' hr') h
    obtain ⟨hothers, hrest⟩ := separated_inj hsep ss ss' hs.2 hs'.2 hr hr' hmore
    exact ⟨by rw [hfirst, hothers], hrest⟩

end

/-- **S-expressions on lines of their own are told apart by their text.** -/
theorem lines_inj {ss ss' : List Sexp} (hs : AllWellFormed ss) (hs' : AllWellFormed ss')
    (h : (separated '\n' ss).tail = (separated '\n' ss').tail) : ss = ss' := by
  have hclose : Closes [] := nofun
  have hsep : '\n' ∈ [' ', '\n'] := by decide
  refine (separated_tail_inj hs hs' hclose hclose
    (separated_inj hsep ss ss' hs hs' hclose hclose) ?_).1
  rw [List.append_nil, List.append_nil, h]

end Sexp

end ScopedScript
