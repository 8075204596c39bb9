import ScopedScript.Proofs.Relabel
import ScopedScript.Token.Scan

/-!
# Scanning one source after another

A newline ends every lexeme but a string and a block comment.  So if a source without lexical
faults, in which all of these are closed, is put before a newline and another source, its
lexemes stay what they are.  The other source has the lexemes that it has by itself, further
down.

## Main definitions

* `Relabel.down`: everything some lines further down.

## Main results

* `lexemes_append_newline`: the lexemes of two sources with a newline between them.
* `scan_append_newline`: their tokens.
-/

namespace ScopedScript

/-- Everything is some lines further down. -/
def Relabel.down (lines : Nat) : Relabel := .onLines (· + lines)

/-! ## Lexemes before a newline -/

/-- The cut with more text left. -/
def Cut.more (head : Cut) (chars : List Char) : Cut := { head with rest := head.rest ++ chars }

section Newline

variable {p : Char → Bool} (ys : List Char)

theorem takeWhile_append_newline (hp : p '\n' = false) (xs : List Char) :
    (xs ++ '\n' :: ys).takeWhile p = xs.takeWhile p := by
  induction xs with
  | nil => simp [hp]
  | cons x xs ih => simp only [List.cons_append, List.takeWhile_cons, ih]

theorem dropWhile_append_newline (hp : p '\n' = false) (xs : List Char) :
    (xs ++ '\n' :: ys).dropWhile p = xs.dropWhile p ++ '\n' :: ys := by
  induction xs with
  | nil => simp [hp]
  | cons x xs ih =>
    simp only [List.cons_append, List.dropWhile_cons, ih]
    split <;> rfl

/-- What a fraction part is taken from does not go on in the next line. -/
theorem splitFraction_append_newline (xs : List Char) :
    splitFraction (xs ++ '\n' :: ys) =
      ((splitFraction xs).1, (splitFraction xs).2 ++ '\n' :: ys) := by
  have hp : Char.isDigit '\n' = false := by decide
  match xs with
  | [] => rfl
  | [c] =>
    by_cases hc : c = '.'
    · subst hc
      simp [splitFraction, hp]
    · simp [splitFraction, hc]
  | c :: d :: xs =>
    by_cases hc : c = '.'
    · subst hc
      simp only [List.cons_append, splitFraction, takeWhile_append_newline ys hp,
        dropWhile_append_newline ys hp]
      split <;> rfl
    · simp [splitFraction, hc]

theorem cutNumeral_append_newline (xs : List Char) :
    cutNumeral (xs ++ '\n' :: ys) = (cutNumeral xs).more ('\n' :: ys) := by
  have hp : Char.isDigit '\n' = false := by decide
  simp only [cutNumeral, Cut.more, takeWhile_append_newline ys hp,
    dropWhile_append_newline ys hp, splitFraction_append_newline ys]

/-- A comment that is closed stays as it is. -/
theorem splitClose?_more {xs body rest : List Char} (h : splitClose? xs = some (body, rest))
    (more : List Char) : splitClose? (xs ++ more) = some (body, rest ++ more) := by
  induction xs generalizing body with
  | nil => cases h
  | cons c xs ih =>
    cases xs with
    | nil => simp [splitClose?] at h
    | cons d xs =>
      by_cases hcd : c = '*' ∧ d = '/'
      · obtain ⟨rfl, rfl⟩ := hcd
        cases h
        rfl
      · have hstep : ∀ zs, splitClose? (c :: d :: zs) =
            (splitClose? (d :: zs)).map fun parts => (c :: parts.1, parts.2) := by
          intro zs
          rw [splitClose?]
          rintro zs' rfl hd
          cases hd
          exact hcd ⟨rfl, rfl⟩
        rw [hstep] at h
        obtain ⟨⟨body', rest'⟩, hs, he⟩ := Option.map_eq_some_iff.1 h
        cases he
        rw [List.cons_append, List.cons_append, hstep]
        rw [show splitClose? (d :: (xs ++ more)) = _ from ih hs]
        rfl

theorem cutSlash_append_newline {xs : List Char} (h : (cutSlash xs).shape ≠ .openComment) :
    cutSlash (xs ++ '\n' :: ys) = (cutSlash xs).more ('\n' :: ys) := by
  have ht := takeWhile_append_newline (p := (· != '\n')) ys (by decide)
  have hd := dropWhile_append_newline (p := (· != '\n')) ys (by decide)
  match xs with
  | [] => rfl
  | x :: xs =>
    by_cases hx : x = '/'
    · subst hx
      simp only [List.cons_append, cutSlash, Cut.more, ht, hd]
    · by_cases hs : x = '*'
      · subst hs
        cases hc : splitClose? xs with
        | none =>
          rw [cutSlash, hc] at h
          exact absurd rfl h
        | some parts =>
          rw [List.cons_append, cutSlash, cutSlash, splitClose?_more hc, hc]
          rfl
      · simp [cutSlash, hx, hs, Cut.more]

/-- A string that is closed stays as it is. -/
theorem cutQuoted_more {xs : List Char} (h : (cutQuoted xs).shape ≠ .openQuote)
    (more : List Char) : cutQuoted (xs ++ more) = (cutQuoted xs).more more := by
  have hd : ∀ {zs : List Char} {quote : Char} {rest : List Char},
      zs.dropWhile (· != '"') = quote :: rest →
        (zs ++ more).takeWhile (· != '"') = zs.takeWhile (· != '"') ∧
          (zs ++ more).dropWhile (· != '"') = quote :: (rest ++ more) := by
    intro zs quote rest hz
    induction zs with
    | nil => cases hz
    | cons z zs ih =>
      simp only [List.dropWhile_cons, List.takeWhile_cons, List.cons_append] at hz ⊢
      split at hz
      · rename_i hq
        simp only [hq, if_true, ih hz, and_self]
      · rename_i hq
        cases hz
        simp [hq]
  unfold cutQuoted at h ⊢
  cases hc : xs.dropWhile (· != '"') with
  | nil =>
    rw [hc] at h
    exact absurd rfl h
  | cons quote rest =>
    dsimp only
    rw [(hd hc).1, (hd hc).2]
    rfl

/-- **A newline ends every lexeme** but one that has to be closed. -/
theorem cut_append_newline {c : Char} {xs : List Char} (hq : (cut c xs).shape ≠ .openQuote)
    (hc : (cut c xs).shape ≠ .openComment) :
    cut c (xs ++ '\n' :: ys) = (cut c xs).more ('\n' :: ys) := by
  have hp : isWordPart '\n' = false := by decide
  unfold cut at hq hc ⊢
  cases hs : singleKind? c with
  | some kind => rfl
  | none =>
    cases hd : doubleKinds? c with
    | some kinds =>
      match xs with
      | [] => rfl
      | x :: xs =>
        by_cases hx : x = '='
        · subst hx
          rfl
        · simp [hx, Cut.more]
    | none =>
      simp only [hs, hd] at hq hc ⊢
      split
      · rename_i h
        rw [if_pos h] at hc
        exact cutSlash_append_newline ys hc
      · rename_i h
        rw [if_neg h] at hq
        split
        · rfl
        · rename_i h
          rw [if_neg h] at hq
          split
          · rfl
          · rename_i h
            rw [if_neg h] at hq
            split
            · rename_i h
              rw [if_pos h] at hq
              exact cutQuoted_more hq _
            · split
              · exact cutNumeral_append_newline ys xs
              · split
                · simp only [Cut.more, takeWhile_append_newline ys hp,
                    dropWhile_append_newline ys hp]
                · rfl

/-- **The lexemes of two texts with a newline between them**, if all that has to be closed in
the first is closed. -/
theorem lexemes_append_newline {xs : List Char}
    (h : ∀ lexeme ∈ lexemes xs, lexeme.shape ≠ .openQuote ∧ lexeme.shape ≠ .openComment) :
    lexemes (xs ++ '\n' :: ys) = lexemes xs ++ ⟨.newline, ['\n']⟩ :: lexemes ys := by
  -- a lexeme is never empty, so the texts that are left get shorter
  induction hn : xs.length using Nat.strongRecOn generalizing xs with
  | ind n ih =>
    cases xs with
    | nil => exact lexemes_cons '\n' ys
    | cons c xs =>
      rw [lexemes_cons] at h
      obtain ⟨hhead, hrest⟩ := List.forall_mem_cons.1 h
      have hlt : (cut c xs).rest.length < n := by
        rw [← hn, List.length_cons]
        exact Nat.lt_succ_of_le (length_cut_rest_le c xs)
      rw [List.cons_append, lexemes_cons, lexemes_cons, cut_append_newline ys hhead.1 hhead.2]
      dsimp only [Cut.more]
      rw [ih _ hlt hrest rfl, List.cons_append]

end Newline

/-! ## Lines -/

/-- The placed lexeme, further down. -/
def Placed.down (lines : Nat) (p : Placed) : Placed :=
  { p with firstLine := p.firstLine + lines, lastLine := p.lastLine + lines }

theorem place_append (line : Nat) (ls ms : List Lexeme) :
    place line (ls ++ ms) =
      place line ls ++ place (line + newlines (ls.flatMap Lexeme.text)) ms := by
  induction ls generalizing line with
  | nil => rfl
  | cons lexeme ls ih =>
    rw [List.cons_append, place, place, ih, List.cons_append, List.flatMap_cons]
    simp only [newlines, List.count_append, Nat.add_assoc]

/-- Every lexeme is placed. -/
theorem exists_mem_place (line : Nat) {ls : List Lexeme} {lexeme : Lexeme} (h : lexeme ∈ ls) :
    ∃ p ∈ place line ls, p.lexeme = lexeme := by
  induction ls generalizing line with
  | nil => cases h
  | cons other ls ih =>
    rcases List.mem_cons.1 h with rfl | h
    · exact ⟨_, List.mem_cons_self, rfl⟩
    · obtain ⟨p, hp, hl⟩ := ih (line + newlines other.text) h
      exact ⟨p, List.mem_cons_of_mem _ hp, hl⟩

theorem place_add (line lines : Nat) (ls : List Lexeme) :
    place (line + lines) ls = (place line ls).map (Placed.down lines) := by
  induction ls generalizing line with
  | nil => rfl
  | cons lexeme ls ih =>
    have hl : line + lines + newlines lexeme.text = line + newlines lexeme.text + lines := by omega
    rw [place, place, List.map_cons, hl, ih]
    rfl

/-- The lexemes of a text put together are the text. -/
theorem flatMap_lexemes (xs : List Char) : (lexemes xs).flatMap Lexeme.text = xs := by
  induction hn : xs.length using Nat.strongRecOn generalizing xs with
  | ind n ih =>
    cases xs with
    | nil => rfl
    | cons c xs =>
      have hlt : (cut c xs).rest.length < n := by
        rw [← hn, List.length_cons]
        exact Nat.lt_succ_of_le (length_cut_rest_le c xs)
      rw [lexemes_cons, List.flatMap_cons, ih _ hlt _ rfl, List.cons_append, cut_append]

theorem Placed.token?_down (lines : Nat) (p : Placed) :
    (p.down lines).token? = p.token?.map (Relabel.down lines).token := by
  unfold Placed.token?
  rw [Option.map_map]
  refine congrArg (Option.map · _) (funext fun made => ?_)
  exact congrArg (Token.mk made.1 (String.ofList p.lexeme.text) made.2) (Int.natCast_add ..)

theorem Placed.error?_down (lines : Nat) (p : Placed) :
    (p.down lines).error? = none ↔ p.error? = none := by
  obtain ⟨⟨shape, text⟩, first, last⟩ := p
  cases shape with
  | unexpected | openQuote | openComment => exact ⟨nofun, nofun⟩
  | _ => exact Iff.rfl

/-- **The placed lexemes of two sources with a newline between them.** -/
theorem placedLexemes_append_newline {first : String} (second : String)
    (h : (scan first).errors = []) :
    placedLexemes (first ++ "\n" ++ second) = placedLexemes first ++
      ⟨⟨.newline, ['\n']⟩, 1 + newlines first.toList, 1 + newlines first.toList + 1⟩ ::
        (placedLexemes second).map (Placed.down (newlines first.toList + 1)) := by
  have hclosed : ∀ lexeme ∈ lexemes first.toList,
      lexeme.shape ≠ .openQuote ∧ lexeme.shape ≠ .openComment := by
    intro lexeme hl
    obtain ⟨p, hp, rfl⟩ := exists_mem_place 1 hl
    have hfault : p.lexeme.shape.error? p.firstLine p.lastLine = none :=
      List.filterMap_eq_nil_iff.1 h p hp
    constructor <;> intro hs <;> rw [hs] at hfault <;> cases hfault
  have hsource : (first ++ "\n" ++ second).toList = first.toList ++ '\n' :: second.toList := by
    simp
  rw [placedLexemes, hsource, lexemes_append_newline _ hclosed, place_append, flatMap_lexemes,
    place]
  have hline : 1 + newlines first.toList + newlines ['\n'] = 1 + (newlines first.toList + 1) := rfl
  rw [hline, place_add]
  rfl

/-- **The tokens of two sources with a newline between them.**  Those of the second are further
down, and no new lexical faults turn up. -/
theorem scan_append_newline {first : String} (second : String)
    (h : (scan first).errors = []) :
    (scan (first ++ "\n" ++ second)).tokens = (scan first).tokens ++
        (scan second).tokens.map (Relabel.down (newlines first.toList + 1)).token ∧
      ((scan second).errors = [] → (scan (first ++ "\n" ++ second)).errors = []) := by
  have hplaced := placedLexemes_append_newline second h
  constructor
  · have hdown : Placed.token? ∘ Placed.down (newlines first.toList + 1) = fun p =>
        p.token?.map (Relabel.down (newlines first.toList + 1)).token :=
      funext fun p => p.token?_down _
    simp only [scan, hplaced, List.filterMap_append, List.filterMap_cons, List.filterMap_map,
      List.map_filterMap, hdown]
    rfl
  · intro hs
    have hs : ∀ p ∈ placedLexemes second, p.error? = none := List.filterMap_eq_nil_iff.1 hs
    simp only [scan, hplaced, List.filterMap_append, List.append_eq_nil_iff]
    refine ⟨h, List.filterMap_eq_nil_iff.2 (List.forall_mem_cons.2 ⟨rfl, ?_⟩)⟩
    intro p hp
    obtain ⟨q, hq, rfl⟩ := List.mem_map.1 hp
    exact (q.error?_down _).2 (hs q hq)

end ScopedScript
