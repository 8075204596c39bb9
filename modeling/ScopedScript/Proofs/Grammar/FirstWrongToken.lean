import ScopedScript.Proofs.Grammar.NearestElse
import ScopedScript.Proofs.Grammar.ReadersFollow
import ScopedScript.Proofs.Grammar.Recovery
import ScopedScript.Proofs.Grammar.Recognition

/-!
# Errors point at the first wrong token

Where the reader of declarations misses something, the tokens before are the beginning of some
declaration, and the token that is blamed makes this impossible.  Where the input ends too early,
the tokens are the beginning of a declaration and not one themselves.

The declarations are those of the relaxed grammar.  All declarations of the grammar are among them.
What the readers judge afterwards is the only reason for which one of them is not read.

## Main definitions

* `Form.Viable`: tokens with which something of the form begins.
* `ParseError.SaysEnd`: the error says that the input ended too early.

## Main results

* `Derives.matches_declaration`: the relaxed grammar has the declarations of the grammar.
* `readDeclaration_blames_first_wrong_token`: errors point at the first wrong token.
-/

namespace ScopedScript

open Form Reader

/-- **Something of the form begins with the tokens.** -/
def Form.Viable (form : Form) (ts : List Token) : Prop := ∃ more, Matches form (ts ++ more)

/-- The error says that the input ended too early. -/
def ParseError.SaysEnd (e : ParseError) : Prop :=
  (∃ what, e.fault = .expected what ∧ e.message = what.message ++ ", reached end of input") ∨
    e.fault = .noExpression ∧ e.message = "Unexpected end of input, expect expression"

theorem ParseError.saysEnd_of_remaining {e : ParseError} (hg : e.fault.isGap = true)
    (hr : e.remaining = []) : e.SaysEnd := by
  obtain ⟨fault, remaining⟩ := e
  obtain rfl : remaining = [] := hr
  cases fault with
  | expected what => exact .inl ⟨what, rfl, rfl⟩
  | noExpression => exact .inr ⟨rfl, rfl⟩
  | _ => cases hg

theorem ParseError.blamesLast_eq {e : ParseError} (hg : e.fault.isGap = true) :
    e.blamesLast = atEnd e.remaining := by
  obtain ⟨fault, remaining⟩ := e
  cases fault with
  | tooManyParameters => cases hg
  | _ => rfl

/-- **The relaxed grammar has the declarations of the grammar.** -/
theorem Derives.matches_declaration {nearest dangling : Bool} {s : Stmt} {ts : List Token}
    (h : Derives nearest (.declaration dangling s) ts) : Matches (.ref .declaration) ts := by
  obtain ⟨d, s', h⟩ := h.regroups
  obtain ⟨used, he, hm⟩ := ((followsAt _).declaration 0).reads
    (h.isRead (Nat.le_refl _) (not_begins_nil _))
  rw [List.append_nil, List.append_nil] at he
  exact he ▸ hm

/-- The reader goes along any declaration. -/
theorem readDeclaration_fares {s : Sight} {word tokens : List Token}
    (hw : Matches (.ref .declaration) word) (ht : s.OnTrack (word ++ []) tokens) :
    Fares s [] [] (readDeclaration tokens) :=
  ((followsAt (depthBound tokens)).declaration _).keeps_closed (Nat.le_refl _) hw
    (not_begins_nil _) ht

section

variable {tokens left : List Token} {e : ParseError}
  (h : readDeclaration tokens = .error (.error e) left) (hf : e.fault.isRelaxed = false)

include h hf

/-- The tokens before the one that is blamed are the beginning of a declaration. -/
theorem readDeclaration_viable : e.fault.isGap = true ∧
    ∃ before, tokens = before ++ e.remaining ∧ Viable (.ref .declaration) before := by
  obtain ⟨hg, used, more, hu, hm⟩ := ((followsAt _).declaration 0).stops h hf
  exact ⟨hg, used, hu, more, hm⟩

/-- The token that is blamed cannot come where it does. -/
theorem readDeclaration_not_viable {before rest : List Token} {t : Token}
    (he : tokens = before ++ e.remaining) (hr : e.remaining = t :: rest) :
    ¬ Viable (.ref .declaration) (before ++ [t]) := by
  rintro ⟨more, hm⟩
  have ht : Sight.OnTrack (.upTo more rest) (before ++ [t] ++ more ++ []) tokens :=
    ⟨before ++ [t], by simp, by simp, by simp [he, hr]⟩
  have hk := readDeclaration_fares hm ht
  rw [h] at hk
  cases hk with
  | error hp =>
    have hp : e.remaining.length ≤ rest.length := hp hf
    rw [hr, List.length_cons] at hp
    omega

/-- The tokens are no declaration. -/
theorem readDeclaration_not_matches : ¬ Matches (.ref .declaration) tokens := by
  intro hm
  have hk := readDeclaration_fares (s := .whole) hm (List.append_nil tokens)
  rw [h] at hk
  cases hk with
  | error hp => exact hp hf

end

/-- **Errors point at the first wrong token.**  Let reading a declaration fail, and not because of
an assignment target or the number of parameters or arguments.  Then the token that is blamed is
the first with which no declaration begins, or the error says that the input ended too early: some
declaration begins with all of the tokens, but they are not yet a declaration. -/
theorem readDeclaration_blames_first_wrong_token {tokens left : List Token} {e : ParseError}
    (ht : ∀ t ∈ tokens, t.kind ≠ .eof) (h : readDeclaration tokens = .error (.error e) left)
    (hf : e.fault.isRelaxed = false) :
    (∃ t, e.token? tokens = some t ∧ tokens[e.position tokens]? = some t ∧
      Viable (.ref .declaration) (tokens.take (e.position tokens)) ∧
      ¬ Viable (.ref .declaration) (tokens.take (e.position tokens + 1))) ∨
    (e.SaysEnd ∧ (∃ more, more ≠ [] ∧ Matches (.ref .declaration) (tokens ++ more)) ∧
      ¬ Matches (.ref .declaration) tokens) := by
  obtain ⟨hg, before, he, hv⟩ := readDeclaration_viable h hf
  rcases hr : e.remaining with _ | ⟨t, rest⟩
  · rw [hr, List.append_nil] at he
    obtain ⟨more, hm⟩ := hv
    have hn := readDeclaration_not_matches h hf
    refine .inr ⟨e.saysEnd_of_remaining hg hr, ⟨more, ?_, he ▸ hm⟩, hn⟩
    rintro rfl
    rw [List.append_nil, ← he] at hm
    exact hn hm
  · have hb : e.blamesLast = false := by
      rw [e.blamesLast_eq hg, hr]
      exact beq_eq_false_iff_ne.2 (ht t (by simp [he, hr]))
    have hp : e.position tokens = before.length := by
      rw [ParseError.position, hb, he]
      simp
    have hn := readDeclaration_not_viable h hf he hr
    rw [hr] at he
    refine .inl ⟨t, by rw [e.token?_eq_ite, hb, hr]; rfl, ?_⟩
    rw [hp, he]
    simpa [List.take_append, List.take_of_length_le] using ⟨hv, hn⟩

/-- A parenthesis is not closed: `print (a` begins a declaration, and `print (a;` does not. -/
theorem blames_first_wrong_token_unclosed :
    let tokens : List Token := [⟨.print, "print", .absent, 1⟩, ⟨.leftParen, "(", .absent, 1⟩,
      .ident "a" 1, ⟨.semicolon, ";", .absent, 1⟩]
    (∀ t ∈ tokens, t.kind ≠ .eof) ∧ (∃ e left, readDeclaration tokens = .error (.error e) left ∧
      e.fault.isRelaxed = false) ∧ Viable (.ref .declaration) (tokens.take 3) ∧
      ¬ Viable (.ref .declaration) (tokens.take 4) := by
  intro tokens
  have ht : ∀ t ∈ tokens, t.kind ≠ .eof := by decide
  have h : readDeclaration tokens = .error (.error ⟨.expected .groupClose,
      [⟨.semicolon, ";", .absent, 1⟩]⟩) [⟨.semicolon, ";", .absent, 1⟩] := rfl
  refine ⟨ht, ⟨_, _, h, rfl⟩, ?_⟩
  rcases readDeclaration_blames_first_wrong_token ht h rfl with ⟨t, -, -, hv⟩ | ⟨hs, -⟩
  · exact hv
  · rcases hs with ⟨what, hw, hm⟩ | ⟨hw, -⟩
    · cases hw
      exact absurd hm (by decide)
    · cases hw

end ScopedScript
