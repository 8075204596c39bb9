import ScopedScript.Proofs.FrontEnd
import ScopedScript.Proofs.Grammar.Boundaries

/-!
# Recovery from errors

After an error, reading goes on at the next statement.  So reading splits its input into segments,
one after the other: each is a declaration that was read, or was discarded with one error, up to a
place where a statement may begin.  The segments are not empty and come up to the end of the input,
and the tokens that are blamed come one after the other too, so that no token is blamed twice.

There is one exception.  Where the input ends in a parameter list that is full, after a comma,
reading halts, and what is left then is no segment.

## Main definitions

* `Segment`, `Segment.Fits`: a piece of the input, and that it fits what comes after it.
* `Splits tokens segments rest`: the segments come one after the other, up to `rest`.
* `ParseError.position`: where the token is that an error blames.

## Main results

* `readProgram_splits`: the statements and the errors of a program are those of its segments.
* `Splits.positions`: the tokens that are blamed come one after the other.
* `recovery_splits_input`: recovery from errors splits the input.
-/

namespace ScopedScript

/-! ## Where reading goes on -/

section

variable {tokens left : List Token}

/-- The keywords that a statement begins with, so that reading may go on there. -/
def statementKeywords : List TokenKind :=
  [.class, .fun, .var, .for, .if, .while, .print, .return]

theorem startsStatement_iff {kind : TokenKind} :
    startsStatement kind = true ↔ kind ∈ statementKeywords := by
  cases kind <;> decide

/-- **A place where a statement may begin**, between the tokens before it and the tokens after it:
at the end of the input, after a semicolon, or before a keyword. -/
def Boundary (before after : List Token) : Prop :=
  atEnd after = true ∨ EndsIn [.semicolon] before ∨ Begins statementKeywords after

theorem EndsIn.append_left {kinds : List TokenKind} {after : List Token} (h : EndsIn kinds after)
    (before : List Token) : EndsIn kinds (before ++ after) := by
  obtain ⟨start, last, rfl, hl⟩ := h
  exact ⟨before ++ start, last, by simp, hl⟩

theorem Boundary.append_left {after : List Token} (h : Boundary left after)
    (before : List Token) : Boundary (before ++ left) after :=
  h.imp_right <| Or.imp_left fun he => he.append_left before

theorem nextStatement_boundary (previous : Token) (tokens : List Token) :
    ∃ passed, tokens = passed ++ nextStatement previous tokens ∧
      Boundary (previous :: passed) (nextStatement previous tokens) := by
  induction tokens generalizing previous with
  | nil => exact ⟨[], rfl, .inl rfl⟩
  | cons t tokens ih =>
    rw [nextStatement]
    split
    · next h =>
      refine ⟨[], rfl, ?_⟩
      rcases h with he | hs | hk
      · exact .inl (by simp [atEnd, he])
      · exact .inr (.inl ⟨[], previous, rfl, by simp [hs]⟩)
      · exact .inr (.inr (startsStatement_iff.1 hk))
    · obtain ⟨passed, hp, hb⟩ := ih t
      exact ⟨t :: passed, congrArg (t :: ·) hp, hb.append_left [previous]⟩

/-- **Reading goes on where a statement may begin.** -/
theorem synchronize_boundary (tokens : List Token) :
    ∃ passed, tokens = passed ++ synchronize tokens ∧ Boundary passed (synchronize tokens) := by
  cases tokens with
  | nil => exact ⟨[], rfl, .inl rfl⟩
  | cons t tokens =>
    rw [synchronize]
    split
    · next he => exact ⟨[], rfl, .inl (by simp [atEnd, he])⟩
    · obtain ⟨passed, hp, hb⟩ := nextStatement_boundary t tokens
      exact ⟨t :: passed, congrArg (t :: ·) hp, hb⟩

theorem synchronize_of_atEnd (h : atEnd tokens = true) : synchronize tokens = tokens := by
  cases tokens with
  | nil => rfl
  | cons t tokens => rw [synchronize, if_pos (by simpa [atEnd] using h)]

end

/-! ## Segments -/

/-- **A piece of the input**: a declaration that was read, or tokens that were discarded with an
error. -/
inductive Segment where
  | statement (tokens : List Token) (tree : Stmt)
  | discarded (tokens : List Token) (error : ParseError)

def Segment.tokens : Segment → List Token
  | statement tokens _ | discarded tokens _ => tokens

def Segment.tree? : Segment → Option Stmt
  | statement _ tree => some tree
  | discarded _ _ => none

def Segment.error? : Segment → Option ParseError
  | statement _ _ => none
  | discarded _ error => some error

/-- **The segment fits what comes after it.**  A declaration is read from its tokens and leaves what
comes after; from discarded tokens none is read, and they end where a statement may begin. -/
def Segment.Fits (rest : List Token) : Segment → Prop
  | statement tokens tree => readDeclaration (tokens ++ rest) = .ok tree rest
  | discarded tokens error =>
    (∃ left, readDeclaration (tokens ++ rest) = .error (.error error) left ∧
      synchronize left = rest) ∧ Boundary tokens rest

/-- **The input is split into segments**, one after the other, up to `rest`.  None of them is empty,
and none has a token that is the end of the input. -/
inductive Splits : List Token → List Segment → List Token → Prop
  | done (tokens : List Token) : Splits tokens [] tokens
  | more {segment : Segment} {segments : List Segment} {tokens rest : List Token}
    (hn : segment.tokens ≠ []) (he : ∀ t ∈ segment.tokens, t.kind ≠ .eof)
    (hf : segment.Fits tokens) (hs : Splits tokens segments rest) :
    Splits (segment.tokens ++ tokens) (segment :: segments) rest

/-- **How reading ends**: at the end of the input, or in a full parameter list that is not
finished. -/
def Reading.EndsAt (reading : Reading) (rest : List Token) : Prop :=
  (reading.halt = none ∧ reading.rest = rest ∧ atEnd rest = true) ∨
    (reading.halt = some .pastEnd ∧ atEnd rest = false ∧
      (∃ left, readDeclaration rest = .error (.halt .pastEnd) left) ∧ InParameters maxArity rest)

section

variable {tokens rest left : List Token}

/-- A declaration that is read is a segment. -/
theorem exists_segment_of_ok {s : Stmt} (hr : readDeclaration tokens = .ok s rest) :
    ∃ used, tokens = used ++ rest ∧ used ≠ [] ∧ (∀ t ∈ used, t.kind ≠ .eof) ∧
      (Segment.statement used s).Fits rest := by
  have hlt := length_lt_of_readDeclaration hr
  obtain ⟨used, rfl, he⟩ := leads_of_readDeclaration hr
  refine ⟨used, rfl, ?_, he, hr⟩
  rintro rfl
  exact Nat.lt_irrefl _ hlt

/-- A declaration that has an error is a segment together with what is passed over after it. -/
theorem exists_segment_of_error {e : ParseError} (ha : atEnd tokens = false)
    (hr : readDeclaration tokens = .error (.error e) left) :
    ∃ used, tokens = used ++ synchronize left ∧ used ≠ [] ∧ (∀ t ∈ used, t.kind ≠ .eof) ∧
      (Segment.discarded used e).Fits (synchronize left) := by
  obtain ⟨hb, hb', -⟩ := readDeclaration_blames hr
  have hlt := length_synchronize_lt ha (hb.trans hb')
  obtain ⟨read, hread, -⟩ := hb.trans hb'
  obtain ⟨passed, hpassed, hbound⟩ := synchronize_boundary left
  obtain ⟨used, hu, he⟩ := (hb.trans hb').trans (leads_synchronize left)
  -- the tokens before the place where reading goes on are those two pieces
  have hsplit : used ++ synchronize left = (read ++ passed) ++ synchronize left := by
    rw [← hu, hread, List.append_assoc, ← hpassed]
  obtain rfl := List.append_cancel_right hsplit
  refine ⟨read ++ passed, hu, ?_, he, ⟨left, hu ▸ hr, rfl⟩, hbound.append_left read⟩
  intro h
  rw [h, List.nil_append] at hu
  exact Nat.lt_irrefl _ (hu ▸ hlt)

end

/-- **A program is read segment by segment.** -/
theorem readProgram_splits (tokens : List Token) :
    ∃ segments rest, Splits tokens segments rest ∧
      (readProgram tokens).statements = segments.filterMap Segment.tree? ∧
      (readProgram tokens).errors = segments.filterMap Segment.error? ∧
      (readProgram tokens).EndsAt rest := by
  -- Every segment is shorter than the input, as it is not empty.
  induction hl : tokens.length using Nat.strongRecOn generalizing tokens with
  | ind n ih =>
    subst hl
    cases ha : atEnd tokens with
    | true =>
      rw [readProgram_of_atEnd ha]
      exact ⟨[], tokens, .done tokens, rfl, rfl, .inl ⟨rfl, rfl, ha⟩⟩
    | false =>
      cases hr : readDeclaration tokens with
      | ok s rest =>
        obtain ⟨segments, last, hs, ht, hx, hends⟩ :=
          ih _ (length_lt_of_readDeclaration hr) rest rfl
        obtain ⟨used, rfl, hn, he, hf⟩ := exists_segment_of_ok hr
        have hm : Splits _ (.statement used s :: segments) last := .more hn he hf hs
        rw [readProgram_of_ok ha hr]
        exact ⟨.statement used s :: segments, last, hm, congrArg (s :: ·) ht, hx, hends⟩
      | error failure left =>
        cases failure with
        | error e =>
          obtain ⟨hb, hb', -⟩ := readDeclaration_blames hr
          obtain ⟨segments, last, hs, ht, hx, hends⟩ :=
            ih _ (length_synchronize_lt ha (hb.trans hb')) _ rfl
          obtain ⟨used, hu, hn, he, hf⟩ := exists_segment_of_error ha hr
          have hm : Splits _ (.discarded used e :: segments) last := .more hn he hf hs
          rw [readProgram_of_error ha hr]
          exact ⟨.discarded used e :: segments, last, hu ▸ hm, ht, congrArg (e :: ·) hx, hends⟩
        | halt h =>
          have hp := readProgram_of_halt ha hr
          obtain ⟨rfl, hin⟩ := readProgram_halt (congrArg Reading.halt hp)
          rw [hp]
          exact ⟨[], tokens, .done tokens, rfl, rfl, .inr ⟨rfl, ha, ⟨left, hr⟩, hin⟩⟩

/-! ## The tokens that are blamed -/

namespace ParseError

/-- Whether the last token is blamed, as the input ended too early. -/
def blamesLast (e : ParseError) : Bool :=
  match e.fault with
  | .tooManyParameters _ => false
  | _ => atEnd e.remaining

/-- **Where the token is that an error blames**, in the whole token list. -/
def position (e : ParseError) (tokens : List Token) : Nat :=
  tokens.length - if e.blamesLast then 1 else e.remaining.length

theorem token?_eq_ite (e : ParseError) (tokens : List Token) :
    e.token? tokens = if e.blamesLast then tokens.getLast? else e.remaining.head? := by
  obtain ⟨fault, remaining⟩ := e
  cases fault <;> rfl

theorem atEnd_of_blamesLast {e : ParseError} (h : e.blamesLast = true) :
    atEnd e.remaining = true := by
  unfold blamesLast at h
  split at h
  · cases h
  · exact h

/-- A token that is there is blamed, or the last one. -/
theorem remaining_ne_nil {e : ParseError} (h : e.blamesLast = false)
    (hp : ∀ owner, e.fault = .tooManyParameters owner → e.remaining ≠ []) : e.remaining ≠ [] := by
  unfold blamesLast at h
  split at h
  · next owner ho => exact hp owner ho
  · intro he
    rw [he] at h
    cases h

end ParseError

section

variable {whole tokens left : List Token} {e : ParseError}

theorem atEnd_append_eq_false {before : List Token} (hn : before ≠ [])
    (he : ∀ t ∈ before, t.kind ≠ .eof) (after : List Token) : atEnd (before ++ after) = false := by
  obtain ⟨t, more, rfl⟩ := List.exists_cons_of_ne_nil hn
  exact beq_eq_false_iff_ne.2 (he t List.mem_cons_self)

theorem length_pos_of_not_atEnd (h : atEnd tokens = false) : 0 < tokens.length := by
  cases tokens with
  | nil => cases h
  | cons t tokens => simp

theorem Leads.eq_of_atEnd (h : Leads tokens left) (ha : atEnd tokens = true) : left = tokens := by
  obtain ⟨passed, rfl, hp⟩ := h
  cases passed with
  | nil => rfl
  | cons t passed => exact absurd (beq_iff_eq.1 ha) (hp t List.mem_cons_self)

theorem Leads.head?_eq (h : Leads whole left) :
    left.head? = whole[whole.length - left.length]? := by
  obtain ⟨passed, rfl, -⟩ := h
  rw [List.length_append, Nat.add_sub_cancel, List.getElem?_append_right (Nat.le_refl _),
    Nat.sub_self, List.head?_eq_getElem?]

/-- The token that is blamed is the one at the position. -/
theorem ParseError.token?_eq_getElem? (h : Leads whole e.remaining) :
    e.token? whole = whole[e.position whole]? := by
  rw [token?_eq_ite, position]
  split
  · exact List.getLast?_eq_getElem?
  · exact h.head?_eq

/-- **An error is blamed on a token of its segment**, or on the last of all. -/
theorem ParseError.position_bounds (h : Leads whole tokens) (ha : atEnd tokens = false)
    (hr : readDeclaration tokens = .error (.error e) left) :
    whole.length - tokens.length ≤ e.position whole ∧ e.position whole < whole.length := by
  obtain ⟨hs, -, hp⟩ := readDeclaration_blames hr
  have hpos := length_pos_of_not_atEnd ha
  have hle := h.length_le
  unfold position
  cases hb : e.blamesLast with
  | true =>
    rw [if_pos rfl]
    omega
  | false =>
    have hrem := List.length_pos_iff.2 (remaining_ne_nil hb hp)
    have hle' := hs.length_le
    rw [if_neg Bool.false_ne_true]
    omega

/-- **Nothing is left to blame from there on**: reading goes on after the token that is blamed, or
it has come to the end. -/
theorem ParseError.position_lt (h : Leads whole tokens)
    (hr : readDeclaration tokens = .error (.error e) left) :
    atEnd (synchronize left) = true ∨
      e.position whole < whole.length - (synchronize left).length := by
  obtain ⟨hs, hl, -⟩ := readDeclaration_blames hr
  cases ha : atEnd e.remaining with
  | true =>
    rw [hl.eq_of_atEnd ha, synchronize_of_atEnd ha]
    exact .inl ha
  | false =>
    have hb : e.blamesLast = false :=
      Bool.eq_false_iff.2 fun hb => by simp [atEnd_of_blamesLast hb] at ha
    have hlt := length_synchronize_lt ha hl
    have hle := (h.trans hs).length_le
    rw [position, hb, if_neg Bool.false_ne_true]
    exact .inr (by omega)

end

namespace Splits

variable {whole tokens rest : List Token} {segments : List Segment}

/-- At the end of the input there are no more segments. -/
theorem eq_nil_of_atEnd (h : Splits tokens segments rest) (ha : atEnd tokens = true) :
    segments = [] := by
  cases h with
  | done => rfl
  | @more segment _ _ _ hn he _ _ =>
    rw [atEnd_append_eq_false hn he] at ha
    cases ha

/-- **The tokens that are blamed come one after the other.** -/
theorem positions (h : Splits tokens segments rest) (hw : Leads whole tokens) :
    (∀ e ∈ segments.filterMap Segment.error?, whole.length - tokens.length ≤ e.position whole ∧
        e.position whole < whole.length ∧ e.token? whole = whole[e.position whole]?) ∧
      ((segments.filterMap Segment.error?).map (·.position whole)).Pairwise (· < ·) := by
  induction h with
  | done => simp
  | @more segment segments tokens rest hn he hf hs ih =>
    have hl : Leads (segment.tokens ++ tokens) tokens := ⟨_, rfl, he⟩
    have ha := atEnd_append_eq_false hn he tokens
    obtain ⟨hb, hp⟩ := ih (hw.trans hl)
    have hle := hl.length_le
    have hb' : ∀ e ∈ segments.filterMap Segment.error?,
        whole.length - (segment.tokens ++ tokens).length ≤ e.position whole ∧
          e.position whole < whole.length ∧ e.token? whole = whole[e.position whole]? := by
      intro e hm
      obtain ⟨h₁, h₂, h₃⟩ := hb e hm
      exact ⟨by omega, h₂, h₃⟩
    cases segment with
    | statement used tree => exact ⟨hb', hp⟩
    | discarded used e =>
      obtain ⟨⟨left, hr, hsync⟩, -⟩ := hf
      have hbounds := ParseError.position_bounds hw ha hr
      have htoken := ParseError.token?_eq_getElem? (hw.trans (readDeclaration_blames hr).1)
      refine ⟨List.forall_mem_cons.2 ⟨⟨hbounds.1, hbounds.2, htoken⟩, hb'⟩, ?_⟩
      refine List.pairwise_cons.2 ⟨List.forall_mem_map.2 fun e' hm => ?_, hp⟩
      rcases ParseError.position_lt hw hr with hend | hlt
      · rw [hsync] at hend
        rw [hs.eq_nil_of_atEnd hend] at hm
        cases hm
      · rw [hsync] at hlt
        exact Nat.lt_of_lt_of_le hlt (hb e' hm).1

end Splits

/-- **Recovery from errors splits the input.**  On every token list, reading a program splits the
tokens before the end of the input into segments, one after the other and none of them empty: each
is read as a declaration, and these are the statements in order, or is discarded with one error, up
to a place where a statement may begin.  The tokens that are blamed stand at increasing positions.
Only in a full parameter list that is not finished does reading halt before the end. -/
theorem recovery_splits_input (tokens : List Token) :
    ∃ segments rest, Splits tokens segments rest ∧
      (readProgram tokens).statements = segments.filterMap Segment.tree? ∧
      (readProgram tokens).errors = segments.filterMap Segment.error? ∧
      ((readProgram tokens).errors.map (·.position tokens)).Pairwise (· < ·) ∧
      (∀ e ∈ (readProgram tokens).errors, e.position tokens < tokens.length ∧
        e.token? tokens = tokens[e.position tokens]?) ∧
      (readProgram tokens).EndsAt rest := by
  obtain ⟨segments, rest, hs, ht, he, hends⟩ := readProgram_splits tokens
  obtain ⟨hb, hp⟩ := hs.positions (.refl tokens)
  rw [← he] at hb hp
  exact ⟨segments, rest, hs, ht, he, hp, fun e hm => (hb e hm).2, hends⟩

/-- **Nothing can be split off** where reading halts. -/
theorem Splits.rest_eq_of_halt {tokens rest left : List Token} {segments : List Segment}
    {halt : ParseHalt} (hs : Splits tokens segments rest)
    (hr : readDeclaration tokens = .error (.halt halt) left) : rest = tokens := by
  cases hs with
  | done => rfl
  | @more segment segments tokens _ _ _ hf _ =>
    cases segment with
    | statement used tree =>
      change readDeclaration (used ++ tokens) = _ at hr hf
      rw [hr] at hf
      cases hf
    | discarded used e =>
      obtain ⟨⟨left, hf, -⟩, -⟩ := hf
      change readDeclaration (used ++ tokens) = _ at hr
      rw [hr] at hf
      cases hf

/-- So a function with a full parameter list that is not finished is not split, and no error says
so. -/
theorem UnfinishedFunction.not_splits {tokens : List Token} (h : UnfinishedFunction tokens) :
    (¬ ∃ segments rest, Splits tokens segments rest ∧ atEnd rest = true) ∧
      (readProgram tokens).errors = [] := by
  have ha : atEnd tokens = false := not_atEnd_of_begins h.begins (by decide)
  have hr : readDeclaration tokens = .error (.halt .pastEnd) [] := h.declaration_halts _
  refine ⟨?_, congrArg Reading.errors (readProgram_of_halt ha hr)⟩
  rintro ⟨segments, rest, hs, hend⟩
  rw [hs.rest_eq_of_halt hr, ha] at hend
  cases hend

/-- **The input is not always split up to its end.** -/
theorem openFunction_not_split :
    (¬ ∃ segments rest, Splits (scan (openFunction maxArity)).tokens segments rest ∧
        atEnd rest = true) ∧
      (readProgram (scan (openFunction maxArity)).tokens).errors = [] :=
  unfinishedFunction_openFunction.not_splits

end ScopedScript
