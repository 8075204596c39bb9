import ScopedScript.Proofs.Grammar.Complete
import ScopedScript.Proofs.Grammar.Forms
import ScopedScript.Proofs.Grammar.Stops

/-!
# Readers that follow a form

A reader follows a form if it goes by this form from token to token.  Then it reads only tokens of
the form, and where it stops for want of a token, what it has passed over can be completed.  The
third part says that it does not stop too early either: as long as the tokens are those of some word
of the form, the reader goes along this word, and so it comes through to the end of it or past the
place up to which the word is known.

A statement may be extended by `else` and another statement, more than once.  Where it stands, it is
not the grammar that says which `if` an `else` belongs to, but the reader takes as many as it can.
So a reader may go on into blocks that are trailing after the word, and leaves some of the last.

There is one lemma for each way in which readers are put together.

## Main definitions

* `Sight`: up to where the tokens are those of a word.
* `Reader.Fares`: how a reader fares that goes along a word.
* `Reader.Follows`: a reader follows a form.

## Main results

* `Reader.Follows.bind`, `Reader.Follows.choose`, `Reader.Follows.optional`: readers put together.
-/

namespace ScopedScript

/-! ## Faults -/

/-- Something else had to come next. -/
def ParseFault.isGap : ParseFault → Bool
  | expected _ | noExpression => true
  | leftover | invalidTarget | tooManyParameters _ | tooManyArguments => false

/-- The relaxed grammar does not know of the fault: it is about an assignment target, or about the
number of parameters or arguments. -/
def ParseFault.isRelaxed : ParseFault → Bool
  | invalidTarget | tooManyParameters _ | tooManyArguments => true
  | expected _ | noExpression | leftover => false

/-! ## Going along a word -/

/-- **Up to where the tokens are those of a word**: to the end of both, or to a place from where on
the word has `other` and the tokens have `rest`. -/
inductive Sight where
  | whole
  | upTo (other rest : List Token)

namespace Sight

variable {s : Sight} {word ts us : List Token}

/-- What is left of the tokens and of the word is still before the end of what they share. -/
def OnTrack : Sight → List Token → List Token → Prop
  | whole, word, ts => word = ts
  | upTo other rest, word, ts =>
    ∃ shared, shared ≠ [] ∧ word = shared ++ other ∧ ts = shared ++ rest

/-- What is left of the tokens is after what they share with the word. -/
def Past : Sight → List Token → Prop
  | whole, _ => False
  | upTo _ rest, ts => ts.length ≤ rest.length

theorem Past.of_le (h : s.Past ts) (hl : us.length ≤ ts.length) : s.Past us := by
  cases s with
  | whole => exact h
  | upTo other rest => exact Nat.le_trans hl h

/-- The next token is the next one of the word. -/
theorem OnTrack.cons {t : Token} (h : s.OnTrack (t :: word) ts) :
    ∃ us, ts = t :: us ∧ (s.OnTrack word us ∨ s.Past us) := by
  cases s with
  | whole => exact ⟨word, h.symm, .inl rfl⟩
  | upTo other rest =>
    obtain ⟨shared, hn, hw, rfl⟩ := h
    rcases shared with _ | ⟨t', shared⟩
    · exact absurd rfl hn
    obtain ⟨rfl, rfl⟩ := List.cons.inj hw
    refine ⟨shared ++ rest, rfl, ?_⟩
    by_cases hs : shared = []
    · exact .inr (by simp [Past, hs])
    · exact .inl ⟨shared, hs, rfl, rfl⟩

/-- Before the end of what they share, the tokens can end only where the word does. -/
theorem OnTrack.eq_nil (h : s.OnTrack word []) : s = whole ∧ word = [] := by
  cases s with
  | whole => exact ⟨rfl, h⟩
  | upTo other rest =>
    obtain ⟨shared, hn, -, ht⟩ := h
    exact absurd (List.append_eq_nil_iff.1 ht.symm).1 hn

theorem OnTrack.begins_iff (h : s.OnTrack word ts) {kinds : List TokenKind} :
    Begins kinds ts ↔ Begins kinds word := by
  cases s with
  | whole => rw [show word = ts from h]
  | upTo other rest =>
    obtain ⟨shared, hn, rfl, rfl⟩ := h
    rcases shared with _ | ⟨t, shared⟩
    · exact absurd rfl hn
    · rfl

end Sight

namespace Reader

open Form

variable {α β : Type}

/-- **How a reader fares that goes along a word.**  It comes to what is left after the word, or
after some of the blocks that follow it, or it comes past the place up to which the word is
known. -/
inductive Fares (s : Sight) (blocks : List (List Token)) (after : List Token) :
    EStateM.Result ParseFailure (List Token) α → Prop where
  | through (a : α) {left : List Token} {blocks' : List (List Token)} (hb : blocks' <:+ blocks)
      (h : s.OnTrack (blocks'.flatten ++ after) left) : Fares s blocks after (.ok a left)
  | past (a : α) {left : List Token} (h : s.Past left) : Fares s blocks after (.ok a left)
  | error {e : ParseError} {left : List Token}
      (h : e.fault.isRelaxed = false → s.Past e.remaining) :
    Fares s blocks after (.error (.error e) left)
  | halt (h : ParseHalt) {left : List Token} : Fares s blocks after (.error (.halt h) left)

theorem Fares.widen {s : Sight} {blocks blocks' : List (List Token)} {after : List Token}
    {result : EStateM.Result ParseFailure (List Token) α} (h : Fares s blocks after result)
    (hb : blocks <:+ blocks') : Fares s blocks' after result := by
  cases h with
  | through a h ht => exact .through a (h.trans hb) ht
  | past a h => exact .past a h
  | error h => exact .error h
  | halt h => exact .halt h

/-- Past the place, it does not matter which word was gone along. -/
theorem Fares.of_other {other other' rest : List Token} {blocks : List (List Token)}
    {after : List Token} {result : EStateM.Result ParseFailure (List Token) α}
    (h : Fares (.upTo other rest) [] [] result) :
    Fares (.upTo other' rest) blocks after result := by
  cases h with
  | through a hb h =>
    obtain ⟨shared, hn, hw, -⟩ := h
    rw [List.suffix_nil.1 hb] at hw
    exact absurd (List.append_eq_nil_iff.1 hw.symm).1 hn
  | past a h => exact .past a h
  | error h => exact .error h
  | halt h => exact .halt h

/-- **The reader follows the form** on at most `n` tokens.  It may go on into blocks of the form
`trailing`, but not into what begins with none of `followers`. -/
structure Follows (n : Nat) (r : Reader α) (form trailing : Form) (followers : List TokenKind) :
    Prop where
  /-- What has been read is of this form. -/
  reads ⦃ts rest : List Token⦄ ⦃a : α⦄ (h : r ts = .ok a rest) :
    ∃ used, ts = used ++ rest ∧ Matches form used
  /-- Where something is missing, what comes before can be completed. -/
  stops ⦃ts left : List Token⦄ ⦃e : ParseError⦄ (h : r ts = .error (.error e) left)
    (hf : e.fault.isRelaxed = false) : e.fault.isGap = true ∧
      ∃ used more, ts = used ++ e.remaining ∧ Matches form (used ++ more)
  /-- The reader goes along every word of this form. -/
  keeps ⦃s : Sight⦄ ⦃word after ts : List Token⦄ ⦃blocks : List (List Token)⦄ (hn : ts.length ≤ n)
    (hw : Matches form word) (hb : ∀ block ∈ blocks, Matches trailing block)
    (ha : ¬ Begins followers after) (ht : s.OnTrack (word ++ (blocks.flatten ++ after)) ts) :
    Fares s blocks after (r ts)

namespace Follows

variable {n : Nat} {r : Reader α} {form a b trailing : Form} {followers : List TokenKind}
  {s : Sight} {ts after : List Token} {blocks : List (List Token)}

/-- A reader goes forward, so it does not come back from past the place. -/
theorem past (h : Follows n r form trailing followers) (hp : s.Past ts)
    (blocks : List (List Token)) (after : List Token) : Fares s blocks after (r ts) := by
  rcases hr : r ts with ⟨a, left⟩ | ⟨e | halt, left⟩
  · obtain ⟨used, rfl, -⟩ := h.reads hr
    exact .past a (hp.of_le (by simp))
  · refine .error fun hf => ?_
    obtain ⟨-, used, more, rfl, -⟩ := h.stops hr hf
    exact hp.of_le (by simp)
  · exact .halt halt

theorem of_iff (h : Follows n r a trailing followers)
    (hi : ∀ ts, Matches a ts ↔ Matches b ts) : Follows n r b trailing followers where
  reads _ _ _ hr := (h.reads hr).imp fun _ => And.imp_right (hi _).1
  stops _ _ _ hr hf := (h.stops hr hf).imp_right fun ⟨used, more, hu, hm⟩ =>
    ⟨used, more, hu, (hi _).1 hm⟩
  keeps _ _ _ _ _ hn hw := h.keeps hn ((hi _).2 hw)

/-- Where no blocks follow, the reader comes right after the word. -/
theorem keeps_closed (h : Follows n r form trailing followers) {word : List Token}
    (hn : ts.length ≤ n) (hw : Matches form word) (ha : ¬ Begins followers after)
    (ht : s.OnTrack (word ++ after) ts) : Fares s [] after (r ts) :=
  h.keeps hn hw (by simp) ha ht

theorem ref (rule : Nonterminal) (h : Follows n r rule.rule trailing followers) :
    Follows n r (.ref rule) trailing followers :=
  h.of_iff fun _ => matches_ref_iff.symm

/-- A reader that stops by itself leaves the blocks alone. -/
theorem closed (h : Follows n r form .never []) : Follows n r form trailing followers where
  reads := h.reads
  stops := h.stops
  keeps s word after ts blocks hn hw hb ha ht := by
    have hf := h.keeps_closed hn hw (not_begins_empty (blocks.flatten ++ after)) ht
    generalize r ts = result at hf
    cases hf with
    | through a hb h =>
      rw [List.suffix_nil.1 hb] at h
      exact .through a (List.suffix_refl blocks) h
    | past a h => exact .past a h
    | error h => exact .error h
    | halt h => exact .halt h

/-- A reader may go on into blocks, but there need not be any. -/
theorem alone (h : Follows n r form trailing followers) : Follows n r form .never followers where
  reads := h.reads
  stops := h.stops
  keeps s word after ts blocks hn hw hb ha ht := by
    refine h.keeps hn hw (fun block hm => ?_) ha ht
    obtain ⟨t, -, hk⟩ := matches_token_iff.1 (hb block hm)
    cases hk

/-- A reader that fails only by a fault that the grammar does not know of follows any form. -/
theorem of_relaxed (h : ∀ ts, (∃ e left, r ts = .error (.error e) left ∧ e.fault.isRelaxed = true) ∨
    ∃ halt left, r ts = .error (.halt halt) left) : Follows n r form trailing followers where
  reads ts rest a hr := by
    rcases h ts with ⟨e, left, h, -⟩ | ⟨halt, left, h⟩ <;> rw [h] at hr <;> cases hr
  stops ts left e hr hf := by
    rcases h ts with ⟨e', left', h, hf'⟩ | ⟨halt, left', h⟩ <;> rw [h] at hr <;> cases hr
    rw [hf] at hf'
    cases hf'
  keeps s word after ts blocks _ _ _ _ _ := by
    rcases h ts with ⟨e, left, h, hf⟩ | ⟨halt, left, h⟩ <;> rw [h]
    · exact .error fun hf' => by rw [hf] at hf'; cases hf'
    · exact .halt halt

theorem halt (h : ParseHalt) : Follows n (throw (.halt h) : Reader α) form trailing followers :=
  of_relaxed fun ts => .inr ⟨h, ts, rfl⟩

theorem pure (x : α) : Follows n (pure x) .empty trailing followers where
  reads ts rest y h := by
    obtain ⟨-, rfl⟩ := pure_eq_ok_iff.1 h
    exact ⟨[], rfl, .empty⟩
  stops ts left e h := nomatch h
  keeps s word after ts blocks _ hw _ _ ht := by
    rw [matches_empty_iff.1 hw] at ht
    exact .through x (List.suffix_refl blocks) ht

/-! ## One after the other -/

section

variable {f : α → Reader β} {inner : Form} {first : List TokenKind} {m : Nat}
  (hr : Follows n r a inner first) (hf : ∀ x, Follows m (f x) b trailing followers)

include hr hf

theorem reads_bind {rest : List Token} {y : β} (h : (r >>= f) ts = .ok y rest) :
    ∃ used, ts = used ++ rest ∧ Matches (.seq a b) used := by
  obtain ⟨x, mid, h, h'⟩ := bind_eq_ok_iff.1 h
  obtain ⟨used, rfl, hu⟩ := hr.reads h
  obtain ⟨used', rfl, hu'⟩ := (hf x).reads h'
  exact ⟨used ++ used', (List.append_assoc ..).symm, hu.seq hu'⟩

theorem stops_bind (hp : b.productive 6 = true) {left : List Token} {e : ParseError}
    (h : (r >>= f) ts = .error (.error e) left) (he : e.fault.isRelaxed = false) :
    e.fault.isGap = true ∧
      ∃ used more, ts = used ++ e.remaining ∧ Matches (.seq a b) (used ++ more) := by
  rcases bind_eq_error_iff.1 h with h | ⟨x, mid, h, h'⟩
  · obtain ⟨hg, used, more, hu, hm⟩ := hr.stops h he
    obtain ⟨us, hs⟩ := exists_matches hp
    exact ⟨hg, used, more ++ us, hu, List.append_assoc used more us ▸ hm.seq hs⟩
  · obtain ⟨used, rfl, hu⟩ := hr.reads h
    obtain ⟨hg, used', more, rfl, hm⟩ := (hf x).stops h' he
    refine ⟨hg, used ++ used', more, (List.append_assoc ..).symm, ?_⟩
    exact List.append_assoc used used' more ▸ hu.seq hm

/-- **One reader after the other.**  There are tokens that the second one reads, and they do not
extend what the first one reads.  As many tokens as the first one takes are off the bound of the
second. -/
theorem bindTaking (hm : ∀ used, Matches a used → n ≤ used.length + m)
    (hj : b.joins first trailing followers = true) :
    Follows n (r >>= f) (.seq a b) trailing followers where
  reads _ _ _ h := hr.reads_bind hf h
  stops _ _ _ h := hr.stops_bind hf (Bool.and_eq_true_iff.1 hj).1 h
  keeps s word after ts blocks hn hw hb ha ht := by
    obtain ⟨us, vs, rfl, hu, hv⟩ := matches_seq_iff.1 hw
    rw [List.append_assoc] at ht
    have hc := not_begins_of_avoids (Bool.and_eq_true_iff.1 hj).2 hv hb ha
    have h := hr.keeps_closed hn hu hc ht
    rcases he : r ts with ⟨x, mid⟩ | ⟨e, left⟩ <;> rw [he] at h
    · rw [bind_of_ok he]
      obtain ⟨used, rfl, hu⟩ := hr.reads he
      have hl : mid.length ≤ m := by
        have := hm used hu
        rw [List.length_append] at hn
        omega
      cases h with
      | through _ hb' h =>
        rw [List.suffix_nil.1 hb'] at h
        exact (hf x).keeps hl hv hb ha h
      | past _ h => exact (hf x).past h blocks after
    · rw [bind_eq_error_iff.2 (.inl he)]
      cases h with
      | error h => exact .error h
      | halt h => exact .halt h

end

theorem bind {f : α → Reader β} {inner : Form} {first : List TokenKind}
    (hr : Follows n r a inner first) (hf : ∀ x, Follows n (f x) b trailing followers)
    (hj : b.joins first trailing followers = true) :
    Follows n (r >>= f) (.seq a b) trailing followers :=
  hr.bindTaking hf (fun _ _ => Nat.le_add_left ..) hj

/-- What has been read is turned into something else. -/
theorem map (g : α → β) (h : Follows n r form trailing followers) :
    Follows n (g <$> r) form trailing followers where
  reads ts rest y hr := by
    obtain ⟨x, hr, -⟩ := map_eq_ok_iff.1 hr
    exact h.reads hr
  stops ts left e hr := by
    rw [← bind_pure_comp] at hr
    rcases bind_eq_error_iff.1 hr with hr | ⟨x, mid, -, hr⟩
    · exact h.stops hr
    · cases hr
  keeps s word after ts blocks hn hw hb ha ht := by
    have hk := h.keeps hn hw hb ha ht
    rw [← bind_pure_comp]
    rcases he : r ts with ⟨x, mid⟩ | ⟨e, left⟩ <;> rw [he] at hk
    · rw [bind_of_ok he]
      cases hk with
      | through _ hb h => exact .through (g x) hb h
      | past _ h => exact .past (g x) h
    · rw [bind_eq_error_iff.2 (.inl he)]
      cases hk with
      | error h => exact .error h
      | halt h => exact .halt h

/-- The last reader of several, and what they make together. -/
theorem last {g : α → β} (h : Follows n r form trailing followers) :
    Follows n (r >>= fun x => Pure.pure (g x)) form trailing followers := by
  rw [bind_pure_comp]
  exact h.map g

/-- What has been read is checked afterwards. -/
theorem check {f : α → Reader β} {inner : Form} {first : List TokenKind}
    (hr : Follows n r form inner first) (hf : ∀ x, Follows n (f x) .empty trailing followers)
    (hj : joins .empty first trailing followers = true) :
    Follows n (r >>= f) form trailing followers :=
  of_iff (hr.bind hf hj) fun _ => matches_seq_empty_iff

/-- A loop that has no tokens left comes to its end. -/
theorem exhausted (x : α) : Follows 0 (Pure.pure x) (.many form) trailing followers where
  reads ts rest y h := by
    obtain ⟨-, rfl⟩ := pure_eq_ok_iff.1 h
    exact ⟨[], rfl, .done⟩
  stops ts left e h := nomatch h
  keeps s word after ts blocks hn _ _ _ ht := by
    obtain rfl := List.length_eq_zero_iff.1 (Nat.le_zero.1 hn)
    obtain ⟨rfl, hw⟩ := ht.eq_nil
    exact .through x (List.suffix_refl blocks) (List.append_eq_nil_iff.1 hw).2

/-- A loop that has no tokens left, and what has to come after it. -/
theorem exhausted_before (h : Follows 0 r b trailing followers) (hb : b.nullable = false) :
    Follows 0 r (.seq (.many a) b) trailing followers where
  reads ts rest x hr := (h.reads hr).imp fun _ => And.imp_right fun hm =>
    matches_many_before_iff.2 (.inl hm)
  stops ts left e hr hf := (h.stops hr hf).imp_right fun ⟨used, more, hu, hm⟩ =>
    ⟨used, more, hu, matches_many_before_iff.2 (.inl hm)⟩
  keeps s word after ts blocks hn hw _ _ ht := by
    obtain rfl := List.length_eq_zero_iff.1 (Nat.le_zero.1 hn)
    obtain ⟨-, hnil⟩ := ht.eq_nil
    obtain rfl := (List.append_eq_nil_iff.1 hnil).1
    exact ((hw.begins_of_not_nullable (by simp [nullable, hb])).elim)

/-- The number of tokens left bounds a loop. -/
theorem left {f : List Token → Reader α}
    (h : ∀ ts, Follows ts.length (f ts) form trailing followers) :
    Follows n (get >>= f) form trailing followers where
  reads ts _ _ hr := (h ts).reads hr
  stops ts _ _ hr := (h ts).stops hr
  keeps _ _ _ ts _ _ := (h ts).keeps (Nat.le_refl _)

end Follows

/-! ## One or the other -/

/-- Takes the next token if it is of one of the kinds, and goes on with it or without. -/
def choose (kinds : List TokenKind) (yes : Token → Reader α) (no : Reader α) : Reader α :=
  acceptAny? kinds >>= fun t? => t?.elim no yes

section

variable {kinds : List TokenKind} {kind : TokenKind} {yes : Token → Reader α} {no : Reader α}
  {t : Token} {ts : List Token}

theorem choose_cons (hk : TokenKind.eof ∉ kinds) (h : t.kind ∈ kinds) :
    choose kinds yes no (t :: ts) = yes t ts :=
  bind_of_ok ((acceptAny?_eq_some_iff hk).2 ⟨rfl, h⟩)

theorem choose_of_not_begins (hk : TokenKind.eof ∉ kinds) (h : ¬ Begins kinds ts) :
    choose kinds yes no ts = no ts :=
  bind_of_ok ((acceptAny?_eq_none_iff hk).2 ⟨rfl, h⟩)

theorem exists_cons_of_begins (h : Begins kinds ts) : ∃ t us, ts = t :: us ∧ t.kind ∈ kinds := by
  cases ts with
  | nil => exact h.elim
  | cons t us => exact ⟨t, us, rfl, h⟩

theorem accept_eq_choose {yes : Reader α} : (do if ← accept kind then yes else no) =
    choose [kind] (fun _ => yes) no := by
  funext ts
  rw [accept, bind_assoc, choose]
  rcases acceptAny?_cases [kind] ts with h | ⟨t, us, rfl, -, h⟩ <;>
    rw [bind_of_ok h, bind_of_ok h] <;> rfl

theorem expect_eq_choose (what : Expectation) :
    expect kind what = choose [kind] Pure.pure (fail (.expected what)) := by
  funext ts
  rw [expect, choose]
  rcases acceptAny?_cases [kind] ts with h | ⟨t, us, rfl, -, h⟩ <;>
    rw [bind_of_ok h, bind_of_ok h] <;> rfl

end

namespace Follows

variable {n : Nat} {r : Reader α} {form a b trailing : Form} {followers : List TokenKind}
  {kinds : List TokenKind} {kind : TokenKind} {yes : Token → Reader α} {no : Reader α}

/-- **A look ahead decides** between two readers.  It is right wherever the tokens are those of a
word. -/
theorem branch {r r₁ r₂ : Reader α} {first : List Token → Prop}
    (h₁ : Follows n r₁ a trailing followers) (h₂ : Follows n r₂ b trailing followers)
    (hr₁ : ∀ ts, first ts → r ts = r₁ ts) (hr₂ : ∀ ts, ¬ first ts → r ts = r₂ ts)
    (ha : ∀ ⦃s word after ts⦄ ⦃blocks : List (List Token)⦄, Matches a word →
      (∀ block ∈ blocks, Matches trailing block) → ¬ Begins followers after →
      Sight.OnTrack s (word ++ (blocks.flatten ++ after)) ts → first ts)
    (hb : ∀ ⦃s word after ts⦄ ⦃blocks : List (List Token)⦄, Matches b word →
      (∀ block ∈ blocks, Matches trailing block) → ¬ Begins followers after →
      Sight.OnTrack s (word ++ (blocks.flatten ++ after)) ts → ¬ first ts) :
    Follows n r (.alt a b) trailing followers where
  reads ts rest x h := by
    by_cases hf : first ts
    · rw [hr₁ ts hf] at h
      exact (h₁.reads h).imp fun _ => And.imp_right .left
    · rw [hr₂ ts hf] at h
      exact (h₂.reads h).imp fun _ => And.imp_right .right
  stops ts left e h he := by
    by_cases hf : first ts
    · rw [hr₁ ts hf] at h
      obtain ⟨hg, used, more, hu, hm⟩ := h₁.stops h he
      exact ⟨hg, used, more, hu, .left hm⟩
    · rw [hr₂ ts hf] at h
      obtain ⟨hg, used, more, hu, hm⟩ := h₂.stops h he
      exact ⟨hg, used, more, hu, .right hm⟩
  keeps s word after ts blocks hl hw hs hk ht := by
    rcases matches_alt_iff.1 hw with hw | hw
    · rw [hr₁ ts (ha hw hs hk ht)]
      exact h₁.keeps hl hw hs hk ht
    · rw [hr₂ ts (hb hw hs hk ht)]
      exact h₂.keeps hl hw hs hk ht

/-- **The next token decides** between two readers, the first of which reads only what begins with
one of the kinds, and the second only what does not. -/
theorem branchKinds {r r₁ r₂ : Reader α} (h₁ : Follows n r₁ a trailing followers)
    (h₂ : Follows n r₂ b trailing followers) (hr₁ : ∀ ts, Begins kinds ts → r ts = r₁ ts)
    (hr₂ : ∀ ts, ¬ Begins kinds ts → r ts = r₂ ts) (hn : a.nullable = false)
    (hs : a.first ⊆ kinds) (hc : b.avoids kinds trailing followers = true) :
    Follows n r (.alt a b) trailing followers := by
  refine h₁.branch h₂ hr₁ hr₂ (fun s word after ts blocks hw hb ha ht => ?_)
    fun s word after ts blocks hw hb ha ht hf => ?_
  · exact ht.begins_iff.2 (((hw.begins_of_not_nullable hn).mono hs).append _)
  · exact not_begins_of_avoids hc hw hb ha (ht.begins_iff.1 hf)

/-- **A token of one of the kinds has to come next.** -/
theorem demand {fault : ParseFault} (hyes : ∀ t, Follows (n - 1) (yes t) a trailing followers)
    (hk : TokenKind.eof ∉ kinds) (hp : (seq (.token kinds) a).productive 6 = true)
    (hg : fault.isGap = true) :
    Follows n (Reader.choose kinds yes (fail fault)) (.seq (.token kinds) a) trailing
      followers where
  reads ts rest x h := by
    by_cases hb : Begins kinds ts
    · obtain ⟨t, us, rfl, ht⟩ := exists_cons_of_begins hb
      rw [choose_cons hk ht] at h
      obtain ⟨used, rfl, hu⟩ := (hyes t).reads h
      exact ⟨[t] ++ used, rfl, .seq (.token ht) hu⟩
    · rw [choose_of_not_begins hk hb] at h
      cases h
  stops ts left e h he := by
    by_cases hb : Begins kinds ts
    · obtain ⟨t, us, rfl, ht⟩ := exists_cons_of_begins hb
      rw [choose_cons hk ht] at h
      obtain ⟨hg, used, more, rfl, hm⟩ := (hyes t).stops h he
      have hm : Matches (.seq (.token kinds) a) ([t] ++ (used ++ more)) := .seq (.token ht) hm
      exact ⟨hg, [t] ++ used, more, rfl, hm⟩
    · rw [choose_of_not_begins hk hb] at h
      cases h
      exact ⟨hg, [], (exists_matches hp).imp fun _ hm => ⟨rfl, hm⟩⟩
  keeps s word after ts blocks hn hw hb ha ht := by
    obtain ⟨_, us, rfl, hw, hu⟩ := matches_seq_iff.1 hw
    obtain ⟨t, rfl, hk'⟩ := matches_token_iff.1 hw
    obtain ⟨vs, rfl, ht | ht⟩ := ht.cons <;> rw [choose_cons hk hk']
    · exact (hyes t).keeps (by simp at hn; omega) hu hb ha ht
    · exact (hyes t).past ht blocks after

/-- A token of one of the kinds is taken, or something follows that does not begin with any. -/
theorem choose (hyes : ∀ t, Follows (n - 1) (yes t) a trailing followers)
    (hno : Follows n no b trailing followers) (hd : decides kinds a b trailing followers = true) :
    Follows n (choose kinds yes no) (.alt (.seq (.token kinds) a) b) trailing followers := by
  simp only [decides, Bool.and_eq_true] at hd
  obtain ⟨⟨hk, hp⟩, hc⟩ := hd
  have hk : TokenKind.eof ∉ kinds := by simpa using hk
  have hd : Follows n (Reader.choose kinds yes (fail .noExpression)) _ trailing followers :=
    demand hyes hk hp rfl
  refine hd.branchKinds hno (fun ts hb => ?_) (fun ts hb => choose_of_not_begins hk hb) rfl
    (by simp [first, nullable]) hc
  obtain ⟨t, us, rfl, ht⟩ := exists_cons_of_begins hb
  rw [choose_cons hk ht, choose_cons hk ht]

theorem accept {yes : Reader α} (hyes : Follows (n - 1) yes a trailing followers)
    (hno : Follows n no b trailing followers) (hd : decides [kind] a b trailing followers = true) :
    Follows n (do if ← Reader.accept kind then yes else no)
      (.alt (.seq (.kind kind) a) b) trailing followers := by
  rw [accept_eq_choose]
  exact .choose (fun _ => hyes) hno hd

/-- A token that has to come next. -/
theorem expect (what : Expectation) (hk : TokenKind.eof ∉ [kind]) :
    Follows n (Reader.expect kind what) (.kind kind) .never [] := by
  rw [expect_eq_choose]
  refine of_iff (.demand (fun t => .pure t) hk rfl rfl) fun ts => ?_
  simp [matches_seq_iff, Form.kind]

/-- Something may be left out before a reader that begins with a token of one kind. -/
theorem optional {x : α} {f : α → Reader β} {inner : Form} {first : List TokenKind}
    (hr : Follows n r a inner first) (hf : ∀ x, Follows n (f x) b trailing followers)
    (ho : omits kind a b first trailing followers = true) :
    Follows n (do if ← nextIs kind then Pure.pure x >>= f else r >>= f) (.seq (.opt a) b) trailing
      followers := by
  simp only [omits, Bool.and_eq_true] at ho
  obtain ⟨⟨⟨⟨hk, hn⟩, hs⟩, ha⟩, hj⟩ := ho
  have hk : kind ≠ .eof := by simpa using hk
  have hn : b.nullable = false := by simpa using hn
  have hs : b.first ⊆ [kind] := fun k hm => by simpa using List.all_eq_true.1 hs k hm
  refine of_iff (.branchKinds (hf x) (hr.bind hf hj) (fun ts h => ?_) (fun ts h => ?_) hn hs ha)
    fun ts => ?_
  · rw [bind_of_ok ((nextIs_eq_ok_iff hk).2 ⟨iff_of_true rfl h, rfl⟩)]
    rfl
  · rw [bind_of_ok ((nextIs_eq_ok_iff hk).2 ⟨iff_of_false Bool.false_ne_true h, rfl⟩)]
    rfl
  · rw [matches_alt_iff, matches_opt_seq_iff, or_comm]

/-- A token and something after it may be left out before a reader. -/
theorem acceptBind {x : α} {f : α → Reader β} {inner : Form} {first : List TokenKind}
    (hr : Follows (n - 1) r a inner first) (hf : ∀ m x, Follows m (f x) b trailing followers)
    (hd : decides [kind] (.seq a b) b trailing followers = true)
    (hj : b.joins first trailing followers = true) :
    Follows n (do if ← Reader.accept kind then r >>= f else Pure.pure x >>= f)
      (.seq (.opt (.seq (.kind kind) a)) b) trailing followers := by
  refine of_iff (.accept (hr.bind (hf _) hj) (hf n x) hd) fun ts => ?_
  rw [matches_alt_iff, matches_opt_seq_iff, matches_seq_assoc]

end Follows

end Reader

end ScopedScript
