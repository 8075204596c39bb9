/-!
# Results of computations with a state

Reading, scope analysis and evaluation are computations that keep a state and may fail.  This
module says when a sequence of such computations succeeds or fails, in terms of its parts, as
equivalences: they serve for taking a result apart and for putting one together.

## Main results

* `bind_eq_ok_iff`, `bind_eq_error_iff`: a sequence succeeds when its parts do one after the
  other, and fails where the first of them fails.
* `EndsAlike.bind`: two sequences end alike if their parts do.
-/

namespace ScopedScript

variable {ε σ α β : Type}

theorem bind_eq_ok_iff {x : EStateM ε σ α} {f : α → EStateM ε σ β} {s s' : σ} {b : β} :
    (x >>= f) s = .ok b s' ↔ ∃ a mid, x s = .ok a mid ∧ f a mid = .ok b s' := by
  change EStateM.bind x f s = _ ↔ _
  unfold EStateM.bind
  cases x s with
  | ok a mid =>
    constructor
    · exact fun h => ⟨a, mid, rfl, h⟩
    · rintro ⟨_, _, h, h'⟩
      cases h
      exact h'
  | error e mid => simp

theorem bind_eq_error_iff {x : EStateM ε σ α} {f : α → EStateM ε σ β} {s s' : σ} {e : ε} :
    (x >>= f) s = .error e s' ↔
      x s = .error e s' ∨ ∃ a mid, x s = .ok a mid ∧ f a mid = .error e s' := by
  change EStateM.bind x f s = _ ↔ _
  unfold EStateM.bind
  cases x s with
  | ok a mid =>
    constructor
    · exact fun h => .inr ⟨a, mid, rfl, h⟩
    · rintro (h | ⟨_, _, h, h'⟩) <;> cases h
      exact h'
  | error e' mid => simp

theorem bind_of_ok {x : EStateM ε σ α} {f : α → EStateM ε σ β} {s mid : σ} {a : α}
    (h : x s = .ok a mid) : (x >>= f) s = f a mid := by
  change EStateM.bind x f s = _
  rw [EStateM.bind, h]

/-- A choice before the rest of a sequence, where the rest is the same on both sides. -/
theorem ite_bind_eq_ok_iff {c : Prop} [Decidable c] {x y : EStateM ε σ α}
    {f : α → EStateM ε σ β} {s s' : σ} {b : β} :
    (if c then x >>= f else y >>= f) s = .ok b s' ↔
      ∃ a mid, (if c then x else y) s = .ok a mid ∧ f a mid = .ok b s' := by
  split <;> exact bind_eq_ok_iff

@[simp]
theorem pure_eq_ok_iff {a b : α} {s s' : σ} :
    (pure a : EStateM ε σ α) s = .ok b s' ↔ a = b ∧ s = s' := by
  change EStateM.Result.ok a s = .ok b s' ↔ _
  simp

theorem map_eq_ok_iff {x : EStateM ε σ α} {f : α → β} {s s' : σ} {b : β} :
    (f <$> x) s = .ok b s' ↔ ∃ a, x s = .ok a s' ∧ f a = b := by
  rw [← bind_pure_comp, bind_eq_ok_iff]
  simp

@[simp]
theorem get_eq_ok_iff {s s' t : σ} :
    (get : EStateM ε σ σ) s = .ok t s' ↔ s = t ∧ s = s' := by
  change EStateM.Result.ok s s = .ok t s' ↔ _
  simp

@[simp]
theorem modify_eq_ok_iff {f : σ → σ} {s s' : σ} {u : PUnit} :
    (modify f : EStateM ε σ PUnit) s = .ok u s' ↔ f s = s' := by
  change EStateM.Result.ok PUnit.unit (f s) = .ok u s' ↔ _
  simp

@[simp]
theorem throw_ne_ok {e : ε} {s s' : σ} {a : α} :
    (throw e : EStateM ε σ α) s = .ok a s' ↔ False := by
  change EStateM.Result.error e s = .ok a s' ↔ False
  simp

/-! ## Two computations side by side -/

variable {ε' σ' α' β' : Type}

/-- **Two computations end alike**: both succeed, related by `values`, or both fail, related by
`failures`. -/
inductive EndsAlike (values : α → σ → α' → σ' → Prop) (failures : ε → σ → ε' → σ' → Prop) :
    EStateM.Result ε σ α → EStateM.Result ε' σ' α' → Prop where
  | ok {a s a' s'} (h : values a s a' s') : EndsAlike values failures (.ok a s) (.ok a' s')
  | error {e s e' s'} (h : failures e s e' s') :
      EndsAlike values failures (.error e s) (.error e' s')

namespace EndsAlike

variable {values values' : α → σ → α' → σ' → Prop} {failures failures' : ε → σ → ε' → σ' → Prop}

theorem imp {r : EStateM.Result ε σ α} {r' : EStateM.Result ε' σ' α'}
    (h : EndsAlike values failures r r') (hv : ∀ a s a' s', values a s a' s' → values' a s a' s')
    (hf : ∀ e s e' s', failures e s e' s' → failures' e s e' s') :
    EndsAlike values' failures' r r' := by
  cases h with
  | ok h => exact .ok (hv _ _ _ _ h)
  | error h => exact .error (hf _ _ _ _ h)

/-- What holds of the two ends may come from either computation alone. -/
theorem imp_of_eq {r : EStateM.Result ε σ α} {r' : EStateM.Result ε' σ' α'}
    (h : EndsAlike values failures r r')
    (hv : ∀ a s a' s', r = .ok a s → r' = .ok a' s' → values a s a' s' → values' a s a' s') :
    EndsAlike values' failures r r' := by
  cases h with
  | ok h => exact .ok (hv _ _ _ _ rfl rfl h)
  | error h => exact .error h

/-- **Two sequences end alike** if the first parts do, and the rest does wherever they lead. -/
theorem bind {x : EStateM ε σ α} {x' : EStateM ε' σ' α'} {f : α → EStateM ε σ β}
    {f' : α' → EStateM ε' σ' β'} {s : σ} {s' : σ'} {ends : β → σ → β' → σ' → Prop}
    (h : EndsAlike values failures (x s) (x' s'))
    (hf : ∀ a t a' t', values a t a' t' → EndsAlike ends failures (f a t) (f' a' t')) :
    EndsAlike ends failures ((x >>= f) s) ((x' >>= f') s') := by
  change EndsAlike ends failures (EStateM.bind x f s) (EStateM.bind x' f' s')
  unfold EStateM.bind
  generalize x s = r at h ⊢
  generalize x' s' = r' at h ⊢
  cases h with
  | ok h => exact hf _ _ _ _ h
  | error h => exact .error h

/-- One sequence goes on after it ended like the other, and succeeds. -/
theorem bind_left {x : EStateM ε σ α} {f : α → EStateM ε σ β} {s : σ}
    {r' : EStateM.Result ε' σ' α'} {ends : β → σ → α' → σ' → Prop}
    (h : EndsAlike values failures (x s) r')
    (hf : ∀ a t a' t', values a t a' t' → ∃ b u, f a t = .ok b u ∧ ends b u a' t') :
    EndsAlike ends failures ((x >>= f) s) r' := by
  change EndsAlike ends failures (EStateM.bind x f s) r'
  unfold EStateM.bind
  generalize x s = r at h ⊢
  cases h with
  | ok h =>
    obtain ⟨b, u, hb, he⟩ := hf _ _ _ _ h
    dsimp only
    rw [hb]
    exact .ok he
  | error h => exact .error h

/-- Two sequences that begin with the same part. -/
theorem bind_same {x : EStateM ε σ α} {f : α → EStateM ε σ β} {f' : α → EStateM ε σ β'} {s : σ}
    {ends : β → σ → β' → σ → Prop} {failures : ε → σ → ε → σ → Prop}
    (hf : ∀ a t, x s = .ok a t → EndsAlike ends failures (f a t) (f' a t))
    (he : ∀ e t, failures e t e t) :
    EndsAlike ends failures ((x >>= f) s) ((x >>= f') s) := by
  change EndsAlike ends failures (EStateM.bind x f s) (EStateM.bind x f' s)
  unfold EStateM.bind
  cases hx : x s with
  | ok a t => exact hf a t hx
  | error e t => exact .error (he e t)

end EndsAlike

end ScopedScript
