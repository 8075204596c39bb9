import ScopedScript.Environment
import ScopedScript.Proofs.Scope.Loaded

/-!
# Frames that stand for scopes

At run time a scope is stood for by a frame.  `Covers` says that the frames of an environment
are those of some open scopes: one for each scope, from the inside out, and the global frame
after them; a name that is ready in a scope is bound in its frame.  A name that is not ready
may be bound or not.

Frames only ever grow: more of them are made, and more names bound.  What covered some scopes
goes on to do so.

## Main definitions

* `Frames.Binds`, `Frames.Extends`: bound names, and how frames grow.
* `Covers`: frames that stand for scopes.

## Main results

* `Covers.mono`: growing frames go on to cover the same scopes.
* `Covers.push`, `Covers.bind`, `Covers.unready`: entering a scope and declaring names.
* `Covers.locate`: where the frame of a located name is, and when it lacks the name.
-/

namespace ScopedScript

namespace Frames

/-! ## Bound names -/

/-- The frame binds the name. -/
def Binds (frames : Frames) (frame : Nat) (name : String) : Prop :=
  ((frames.bindings frame).get? name).isSome = true

instance (frames : Frames) (frame : Nat) (name : String) : Decidable (frames.Binds frame name) :=
  inferInstanceAs (Decidable (_ = true))

/-- **The frames have grown**: those there were are there, with the names they bound. -/
structure Extends (frames frames' : Frames) : Prop where
  next : frames.next ≤ frames'.next
  binds : ∀ frame name, frames.Binds frame name → frames'.Binds frame name

theorem Extends.refl (frames : Frames) : frames.Extends frames := ⟨Nat.le_refl _, fun _ _ h => h⟩

/-- Frames that are extended twice are extended. -/
theorem Extends.trans {a b c : Frames} (hab : a.Extends b) (hbc : b.Extends c) : a.Extends c :=
  ⟨Nat.le_trans hab.next hbc.next,
    fun frame name h => hbc.binds frame name (hab.binds frame name h)⟩

@[simp]
theorem next_push (frames : Frames) : frames.push.next = frames.next + 1 := by
  simp [push, next]

@[simp]
theorem next_bind (frames : Frames) (frame : Nat) (name : String) (value : Value) :
    (frames.bind frame name value).next = frames.next := by
  simp [bind, next]

/-- Nothing is bound in a frame that is not there. -/
theorem bind_of_next_le {frames : Frames} {frame : Nat} (h : frames.next ≤ frame) (name : String)
    (value : Value) : frames.bind frame name value = frames := by
  obtain ⟨table⟩ := frames
  simp only [bind, mk.injEq]
  exact Array.ext (by simp) fun i hi _ => by
    have : frame ≠ i := by
      simp only [Array.size_modify] at hi
      simp only [next] at h
      omega
    simp [Array.getElem_modify, this]

theorem extends_push (frames : Frames) : frames.Extends frames.push where
  next := by simp
  binds frame name h := by rwa [Binds, bindings_push]

/-- Binding a name extends the frames: what was bound stays bound. -/
theorem extends_bind (frames : Frames) (frame : Nat) (name : String) (value : Value) :
    frames.Extends (frames.bind frame name value) := by
  by_cases hf : frame < frames.next
  · refine ⟨by simp, fun other bound h => ?_⟩
    rw [Binds, bindings_bind _ _ _ _ _ hf]
    split
    · subst other
      rw [NameMap.get?_insert]
      split
      · rfl
      · exact h
    · exact h
  · rw [bind_of_next_le (Nat.not_lt.1 hf)]
    exact .refl frames

theorem binds_bind {frames : Frames} {frame : Nat} (h : frame < frames.next) (name : String)
    (value : Value) : (frames.bind frame name value).Binds frame name := by
  simp [Binds, bindings_bind _ _ _ _ _ h]

/-! ## The operations on names -/

variable {env : Environment} {name : Token} {value : Value} {frames : Frames}

theorem requireName_eq (hk : name.kind = .identifier) :
    requireName name frames = .ok () frames := by
  rw [requireName, if_pos hk]
  rfl

theorem read_eq (frames : Frames) : (EStateM.get : FrameM Frames) frames = .ok frames frames := rfl

theorem define_eq (hk : name.kind = .identifier) :
    define env name value frames = .ok () (frames.bind env.frame name.lexeme value) := by
  rw [define, bind_of_ok (requireName_eq hk)]
  rfl

/-- Looking a name up finds the first frame of the chain that binds it. -/
theorem get_eq (hk : name.kind = .identifier) :
    get env name frames =
      match frames.find? env.chain name.lexeme with
      | some (_, value) => .ok value frames
      | none => .error (undefined name) frames := by
  rw [get, bind_of_ok (requireName_eq hk), bind_of_ok (read_eq frames)]
  cases frames.find? env.chain name.lexeme <;> rfl

/-- Assigning to a name binds it in the first frame of the chain that binds it. -/
theorem assign_eq (hk : name.kind = .identifier) :
    assign env name value frames =
      match frames.find? env.chain name.lexeme with
      | some (frame, _) => .ok () (frames.bind frame name.lexeme value)
      | none => .error (undefined name) frames := by
  rw [assign, bind_of_ok (requireName_eq hk), bind_of_ok (read_eq frames)]
  cases frames.find? env.chain name.lexeme <;> rfl

variable {distance : Int} {frame : Nat}

theorem ancestor_eq (hc : env.chain[distance.toNat]? = some frame) (subject : String) :
    ancestor env distance subject frames = .ok frame frames := by
  rw [ancestor, hc]
  rfl

/-- Looking at a distance asks the frame there, and no other. -/
theorem locateAt_eq (hk : name.kind = .identifier)
    (hc : env.chain[distance.toNat]? = some frame) :
    locateAt env distance name frames =
      match (frames.bindings frame).get? name.lexeme with
      | some value => .ok (frame, value) frames
      | none => .error (.onToken name (.missingAtDistance name.lexeme distance)) frames := by
  rw [locateAt, bind_of_ok (requireName_eq hk), bind_of_ok (ancestor_eq hc _),
    bind_of_ok (read_eq frames)]
  cases (frames.bindings frame).get? name.lexeme <;> rfl

theorem getAt_eq (hk : name.kind = .identifier) (hc : env.chain[distance.toNat]? = some frame) :
    getAt env distance name frames =
      match (frames.bindings frame).get? name.lexeme with
      | some value => .ok value frames
      | none => .error (.onToken name (.missingAtDistance name.lexeme distance)) frames := by
  change EStateM.map _ _ frames = _
  rw [EStateM.map, locateAt_eq hk hc]
  cases (frames.bindings frame).get? name.lexeme <;> rfl

theorem assignAt_eq (hk : name.kind = .identifier)
    (hc : env.chain[distance.toNat]? = some frame) :
    assignAt env distance name value frames =
      match (frames.bindings frame).get? name.lexeme with
      | some _ => .ok () (frames.bind frame name.lexeme value)
      | none => .error (.onToken name (.missingAtDistance name.lexeme distance)) frames := by
  change EStateM.bind _ _ frames = _
  rw [EStateM.bind, locateAt_eq hk hc]
  cases (frames.bindings frame).get? name.lexeme <;> rfl

end Frames

/-! ## Covered scopes -/

/-- **The frames stand for the scopes**, one for each and the global frame after them, and bind
the names that are ready there. -/
def Covers (frames : Frames) : List Scope → List Nat → Prop
  | [], chain => chain = [0] ∧ 0 < frames.next
  | _ :: _, [] => False
  | scope :: scopes, frame :: chain =>
    frame ≠ 0 ∧ frame < frames.next ∧
      (∀ name, scope.get? name = some true → frames.Binds frame name) ∧
        Covers frames scopes chain

namespace Covers

variable {frames frames' : Frames} {scopes : List Scope} {chain : List Nat} {env : Environment}

/-- **Frames that grow go on to cover the same scopes.** -/
theorem mono (h : Covers frames scopes chain) (hf : frames.Extends frames') :
    Covers frames' scopes chain := by
  induction scopes generalizing chain with
  | nil => exact ⟨h.1, Nat.lt_of_lt_of_le h.2 hf.next⟩
  | cons scope scopes ih =>
    cases chain with
    | nil => exact h
    | cons frame chain =>
      obtain ⟨h0, hn, hb, hc⟩ := h
      exact ⟨h0, Nat.lt_of_lt_of_le hn hf.next, fun name hm => hf.binds _ _ (hb name hm), ih hc⟩

/-- The current frame is one of the frames there are. -/
theorem frame_lt (h : Covers frames scopes env.chain) : env.frame < frames.next := by
  cases scopes with
  | nil =>
    have h0 : env.frame = 0 := (List.cons.inj h.1).1
    exact h0 ▸ h.2
  | cons scope scopes => exact h.2.1

theorem next_pos (h : Covers frames scopes chain) : 0 < frames.next := by
  cases scopes with
  | nil => exact h.2
  | cons scope scopes =>
    cases chain with
    | nil => exact h.elim
    | cons frame chain => exact Nat.zero_lt_of_lt h.2.1

/-- A new frame stands for a new scope. -/
theorem push (h : Covers frames scopes env.chain) :
    Covers frames.push (.empty :: scopes) (env.inner frames.next).chain := by
  refine ⟨Nat.ne_of_gt h.next_pos, by simp [Environment.inner], fun name hm => ?_,
    h.mono frames.extends_push⟩
  simp at hm

/-- A name that is bound in the innermost frame is ready in the innermost scope. -/
theorem ready (h : Covers frames scopes env.chain) {name : String}
    (hb : frames.Binds env.frame name) : Covers frames (markIn scopes name true) env.chain := by
  cases scopes with
  | nil => exact h
  | cons scope scopes =>
    obtain ⟨h0, hn, hs, hc⟩ := h
    refine ⟨h0, hn, fun other hm => ?_, hc⟩
    rw [NameMap.get?_insert] at hm
    split at hm
    · subst other
      exact hb
    · exact hs other hm

/-- Binding a name in the innermost frame makes it ready in the innermost scope. -/
theorem bind (h : Covers frames scopes env.chain) (name : String) (value : Value) :
    Covers (frames.bind env.frame name value) (markIn scopes name true) env.chain :=
  (h.mono (frames.extends_bind _ _ _)).ready (Frames.binds_bind h.frame_lt name value)

/-- Nothing is asked of a name that is not ready. -/
theorem unready (h : Covers frames scopes chain) (name : String) :
    Covers frames (markIn scopes name false) chain := by
  cases scopes with
  | nil => exact h
  | cons scope scopes =>
    cases chain with
    | nil => exact h
    | cons frame chain =>
      obtain ⟨h0, hn, hs, hc⟩ := h
      refine ⟨h0, hn, fun other hm => ?_, hc⟩
      rw [NameMap.get?_insert] at hm
      split at hm
      · cases hm
      · exact hs other hm

/-- The frames are as many as the scopes, with the global frame at the end. -/
theorem chain_eq (h : Covers frames scopes chain) :
    ∃ inner, chain = inner ++ [0] ∧ inner.length = scopes.length ∧ 0 ∉ inner := by
  induction scopes generalizing chain with
  | nil => exact ⟨[], h.1, rfl, List.not_mem_nil⟩
  | cons scope scopes ih =>
    cases chain with
    | nil => exact h.elim
    | cons frame chain =>
      obtain ⟨h0, -, -, hc⟩ := h
      obtain ⟨inner, rfl, hl, hm⟩ := ih hc
      exact ⟨frame :: inner, rfl, congrArg (· + 1) hl, by simp [Ne.symm h0, hm]⟩

/-- A name that is ready in a scope is bound in the frame of that scope. -/
theorem bound (h : Covers frames scopes chain) {distance : Nat} {name : String}
    (hm : markAt scopes distance name = some true) :
    ∃ frame, chain[distance]? = some frame ∧ frames.Binds frame name := by
  induction scopes generalizing chain distance with
  | nil => simp at hm
  | cons scope scopes ih =>
    cases chain with
    | nil => exact h.elim
    | cons frame chain =>
      obtain ⟨-, -, hb, hc⟩ := h
      cases distance with
      | zero => exact ⟨frame, rfl, hb name hm⟩
      | succ distance => exact ih hc hm

end Covers

/-- A name is counted to a scope that has it. -/
theorem markAt_of_hopsIn {scopes : List Scope} {name : String} {distance : Nat}
    (h : hopsIn scopes name = some distance) :
    ∃ ready, markAt scopes distance name = some ready := by
  obtain ⟨hd, hc, -⟩ := List.findIdx?_eq_some_iff_getElem.1 h
  rw [NameMap.contains, Option.isSome_iff_exists] at hc
  obtain ⟨ready, hc⟩ := hc
  exact ⟨ready, by rw [markAt, List.getElem?_eq_getElem hd, Option.bind_some, hc]⟩

/-- **Where the frame of a located name is.**  If it lacks the name, the name is not ready. -/
theorem Covers.locate {frames : Frames} {scopes : List Scope} {chain : List Nat} {name : String}
    {distance : Nat} (h : Covers frames scopes chain) (hh : hopsIn scopes name = some distance) :
    ∃ frame, chain[distance]? = some frame ∧
      (¬ frames.Binds frame name → markAt scopes distance name = some false) := by
  obtain ⟨ready, hm⟩ := markAt_of_hopsIn hh
  -- ready: the frame binds the name; not ready: there is a frame for every scope
  cases ready with
  | true =>
    obtain ⟨frame, hc, hb⟩ := h.bound hm
    exact ⟨frame, hc, fun hn => absurd hb hn⟩
  | false =>
    have hd : distance < scopes.length := (List.findIdx?_eq_some_iff_getElem.1 hh).1
    obtain ⟨inner, rfl, hl, -⟩ := h.chain_eq
    exact ⟨_, List.getElem?_eq_getElem (by simp; omega), fun _ => hm⟩

end ScopedScript
