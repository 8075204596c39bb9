import Mathlib.Data.List.Basic
import ScopedScript.Machine
import ScopedScript.Proofs.ForLoop.Widen
import ScopedScript.Proofs.Results

/-!
# Frames that may be left out

Two sets of frames are compared: a wide one, and a narrow one that lacks some of its frames.  A
layout says which frame is which and which frames of the wide set are spare.  Frames that are in
both have the same bindings, and a spare frame has none.

An environment of the wide set has at most one spare frame among its own.  Its place is a
`Cutoff`, and a variable that is so many frames out in the narrow environment is found in the wide
one by counting the spare frame as well.

## Main definitions

* `Layout`: which frame is which, and which frames are spare.
* `Layout.Chains`: two environments that are the same but for a spare frame.
* `Frames.Match`: the frames of a layout have the same bindings, and spare frames none.

## Main results

* `Layout.Chains.at`: a widened number leads to the same frame.
* `Frames.Match.bind`, `Frames.Match.push`, `Frames.Match.pushSpare`: frames go on to match.
* `Frames.alike_getAt`, `Frames.alike_assignAt`: variables are found and assigned alike.
-/

namespace ScopedScript

/-! ## Layouts -/

/-- **Which frame is which.**  The narrow frame `n` is the wide frame that `kept` has at `n`; the
other wide frames are `spare`. -/
structure Layout where
  kept : List Nat
  spare : List Nat

namespace Layout

/-- The layout of frames that are the same on both sides. -/
def same (size : Nat) : Layout := ⟨List.range size, []⟩

/-- The layout with a frame on both sides. -/
def keep (layout : Layout) (wide : Nat) : Layout := { layout with kept := layout.kept ++ [wide] }

/-- The layout with one more spare frame. -/
def leaveOut (layout : Layout) (wide : Nat) : Layout :=
  { layout with spare := layout.spare ++ [wide] }

/-- A wide frame and a narrow one are the same. -/
def Pairs (layout : Layout) (wide narrow : Nat) : Prop := layout.kept[narrow]? = some wide

/-- **A layout that has come to have more frames.** -/
structure Extends (layout layout' : Layout) : Prop where
  kept : layout.kept <+: layout'.kept
  spare : layout.spare ⊆ layout'.spare

variable {layout layout' layout'' : Layout} {wide narrow : Nat}

theorem Extends.refl (layout : Layout) : layout.Extends layout :=
  ⟨List.prefix_rfl, List.Subset.refl _⟩

/-- A layout that grows twice has grown. -/
theorem Extends.trans (h : layout.Extends layout') (h' : layout'.Extends layout'') :
    layout.Extends layout'' :=
  ⟨h.kept.trans h'.kept, List.Subset.trans h.spare h'.spare⟩

theorem extends_keep (layout : Layout) (wide : Nat) : layout.Extends (layout.keep wide) :=
  ⟨List.prefix_append _ _, List.Subset.refl _⟩

theorem extends_leaveOut (layout : Layout) (wide : Nat) : layout.Extends (layout.leaveOut wide) :=
  ⟨List.prefix_rfl, List.subset_append_left _ _⟩

/-- Frames that are the same stay the same. -/
theorem Pairs.mono (h : layout.Pairs wide narrow) (he : layout.Extends layout') :
    layout'.Pairs wide narrow := by
  obtain ⟨more, hm⟩ := he.kept
  obtain ⟨hn, -⟩ := List.getElem?_eq_some_iff.1 h
  rw [Pairs, ← hm, List.getElem?_append_left hn]
  exact h

theorem pairs_keep (layout : Layout) (wide : Nat) :
    (layout.keep wide).Pairs wide layout.kept.length := by
  simp [Pairs, keep]

/-- A frame that is kept is paired with the next one, and the other pairs stay. -/
theorem pairs_keep_iff {other : Nat} :
    (layout.keep other).Pairs wide narrow ↔
      layout.Pairs wide narrow ∨ narrow = layout.kept.length ∧ wide = other := by
  simp only [Pairs, keep, List.getElem?_append, List.getElem?_singleton]
  split
  · constructor
    · exact .inl
    · rintro (h | ⟨rfl, -⟩)
      · exact h
      · omega
  · have hn : layout.kept[narrow]? = none := List.getElem?_eq_none (by omega)
    rw [hn]
    constructor
    · intro h
      split at h
      · exact .inr ⟨by omega, (Option.some.inj h).symm⟩
      · cases h
    · rintro (h | ⟨rfl, rfl⟩)
      · cases h
      · simp

theorem pairs_same {size frame : Nat} (h : frame < size) : (same size).Pairs frame frame := by
  simp [Pairs, same, h]

/-! ## Environments -/

/-- **Two chains of frames are the same but for a spare frame** at the place that the cutoff
gives, if it gives one. -/
inductive Chains (layout : Layout) : Cutoff → List Nat → List Nat → Prop where
  | nil : Chains layout none [] []
  | kept {cutoff : Cutoff} {wide narrow : Nat} {wides narrows : List Nat}
      (hp : layout.Pairs wide narrow) (h : Chains layout cutoff wides narrows) :
      Chains layout cutoff.inner (wide :: wides) (narrow :: narrows)
  | spare {wide : Nat} {wides narrows : List Nat} (hs : wide ∈ layout.spare)
      (h : Chains layout none wides narrows) : Chains layout (some 0) (wide :: wides) narrows

namespace Chains

variable {cutoff : Cutoff} {wides narrows : List Nat}

/-- Chains that correspond go on to correspond when frames are added. -/
theorem mono (h : layout.Chains cutoff wides narrows) (he : layout.Extends layout') :
    layout'.Chains cutoff wides narrows := by
  induction h with
  | nil => exact .nil
  | kept hp _ ih => exact .kept (hp.mono he) ih
  | spare hs _ ih => exact .spare (he.spare hs) ih

/-- A pair of frames may be put in front of chains that correspond. -/
theorem kept_none (hp : layout.Pairs wide narrow) (h : layout.Chains none wides narrows) :
    layout.Chains none (wide :: wides) (narrow :: narrows) := by
  have hk : layout.Chains (Cutoff.inner none) (wide :: wides) (narrow :: narrows) := .kept hp h
  exact hk

/-- The innermost frame is on both sides unless it is the spare one. -/
theorem head (h : layout.Chains cutoff (wide :: wides) (narrow :: narrows))
    (hc : cutoff ≠ some 0) : layout.Pairs wide narrow := by
  cases h with
  | kept hp _ => exact hp
  | spare _ _ => exact absurd rfl hc

/-- A chain of frames is the same as itself. -/
theorem same {size : Nat} {chain : List Nat} (h : ∀ frame ∈ chain, frame < size) :
    (Layout.same size).Chains none chain chain := by
  induction chain with
  | nil => exact .nil
  | cons frame chain ih =>
    obtain ⟨hf, hc⟩ := List.forall_mem_cons.1 h
    exact .kept_none (pairs_same hf) (ih hc)

end Chains

end Layout

/-- The position that a number of frames stands for, with the spare frame counted. -/
def Cutoff.position : Cutoff → Nat → Nat
  | none, n => n
  | some place, n => if n < place then n else n + 1

/-- Distances are moved as positions are. -/
theorem Cutoff.toNat_hops (cutoff : Cutoff) (distance : Int) :
    (cutoff.hops distance).toNat = cutoff.position distance.toNat := by
  cases cutoff with
  | none => rfl
  | some place =>
    simp only [Cutoff.hops, Cutoff.position]
    split
    · rfl
    · omega

theorem Cutoff.position_inner_zero (cutoff : Cutoff) : cutoff.inner.position 0 = 0 := by
  cases cutoff <;> rfl

theorem Cutoff.position_inner_succ (cutoff : Cutoff) (n : Nat) :
    cutoff.inner.position (n + 1) = cutoff.position n + 1 := by
  cases cutoff with
  | none => rfl
  | some place =>
    simp only [Cutoff.inner_some, Cutoff.position, Nat.add_lt_add_iff_right]
    split <;> rfl

/-- **A widened number leads to the same frame**, or past the end in both environments. -/
theorem Layout.Chains.at {layout : Layout} {cutoff : Cutoff} {wides narrows : List Nat}
    (h : layout.Chains cutoff wides narrows) (n : Nat) :
    Option.Rel layout.Pairs wides[cutoff.position n]? narrows[n]? := by
  induction h generalizing n with
  | nil => exact .none
  | @kept cutoff wide narrow wides narrows hp _ ih =>
    cases n with
    | zero =>
      rw [Cutoff.position_inner_zero]
      exact .some hp
    | succ n =>
      rw [Cutoff.position_inner_succ]
      exact ih n
  -- the spare frame comes first and is counted whatever the number
  | spare hs _ ih => exact ih n

/-! ## Frames -/

namespace Frames

/-- **The frames of a layout match**: those on both sides have the same bindings, and spare
frames have none.  The global frame is on both sides. -/
structure Match (layout : Layout) (wide narrow : Frames) : Prop where
  kept : layout.kept.length = narrow.next
  all : (layout.kept ++ layout.spare).Perm (List.range wide.next)
  global : layout.Pairs 0 0
  bindings : ∀ {g f}, layout.Pairs g f → wide.bindings g = narrow.bindings f
  spare : ∀ g ∈ layout.spare, wide.bindings g = .empty

namespace Match

variable {layout : Layout} {wide narrow : Frames} {g f g' f' : Nat}

/-- A frame with a partner is one of the frames there are. -/
theorem lt_wide (h : Match layout wide narrow) (hp : layout.Pairs g f) : g < wide.next := by
  have hm : g ∈ layout.kept ++ layout.spare := List.mem_append_left _ (List.mem_of_getElem? hp)
  exact List.mem_range.1 (h.all.mem_iff.1 hm)

theorem lt_narrow (h : Match layout wide narrow) (hp : layout.Pairs g f) : f < narrow.next := by
  rw [← h.kept]
  exact (List.getElem?_eq_some_iff.1 hp).1

/-- No frame is both kept and spare, or either of them twice. -/
theorem nodup (h : Match layout wide narrow) : (layout.kept ++ layout.spare).Nodup :=
  h.all.nodup_iff.2 List.nodup_range

/-- A wide frame is at most one narrow frame. -/
theorem injective (h : Match layout wide narrow) (hp : layout.Pairs g f)
    (hp' : layout.Pairs g f') : f = f' := by
  have hl : f < layout.kept.length := (List.getElem?_eq_some_iff.1 hp).1
  exact (List.getElem?_inj hl (List.nodup_append.1 h.nodup).1).1 (hp.trans hp'.symm)

/-- A frame on both sides is not spare. -/
theorem notMem_spare (h : Match layout wide narrow) (hp : layout.Pairs g f) : g ∉ layout.spare :=
  fun hs => (List.nodup_append.1 h.nodup).2.2 g (List.mem_of_getElem? hp) g hs rfl

/-- **Binding a name in a frame on both sides.** -/
theorem bind (h : Match layout wide narrow) (hp : layout.Pairs g f) (name : String)
    (value : Value) : Match layout (wide.bind g name value) (narrow.bind f name value) where
  kept := by simp only [h.kept, next, Frames.bind, Array.size_modify]
  all := by
    have hn : (wide.bind g name value).next = wide.next := by
      simp only [next, Frames.bind, Array.size_modify]
    rw [hn]
    exact h.all
  global := h.global
  bindings := by
    intro g' f' hp'
    rw [bindings_bind _ _ _ _ _ (h.lt_wide hp), bindings_bind _ _ _ _ _ (h.lt_narrow hp),
      h.bindings hp, h.bindings hp']
    -- two wide frames are one exactly if the narrow frames are
    have hiff : g' = g ↔ f' = f := by
      constructor
      · rintro rfl
        exact h.injective hp' hp
      · rintro rfl
        exact Option.some.inj (hp'.symm.trans hp)
    simp only [hiff]
  spare := by
    intro g' hs
    rw [bindings_bind _ _ _ _ _ (h.lt_wide hp), if_neg, h.spare g' hs]
    rintro rfl
    exact h.notMem_spare hp hs

/-- A frame that is not there yet binds nothing. -/
theorem bindings_next (frames : Frames) : frames.bindings frames.next = .empty := by
  simp [Frames.bindings, next]

/-- **A new frame on both sides.** -/
theorem push (h : Match layout wide narrow) :
    Match (layout.keep wide.next) wide.push narrow.push where
  kept := by simp [Layout.keep, h.kept, next, Frames.push]
  all := by
    have hn : wide.push.next = wide.next + 1 := by simp [next, Frames.push]
    rw [hn, List.range_succ]
    -- the new frame moves past the spare ones
    have hmove : (layout.kept ++ [wide.next] ++ layout.spare).Perm
        (layout.kept ++ layout.spare ++ [wide.next]) := by
      rw [List.append_assoc, List.append_assoc]
      exact List.perm_append_comm.append_left _
    exact hmove.trans (h.all.append_right _)
  global := h.global.mono (layout.extends_keep _)
  bindings := by
    intro g' f' hp
    rw [bindings_push, bindings_push]
    obtain hp | ⟨rfl, rfl⟩ := Layout.pairs_keep_iff.1 hp
    · exact h.bindings hp
    · rw [h.kept, bindings_next, bindings_next]
  spare := by
    intro g' hs
    rw [bindings_push]
    exact h.spare g' hs

/-- **A new frame on the wide side alone.** -/
theorem pushSpare (h : Match layout wide narrow) :
    Match (layout.leaveOut wide.next) wide.push narrow where
  kept := h.kept
  all := by
    have hn : wide.push.next = wide.next + 1 := by simp [next, Frames.push]
    rw [hn, List.range_succ, Layout.leaveOut, ← List.append_assoc]
    exact h.all.append_right _
  global := h.global
  bindings := by
    intro g' f' hp
    rw [bindings_push]
    exact h.bindings hp
  spare := by
    intro g' hs
    rw [bindings_push]
    obtain hs | hs := List.mem_append.1 hs
    · exact h.spare g' hs
    · rw [List.mem_singleton.1 hs, bindings_next]

/-- Frames match themselves. -/
theorem same {frames : Frames} (h : 0 < frames.next) :
    Match (Layout.same frames.next) frames frames where
  kept := by simp [Layout.same]
  all := by simp [Layout.same]
  global := Layout.pairs_same h
  bindings := by
    intro g f hp
    obtain ⟨hl, rfl⟩ := List.getElem?_eq_some_iff.1 hp
    simp [Layout.same]
  spare := by simp [Layout.same]

/-- **A name is found in the same frame**, or in none. -/
theorem find? (h : Match layout wide narrow) {cutoff : Cutoff} {wides narrows : List Nat}
    (hc : layout.Chains cutoff wides narrows) (name : String) :
    Option.Rel (fun w n => layout.Pairs w.1 n.1 ∧ w.2 = n.2) (wide.find? wides name)
      (narrow.find? narrows name) := by
  induction hc with
  | nil => exact .none
  | @kept cutoff g f wides narrows hp _ ih =>
    simp only [Frames.find?, List.findSome?_cons, h.bindings hp]
    cases (narrow.bindings f).get? name with
    | none => exact ih
    | some value => exact .some ⟨hp, rfl⟩
  -- a spare frame binds nothing and is passed over
  | @spare g wides narrows hs _ ih =>
    simp only [Frames.find?, List.findSome?_cons, h.spare g hs, NameMap.get?_empty,
      Option.map_none]
    exact ih

end Match

end Frames

/-! ## Errors that count frames -/

/-- **The same cause**, with the spare frame counted where the cause tells a number of frames. -/
inductive RuntimeFault.Match : RuntimeFault → RuntimeFault → Prop where
  | same (fault : RuntimeFault) : Match fault fault
  | missingAtDistance (name : String) (distance : Int) :
      Match (.missingAtDistance name (distance.toNat + 1)) (.missingAtDistance name distance)
  | pastGlobal (distance : Int) :
      Match (.pastGlobal (distance.toNat + 1)) (.pastGlobal distance)

/-- **The same error**, with the spare frame counted where it tells a number of frames. -/
structure RuntimeError.Match (wide narrow : RuntimeError) : Prop where
  fault : wide.fault.Match narrow.fault
  line : wide.line = narrow.line
  subject : wide.subject = narrow.subject

theorem RuntimeError.Match.refl (e : RuntimeError) : e.Match e := ⟨.same _, rfl, rfl⟩

/-- The same name is missing at both distances. -/
theorem RuntimeFault.match_missing (cutoff : Cutoff) (name : String) (distance : Int) :
    (missingAtDistance name (cutoff.hops distance)).Match (missingAtDistance name distance) := by
  unfold Cutoff.hops
  split
  · exact .same _
  · split
    · exact .same _
    · exact .missingAtDistance name distance

theorem RuntimeFault.match_past (cutoff : Cutoff) (distance : Int) :
    (pastGlobal (cutoff.hops distance)).Match (pastGlobal distance) := by
  unfold Cutoff.hops
  split
  · exact .same _
  · split
    · exact .same _
    · exact .pastGlobal distance

/-! ## Operations on frames -/

namespace Frames

variable {α α' β β' : Type} {layout : Layout}

/-- **Two operations end alike on matching frames.** -/
def Alike (layout : Layout) (values : α → α' → Prop) (op : FrameM α) (op' : FrameM α') : Prop :=
  ∀ wide narrow, Match layout wide narrow →
    EndsAlike (fun a wide' a' narrow' => values a a' ∧ Match layout wide' narrow')
      (fun e wide' e' narrow' => e.Match e' ∧ Match layout wide' narrow') (op wide) (op' narrow)

/-- Operations that go alike, one after the other, go alike. -/
theorem Alike.bind {values : α → α' → Prop} {ends : β → β' → Prop} {op : FrameM α}
    {op' : FrameM α'} {next : α → FrameM β} {next' : α' → FrameM β'}
    (h : Alike layout values op op')
    (hn : ∀ a a', values a a' → Alike layout ends (next a) (next' a')) :
    Alike layout ends (op >>= next) (op' >>= next') :=
  fun wide narrow hm => (h wide narrow hm).bind fun a wide' a' narrow' ha =>
    hn a a' ha.1 wide' narrow' ha.2

theorem alike_pure {values : α → α' → Prop} {a : α} {a' : α'} (h : values a a') :
    Alike layout values (pure a) (pure a') :=
  fun _ _ hm => .ok ⟨h, hm⟩

theorem alike_throw {values : α → α' → Prop} {e e' : RuntimeError} (h : e.Match e') :
    Alike layout values (throw e) (throw e') :=
  fun _ _ hm => .error ⟨h, hm⟩

/-- The frames are looked at. -/
theorem alike_get {values : β → β' → Prop} {next : Frames → FrameM β} {next' : Frames → FrameM β'}
    (h : ∀ wide narrow, Match layout wide narrow →
      Alike layout values (next wide) (next' narrow)) :
    Alike layout values (EStateM.get >>= next) (EStateM.get >>= next') :=
  fun wide narrow hm => h wide narrow hm wide narrow hm

/-- Binding a name in both of a pair of frames goes alike. -/
theorem alike_bind {g f : Nat} (hp : layout.Pairs g f) (name : String) (value : Value) :
    Alike layout (· = ·) (modify (Frames.bind · g name value) : FrameM PUnit)
      (modify (Frames.bind · f name value)) :=
  fun _ _ hm => .ok ⟨rfl, hm.bind hp name value⟩

theorem alike_requireName (name : Token) :
    Alike layout (· = ·) (requireName name) (requireName name) := by
  unfold requireName
  split
  · exact alike_pure rfl
  · exact alike_throw (.refl _)

/-- **A name is bound alike** if the innermost frame is not spare. -/
theorem alike_define {cutoff : Cutoff} {env env' : Environment}
    (hc : layout.Chains cutoff env.chain env'.chain) (h : cutoff ≠ some 0) (name : Token)
    (value : Value) : Alike layout (· = ·) (define env name value) (define env' name value) :=
  (alike_requireName name).bind fun _ _ _ => alike_bind (hc.head h) _ _

/-- **A name is assigned alike**, from the inside out. -/
theorem alike_assign {cutoff : Cutoff} {env env' : Environment}
    (hc : layout.Chains cutoff env.chain env'.chain) (name : Token) (value : Value) :
    Alike layout (· = ·) (assign env name value) (assign env' name value) := by
  refine (alike_requireName name).bind fun _ _ _ => alike_get fun wide narrow hm => ?_
  have hf := hm.find? hc name.lexeme
  generalize wide.find? env.chain name.lexeme = found at hf ⊢
  generalize narrow.find? env'.chain name.lexeme = found' at hf ⊢
  cases hf with
  | none => exact alike_throw (.refl _)
  | some hp => exact alike_bind hp.1 _ _

/-- **A name is looked up alike**, from the inside out. -/
theorem alike_getValue {cutoff : Cutoff} {env env' : Environment}
    (hc : layout.Chains cutoff env.chain env'.chain) (name : Token) :
    Alike layout (· = ·) (get env name) (get env' name) := by
  refine (alike_requireName name).bind fun _ _ _ => alike_get fun wide narrow hm => ?_
  have hf := hm.find? hc name.lexeme
  generalize wide.find? env.chain name.lexeme = found at hf ⊢
  generalize narrow.find? env'.chain name.lexeme = found' at hf ⊢
  cases hf with
  | none => exact alike_throw (.refl _)
  | some hp => exact alike_pure hp.2

section

variable {cutoff : Cutoff} {env env' : Environment}
  (hc : layout.Chains cutoff env.chain env'.chain) (distance : Int) (name : Token)

include hc

/-- **The frame so many steps out is the same**, with the spare frame counted. -/
theorem alike_ancestor (subject : String) :
    Alike layout layout.Pairs (ancestor env (cutoff.hops distance) subject)
      (ancestor env' distance subject) := by
  unfold ancestor
  rw [Cutoff.toNat_hops]
  have hf := hc.at distance.toNat
  generalize env.chain[cutoff.position distance.toNat]? = frame at hf ⊢
  generalize env'.chain[distance.toNat]? = frame' at hf ⊢
  cases hf with
  | none => exact alike_throw ⟨RuntimeFault.match_past cutoff distance, rfl, rfl⟩
  | some hp => exact alike_pure hp

/-- Looking at a distance goes alike, with the spare frame counted on one side. -/
theorem alike_locateAt :
    Alike layout (fun w n => layout.Pairs w.1 n.1 ∧ w.2 = n.2)
      (locateAt env (cutoff.hops distance) name) (locateAt env' distance name) := by
  refine (alike_requireName name).bind fun _ _ _ =>
    (alike_ancestor hc distance name.lexeme).bind fun g f hp => alike_get fun wide narrow hm => ?_
  rw [hm.bindings hp]
  split
  · exact alike_pure ⟨hp, rfl⟩
  · exact alike_throw ⟨RuntimeFault.match_missing cutoff name.lexeme distance, rfl, rfl⟩

/-- **A variable is looked up alike.** -/
theorem alike_getAt :
    Alike layout (· = ·) (getAt env (cutoff.hops distance) name) (getAt env' distance name) := by
  unfold getAt
  rw [← bind_pure_comp, ← bind_pure_comp]
  exact (alike_locateAt hc distance name).bind fun _ _ h => alike_pure h.2

/-- **A variable is assigned alike.** -/
theorem alike_assignAt (value : Value) :
    Alike layout (· = ·) (assignAt env (cutoff.hops distance) name value)
      (assignAt env' distance name value) :=
  (alike_locateAt hc distance name).bind fun _ _ h => alike_bind h.1 _ _

end

end Frames

end ScopedScript
