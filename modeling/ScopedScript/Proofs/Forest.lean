import ScopedScript.Proofs.Scope.Frames

/-!
# Forests of environments

Environments are made one inside another, and several may be made inside the same one, so that
together they form a forest with shared frames.  A variable can be looked up in it in two ways: by
name, going outward until a frame binds the name, or by the number of steps to go.  This module
says that the two agree in every forest that can be made, whatever was defined and assigned in it.

Going outward means going from a frame to the one that encloses it, again and again.  That this
comes to an end is due to the order in which environments are made: an environment is made inside
one that is there already, so each frame has a greater number than the one that encloses it.

## Main definitions

* `Forest`, `Forest.perform`, `Forest.grown`: forests, and how they are made.
* `Forest.Searches`: the walk outward in search of a name.
* `Forest.outward?`, `Forest.Nearest`: steps outward, and the least number of them to a name.
* `Forest.Rebinds`: the change of one binding.
* `Forest.LookupAgrees`: a lookup by name is a lookup by the least distance.

## Main results

* `Forest.Planted.perform`, `Forest.grown_planted`: enclosing frames are older.
* `Forest.Planted.induction`: induction from an environment to those inside it.
* `Forest.Planted.searches_iff`: so every search comes to an end, at the frame that is found.
* `Forest.Planted.rebinds`: binding a name where it is bound changes that binding alone.
* `Forest.lookup_by_name_is_by_distance`: so the two lookups agree in every forest.
-/

namespace ScopedScript

/-! ## What the operations do to the frames -/

namespace FrameM

variable {α β : Type}

/-- An operation that only looks at the frames. -/
def Looks (op : FrameM α) : Prop :=
  ∀ frames, (∃ a, op frames = .ok a frames) ∨ ∃ e, op frames = .error e frames

/-- An operation that binds a name, or fails. -/
def Binds (op : FrameM Unit) : Prop :=
  ∀ frames, (∃ frame name value, op frames = .ok () (frames.bind frame name value)) ∨
    ∃ e, op frames = .error e frames

/-- **An operation that changes nothing when it fails.** -/
def Atomic (op : FrameM α) : Prop :=
  ∀ ⦃frames e frames'⦄, op frames = .error e frames' → frames' = frames

theorem looks_pure (a : α) : Looks (pure a) := fun _ => .inl ⟨a, rfl⟩

theorem looks_throw (e : RuntimeError) : Looks (throw e : FrameM α) := fun _ => .inr ⟨e, rfl⟩

theorem binds_throw (e : RuntimeError) : Binds (throw e) := fun _ => .inr ⟨e, rfl⟩

theorem binds_modify (frame : Nat) (name : String) (value : Value) :
    Binds (modify (·.bind frame name value)) := fun _ => .inl ⟨frame, name, value, rfl⟩

/-- Looking in a row is looking. -/
theorem Looks.bind {op : FrameM α} {next : α → FrameM β} (h : Looks op)
    (hn : ∀ a, Looks (next a)) : Looks (op >>= next) := by
  intro frames
  rcases h frames with ⟨a, ha⟩ | ⟨e, he⟩
  · rw [bind_of_ok ha]
    exact hn a frames
  · exact .inr ⟨e, bind_eq_error_iff.2 (.inl he)⟩

/-- Looking at the frames before binding a name. -/
theorem Looks.then_binds {op : FrameM α} {next : α → FrameM Unit} (h : Looks op)
    (hn : ∀ a, Binds (next a)) : Binds (op >>= next) := by
  intro frames
  rcases h frames with ⟨a, ha⟩ | ⟨e, he⟩
  · rw [bind_of_ok ha]
    exact hn a frames
  · exact .inr ⟨e, bind_eq_error_iff.2 (.inl he)⟩

/-- Looking changes nothing, so it changes nothing when it fails. -/
theorem Looks.atomic {op : FrameM α} (h : Looks op) : Atomic op := by
  intro frames e frames' he
  rcases h frames with ⟨a, ha⟩ | ⟨e', he'⟩
  · rw [ha] at he
    cases he
  · rw [he'] at he
    cases he
    rfl

/-- Binding one name is all or nothing. -/
theorem Binds.atomic {op : FrameM Unit} (h : Binds op) : Atomic op := by
  intro frames e frames' he
  rcases h frames with ⟨_, _, _, ha⟩ | ⟨e', he'⟩
  · rw [ha] at he
    cases he
  · rw [he'] at he
    cases he
    rfl

end FrameM

namespace Frames

open FrameM

variable (env : Environment) (name : Token) (distance : Int) (value : Value)

theorem looks_requireName : Looks (requireName name) := by
  unfold requireName
  split
  · exact looks_pure ()
  · exact looks_throw _

theorem looks_read : Looks (EStateM.get : FrameM Frames) := fun frames => .inl ⟨frames, rfl⟩

theorem looks_get : Looks (get env name) := by
  refine (looks_requireName name).bind fun _ => looks_read.bind fun frames => ?_
  split
  · exact looks_pure _
  · exact looks_throw _

theorem looks_ancestor (subject : String) : Looks (ancestor env distance subject) := by
  unfold ancestor
  split
  · exact looks_pure _
  · exact looks_throw _

theorem looks_locateAt : Looks (locateAt env distance name) := by
  refine (looks_requireName name).bind fun _ =>
    (looks_ancestor env distance name.lexeme).bind fun frame => looks_read.bind fun frames => ?_
  split
  · exact looks_pure _
  · exact looks_throw _

theorem looks_getAt : Looks (getAt env distance name) := by
  rw [getAt, ← bind_pure_comp]
  exact (looks_locateAt env name distance).bind fun _ => looks_pure _

theorem binds_define : FrameM.Binds (define env name value) :=
  (looks_requireName name).then_binds fun _ => binds_modify _ _ _

theorem binds_assign : FrameM.Binds (assign env name value) := by
  refine (looks_requireName name).then_binds fun _ => looks_read.then_binds fun frames => ?_
  split
  · exact binds_modify _ _ _
  · exact binds_throw _

theorem binds_assignAt : FrameM.Binds (assignAt env distance name value) :=
  (looks_locateAt env name distance).then_binds fun _ => binds_modify _ _ _

/-! ## What is found -/

variable {env name distance value} {frames : Frames}

theorem find?_cons_of_some {frame : Nat} {chain : List Nat} {name : String} {value : Value}
    (h : (frames.bindings frame).get? name = some value) :
    frames.find? (frame :: chain) name = some (frame, value) := by
  simp [find?, h]

/-- A frame that does not bind the name is passed over. -/
theorem find?_cons_of_none {frame : Nat} {chain : List Nat} {name : String}
    (h : (frames.bindings frame).get? name = none) :
    frames.find? (frame :: chain) name = frames.find? chain name := by
  simp [find?, h]

/-- The first frame that binds a name is found. -/
theorem find?_of_least {chain : List Nat} {name : String} {distance frame : Nat} {value : Value}
    (hc : chain[distance]? = some frame) (hv : (frames.bindings frame).get? name = some value)
    (hl : ∀ d < distance, ∀ other, chain[d]? = some other → ¬ frames.Binds other name) :
    frames.find? chain name = some (frame, value) := by
  induction chain generalizing distance with
  | nil => cases hc
  | cons first chain ih =>
    cases distance with
    | zero =>
      cases hc
      exact find?_cons_of_some hv
    | succ distance =>
      have hfirst : (frames.bindings first).get? name = none := by
        simpa [Binds] using hl 0 (Nat.succ_pos _) first rfl
      rw [find?_cons_of_none hfirst]
      exact ih hc fun d hd => hl (d + 1) (Nat.succ_lt_succ hd)

/-- Nothing is found if no frame binds the name. -/
theorem find?_eq_none {chain : List Nat} {name : String}
    (h : ∀ frame ∈ chain, ¬ frames.Binds frame name) : frames.find? chain name = none := by
  refine List.findSome?_eq_none_iff.2 fun frame hm => ?_
  have hn : (frames.bindings frame).get? name = none := by simpa [Binds] using h frame hm
  rw [hn]
  rfl

/-- Only a frame that is there binds a name. -/
theorem Binds.lt_next {frame : Nat} {name : String} (h : frames.Binds frame name) :
    frame < frames.next := by
  refine Nat.lt_of_not_le fun hn => ?_
  have hempty : frames.bindings frame = .empty := by
    rw [bindings, Array.getD_eq_getD_getElem?, Array.getElem?_eq_none hn]
    rfl
  rw [Binds, hempty] at h
  cases h

/-- Past the last frame nothing is located. -/
theorem locateAt_past (hk : name.kind = .identifier) (hc : env.chain[distance.toNat]? = none) :
    locateAt env distance name frames =
      .error ⟨.pastGlobal distance, none, name.lexeme⟩ frames := by
  rw [locateAt, bind_of_ok (requireName_eq hk)]
  refine bind_eq_error_iff.2 (.inl ?_)
  rw [ancestor, hc]
  rfl

end Frames

/-! ## Forests -/

/-- **A forest of environments**: all frames, and the environments in the order in which they were
made. -/
structure Forest where
  frames : Frames
  environments : List Environment

namespace Forest

/-- **What can be done to a forest.**  Environments are given by their numbers: one is made, inside
another one or on its own, or something is defined or assigned from one of them. -/
inductive Operation where
  | create (parent : Option Nat)
  | define (env : Nat) (name : Token) (value : Value)
  | assign (env : Nat) (name : Token) (value : Value)
  | assignAt (env : Nat) (distance : Int) (name : Token) (value : Value)

/-- The environment of a new frame inside another environment, if there is one. -/
def nested (parent? : Option Environment) (frame : Nat) : Environment :=
  match parent? with
  | some parent => parent.inner frame
  | none => ⟨frame, []⟩

/-- The forest after an operation on its frames, however it ended. -/
def after (forest : Forest) (op : FrameM Unit) : Forest :=
  match op forest.frames with
  | .ok _ frames => { forest with frames := frames }
  | .error _ frames => { forest with frames := frames }

/-- The forest after an operation from one of its environments. -/
def act (forest : Forest) (env : Nat) (op : Environment → FrameM Unit) : Forest :=
  match forest.environments[env]? with
  | some env => forest.after (op env)
  | none => forest

/-- **The forest after an operation**, whether it succeeded or not. -/
def perform (forest : Forest) : Operation → Forest
  | .create parent =>
    ⟨forest.frames.push, forest.environments ++
      [nested (parent.bind (forest.environments[·]?)) forest.frames.next]⟩
  | .define env name value => forest.act env fun env => Frames.define env name value
  | .assign env name value => forest.act env fun env => Frames.assign env name value
  | .assignAt env distance name value =>
    forest.act env fun env => Frames.assignAt env distance name value

/-- **The forests that can be made**: by any operations, one after the other. -/
def grown (operations : List Operation) : Forest := operations.foldl perform ⟨.empty, []⟩

/-! ## Going outward -/

/-- The frame that encloses a frame. -/
def parent? (forest : Forest) (frame : Nat) : Option Nat :=
  forest.environments[frame]?.bind (·.enclosing.head?)

/-- The frame some steps outward. -/
def outward? (forest : Forest) (frame : Nat) : Nat → Option Nat
  | 0 => some frame
  | distance + 1 => (forest.parent? frame).bind (forest.outward? · distance)

/-- **The walk outward in search of a name**, from a frame or from nowhere.  It stops at the first
frame that binds the name, or has nowhere to go. -/
inductive Searches (forest : Forest) (name : String) : Option Nat → Option Nat → Prop where
  | exhausted : Searches forest name none none
  | here {frame : Nat} (h : forest.frames.Binds frame name) :
      Searches forest name (some frame) (some frame)
  | outward {frame : Nat} {found : Option Nat} (h : ¬ forest.frames.Binds frame name)
      (hs : Searches forest name (forest.parent? frame) found) :
      Searches forest name (some frame) found

/-- **The nearest frame that binds a name**, and how many steps outward it is. -/
structure Nearest (forest : Forest) (start : Nat) (name : String) (distance frame : Nat) :
    Prop where
  outward : forest.outward? start distance = some frame
  binds : forest.frames.Binds frame name
  least : ∀ d < distance, ∀ other, forest.outward? start d = some other →
    ¬ forest.frames.Binds other name

/-! ## Enclosing frames are older -/

/-- **Every environment was made inside an older one, or on its own**, and is numbered as its
frame. -/
structure Planted (forest : Forest) : Prop where
  size : forest.environments.length = forest.frames.next
  older : ∀ {n : Nat} {env : Environment}, forest.environments[n]? = some env →
    env.frame = n ∧ (env.enclosing = [] ∨
      ∃ m < n, ∃ parent, forest.environments[m]? = some parent ∧ env.enclosing = parent.chain)

namespace Planted

variable {forest : Forest}

/-- Binding a name makes no frame and no environment. -/
theorem after (h : forest.Planted) {op : FrameM Unit} (ho : FrameM.Binds op) :
    (forest.after op).Planted := by
  unfold Forest.after
  rcases ho forest.frames with ⟨frame, name, value, hr⟩ | ⟨e, hr⟩
  · rw [hr]
    exact ⟨h.size.trans (Frames.next_bind ..).symm, h.older⟩
  · rw [hr]
    exact h

/-- Operations that bind names leave a forest planted. -/
theorem act (h : forest.Planted) {op : Environment → FrameM Unit}
    (ho : ∀ env, FrameM.Binds (op env))
    (n : Nat) : (forest.act n op).Planted := by
  unfold Forest.act
  split
  · exact h.after (ho _)
  · exact h

/-- A new environment is made inside one that is there, and its frame has a greater number. -/
theorem create (h : forest.Planted) (parent : Option Nat) :
    (forest.perform (.create parent)).Planted := by
  refine ⟨?_, fun {n env} henv => ?_⟩
  · simp [Forest.perform, h.size]
  · simp only [Forest.perform] at henv ⊢
    have hlift : ∀ {m parent}, forest.environments[m]? = some parent → ∀ more,
        (forest.environments ++ more)[m]? = some parent := fun hm more => by
      rw [List.getElem?_append_left (List.getElem?_eq_some_iff.1 hm).1, hm]
    rcases Nat.lt_trichotomy n forest.environments.length with hn | rfl | hn
    · rw [List.getElem?_append_left hn] at henv
      obtain ⟨hf, he⟩ := h.older henv
      refine ⟨hf, he.imp_right ?_⟩
      rintro ⟨m, hm, parent, hp, he⟩
      exact ⟨m, hm, parent, hlift hp _, he⟩
    · rw [List.getElem?_append_right (Nat.le_refl _), Nat.sub_self] at henv
      obtain rfl : nested _ _ = env := Option.some.inj henv
      unfold nested
      split
      · rename_i found hfound
        obtain ⟨m, -, hm⟩ := Option.bind_eq_some_iff.1 hfound
        have hlt := (List.getElem?_eq_some_iff.1 hm).1
        exact ⟨h.size.symm, .inr ⟨m, hlt, found, hlift hm _, rfl⟩⟩
      · exact ⟨h.size.symm, .inl rfl⟩
    · have hlen : (forest.environments ++ [nested (parent.bind (forest.environments[·]?))
          forest.frames.next]).length ≤ n := by
        rw [List.length_append]
        exact hn
      rw [List.getElem?_eq_none hlen] at henv
      cases henv

/-- **Every operation keeps enclosing frames older.** -/
theorem perform (h : forest.Planted) (operation : Operation) :
    (forest.perform operation).Planted := by
  cases operation with
  | create parent => exact h.create parent
  | define n name value => exact h.act (fun env => Frames.binds_define env name value) n
  | assign n name value => exact h.act (fun env => Frames.binds_assign env name value) n
  | assignAt n distance name value =>
    exact h.act (fun env => Frames.binds_assignAt env name distance value) n

end Planted

/-- **In every forest that can be made, enclosing frames are older.** -/
theorem grown_planted (operations : List Operation) : (grown operations).Planted := by
  suffices h : ∀ forest : Forest, forest.Planted → (operations.foldl perform forest).Planted from
    h ⟨.empty, []⟩ ⟨rfl, fun {n env} henv => by simp at henv⟩
  induction operations with
  | nil => exact fun _ h => h
  | cons operation operations ih => exact fun forest h => ih _ (h.perform operation)

/-! ## Searches come to an end -/

/-- A search ends in one way only. -/
theorem Searches.unique {forest : Forest} {name : String} {start found found' : Option Nat}
    (h : forest.Searches name start found) (h' : forest.Searches name start found') :
    found = found' := by
  induction h with
  | exhausted =>
    cases h'
    rfl
  | here hb =>
    cases h' with
    | here => rfl
    | outward hn _ => exact absurd hb hn
  | outward hn _ ih =>
    cases h' with
    | here hb => exact absurd hb hn
    | outward _ hs => exact ih hs

namespace Planted

variable {forest : Forest} {env : Environment}

/-- An environment has the number of its frame. -/
theorem getElem?_frame (h : forest.Planted) (henv : env ∈ forest.environments) :
    forest.environments[env.frame]? = some env := by
  obtain ⟨n, hn⟩ := List.getElem?_of_mem henv
  obtain ⟨rfl, -⟩ := h.older hn
  exact hn

/-- **Induction from an environment to those inside it.** -/
theorem induction (h : forest.Planted) {motive : Environment → Prop}
    (root : ∀ env ∈ forest.environments, env.enclosing = [] → motive env)
    (inside : ∀ env ∈ forest.environments, ∀ parent ∈ forest.environments,
      env.enclosing = parent.chain → motive parent → motive env)
    (henv : env ∈ forest.environments) : motive env := by
  -- the environments on the way outward are older and older
  suffices hall : ∀ n env, forest.environments[n]? = some env → motive env from
    hall env.frame env (h.getElem?_frame henv)
  intro n
  induction n using Nat.strongRecOn with
  | ind n ih =>
    intro env hn
    obtain ⟨-, hencl | ⟨m, hm, parent, hp, hencl⟩⟩ := h.older hn
    · exact root env (List.mem_of_getElem? hn) hencl
    · exact inside env (List.mem_of_getElem? hn) parent (List.mem_of_getElem? hp) hencl
        (ih m hm parent hp)

/-- The parent of a frame is the one that encloses it. -/
theorem parent?_eq (h : forest.Planted) (henv : env ∈ forest.environments) :
    forest.parent? env.frame = env.enclosing.head? := by
  rw [parent?, h.getElem?_frame henv]
  rfl

/-- The first step of a search. -/
theorem searches_of_enclosing (h : forest.Planted) (henv : env ∈ forest.environments)
    {name : String} (hs : forest.Searches name env.enclosing.head?
      ((forest.frames.find? env.enclosing name).map Prod.fst)) :
    forest.Searches name (some env.frame)
      ((forest.frames.find? env.chain name).map Prod.fst) := by
  cases hv : (forest.frames.bindings env.frame).get? name with
  | some value =>
    rw [Environment.chain, Frames.find?_cons_of_some hv]
    exact .here (by simp [Frames.Binds, hv])
  | none =>
    have hn : ¬ forest.frames.Binds env.frame name := by simp [Frames.Binds, hv]
    rw [Environment.chain, Frames.find?_cons_of_none hv]
    exact .outward hn (h.parent?_eq henv ▸ hs)

/-- **A search comes to an end**, at the innermost frame of the environment that binds the
name. -/
theorem searches (h : forest.Planted) (henv : env ∈ forest.environments) (name : String) :
    forest.Searches name (some env.frame)
      ((forest.frames.find? env.chain name).map Prod.fst) := by
  refine h.induction (motive := fun env => forest.Searches name (some env.frame)
    ((forest.frames.find? env.chain name).map Prod.fst)) (fun env henv hencl => ?_)
    (fun env henv parent _ hencl ih => ?_) henv
  · refine h.searches_of_enclosing henv ?_
    rw [hencl]
    exact .exhausted
  · refine h.searches_of_enclosing henv ?_
    rw [hencl]
    exact ih

/-- A search ends at a frame exactly if that is the one found. -/
theorem searches_iff (h : forest.Planted) (henv : env ∈ forest.environments)
    {name : String} {found : Option Nat} :
    forest.Searches name (some env.frame) found ↔
      (forest.frames.find? env.chain name).map Prod.fst = found :=
  ⟨fun hs => (h.searches henv name).unique hs, fun hf => hf ▸ h.searches henv name⟩

/-- The frames of an environment are those outward of its own. -/
theorem outward?_eq (h : forest.Planted) (henv : env ∈ forest.environments)
    (distance : Nat) : forest.outward? env.frame distance = env.chain[distance]? := by
  refine h.induction
    (motive := fun env => ∀ distance, forest.outward? env.frame distance = env.chain[distance]?)
    (fun env henv hencl distance => ?_) (fun env henv parent _ hencl ih distance => ?_)
    henv distance
  · cases distance with
    | zero => rfl
    | succ distance =>
      rw [outward?, h.parent?_eq henv, Environment.chain, List.getElem?_cons_succ, hencl]
      rfl
  · cases distance with
    | zero => rfl
    | succ distance =>
      rw [outward?, h.parent?_eq henv, Environment.chain, List.getElem?_cons_succ, hencl]
      exact ih distance

end Planted

/-! ## Rebinding a name -/

/-- **One binding changes**: the name has the new value in that frame.  Every other binding of
every frame is as before, and so it is seen from every environment: the new value from those whose
search for the name ends at the frame, and what was there before from all others. -/
structure Rebinds (forest : Forest) (frame : Nat) (name : String) (value : Value)
    (frames : Frames) : Prop where
  here : (frames.bindings frame).get? name = some value
  elsewhere : ∀ other n, other ≠ frame ∨ n ≠ name →
    (frames.bindings other).get? n = (forest.frames.bindings other).get? n
  seen : ∀ env ∈ forest.environments, ∀ x : Token, x.kind = .identifier → x.lexeme = name →
    forest.Searches name (some env.frame) (some frame) →
      (Frames.get env x).run' frames = some value
  unseen : ∀ env ∈ forest.environments, ∀ x : Token, x.kind = .identifier →
    x.lexeme ≠ name ∨ ¬ forest.Searches name (some env.frame) (some frame) →
      (Frames.get env x).run' frames = (Frames.get env x).run' forest.frames

end Forest

namespace Frames

variable {env : Environment} {x : Token} {frames : Frames}

theorem run'_get (hk : x.kind = .identifier) (frames : Frames) :
    (get env x).run' frames = (frames.find? env.chain x.lexeme).map Prod.snd := by
  delta EStateM.run' EStateM.run
  rw [get_eq hk]
  cases frames.find? env.chain x.lexeme <;> rfl

/-- What is found after a binding: the new value, if the frame that was found is the one in which
the name was bound. -/
theorem find?_bind {frame : Nat} {name n : String} (hb : frames.Binds frame name)
    (value : Value) (chain : List Nat) :
    (frames.bind frame name value).find? chain n =
      if n = name ∧ (frames.find? chain n).map Prod.fst = some frame then some (frame, value)
      else frames.find? chain n := by
  obtain ⟨old, hold⟩ := Option.isSome_iff_exists.1 hb
  induction chain with
  | nil => simp [find?]
  | cons first chain ih =>
    have hget : ((frames.bind frame name value).bindings first).get? n =
        if first = frame ∧ n = name then some value else (frames.bindings first).get? n := by
      rw [bindings_bind _ _ _ _ _ hb.lt_next]
      by_cases hf : first = frame <;> by_cases hn : n = name <;> simp [hf, hn]
    cases hv : (frames.bindings first).get? n with
    | none =>
      -- neither before nor after does the first frame bind the name
      have hne : ¬ (first = frame ∧ n = name) := by
        rintro ⟨rfl, rfl⟩
        rw [hold] at hv
        cases hv
      rw [if_neg hne, hv] at hget
      rw [find?_cons_of_none hget, find?_cons_of_none hv, ih]
    | some found =>
      rw [find?_cons_of_some hv]
      by_cases hne : first = frame ∧ n = name
      · rw [if_pos hne] at hget
        rw [find?_cons_of_some hget, if_pos ⟨hne.2, congrArg some hne.1⟩, hne.1]
      · rw [if_neg hne, hv] at hget
        rw [find?_cons_of_some hget, if_neg]
        rintro ⟨hn, hf⟩
        exact hne ⟨Option.some.inj hf, hn⟩

end Frames

namespace Forest

variable {forest : Forest} {env : Environment} {x : Token}

/-- **Binding a name that a frame binds changes that binding alone.** -/
theorem Planted.rebinds (h : forest.Planted) {frame : Nat} {name : String}
    (hb : forest.frames.Binds frame name) (value : Value) :
    forest.Rebinds frame name value (forest.frames.bind frame name value) := by
  have hfound : ∀ env ∈ forest.environments, forest.Searches name (some env.frame) (some frame) ↔
      (forest.frames.find? env.chain name).map Prod.fst = some frame :=
    fun _ henv => h.searches_iff henv
  constructor
  · rw [Frames.bindings_bind _ _ _ _ _ hb.lt_next, if_pos rfl, NameMap.get?_insert, if_pos rfl]
  · intro other n hne
    rw [Frames.bindings_bind _ _ _ _ _ hb.lt_next]
    split
    · rename_i ho
      subst ho
      rw [NameMap.get?_insert, if_neg (hne.resolve_left (not_not_intro rfl))]
    · rfl
  · rintro env henv x hk rfl hs
    rw [Frames.run'_get hk, Frames.find?_bind hb, if_pos ⟨rfl, (hfound env henv).1 hs⟩]
    rfl
  · intro env henv x hk hne
    rw [Frames.run'_get hk, Frames.run'_get hk, Frames.find?_bind hb, if_neg]
    rintro ⟨rfl, hf⟩
    exact hne.elim (fun hn => hn rfl) fun hn => hn ((hfound env henv).2 hf)

/-! ## By name and by distance -/

/-- What is found from an environment, by name and by distance, where the nearest frame that binds
the name is known. -/
theorem Planted.lookup_nearest (h : forest.Planted) (henv : env ∈ forest.environments)
    (hk : x.kind = .identifier) {distance frame : Nat}
    (hn : forest.Nearest env.frame x.lexeme distance frame) :
    ∃ value, (forest.frames.bindings frame).get? x.lexeme = some value ∧
      Frames.get env x forest.frames = .ok value forest.frames ∧
      Frames.getAt env distance x forest.frames = .ok value forest.frames ∧
      ∀ v, Frames.assign env x v forest.frames =
          .ok () (forest.frames.bind frame x.lexeme v) ∧
        Frames.assignAt env distance x v forest.frames =
          .ok () (forest.frames.bind frame x.lexeme v) := by
  obtain ⟨value, hv⟩ := Option.isSome_iff_exists.1 hn.binds
  have hc : env.chain[distance]? = some frame := (h.outward?_eq henv distance).symm.trans hn.outward
  have hfound : forest.frames.find? env.chain x.lexeme = some (frame, value) :=
    Frames.find?_of_least hc hv fun d hd other ho =>
      hn.least d hd other ((h.outward?_eq henv d).trans ho)
  refine ⟨value, hv, ?_, ?_, fun v => ⟨?_, ?_⟩⟩
  · rw [Frames.get_eq hk, hfound]
  · rw [Frames.getAt_eq hk hc, hv]
  · rw [Frames.assign_eq hk, hfound]
  · rw [Frames.assignAt_eq hk hc, hv]

/-- What is found where no frame binds the name: by name it is missing, by distance the distance is
wrong. -/
theorem Planted.lookup_unbound (h : forest.Planted) (henv : env ∈ forest.environments)
    (hk : x.kind = .identifier)
    (hn : ∀ distance frame, forest.outward? env.frame distance = some frame →
      ¬ forest.frames.Binds frame x.lexeme) :
    Frames.get env x forest.frames = .error (Frames.undefined x) forest.frames ∧
      ∀ v, Frames.assign env x v forest.frames = .error (Frames.undefined x) forest.frames ∧
        ∀ distance : Nat, ∃ e, e.fault.isDefect = true ∧
          Frames.getAt env distance x forest.frames = .error e forest.frames ∧
          Frames.assignAt env distance x v forest.frames = .error e forest.frames := by
  have hchain : ∀ distance frame, env.chain[distance]? = some frame →
      ¬ forest.frames.Binds frame x.lexeme :=
    fun distance frame hc => hn distance frame ((h.outward?_eq henv distance).trans hc)
  have hfound : forest.frames.find? env.chain x.lexeme = none :=
    Frames.find?_eq_none fun frame hm => by
      obtain ⟨distance, hd⟩ := List.getElem?_of_mem hm
      exact hchain distance frame hd
  refine ⟨by rw [Frames.get_eq hk, hfound], fun v => ⟨by rw [Frames.assign_eq hk, hfound], ?_⟩⟩
  intro distance
  cases hc : env.chain[(distance : Int).toNat]? with
  | none =>
    have hpast : Frames.locateAt env distance x forest.frames = _ := Frames.locateAt_past hk hc
    refine ⟨_, rfl, ?_, bind_eq_error_iff.2 (.inl hpast)⟩
    rw [Frames.getAt, ← bind_pure_comp]
    exact bind_eq_error_iff.2 (.inl hpast)
  | some frame =>
    have hv : (forest.frames.bindings frame).get? x.lexeme = none := by
      simpa [Frames.Binds] using hchain _ frame hc
    refine ⟨.onToken x (.missingAtDistance x.lexeme distance), rfl, ?_, ?_⟩
    · rw [Frames.getAt_eq hk hc, hv]
    · rw [Frames.assignAt_eq hk hc, hv]

/-- **A lookup by name is a lookup by the least distance**, from an environment of a forest. -/
structure LookupAgrees (forest : Forest) (env : Environment) (x : Token) : Prop where
  /-- The search for the name comes to an end, at the frame that a lookup by name uses. -/
  searches : forest.Searches x.lexeme (some env.frame)
    ((forest.frames.find? env.chain x.lexeme).map Prod.fst)
  /-- Going outward comes to an end in any case. -/
  ends : ∃ steps, forest.outward? env.frame steps = none
  /-- The nearest frame that binds the name is read by name as by its distance. -/
  read : ∀ distance frame, forest.Nearest env.frame x.lexeme distance frame →
    Frames.get env x forest.frames = Frames.getAt env distance x forest.frames ∧
      ∃ value, (forest.frames.bindings frame).get? x.lexeme = some value ∧
        Frames.get env x forest.frames = .ok value forest.frames
  /-- It is assigned by name as by its distance, and that changes this one binding alone. -/
  assigned : ∀ distance frame, forest.Nearest env.frame x.lexeme distance frame → ∀ value,
    Frames.assign env x value forest.frames =
        Frames.assignAt env distance x value forest.frames ∧
      ∃ frames, Frames.assign env x value forest.frames = .ok () frames ∧
        forest.Rebinds frame x.lexeme value frames
  /-- Where no frame binds the name, a lookup by name is an error of the program, and one by any
  distance is a defect. -/
  unbound : (∀ distance frame, forest.outward? env.frame distance = some frame →
      ¬ forest.frames.Binds frame x.lexeme) → ∀ value,
    (∃ e, e.diagnostic.category = .runtime ∧ e.diagnostic.internal = false ∧
      Frames.get env x forest.frames = .error e forest.frames ∧
      Frames.assign env x value forest.frames = .error e forest.frames) ∧
    ∀ distance : Nat, ∃ e, e.diagnostic.category = .defect ∧ e.diagnostic.internal = true ∧
      Frames.getAt env distance x forest.frames = .error e forest.frames ∧
      Frames.assignAt env distance x value forest.frames = .error e forest.frames

/-- **Lookup by name and by distance agree in every forest that can be made**, from each of its
environments; and an operation that fails changes nothing, whatever token it is given. -/
theorem lookup_by_name_is_by_distance (operations : List Operation) (env : Environment)
    (henv : env ∈ (grown operations).environments) (x : Token) (hk : x.kind = .identifier) :
    (grown operations).LookupAgrees env x ∧
      ∀ (name : Token) (distance : Int) (value : Value),
        FrameM.Atomic (Frames.define env name value) ∧ FrameM.Atomic (Frames.get env name) ∧
        FrameM.Atomic (Frames.assign env name value) ∧
        FrameM.Atomic (Frames.getAt env distance name) ∧
        FrameM.Atomic (Frames.assignAt env distance name value) := by
  have h := grown_planted operations
  refine ⟨⟨h.searches henv x.lexeme, ⟨env.chain.length, ?_⟩, ?_, ?_, ?_⟩, ?_⟩
  · rw [h.outward?_eq henv]
    exact List.getElem?_eq_none (Nat.le_refl _)
  · intro distance frame hn
    obtain ⟨value, hv, hget, hgetAt, -⟩ := h.lookup_nearest henv hk hn
    exact ⟨hget.trans hgetAt.symm, value, hv, hget⟩
  · intro distance frame hn value
    obtain ⟨-, -, -, -, hassign⟩ := h.lookup_nearest henv hk hn
    obtain ⟨hby, hat⟩ := hassign value
    exact ⟨hby.trans hat.symm, _, hby, h.rebinds hn.binds value⟩
  · intro hn value
    obtain ⟨hget, hrest⟩ := h.lookup_unbound henv hk hn
    obtain ⟨hassign, hat⟩ := hrest value
    refine ⟨⟨_, rfl, rfl, hget, hassign⟩, fun distance => ?_⟩
    obtain ⟨e, hd, hgetAt, hassignAt⟩ := hat distance
    exact ⟨e, by simp [RuntimeError.diagnostic, hd], hd, hgetAt, hassignAt⟩
  · intro name distance value
    exact ⟨(Frames.binds_define env name value).atomic, (Frames.looks_get env name).atomic,
      (Frames.binds_assign env name value).atomic, (Frames.looks_getAt env name distance).atomic,
      (Frames.binds_assignAt env name distance value).atomic⟩

/-- Two environments inside a third, and one more inside the first of the two, which has a binding
of its own. -/
def siblings : List Operation :=
  [.create none, .create (some 0), .create (some 0), .create (some 1),
    .define 0 (.ident "a" 1) .nil, .define 3 (.ident "a" 1) (.bool false)]

/-- What the second of the two assigns the first one sees, but not the one inside it. -/
theorem lookup_by_name_is_by_distance_siblings :
    (⟨2, [0]⟩ : Environment) ∈ (grown siblings).environments ∧
      ∃ frames, Frames.assign ⟨2, [0]⟩ (.ident "a" 1) (.bool true) (grown siblings).frames =
          .ok () frames ∧
        Frames.assignAt ⟨2, [0]⟩ 1 (.ident "a" 1) (.bool true) (grown siblings).frames =
          .ok () frames ∧
        (Frames.get ⟨1, [0]⟩ (.ident "a" 1)).run' frames = some (.bool true) ∧
        (Frames.get ⟨3, [1, 0]⟩ (.ident "a" 1)).run' frames = some (.bool false) := by
  have hmem : (⟨2, [0]⟩ : Environment) ∈ (grown siblings).environments := by decide
  have hnearest : (grown siblings).Nearest 2 "a" 1 0 := by
    refine ⟨rfl, by decide, fun d hd other ho => ?_⟩
    obtain rfl : d = 0 := Nat.lt_one_iff.1 hd
    obtain rfl : 2 = other := Option.some.inj ho
    decide
  obtain ⟨hagrees, -⟩ :=
    lookup_by_name_is_by_distance siblings ⟨2, [0]⟩ hmem (.ident "a" 1) rfl
  obtain ⟨heq, frames, hby, hrebinds⟩ := hagrees.assigned 1 0 hnearest (.bool true)
  have hfirst : (grown siblings).Searches "a" (some 1) (some 0) :=
    .outward (by decide) (.here (by decide))
  have hinner : (grown siblings).Searches "a" (some 3) (some 3) := .here (by decide)
  refine ⟨hmem, frames, hby, heq ▸ hby, hrebinds.seen ⟨1, [0]⟩ (by decide) _ rfl rfl hfirst, ?_⟩
  rw [hrebinds.unseen ⟨3, [1, 0]⟩ (by decide) _ rfl (.inr fun h => by cases hinner.unique h)]
  rfl

end Forest

end ScopedScript
