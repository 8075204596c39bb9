import ScopedScript.NameMap
import ScopedScript.Value

/-!
# Environments

Variables live in frames.  A frame is made when a block is entered, a function called or
a method bound to an instance, and is never given up, since a closure may still see it.
An environment is a frame together with the frames that enclose it, from the inside out.

## Main definitions

* `Frames`: all frames, numbered in the order in which they are made.
* `Environment`: a frame and its enclosing ones.
* `Frames.define`, `Frames.get`, `Frames.assign`: by name, from the inside out.
* `Frames.getAt`, `Frames.assignAt`, `Frames.ancestor`: by distance.

## Main results

* `Frames.bindings_bind`: a binding changes one name in one frame.
-/

namespace ScopedScript

/-- **All frames**, numbered in the order in which they are made. -/
structure Frames where
  table : Array (NameMap Value)

/-- **An environment**: the number of a frame, and the numbers of the frames that enclose
it from the inside out. -/
structure Environment where
  frame : Nat
  enclosing : List Nat
deriving DecidableEq

namespace Environment

/-- The frames of an environment from the inside out. -/
def chain (env : Environment) : List Nat := env.frame :: env.enclosing

/-- The environment of a frame inside this one. -/
def inner (env : Environment) (frame : Nat) : Environment := ⟨frame, env.chain⟩

/-- The environment of the global frame, which is made first. -/
def global : Environment := ⟨0, []⟩

@[simp]
theorem chain_inner (env : Environment) (frame : Nat) :
    (env.inner frame).chain = frame :: env.chain := rfl

end Environment

namespace Frames

/-- No frames. -/
def empty : Frames := ⟨#[]⟩

/-- The bindings of a frame. -/
def bindings (frames : Frames) (frame : Nat) : NameMap Value :=
  frames.table.getD frame .empty

/-- The number that the next frame gets. -/
def next (frames : Frames) : Nat := frames.table.size

/-- Makes a frame without bindings. -/
def push (frames : Frames) : Frames := ⟨frames.table.push .empty⟩

/-- Binds a name in a frame, in place of any earlier binding there. -/
def bind (frames : Frames) (frame : Nat) (name : String) (value : Value) : Frames :=
  ⟨frames.table.modify frame (·.insert name value)⟩

/-- The innermost of the given frames that binds a name, and the value. -/
def find? (frames : Frames) (chain : List Nat) (name : String) : Option (Nat × Value) :=
  chain.findSome? fun frame => ((frames.bindings frame).get? name).map (frame, ·)

@[simp]
theorem bindings_push (frames : Frames) (frame : Nat) :
    frames.push.bindings frame = frames.bindings frame := by
  simp only [bindings, push, Array.getD_eq_getD_getElem?, Array.getElem?_push]
  split
  · rename_i h
    subst h
    simp
  · rfl

/-- A binding changes one name in one frame. -/
theorem bindings_bind (frames : Frames) (frame other : Nat) (name : String) (value : Value)
    (h : frame < frames.next) :
    (frames.bind frame name value).bindings other =
      if other = frame then (frames.bindings frame).insert name value
      else frames.bindings other := by
  simp only [bindings, bind, Array.getD_eq_getD_getElem?, Array.getElem?_modify]
  by_cases hf : frame = other
  · subst hf
    simp [Array.getElem?_eq_getElem h]
  · simp [hf, Ne.symm hf]

end Frames

/-! ## Operations that can fail

They act on the frames and leave them as they are when they fail. -/

/-- An operation on the frames. -/
abbrev FrameM := EStateM RuntimeError Frames

namespace Frames

/-- Refuses a token that is no identifier as a variable name. -/
def requireName (name : Token) : FrameM Unit :=
  if name.kind = .identifier then return ()
  else throw (.onToken name (.notAName name.kind))

/-- The error for a name that no frame binds. -/
def undefined (name : Token) : RuntimeError := .onToken name (.undefinedVariable name.lexeme)

/-- Binds a name in the frame of an environment. -/
def define (env : Environment) (name : Token) (value : Value) : FrameM Unit := do
  requireName name
  modify (·.bind env.frame name.lexeme value)

/-- The value of a name, from the inside out. -/
def get (env : Environment) (name : Token) : FrameM Value := do
  requireName name
  match (← EStateM.get).find? env.chain name.lexeme with
  | some (_, value) => return value
  | none => throw (undefined name)

/-- Rebinds a name in the innermost frame that binds it. -/
def assign (env : Environment) (name : Token) (value : Value) : FrameM Unit := do
  requireName name
  match (← EStateM.get).find? env.chain name.lexeme with
  | some (frame, _) => modify (·.bind frame name.lexeme value)
  | none => throw (undefined name)

/-- The frame `distance` steps out; a negative distance is none at all.  The error names
`subject`. -/
def ancestor (env : Environment) (distance : Int) (subject : String) : FrameM Nat :=
  match env.chain[distance.toNat]? with
  | some frame => return frame
  | none => throw ⟨.pastGlobal distance, none, subject⟩

/-- The frame `distance` steps out and the value that a name has in it. -/
def locateAt (env : Environment) (distance : Int) (name : Token) : FrameM (Nat × Value) := do
  requireName name
  let frame ← ancestor env distance name.lexeme
  match ((← EStateM.get).bindings frame).get? name.lexeme with
  | some value => return (frame, value)
  | none => throw (.onToken name (.missingAtDistance name.lexeme distance))

/-- The value of a name in the frame `distance` steps out. -/
def getAt (env : Environment) (distance : Int) (name : Token) : FrameM Value :=
  Prod.snd <$> locateAt env distance name

/-- Rebinds a name in the frame `distance` steps out, which has to bind it. -/
def assignAt (env : Environment) (distance : Int) (name : Token) (value : Value) :
    FrameM Unit := do
  let (frame, _) ← locateAt env distance name
  modify (·.bind frame name.lexeme value)

end Frames

end ScopedScript
