import ScopedScript.Environment
import ScopedScript.Tree

/-!
# The heap

Frames, functions, classes and instances live on a heap and are referred to by number.
Only frames and the fields of instances ever change; a function or a class, once made,
stays as it is.

## Main definitions

* `Closure`, `Native`, `ClassDef`, `Instance`: what lives on the heap.
* `Heap`: the tables.
* `Heap.addFunction`, `Heap.addNative`, `Heap.addClass`, `Heap.addInstance`: new entries,
  with the values that refer to them.
* `Callable`, `Heap.callable?`: what a value can be called as.
-/

namespace ScopedScript

/-- **A function with the environment it was declared in.**  An initializer always
results in the instance it is bound to. -/
structure Closure where
  name : String
  params : List Token
  body : List Stmt
  environment : Environment
  initializer : Bool

/-- How many arguments a function takes. -/
def Closure.arity (closure : Closure) : Nat := closure.params.length

/-- What a native function does: tell the time, or give its arguments back as a list. -/
inductive NativeAction where
  | clock
  | collect
deriving DecidableEq

/-- **A native function.**  One with a negative arity cannot be called. -/
structure Native where
  name : String
  arity : Int
  action : NativeAction
deriving DecidableEq

/-- **A class**: its name and its methods. -/
structure ClassDef where
  name : String
  methods : NameMap Closure

namespace ClassDef

/-- The method that sets up new instances, if there is one. -/
def initializer? (cls : ClassDef) : Option Closure := cls.methods.get? "init"

/-- How many arguments a class takes when it is called: those of its initializer. -/
def arity (cls : ClassDef) : Nat :=
  match cls.initializer? with
  | some initializer => initializer.arity
  | none => 0

end ClassDef

/-- **An instance**: the number of its class, and its fields. -/
structure Instance where
  classIndex : Nat
  fields : NameMap Value

/-- **The heap**: frames, functions, native functions, classes and instances. -/
structure Heap where
  frames : Frames
  functions : Array Closure
  natives : Array Native
  classes : Array ClassDef
  instances : Array Instance

namespace Heap

/-- The heap with nothing on it. -/
def empty : Heap := ⟨.empty, #[], #[], #[], #[]⟩

/-- Puts a function on the heap. -/
def addFunction (heap : Heap) (closure : Closure) : Value × Heap :=
  (.function ⟨closure.name, heap.functions.size⟩,
    { heap with functions := heap.functions.push closure })

/-- Puts a native function on the heap. -/
def addNative (heap : Heap) (native : Native) : Value × Heap :=
  (.native ⟨native.name, heap.natives.size⟩, { heap with natives := heap.natives.push native })

/-- Puts a class on the heap. -/
def addClass (heap : Heap) (cls : ClassDef) : Value × Heap :=
  (.class ⟨cls.name, heap.classes.size⟩, { heap with classes := heap.classes.push cls })

/-- Puts an instance without fields on the heap, of the class that a handle refers to. -/
def addInstance (heap : Heap) (cls : Handle) : Value × Heap :=
  (.instance ⟨cls.label, heap.instances.size⟩,
    { heap with instances := heap.instances.push ⟨cls.index, .empty⟩ })

/-- Gives a field of an instance a value. -/
def setField (heap : Heap) (instanceIndex : Nat) (name : String) (value : Value) : Heap :=
  { heap with
    instances := heap.instances.modify instanceIndex fun object =>
      { object with fields := object.fields.insert name value } }

/-- Makes a frame inside an environment. -/
def pushFrame (heap : Heap) (env : Environment) : Environment × Heap :=
  (env.inner heap.frames.next, { heap with frames := heap.frames.push })

end Heap

/-- **What a value can be called as.** -/
inductive Callable where
  | function (closure : Closure)
  | native (code : Native)
  | class (handle : Handle) (cls : ClassDef)

/-- How many arguments a callable takes. -/
def Callable.arity : Callable → Int
  | .function closure => closure.arity
  | .native code => code.arity
  | .class _ cls => cls.arity

/-- What a value can be called as, if it can be called. -/
def Heap.callable? (heap : Heap) : Value → Option Callable
  | .function handle => heap.functions[handle.index]?.map .function
  | .native handle => heap.natives[handle.index]?.map .native
  | .class handle => heap.classes[handle.index]?.map (.class handle)
  | _ => none

/-- The method of an instance's class with the given name, if there is one. -/
def Heap.method? (heap : Heap) (object : Instance) (name : String) : Option Closure :=
  heap.classes[object.classIndex]?.bind fun cls => cls.methods.get? name

end ScopedScript
