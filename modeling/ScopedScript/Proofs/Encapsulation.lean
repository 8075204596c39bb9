import ScopedScript.Proofs.Calls

/-!
# Encapsulation

What can be reached on the heap from some place is what values, environments, functions, classes
and instances there refer to, directly or through others.  Evaluating a node works with what can
be reached from its environment and from the global frame, and with what it makes itself.
Everything else is out of its hands: it stays as it is, and stays out of reach.

A node is given only well-formed code, in which no literal refers to the heap.  So the places it
works with never leave a set that is closed under reference, and the rest of the heap can be
said to be confined from it by a policy.

## Main definitions

* `Cell`: a place on the heap.
* `Heap.Refers`, `Heap.Reaches`: references between places, and what is reached through them.
* `Heap.SameAt`: two heaps have the same at a place.
* `confined`: the policy of working inside a set of places.

## Main results

* `confined_lawful`: evaluation works inside any set that is closed under reference and has
  every place yet to be made.
* `out_of_reach_untouched`: what is out of reach stays as it is, and out of reach.
-/

namespace ScopedScript

/-! ## References -/

/-- **A place on the heap.**  Native functions are left out, since they hold nothing. -/
inductive Cell where
  | frame (index : Nat)
  | function (index : Nat)
  | class (index : Nat)
  | instance (index : Nat)
deriving DecidableEq

mutual

/-- The places that a value refers to. -/
def Value.cells : Value → List Cell
  | .function handle => [.function handle.index]
  | .class handle => [.class handle.index]
  | .instance handle => [.instance handle.index]
  | .list items => Value.cellsOf items
  | _ => []

/-- The places that values refer to. -/
def Value.cellsOf : List Value → List Cell
  | [] => []
  | item :: items => item.cells ++ Value.cellsOf items

end

/-- The cells of several values are the cells of each of them. -/
theorem Value.mem_cellsOf {items : List Value} {cell : Cell} :
    cell ∈ Value.cellsOf items ↔ ∃ item ∈ items, cell ∈ item.cells := by
  induction items with
  | nil => simp [Value.cellsOf]
  | cons item items ih => simp [Value.cellsOf, ih]

/-- Values that are no references and no lists have no cells. -/
theorem Value.cells_of_isScalar {value : Value} (h : value.isScalar = true) :
    value.cells = [] := by
  cases value with
  | nil | bool | number | nan | string => rfl
  | _ => cases h

/-- The frames of an environment: its own and those around it. -/
def Environment.cells (env : Environment) : List Cell := env.chain.map .frame

namespace Heap

/-- **A place refers to another**: a frame by the values bound in it, a function or a class by
the frames it was declared in, an instance by its class and the values of its fields. -/
def Refers (heap : Heap) : Cell → Cell → Prop
  | .frame index, cell =>
    ∃ name value, (heap.frames.bindings index).get? name = some value ∧ cell ∈ value.cells
  | .function index, cell =>
    ∃ closure, heap.functions[index]? = some closure ∧ cell ∈ closure.environment.cells
  | .class index, cell =>
    ∃ cls name method, heap.classes[index]? = some cls ∧ cls.methods.get? name = some method ∧
      cell ∈ method.environment.cells
  | .instance index, cell =>
    ∃ object, heap.instances[index]? = some object ∧
      (cell = .class object.classIndex ∨
        ∃ name value, object.fields.get? name = some value ∧ cell ∈ value.cells)

/-- **A place is reached from others** through references. -/
def Reaches (heap : Heap) (roots : List Cell) (cell : Cell) : Prop :=
  ∃ root ∈ roots, Relation.ReflTransGen heap.Refers root cell

/-- The place is there. -/
def Has (heap : Heap) : Cell → Prop
  | .frame index => index < heap.frames.next
  | .function index => index < heap.functions.size
  | .class index => index < heap.classes.size
  | .instance index => index < heap.instances.size

/-- **Two heaps have the same at a place**: the same bindings in a frame, the same class and
fields in an instance, and so on. -/
def SameAt (heap heap' : Heap) : Cell → Prop
  | .frame index => heap'.frames.bindings index = heap.frames.bindings index
  | .function index => heap'.functions[index]? = heap.functions[index]?
  | .class index => heap'.classes[index]? = heap.classes[index]?
  | .instance index => heap'.instances[index]? = heap.instances[index]?

/-- A place that is not there refers to nothing. -/
theorem Refers.has {heap : Heap} {place cell : Cell} (h : heap.Refers place cell) :
    heap.Has place := by
  cases place with
  | frame index =>
    obtain ⟨name, value, hv, -⟩ := h
    refine Nat.lt_of_not_le fun hn => ?_
    -- a frame that is not there binds nothing
    have hb : heap.frames.bindings index = .empty := by
      rw [Frames.bindings, Array.getD_eq_getD_getElem?, Array.getElem?_eq_none hn]
      rfl
    rw [hb] at hv
    cases hv
  | function index =>
    obtain ⟨closure, hc, -⟩ := h
    exact (Array.getElem?_eq_some_iff.1 hc).1
  | «class» index =>
    obtain ⟨cls, _, _, hc, -⟩ := h
    exact (Array.getElem?_eq_some_iff.1 hc).1
  | «instance» index =>
    obtain ⟨object, ho, -⟩ := h
    exact (Array.getElem?_eq_some_iff.1 ho).1

/-! ## Writes -/

/-- What a place refers to after a name is bound in a frame. -/
theorem refers_bindIn {heap : Heap} {frame : Nat} {name : String} {value : Value}
    {place cell : Cell} (h : (heap.bindIn frame name value).Refers place cell) :
    heap.Refers place cell ∨ place = .frame frame ∧ cell ∈ value.cells := by
  cases place with
  | frame index =>
    obtain ⟨other, v, hv, hc⟩ := h
    by_cases hf : frame < heap.frames.next
    · rw [bindIn, Frames.bindings_bind _ _ _ _ _ hf] at hv
      split at hv
      · rename_i hi
        subst hi
        rw [NameMap.get?_insert] at hv
        split at hv
        · cases hv
          exact .inr ⟨rfl, hc⟩
        · exact .inl ⟨other, v, hv, hc⟩
      · exact .inl ⟨other, v, hv, hc⟩
    · rw [bindIn, Frames.bind_of_next_le (Nat.not_lt.1 hf)] at hv
      exact .inl ⟨other, v, hv, hc⟩
  | _ => exact .inl h

/-- Binding a name changes its frame only. -/
theorem sameAt_bindIn {heap : Heap} {frame : Nat} {name : String} {value : Value} {place : Cell}
    (h : place ≠ .frame frame) : heap.SameAt (heap.bindIn frame name value) place := by
  cases place with
  | frame index =>
    by_cases hf : frame < heap.frames.next
    · rw [SameAt, bindIn, Frames.bindings_bind _ _ _ _ _ hf]
      exact if_neg fun hi => h (congrArg Cell.frame hi)
    · rw [SameAt, bindIn, Frames.bind_of_next_le (Nat.not_lt.1 hf)]
  | _ => rfl

/-- A new frame refers to nothing. -/
theorem refers_pushFrame {heap : Heap} {env : Environment} {place cell : Cell}
    (h : (heap.pushFrame env).2.Refers place cell) : heap.Refers place cell := by
  cases place with
  | frame index =>
    obtain ⟨name, value, hv, hc⟩ := h
    rw [pushFrame, Frames.bindings_push] at hv
    exact ⟨name, value, hv, hc⟩
  | _ => exact h

theorem sameAt_pushFrame (heap : Heap) (env : Environment) (place : Cell) :
    heap.SameAt (heap.pushFrame env).2 place := by
  cases place with
  | frame index => exact Frames.bindings_push _ _
  | _ => rfl

/-- A new function refers to its environment, and all else refers to what it did. -/
theorem refers_addFunction {heap : Heap} {closure : Closure} {place cell : Cell}
    (h : (heap.addFunction closure).2.Refers place cell) :
    heap.Refers place cell ∨
      place = .function heap.functions.size ∧ cell ∈ closure.environment.cells := by
  cases place with
  | function index =>
    obtain ⟨other, ho, hc⟩ := h
    rw [addFunction, Array.getElem?_push] at ho
    split at ho
    · rename_i hi
      cases ho
      exact .inr ⟨hi ▸ rfl, hc⟩
    · exact .inl ⟨other, ho, hc⟩
  | _ => exact .inl h

theorem sameAt_addFunction {heap : Heap} {closure : Closure} {place : Cell}
    (h : place ≠ .function heap.functions.size) :
    heap.SameAt (heap.addFunction closure).2 place := by
  cases place with
  | function index =>
    rw [SameAt, addFunction, Array.getElem?_push]
    exact if_neg fun hi => h (congrArg Cell.function hi)
  | _ => rfl

/-- A new class refers to the environments of its methods, and all else refers to what it did. -/
theorem refers_addClass {heap : Heap} {cls : ClassDef} {place cell : Cell}
    (h : (heap.addClass cls).2.Refers place cell) :
    heap.Refers place cell ∨ place = .class heap.classes.size ∧
      ∃ name method, cls.methods.get? name = some method ∧ cell ∈ method.environment.cells := by
  cases place with
  | «class» index =>
    obtain ⟨other, name, method, ho, hm, hc⟩ := h
    rw [addClass, Array.getElem?_push] at ho
    split at ho
    · rename_i hi
      cases ho
      exact .inr ⟨hi ▸ rfl, name, method, hm, hc⟩
    · exact .inl ⟨other, name, method, ho, hm, hc⟩
  | _ => exact .inl h

theorem sameAt_addClass {heap : Heap} {cls : ClassDef} {place : Cell}
    (h : place ≠ .class heap.classes.size) : heap.SameAt (heap.addClass cls).2 place := by
  cases place with
  | «class» index =>
    rw [SameAt, addClass, Array.getElem?_push]
    exact if_neg fun hi => h (congrArg Cell.class hi)
  | _ => rfl

/-- A new instance refers to its class, and all else refers to what it did. -/
theorem refers_addInstance {heap : Heap} {cls : Handle} {place cell : Cell}
    (h : (heap.addInstance cls).2.Refers place cell) :
    heap.Refers place cell ∨
      place = .instance heap.instances.size ∧ cell = .class cls.index := by
  cases place with
  | «instance» index =>
    obtain ⟨object, ho, hc⟩ := h
    rw [addInstance, Array.getElem?_push] at ho
    split at ho
    · rename_i hi
      cases ho
      rcases hc with hc | ⟨name, value, hv, -⟩
      · exact .inr ⟨hi ▸ rfl, hc⟩
      · cases hv
    · exact .inl ⟨object, ho, hc⟩
  | _ => exact .inl h

theorem sameAt_addInstance {heap : Heap} {cls : Handle} {place : Cell}
    (h : place ≠ .instance heap.instances.size) :
    heap.SameAt (heap.addInstance cls).2 place := by
  cases place with
  | «instance» index =>
    rw [SameAt, addInstance, Array.getElem?_push]
    exact if_neg fun hi => h (congrArg Cell.instance hi)
  | _ => rfl

/-- With a field set, the instance refers to its value, and all else to what it did. -/
theorem refers_setField {heap : Heap} {index : Nat} {name : String} {value : Value}
    {place cell : Cell} (h : (heap.setField index name value).Refers place cell) :
    heap.Refers place cell ∨ place = .instance index ∧ cell ∈ value.cells := by
  cases place with
  | «instance» other =>
    obtain ⟨object, ho, hc⟩ := h
    rw [setField, Array.getElem?_modify] at ho
    split at ho
    · rename_i hi
      subst hi
      obtain ⟨before, hb, rfl⟩ := Option.map_eq_some_iff.1 ho
      rcases hc with hc | ⟨field, v, hv, hc⟩
      · exact .inl ⟨before, hb, .inl hc⟩
      · rw [NameMap.get?_insert] at hv
        split at hv
        · cases hv
          exact .inr ⟨rfl, hc⟩
        · exact .inl ⟨before, hb, .inr ⟨field, v, hv, hc⟩⟩
    · exact .inl ⟨object, ho, hc⟩
  | _ => exact .inl h

/-- Setting a field changes its instance only. -/
theorem sameAt_setField {heap : Heap} {index : Nat} {name : String} {value : Value} {place : Cell}
    (h : place ≠ .instance index) : heap.SameAt (heap.setField index name value) place := by
  cases place with
  | «instance» other =>
    rw [SameAt, setField, Array.getElem?_modify]
    exact if_neg fun hi => h (congrArg Cell.instance hi.symm)
  | _ => rfl

theorem SameAt.trans {a b c : Heap} {place : Cell} (hab : a.SameAt b place)
    (hbc : b.SameAt c place) : a.SameAt c place := by
  cases place with
  | _ => exact Eq.trans hbc hab

/-! ## Working inside a set of places -/

/-- The functions and methods on the heap are well formed. -/
structure WellFormed (heap : Heap) : Prop where
  functions : ∀ closure ∈ heap.functions, WellFormedBody closure.params closure.body
  methods : ∀ cls ∈ heap.classes, ∀ name method, cls.methods.get? name = some method →
    WellFormedBody method.params method.body

/-- **The work since `base` was done inside a set of places**: nothing is gone, what is inside
refers to nothing outside, and everything outside is the same as before. -/
structure Confined (inside : Cell → Prop) (base heap : Heap) : Prop where
  grows : ∀ place, base.Has place → heap.Has place
  code : heap.WellFormed
  closed : ∀ place cell, inside place → heap.Refers place cell → inside cell
  same : ∀ place, ¬ inside place → base.SameAt heap place

namespace Confined

variable {inside : Cell → Prop} {base heap heap' : Heap}

/-- A write inside the set that only adds references to places inside. -/
theorem after (h : Confined inside base heap) (hg : ∀ place, heap.Has place → heap'.Has place)
    (hw : heap'.WellFormed) {target : Cell} (added : Cell → Prop) (ht : inside target)
    (ha : ∀ cell, added cell → inside cell)
    (hr : ∀ place cell, heap'.Refers place cell →
      heap.Refers place cell ∨ place = target ∧ added cell)
    (hs : ∀ place, place ≠ target → heap.SameAt heap' place) :
    Confined inside base heap' where
  grows place hp := hg place (h.grows place hp)
  code := hw
  closed place cell hp hc := by
    rcases hr place cell hc with hc | ⟨-, hc⟩
    · exact h.closed place cell hp hc
    · exact ha cell hc
  same place hp := by
    have hne : place ≠ target := fun he => hp (he ▸ ht)
    exact (h.same place hp).trans (hs place hne)

/-- What is reached from inside is inside. -/
theorem reaches (h : Confined inside base heap) {roots : List Cell}
    (hi : ∀ root ∈ roots, inside root) {cell : Cell} (hc : heap.Reaches roots cell) :
    inside cell := by
  obtain ⟨root, hm, hc⟩ := hc
  induction hc with
  | refl => exact hi root hm
  | tail _ hr ih => exact h.closed _ _ ih hr

end Confined

end Heap

/-- **The policy of working inside a set of places**, on what has become of a heap. -/
def confined (inside : Cell → Prop) (base : Heap) : Policy where
  heap := Heap.Confined inside base
  value _ value := ∀ cell ∈ value.cells, inside cell
  function _ closure := WellFormedBody closure.params closure.body ∧
    ∀ cell ∈ closure.environment.cells, inside cell
  method _ method := WellFormedBody method.params method.body ∧
    ∀ cell ∈ method.environment.cells, inside cell
  environment _ env := ∀ cell ∈ env.cells, inside cell
  change _ _ := True

theorem Environment.mem_cells {env : Environment} {frame : Nat} (h : frame ∈ env.chain) :
    .frame frame ∈ env.cells :=
  List.mem_map.2 ⟨frame, h, rfl⟩

/-- The frames of an inner environment are a new one and those of the outer. -/
theorem Environment.forall_cells_inner {env : Environment} {frame : Nat} {inside : Cell → Prop}
    (hf : inside (.frame frame)) (he : ∀ cell ∈ env.cells, inside cell) :
    ∀ cell ∈ (env.inner frame).cells, inside cell :=
  List.forall_mem_cons.2 ⟨hf, he⟩

section Lawful

variable {inside : Cell → Prop} {base heap : Heap}
  (hnew : ∀ place, ¬ base.Has place → inside place)

namespace Heap.Confined

include hnew in
/-- A place that is yet to be made is inside. -/
theorem fresh (h : base.Confined inside heap) {place : Cell} (hp : ¬ heap.Has place) :
    inside place :=
  hnew place fun hb => hp (h.grows place hb)

/-- A frame inside may be given a value that is inside. -/
theorem bindIn (h : base.Confined inside heap) {frame : Nat} {name : String} {value : Value}
    (hf : inside (.frame frame)) (hv : ∀ cell ∈ value.cells, inside cell) :
    base.Confined inside (heap.bindIn frame name value) := by
  refine h.after (fun place hp => ?_) ⟨h.code.functions, h.code.methods⟩ (· ∈ value.cells) hf hv
    (fun _ _ => refers_bindIn) (fun _ => sameAt_bindIn)
  cases place with
  | frame index => exact Nat.lt_of_lt_of_eq hp (Frames.next_bind _ _ _ _).symm
  | _ => exact hp

include hnew in
/-- A new frame is inside. -/
theorem pushFrame (h : base.Confined inside heap) (env : Environment) :
    base.Confined inside (heap.pushFrame env).2 ∧ inside (.frame heap.frames.next) := by
  have hf : inside (.frame heap.frames.next) := h.fresh hnew (Nat.lt_irrefl _)
  refine ⟨h.after (fun place hp => ?_) ⟨h.code.functions, h.code.methods⟩ (fun _ => False) hf
    (fun _ => False.elim) (fun _ _ hr => .inl (refers_pushFrame hr))
    fun place _ => sameAt_pushFrame heap env place, hf⟩
  cases place with
  | frame index => exact Nat.lt_of_lt_of_le hp (by simp [Heap.pushFrame])
  | _ => exact hp

include hnew in
/-- A new function is inside if its environment is. -/
theorem addFunction (h : base.Confined inside heap) {closure : Closure}
    (hw : WellFormedBody closure.params closure.body)
    (hc : ∀ cell ∈ closure.environment.cells, inside cell) :
    base.Confined inside (heap.addFunction closure).2 ∧
      inside (.function heap.functions.size) := by
  have hf : inside (.function heap.functions.size) := h.fresh hnew (Nat.lt_irrefl _)
  refine ⟨h.after (fun place hp => ?_) ⟨fun other ho => ?_, h.code.methods⟩
    (· ∈ closure.environment.cells) hf hc (fun _ _ => refers_addFunction)
    (fun _ => sameAt_addFunction), hf⟩
  · cases place with
    | function index => exact Nat.lt_of_lt_of_le hp (by simp [Heap.addFunction])
    | _ => exact hp
  · rcases Array.mem_push.1 ho with ho | rfl
    · exact h.code.functions other ho
    · exact hw

include hnew in
/-- A new class is inside if the environments of its methods are. -/
theorem addClass (h : base.Confined inside heap) {cls : ClassDef}
    (hm : ∀ name method, cls.methods.get? name = some method →
      WellFormedBody method.params method.body ∧ ∀ cell ∈ method.environment.cells, inside cell) :
    base.Confined inside (heap.addClass cls).2 ∧ inside (.class heap.classes.size) := by
  have hc : inside (.class heap.classes.size) := h.fresh hnew (Nat.lt_irrefl _)
  refine ⟨h.after (fun place hp => ?_) ⟨h.code.functions, fun other ho => ?_⟩
    (fun cell => ∃ name method, cls.methods.get? name = some method ∧
      cell ∈ method.environment.cells) hc ?_ (fun _ _ => refers_addClass)
    (fun _ => sameAt_addClass), hc⟩
  · cases place with
    | «class» index => exact Nat.lt_of_lt_of_le hp (by simp [Heap.addClass])
    | _ => exact hp
  · rcases Array.mem_push.1 ho with ho | rfl
    · exact h.code.methods other ho
    · exact fun name method hg => (hm name method hg).1
  · rintro cell ⟨name, method, hg, hcell⟩
    exact (hm name method hg).2 cell hcell

include hnew in
/-- A new instance is inside if its class is. -/
theorem addInstance (h : base.Confined inside heap) {cls : Handle}
    (hc : inside (.class cls.index)) :
    base.Confined inside (heap.addInstance cls).2 ∧
      inside (.instance heap.instances.size) := by
  have hi : inside (.instance heap.instances.size) := h.fresh hnew (Nat.lt_irrefl _)
  refine ⟨h.after (fun place hp => ?_) ⟨h.code.functions, h.code.methods⟩
    (· = .class cls.index) hi (fun _ he => he ▸ hc) (fun _ _ => refers_addInstance)
    (fun _ => sameAt_addInstance), hi⟩
  cases place with
  | «instance» index => exact Nat.lt_of_lt_of_le hp (by simp [Heap.addInstance])
  | _ => exact hp

/-- An instance inside may be given a value that is inside. -/
theorem setField (h : base.Confined inside heap) {index : Nat} {name : String} {value : Value}
    (hi : inside (.instance index)) (hv : ∀ cell ∈ value.cells, inside cell) :
    base.Confined inside (heap.setField index name value) := by
  refine h.after (fun place hp => ?_) ⟨h.code.functions, h.code.methods⟩ (· ∈ value.cells) hi hv
    (fun _ _ => refers_setField) (fun _ => sameAt_setField)
  cases place with
  | «instance» other => exact Nat.lt_of_lt_of_eq hp (Array.size_modify ..).symm
  | _ => exact hp

end Heap.Confined

/-- **Evaluation works inside a set of places**, if the set has the global frame and every place
that is yet to be made. -/
theorem confined_lawful (hnew : ∀ place, ¬ base.Has place → inside place)
    (hglobal : inside (.frame 0)) : (confined inside base).Lawful where
  refl _ := trivial
  trans _ _ := trivial
  value_mono _ h := h
  function_mono _ h := h
  method_mono _ h := h
  environment_mono _ h := h
  plain h := by
    intro cell hc
    rw [Value.cells_of_isScalar h] at hc
    cases hc
  list h := by
    intro cell hc
    obtain ⟨item, hi, hc⟩ := Value.mem_cellsOf.1 hc
    exact h item hi cell hc
  declare he hb _ := ⟨hb, he⟩
  declareMethod he hb := ⟨hb, he⟩
  wellFormed h := h.1
  «global» _ := List.forall_mem_singleton.2 hglobal
  around h := h.2
  binding hh he hf hv cell hc :=
    hh.closed _ cell (he _ (Environment.mem_cells hf)) ⟨_, _, hv, hc⟩
  field hh ho hi hf cell hc :=
    hh.closed _ cell (List.forall_mem_singleton.1 ho) ⟨_, hi, .inr ⟨_, _, hf, hc⟩⟩
  methodOf hh ho hi hm := by
    obtain ⟨cls, hc, hm⟩ := Option.bind_eq_some_iff.1 hm
    have hcls := hh.closed _ _ (List.forall_mem_singleton.1 ho) ⟨_, hi, .inl rfl⟩
    exact ⟨hh.code.methods cls (Array.mem_of_getElem? hc) _ _ hm,
      fun cell hcell => hh.closed _ cell hcls ⟨cls, _, _, hc, hm, hcell⟩⟩
  called hh hv hf :=
    ⟨hh.code.functions _ (Array.mem_of_getElem? hf),
      fun cell hc => hh.closed _ cell (List.forall_mem_singleton.1 hv) ⟨_, hf, hc⟩⟩
  initializer hh hv hc hi :=
    ⟨hh.code.methods _ (Array.mem_of_getElem? hc) _ _ hi,
      fun cell hcell =>
        hh.closed _ cell (List.forall_mem_singleton.1 hv) ⟨_, _, _, hc, hi, hcell⟩⟩
  bind hh he hf _ hv := ⟨trivial, hh.bindIn (he _ (Environment.mem_cells hf)) hv⟩
  push hh he := by
    obtain ⟨hpush, hf⟩ := hh.pushFrame hnew _
    exact ⟨⟨trivial, hpush⟩, Environment.forall_cells_inner hf he⟩
  bindMethod hh hm ho := by
    obtain ⟨hpush, hf⟩ := hh.pushFrame hnew _
    exact ⟨⟨trivial, hpush.bindIn hf ho⟩, hm.1, Environment.forall_cells_inner hf hm.2⟩
  addFunction hh hf := by
    obtain ⟨hadd, hi⟩ := hh.addFunction hnew hf.1 hf.2
    exact ⟨⟨trivial, hadd⟩, List.forall_mem_singleton.2 hi⟩
  addClass hh hm := by
    obtain ⟨hadd, hi⟩ := hh.addClass hnew hm
    exact ⟨⟨trivial, hadd⟩, List.forall_mem_singleton.2 hi⟩
  addInstance hh hc := by
    obtain ⟨hadd, hi⟩ := hh.addInstance hnew (List.forall_mem_singleton.1 hc)
    exact ⟨⟨trivial, hadd⟩, List.forall_mem_singleton.2 hi⟩
  setField hh ho hv := ⟨trivial, hh.setField (List.forall_mem_singleton.1 ho) hv⟩

end Lawful

/-! ## Out of reach -/

/-- What a machine works with: its environment and the global frame. -/
def Machine.roots (machine : Machine) : List Cell :=
  machine.environment.cells ++ Environment.global.cells

/-- What the result of a task refers to. -/
def Task.resultCells : (task : Task) → task.Result → List Cell
  | .expr _, value => value.cells
  | .stmt _, outcome => outcome.value.cells

/-- What the evaluation of a node gives away: what its result refers to, if it has one. -/
def Task.found (rounds depth : Nat) (task : Task) (machine : Machine) : List Cell :=
  match task.run rounds depth machine with
  | .ok result _ => task.resultCells result
  | .error _ _ => []

/-- What is within reach of a machine, or yet to be made. -/
def Machine.Within (machine : Machine) (place : Cell) : Prop :=
  machine.heap.Reaches machine.roots place ∨ ¬ machine.heap.Has place

namespace Machine

variable {machine : Machine}

theorem within_root {place : Cell} (h : place ∈ machine.roots) : machine.Within place :=
  .inl ⟨place, h, .refl⟩

/-- The heap itself, before anything is done. -/
theorem confined_self (hw : machine.heap.WellFormed) :
    machine.heap.Confined machine.Within machine.heap where
  grows _ h := h
  code := hw
  closed place cell hp hr := by
    rcases hp with ⟨root, hm, hp⟩ | hp
    · exact .inl ⟨root, hm, hp.tail hr⟩
    · exact absurd hr.has hp
  same place _ := by
    cases place with
    | _ => rfl

/-- A machine is confined to what is within its reach. -/
theorem confined_admits (hw : machine.heap.WellFormed) :
    (confined machine.Within machine.heap).Admits machine :=
  ⟨confined_self hw, fun _ hc => within_root (List.mem_append_left _ hc)⟩

/-- Evaluation works within reach. -/
theorem within_lawful (machine : Machine) : (confined machine.Within machine.heap).Lawful :=
  confined_lawful (fun _ => .inr)
    (within_root (List.mem_append_right _ (Environment.mem_cells List.mem_cons_self)))

end Machine

/-- What the evaluation of a node gives away is within reach. -/
theorem Task.found_within {inside : Cell → Prop} {base : Heap} {rounds depth : Nat} {task : Task}
    {machine : Machine}
    (h : (confined inside base).Ends (task.run rounds depth) machine fun result heap =>
      (confined inside base).Result heap task result) :
    ∀ cell ∈ task.found rounds depth machine, inside cell := by
  unfold Task.found
  unfold Policy.Ends at h
  split
  · rename_i result machine' hr
    rw [hr] at h
    cases task with
    | expr e => exact h.2
    | stmt s => exact h.2
  · exact fun _ hc => absurd hc List.not_mem_nil

/-- **What is out of reach stays as it is, and out of reach.**  Whatever a machine is asked for,
each node that is evaluated leaves every frame and instance that was there before as it was,
unless it can be reached from the environment of the node or from the global frame; and it can
still not be reached from these or from the result, whether the node ends with a result or an
error. -/
theorem out_of_reach_untouched (limits : Limits) (clock : Clock) (requests : List Request)
    (request : Request) (mo : Moment)
    (he : request.Evaluates limits ((Machine.initial clock).serve limits requests) mo)
    (place : Cell) (hp : mo.machine.heap.Has place)
    (hr : ¬ mo.machine.heap.Reaches mo.machine.roots place) :
    let last := (mo.task.run limits.rounds mo.depth).after mo.machine
    last.environment = mo.machine.environment ∧ mo.machine.heap.SameAt last.heap place ∧
      ¬ last.heap.Reaches (last.roots ++ mo.task.found limits.rounds mo.depth mo.machine)
        place := by
  intro last
  have hadmits : receivers.Admits ((Machine.initial clock).serve limits requests) :=
    receivers_lawful.serve requests (initial_hasReceivers clock)
  obtain ⟨hw, hm⟩ := receivers_lawful.evaluates hadmits he
  have hcode : mo.machine.heap.WellFormed :=
    ⟨fun closure hc => (hm.heap.functions closure hc).wellFormed, hm.heap.methods⟩
  have hends : (confined mo.machine.Within mo.machine.heap).Ends
      (mo.task.run limits.rounds mo.depth) mo.machine _ :=
    mo.machine.within_lawful.task mo.task hw (Machine.confined_admits hcode)
  have hstep := Policy.Lawful.step_after hends
  have hconfined : mo.machine.heap.Confined mo.machine.Within last.heap := hstep.becomes.heap
  have hout : ¬ mo.machine.Within place := fun h => h.elim hr (absurd hp)
  refine ⟨hstep.environment, hconfined.same place hout, fun hreached => hout ?_⟩
  refine hconfined.reaches (fun root hm => ?_) hreached
  rcases List.mem_append.1 hm with hm | hm
  · have hroots : last.roots = mo.machine.roots := by
      rw [Machine.roots, Machine.roots, hstep.environment]
    exact Machine.within_root (hroots ▸ hm)
  · exact Task.found_within hends root hm

/-! ### An example -/

/-- The values of a map, in the order of their names. -/
def NameMap.values {α : Type} (map : NameMap α) : List α := map.names.filterMap map.get?

theorem NameMap.mem_names {α : Type} {map : NameMap α} {name : String} {value : α}
    (h : map.get? name = some value) : name ∈ map.names := by
  obtain ⟨entries⟩ := map
  change NameMap.lookupEntry name entries = some value at h
  change name ∈ entries.map Prod.fst
  induction entries with
  | nil => cases h
  | cons entry rest ih =>
    rw [NameMap.lookupEntry] at h
    split at h
    · rename_i he
      exact List.mem_map.2 ⟨entry, List.mem_cons_self, he⟩
    · exact List.mem_cons_of_mem _ (ih h)

theorem NameMap.mem_values {α : Type} {map : NameMap α} {name : String} {value : α}
    (h : map.get? name = some value) : value ∈ map.values :=
  List.mem_filterMap.2 ⟨name, NameMap.mem_names h, h⟩

/-- What a place refers to, as a list. -/
def Heap.references (heap : Heap) : Cell → List Cell
  | .frame index => (heap.frames.bindings index).values.flatMap Value.cells
  | .function index => heap.functions[index]?.toList.flatMap (·.environment.cells)
  | .class index => heap.classes[index]?.toList.flatMap fun cls =>
      cls.methods.values.flatMap (·.environment.cells)
  | .instance index => heap.instances[index]?.toList.flatMap fun object =>
      .class object.classIndex :: object.fields.values.flatMap Value.cells

/-- The references that are listed are all there are. -/
theorem Heap.Refers.mem_references {heap : Heap} {place cell : Cell} (h : heap.Refers place cell) :
    cell ∈ heap.references place := by
  cases place with
  | frame index =>
    obtain ⟨name, value, hv, hc⟩ := h
    exact List.mem_flatMap.2 ⟨value, NameMap.mem_values hv, hc⟩
  | function index =>
    obtain ⟨closure, hf, hc⟩ := h
    exact List.mem_flatMap.2 ⟨closure, Option.mem_toList.2 hf, hc⟩
  | «class» index =>
    obtain ⟨cls, name, method, hcls, hm, hc⟩ := h
    refine List.mem_flatMap.2 ⟨cls, Option.mem_toList.2 hcls, ?_⟩
    exact List.mem_flatMap.2 ⟨method, NameMap.mem_values hm, hc⟩
  | «instance» index =>
    obtain ⟨object, ho, hc⟩ := h
    refine List.mem_flatMap.2 ⟨object, Option.mem_toList.2 ho, ?_⟩
    rcases hc with rfl | ⟨name, value, hv, hc⟩
    · exact List.mem_cons_self
    · exact List.mem_cons_of_mem _
        (List.mem_flatMap.2 ⟨value, NameMap.mem_values hv, hc⟩)

/-- What is reached is in every list of places that has the roots and what its places refer to. -/
theorem Heap.Reaches.mem_of_closed {heap : Heap} {roots places : List Cell} {cell : Cell}
    (h : heap.Reaches roots cell) (hr : ∀ root ∈ roots, root ∈ places)
    (hc : ∀ place ∈ places, ∀ cell ∈ heap.references place, cell ∈ places) : cell ∈ places := by
  obtain ⟨root, hm, h⟩ := h
  induction h with
  | refl => exact hr root hm
  | tail _ hrefers ih => exact hc _ ih _ hrefers.mem_references

/-- A switch that is made, flipped and dropped. -/
def droppedSwitch : String :=
  "fun make() { var on = false; fun flip() { on = !on; return on; } return flip; } make()();"

/-- Flipping another switch of the same function leaves the dropped one as it is. -/
theorem out_of_reach_untouched_switch :
    ∃ served mo, (Machine.initial (.starting 0)).serve .standard [.program droppedSwitch] = served ∧
      (Request.expression "make()()").Evaluates .standard served mo ∧ mo.machine = served ∧
      ((served.heap.frames.bindings 1).get? "on").map Value.text = some "true" ∧
      ¬ served.heap.Reaches served.roots (.frame 1) ∧
      served.heap.SameAt
        ((mo.task.run Limits.standard.rounds mo.depth).after served).heap (.frame 1) := by
  let paren : Token := ⟨.rightParen, ")", .absent, 1⟩
  let tree : Expr := .call (.call (.variable (.ident "make" 1) none) paren []) paren []
  have hload : loadSingle readExpression "make()()" = .ok tree := by
    have hs : (scan "make()()").tokens = [.ident "make" 1, ⟨.leftParen, "(", .absent, 1⟩, paren,
        ⟨.leftParen, "(", .absent, 1⟩, paren] := by
      decide +kernel
    refine loadSingle_eq_ok_iff.2 ⟨by decide +kernel, [], ?_⟩
    rw [hs]
    rfl
  have hrun : (fun served : Machine =>
      decide (1 < served.heap.frames.next) &&
      ((served.heap.frames.bindings 1).get? "on").map Value.text == some "true" &&
      decide (served.roots ⊆ [.frame 0, .function 0]) &&
      decide (∀ place ∈ [Cell.frame 0, .function 0], ∀ cell ∈ served.heap.references place,
        cell ∈ [Cell.frame 0, .function 0]))
      ((Machine.initial (.starting 0)).serve .standard [.program droppedSwitch]) = true := by
    decide +kernel
  have huntouched := out_of_reach_untouched .standard (.starting 0) [.program droppedSwitch]
    (.expression "make()()")
  generalize hserved :
    (Machine.initial (.starting 0)).serve .standard [.program droppedSwitch] = served
      at hrun huntouched
  simp only [Bool.and_eq_true, decide_eq_true_eq, beq_iff_eq] at hrun
  obtain ⟨⟨⟨hhas, hn⟩, hroots⟩, hclosed⟩ := hrun
  have hout : ¬ served.heap.Reaches served.roots (.frame 1) := by
    intro h
    have hmem := h.mem_of_closed (fun root hr => hroots hr) hclosed
    simp at hmem
  have heval : (Request.expression "make()()").Evaluates .standard served
      ⟨Limits.standard.depth, .expr tree, served⟩ := ⟨tree, hload, .refl⟩
  exact ⟨served, _, rfl, heval, rfl, hn, hout, (huntouched _ heval (.frame 1) hhas hout).2.1⟩

end ScopedScript
