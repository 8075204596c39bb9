import ScopedScript.Proofs.Scope.Resolution

/-!
# When a run ends with a defect

A defect is an error that no program should bring about: a frame that is not where scope
analysis put it, or a name that is no identifier.  There is one way to bring one about all the
same.  Scope analysis refuses to read a variable in its own initializer, but only in the scope
of the variable itself, and only to read it.  An assignment to the variable, or a function
inside the initializer that refers to it, passes; when it is evaluated before the variable is
bound, the frame lacks the name.

## Main definitions

* `AllReady`: no reference of some programs is to a variable that is not ready.

## Main results

* `run_defect_iff`: a run ends with a defect exactly if it looks a variable up that its own
  initializer refers to before it is bound.
-/

namespace ScopedScript

namespace Access.Misses

variable {r : Access} {machine : Machine} {distance : Nat}

theorem frame (h : r.Misses machine distance) :
    ∃ frame, machine.environment.chain[distance]? = some frame ∧
      (machine.heap.frames.bindings frame).get? r.name.lexeme = none := by
  obtain ⟨-, frame, hf, hb⟩ := h
  exact ⟨frame, hf, Option.not_isSome_iff_eq_none.1 hb⟩

theorem lookup (h : r.Misses machine distance) (hk : r.name.kind = .identifier) :
    Eval.lookup r.name r.hops machine = .error (.error (r.missing distance)) machine := by
  obtain ⟨frame, hf, hn⟩ := h.frame
  have hg : Frames.getAt machine.environment (Int.ofNat distance) r.name machine.heap.frames =
      .error (r.missing distance) machine.heap.frames := by
    rw [Frames.getAt_eq hk hf, hn]
    rfl
  rw [h.1]
  exact onFrames_of_error hg

theorem assign (h : r.Misses machine distance) (hk : r.name.kind = .identifier) (value : Value) :
    Eval.assign r.name r.hops value machine = .error (.error (r.missing distance)) machine := by
  obtain ⟨frame, hf, hn⟩ := h.frame
  have hg : Frames.assignAt machine.environment (Int.ofNat distance) r.name value
      machine.heap.frames = .error (r.missing distance) machine.heap.frames := by
    rw [Frames.assignAt_eq hk hf, hn]
    rfl
  rw [h.1]
  exact onFrames_of_error hg

end Access.Misses

/-- A moment that looks a variable up in a frame that lacks it raises a defect. -/
theorem Moment.raises_missing {rounds : Nat} {mo : Moment} {r : Access} {there : Machine}
    {distance : Nat} (hr : mo.task.access? = some r) (hk : r.name.kind = .identifier)
    (hl : mo.LooksUpOn rounds there) (hm : r.Misses there distance) :
    mo.Raises rounds (.error (r.missing distance)) := by
  obtain ⟨depth, task, machine⟩ := mo
  obtain ⟨depth, rfl, hl⟩ := hl
  cases task with
  | stmt s => cases hr
  | expr e =>
    cases e with
    | «variable» name hops seen =>
      cases hr
      obtain rfl : there = machine := hl
      exact .inl ⟨_, hm.lookup hk⟩
    | assign name value hops seen =>
      cases hr
      obtain ⟨v, hv⟩ := hl
      exact ⟨v, there, hv, .inl ⟨_, hm.assign hk v⟩⟩
    | this keyword hops seen =>
      cases hr
      obtain rfl : there = machine := hl
      exact .inl ⟨_, hm.lookup hk⟩
    | _ => cases hr

/-- **No reference of the programs is to a variable that is not ready**: none is in the
initializer of its own variable. -/
def AllReady (sources : List String) : Prop :=
  ∀ task r distance, Occurs sources task → task.access? = some r →
    r.hops = some (Int.ofNat distance) →
      markAt r.scopes distance r.name.lexeme ≠ some false

/-- **When a run ends with a defect.**  A machine has run sources, some of which may have
failed, and runs another one.  It ends with a defect exactly if a variable is looked up in a
frame that lacks it, by a reference in the initializer of that variable; the defect then says
so.  In particular, programs without such a reference never end with a defect. -/
theorem run_defect_iff (limits : Limits) (clock : Clock) (earlier : List String)
    (source : String) :
    (∀ e, (run limits source).failure?
          ((Machine.initial clock).serve limits (earlier.map .program)) =
            some (.stop (.error e)) ∧ e.fault.isDefect = true ↔
        ∃ mo r there distance,
          Evaluated limits ((Machine.initial clock).serve limits (earlier.map .program)) source mo ∧
          mo.task.access? = some r ∧ mo.LooksUpOn limits.rounds there ∧
          r.Misses there distance ∧
          OccursInInitializer (earlier ++ [source]) mo.task r.name.lexeme
            (r.scopes.drop distance) ∧
          e = r.missing distance) ∧
      (AllReady (earlier ++ [source]) →
        ∀ e, (run limits source).failure?
            ((Machine.initial clock).serve limits (earlier.map .program)) =
              some (.stop (.error e)) → e.fault.isDefect = false) := by
  have hserved := initial_served_standsIn limits clock earlier source
  have hsource : source ∈ earlier ++ [source] := List.mem_append_right _ List.mem_cons_self
  refine ⟨fun e => ⟨?_, ?_⟩, fun hready e hf => ?_⟩
  · rintro ⟨hf, hd⟩
    obtain ⟨mo, r, there, distance, he, hr, hl, hm, hu, h⟩ :=
      missed_of_defect hsource hserved hf hd
    -- the name was not ready, and that happens only in its own initializer
    have hk := (he.agreement hsource hserved).1
    exact ⟨mo, r, there, distance, he, hr, hl, hm, hk.inInitializer hr hu, h⟩
  · rintro ⟨mo, r, there, distance, he, hr, hl, hm, -, rfl⟩
    obtain ⟨-, scopes, hlocated, -⟩ := he.agreement hsource hserved
    have hraise := Moment.raises_missing hr (hlocated.access hr).name hl hm
    exact ⟨Run.failure?_eq_some_iff.2 (run_stops_iff.2 ⟨mo, he, hraise⟩), rfl⟩
  · cases hd : e.fault.isDefect with
    | false => rfl
    | true =>
      obtain ⟨mo, r, there, distance, he, hr, hl, hm, hu, h⟩ :=
        missed_of_defect hsource hserved hf hd
      exact absurd hu (hready mo.task r distance (he.agreement hsource hserved).1 hr hm.1)

/-- An assignment in the initializer of its own variable ends a run with a defect. -/
theorem assignment_in_initializer_defect :
    (run .standard "{ var a = a = nil; }").failure? (Machine.initial (.starting 0)) =
        some (.stop (.error ⟨.missingAtDistance "a" 0, some 1, "a"⟩)) ∧
      (RuntimeFault.missingAtDistance "a" 0).isDefect = true := by
  decide +kernel

end ScopedScript
