import ScopedScript.Proofs.Scope.Runs

/-!
# Scopes and frames agree

Scope analysis and evaluation are two walks that never meet: one opens scopes, the other makes
frames, and a variable is found by a number that the first leaves for the second.  This module
says that the number always fits.  Whenever a reference is evaluated, the environment has one
frame for each scope that was open around the reference, and the global frame after them; the
names that were ready there are bound.  So the frame that the number leads to exists, and the
name can be missing from it only if the reference is in the initializer of its own variable.

## Main definitions

* `Access.AgreesOn`: what a reference and the machine it is evaluated on have to do with each
  other.
* `OccursInInitializer`: nodes in the initializer of a variable.

## Main results

* `frames_match_scopes`: every reference agrees with the machine it is evaluated on.
-/

namespace ScopedScript

/-- **The node is in the initializer of a variable** of one of the programs loaded from some
sources.  The initializer sees these scopes. -/
def OccursInInitializer (sources : List String) (task : Task) (name : String)
    (scopes : List Scope) : Prop :=
  ∃ source ∈ sources, ∃ statements, load source = .ok statements ∧
    ∃ s ∈ statements, (Task.stmt s).InInitializer task name scopes

/-- A reference to a name that is not ready is in the initializer of its own variable. -/
theorem Occurs.inInitializer {sources : List String} {task : Task} {r : Access} {distance : Nat}
    {name : String} (h : Occurs sources task) (hr : task.access? = some r)
    (hm : markAt r.scopes distance name = some false) :
    OccursInInitializer sources task name (r.scopes.drop distance) := by
  obtain ⟨source, hs, statements, hl, s, hmem, hc⟩ := h
  have hs' : (Task.stmt s).VisitedIn [] := ⟨(load_located hl).of_nil s hmem, by simp [Settled]⟩
  obtain ⟨scopes, hv, hin⟩ := Task.unready_in_initializer hs' hc
  have hscopes : r.scopes = scopes := ((Task.VisitedIn.locatedIn hv).access hr).seen
  subst hscopes
  exact ⟨source, hs, statements, hl, s, hmem, hin distance name hm⟩

/-- **A reference agrees with a machine.** -/
structure Access.AgreesOn (r : Access) (machine : Machine) : Prop where
  /-- One frame for each scope, and the global frame after them. -/
  chain : ∃ inner, machine.environment.chain = inner ++ Environment.global.chain ∧
    inner.length = r.scopes.length ∧ Environment.global.frame ∉ inner
  /-- A name that is ready in a scope is bound in the frame of that scope. -/
  bound : ∀ distance name, markAt r.scopes distance name = some true →
    ∃ frame, machine.environment.chain[distance]? = some frame ∧
      machine.heap.frames.Binds frame name
  /-- The way out to the variable does not run past the global frame. -/
  ancestor : ∀ hops, r.hops = some hops →
    ∃ frame, Frames.ancestor machine.environment hops r.name.lexeme machine.heap.frames =
      .ok frame machine.heap.frames
  /-- Reading or assigning the variable fails only if it is not ready. -/
  missed : ∀ hops e frames, r.hops = some hops →
    (Frames.getAt machine.environment hops r.name machine.heap.frames = .error e frames ∨
      ∃ value, Frames.assignAt machine.environment hops r.name value machine.heap.frames =
        .error e frames) →
      markAt r.scopes hops.toNat r.name.lexeme = some false

/-- A located reference agrees with a machine among its scopes. -/
theorem Access.LocatedIn.agreesOn {r : Access} {scopes : List Scope} {machine : Machine}
    (h : r.LocatedIn scopes)
    (hc : Covers machine.heap.frames scopes machine.environment.chain) : r.AgreesOn machine := by
  have hops : ∀ hops, r.hops = some hops → ∃ distance : Nat, hops = Int.ofNat distance := by
    intro hops hh
    rw [h.hops, Option.map_eq_some_iff] at hh
    obtain ⟨distance, -, hd⟩ := hh
    exact ⟨distance, hd.symm⟩
  refine ⟨?_, ?_, ?_, ?_⟩
  · rw [h.seen]
    exact hc.chain_eq
  · rw [h.seen]
    exact fun distance name hm => hc.bound hm
  · intro hops' hh
    obtain ⟨distance, rfl⟩ := hops hops' hh
    obtain ⟨frame, hf, -⟩ := h.frame hc hh
    exact ⟨frame, Frames.ancestor_eq hf _⟩
  · intro hops' e frames hh he
    obtain ⟨distance, rfl⟩ := hops hops' hh
    obtain ⟨frame, hf, hu⟩ := h.frame hc hh
    -- if the frame had the name, neither reading nor assigning it could fail
    refine hu fun hb => ?_
    obtain ⟨value, hv⟩ := Option.isSome_iff_exists.1 hb
    rcases he with he | ⟨value', he⟩
    · rw [Frames.getAt_eq h.name hf, hv] at he
      cases he
    · rw [Frames.assignAt_eq h.name hf, hv] at he
      cases he

/-- **Every reference agrees with the machine it is evaluated on.**  A machine has run sources,
some of which may have failed, and runs another one.  Whenever a reference is evaluated, and
when its variable is looked up, the frames match the scopes that were open around it; if its
own name was not ready there, it is in the initializer of its variable. -/
theorem frames_match_scopes (limits : Limits) (clock : Clock) (earlier : List String)
    (source : String) (mo : Moment) (r : Access) (machine : Machine)
    (he : Evaluated limits ((Machine.initial clock).serve limits (earlier.map .program)) source mo)
    (hr : mo.task.access? = some r)
    (hm : machine = mo.machine ∨ mo.LooksUpOn limits.rounds machine) :
    r.AgreesOn machine ∧
      ∀ hops, r.hops = some hops → markAt r.scopes hops.toNat r.name.lexeme = some false →
        OccursInInitializer (earlier ++ [source]) mo.task r.name.lexeme
          (r.scopes.drop hops.toNat) := by
  have hserved := initial_served_standsIn limits clock earlier source
  obtain ⟨hk, scopes, hl, hstands⟩ :=
    he.agreement (List.mem_append_right _ List.mem_cons_self) hserved
  -- Evaluating the value to assign may have changed the machine, but not where it stands.
  have hthere : machine.StandsIn (Occurs (earlier ++ [source])) scopes := by
    rcases hm with rfl | ⟨depth, -, hm⟩
    · exact hstands
    · exact hm.standsIn (Occurs.closed _) hk hl hstands
  exact ⟨(hl.access hr).agreesOn hthere.covers, fun hops _ hu => hk.inInitializer hr hu⟩

/-- A program that fails in the initializer of `a`, after a function that refers to `a` has
escaped from it. -/
def escapeFromInitializer : String :=
  "var g; { var b = nil; var a = (fun (x) { g = fun () { return a; }; return c; })(b); }"

/-- When the function is called in a later run, its reference to `a` still agrees with the
machine: it counts to the frame of the block, which was left without `a`. -/
theorem frames_match_scopes_escaped :
    ∃ mo r machine,
      Evaluated .standard
        ((Machine.initial (.starting 0)).serve .standard ([escapeFromInitializer].map .program))
        "g();" mo ∧
      mo.task.access? = some r ∧ mo.LooksUpOn Limits.standard.rounds machine ∧
      r.name.lexeme = "a" ∧ r.hops = some 2 ∧ r.AgreesOn machine ∧
      OccursInInitializer [escapeFromInitializer, "g();"] mo.task "a" (r.scopes.drop 2) := by
  have hserved := initial_served_standsIn .standard (.starting 0) [escapeFromInitializer] "g();"
  -- The call fails with a defect, and a defect comes from a moment that looks a variable up.
  have hfails : (run .standard "g();").failure?
      ((Machine.initial (.starting 0)).serve .standard ([escapeFromInitializer].map .program)) =
        some (.stop (.error ⟨.missingAtDistance "a" 2, some 1, "a"⟩)) := by
    decide +kernel
  obtain ⟨mo, r, there, distance, he, hr, hl, hmiss, hu, hmissing⟩ :=
    missed_of_defect (List.mem_append_right _ List.mem_cons_self) hserved hfails rfl
  have hfault := congrArg RuntimeError.fault hmissing
  injection hfault with hname hdistance
  obtain rfl : distance = 2 := Int.ofNat.inj hdistance.symm
  obtain ⟨hagrees, hin⟩ :=
    frames_match_scopes .standard (.starting 0) _ "g();" mo r there he hr (.inr hl)
  refine ⟨mo, r, there, he, hr, hl, hname.symm, hmiss.1, hagrees, ?_⟩
  have := hin 2 hmiss.1 hu
  rwa [← hname] at this

end ScopedScript
