import Mathlib.Tactic.SplitIfs

/-!
# Calls that avoid some errors

A call that can fail avoids a set of errors if it returns, or fails in another way. So does a
sequence of calls each of which does (`Except.Avoids.bind`).
-/

namespace Except

variable {ε α β : Type} {Bad : ε → Prop}

/-- The call returns, or fails with an error that is not bad. -/
def Avoids (Bad : ε → Prop) (call : Except ε α) : Prop := ∀ e, call = .error e → ¬Bad e

/-- A computation that returns avoids every error. -/
theorem avoids_ok (a : α) : Avoids Bad (.ok a : Except ε α) := nofun

/-- A computation that ends with another error avoids the bad ones. -/
theorem avoids_error {e : ε} (h : ¬Bad e) : Avoids Bad (.error e : Except ε α) := by
  rintro e' heq
  cases heq
  exact h

/-- A sequence of two calls avoids what both avoid. -/
theorem Avoids.bind {call : Except ε α} {next : α → Except ε β} (h : call.Avoids Bad)
    (hnext : ∀ a, call = .ok a → (next a).Avoids Bad) : (call >>= next).Avoids Bad := by
  cases call with
  | error e => exact avoids_error (h e rfl)
  | ok a => exact hnext a rfl

/-- A choice between two calls avoids what both avoid. -/
theorem Avoids.ite {c : Prop} [Decidable c] {call call' : Except ε α}
    (h : c → call.Avoids Bad) (h' : ¬c → call'.Avoids Bad) :
    (if c then call else call').Avoids Bad := by
  split_ifs with hc
  · exact h hc
  · exact h' hc

end Except
