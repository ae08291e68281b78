-- A table of variables in the order in which they were first set, and the value of an
-- expression under it. A name has one value, the last one set.
import QuantumGates.Expression.Evaluate
import QuantumGates.Param

namespace QuantumGates

structure Bindings (R : Type) where
  entries : List (String × R)
deriving DecidableEq

namespace Bindings

variable {R : Type}

def empty : Bindings R := ⟨[]⟩

/-- The value of a variable. -/
def get? (b : Bindings R) (name : String) : Option R := b.entries.lookup name

/-- Sets a variable; one that is there keeps its place. -/
def set (b : Bindings R) (name : String) (x : R) : Bindings R :=
  if b.entries.any (·.1 == name) then
    ⟨b.entries.map fun e => if e.1 == name then (name, x) else e⟩
  else ⟨b.entries ++ [(name, x)]⟩

end Bindings

/-- The value of an expression under a table of variables. -/
def Bindings.evaluate (b : Bindings Float) (text : String) : Except (Fault Float) Float :=
  match evaluateText b.get? text with
  | .ok x => .ok x
  | .error reason => .error (.noValue text reason)

/-- The value of an expression without variables. -/
def evaluateClosed : String → Except (Fault Float) Float := Bindings.empty.evaluate

end QuantumGates
