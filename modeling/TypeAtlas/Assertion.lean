/-! Conditions that the data handed over by a type checker are trusted to meet. A condition that
does not hold is a fault of that data and ends the question that met it. -/

namespace TypeAtlas

structure BrokenAssertion where
  reason : String
deriving DecidableEq

namespace BrokenAssertion

def message (b : BrokenAssertion) : String :=
  "Debug Failure. " ++ b.reason

end BrokenAssertion

/-- Asks for a condition; `claim` says what was trusted to hold. -/
def assert (condition : Bool) (claim : String) : Except BrokenAssertion Unit :=
  if condition then .ok () else .error ⟨"False expression: " ++ claim⟩

end TypeAtlas
