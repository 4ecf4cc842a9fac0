/-!
# Candidates

A position in the search space together with the fitness it was found to have.
-/

namespace Metaheuristics

/-- One value per decision dimension. -/
abbrev Position := List Float

/-- **A position and its fitness**, absent where the position could not be evaluated. -/
structure Candidate (V : Type) where
  position : Position
  fitness : Option V
deriving Repr, DecidableEq

end Metaheuristics
