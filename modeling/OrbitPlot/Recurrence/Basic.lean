import OrbitPlot.Program.Machine

/-!
# Recurrences

A recurrence makes a sequence of points for every point of the plane: one program gives the first
term, another each later term from the ones before. Both share one pool of constants, and once made
a recurrence never changes.

If the first term reads no variable, every sequence starts at the same point, which is then worked
out once.
-/

namespace OrbitPlot

/-- A rule for sequences of points. -/
structure Recurrence where
  /-- The program for the first term. -/
  first : Program
  /-- The program for every later term. -/
  next : Program
  /-- The constants of both programs. -/
  pool : Pool
  /-- The first term, if it is the same everywhere. -/
  start? : Option Point

namespace Recurrence

/-- The recurrence with the given programs, provided that each leaves one point. -/
def ofPrograms (pool : Pool) (first next : Program) : Except FormulaError Recurrence :=
  if !first.fits pool then .error .firstUnfit
  else if !next.fits pool then .error .nextUnfit
  else
    let start? := if first.isConstant pool then (first.value pool .zero).toOption else none
    .ok { first, next, pool, start? }

/-- Whether nothing can be drawn before the user has chosen a point. -/
def needsSelected (r : Recurrence) : Bool :=
  r.first.reads r.pool .selected || r.next.reads r.pool .selected

end Recurrence

end OrbitPlot
