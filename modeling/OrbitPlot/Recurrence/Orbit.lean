import OrbitPlot.Picture.StopRule
import OrbitPlot.Recurrence.Basic

/-!
# Orbits

The orbit of a point is its sequence up to the first term at which the stopping rule stops it, or
up to one step beyond the cap if no earlier term does. Only where it ended and after how many steps
is kept.

One machine runs all programs of an orbit, and may go on to the next orbit afterwards.

With the largest cap there is, no count of steps is beyond it. A sequence that is never stopped then
has no end, and what is given here as the end of it is of no meaning.
-/

namespace OrbitPlot

/-- How sequences are followed. -/
structure Settings where
  /-- The cap: a sequence that has taken more steps counts as never stopped. -/
  cap : UInt64 := 100
  /-- The point chosen by the user, if one was. -/
  selected : Option Point := none
  /-- The stopping rule. -/
  rule : StopRule := .escape
  deriving DecidableEq, Repr

/-- The end of a sequence. -/
structure Orbit where
  /-- How many steps were taken from the first term. -/
  steps : UInt64
  /-- The last term. -/
  last : Point
  deriving DecidableEq, Repr

/-- Follows a sequence from `z`, which `steps` steps have led to, for at most `left` more. -/
def Orbit.follow (stops : Point → Bool) (next : Point → Machine.Run Point) :
    (left : Nat) → (steps : UInt64) → (z : Point) → Machine.Run Orbit
  | 0, steps, z => pure ⟨steps, z⟩
  | left + 1, steps, z =>
    if stops z then pure ⟨steps, z⟩ else next z >>= follow stops next left (steps + 1)

namespace Recurrence

variable (r : Recurrence) (s : Settings)

/-- The first term of the sequence of a point. -/
def firstTerm (z : Point) : Machine.Run Point :=
  match r.start? with
  | some first => pure first
  | none => r.first.evaluate r.pool (.atStart z s.selected)

/-- The term after `previous` in the sequence of `z`, which starts at `first`. -/
def nextTerm (z first previous : Point) : Machine.Run Point :=
  r.next.evaluate r.pool (.later z s.selected first previous)

/-- Follows the sequence of a point to its end. It fails if a program reads the selected point and
none was selected. -/
def trace (z : Point) : Machine.Run Orbit := do
  let first ← r.firstTerm s z
  Orbit.follow s.rule.stops (r.nextTerm s z first) (s.cap.toNat + 1) 0 first

/-- The orbit of a point, if it has one, and the machine afterwards. -/
def orbit (z : Point) (m : Machine) : Option Orbit × Machine :=
  match r.trace s z m with
  | .ok o m => (some o, m)
  | .error _ m => (none, m)

/-- The color of a point, if it has an orbit, and the machine afterwards. -/
def color (z : Point) (m : Machine) : Option Color × Machine :=
  let (o, m) := r.orbit s z m
  (o.map fun o ↦ s.rule.color o.last o.steps s.cap, m)

end Recurrence

end OrbitPlot
