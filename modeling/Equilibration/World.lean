import Equilibration.Checked
import Equilibration.Stopwatches

/-!
# World — the clock and the standard output

What the operations on a matrix share with the rest of the program: a clock
that they read and the standard output that they print to. The readings of
the clock are given in advance, one for each time it is looked at; nothing
is assumed of them here.

`Timed` computations carry the world and a set of stopwatches along.
`Timed.timed` runs one under a stopwatch.
-/

namespace Equilibration

/-- The clock and the standard output. -/
structure World where
  /-- What the clock shows at each look. -/
  readings : Nat → Nat
  /-- How often the clock was looked at. -/
  looks : Nat := 0
  /-- What was printed to the standard output. -/
  printed : String := ""

namespace World

/-- The next reading of the clock. -/
def now (w : World) : Nat := w.readings w.looks

/-- The world after a look at the clock. -/
def look (w : World) : World := { w with looks := w.looks + 1 }

/-- The world after a text was printed to the standard output. -/
def print (w : World) (text : String) : World :=
  { w with printed := w.printed ++ text }

end World

/-- A computation that reads the clock and runs stopwatches. -/
abbrev Timed := StateT (Stopwatches × World) Checked

namespace Timed

/-- Starts a stopwatch. -/
def start (key : String) : Timed Unit :=
  modify fun (watches, world) => (watches.start key world.now, world.look)

/-- Stops the current stopwatch. -/
def stop : Timed Unit :=
  modify fun (watches, world) => (watches.stop world.now, world.look)

/-- Runs a computation under a stopwatch. -/
def timed {β : Type} (key : String) (act : Timed β) : Timed β := do
  start key
  let r ← act
  stop
  pure r

end Timed

end Equilibration
