/-!
# Stopwatches — nested stopwatches

A stopwatch has a key and runs inside the one that was started before it
and is not stopped yet. One key in different places names different
stopwatches, so they form a tree: each keeps those that ran inside it by
their keys. Starting a stopwatch again adds to its time.

The keys of the stopwatches that run are a path into the tree, and the
current stopwatch is looked up by following it. Should the path lead
nowhere, a stopwatch is started outermost, and none is stopped.

`Stopwatches.start` and `Stopwatches.stop` are given the reading of a
clock; nothing here reads one.
-/

namespace Equilibration

/-- One stopwatch, with those that ran inside it. -/
structure Stopwatch where
  /-- The clock reading at its start, while it runs. -/
  since : Option Nat := none
  /-- The time it ran for until it was last stopped. -/
  elapsed : Nat := 0
  /-- The stopwatches inside it by their keys. -/
  inner : List (String × Stopwatch) := []
deriving Repr

/-- Stopwatches by their keys. -/
abbrev WatchRack := List (String × Stopwatch)

namespace WatchRack

/-- Changes the stopwatch of a key, a new one if there is none. -/
def update (key : String) (f : Stopwatch → Stopwatch) : WatchRack → WatchRack
  | [] => [(key, f {})]
  | (k, w) :: rest =>
    if k = key then (k, f w) :: rest else (k, w) :: update key f rest

end WatchRack

namespace Stopwatch

/-- Starts a stopwatch. -/
def start (w : Stopwatch) (now : Nat) : Stopwatch :=
  { w with since := some now }

/-- Stops a stopwatch; one that does not run stays as it is. -/
def stop (w : Stopwatch) (now : Nat) : Stopwatch :=
  match w.since with
  | none => w
  | some since => { w with since := none, elapsed := w.elapsed + (now - since) }

/-- Starts the stopwatch of a key inside this one. -/
def startInner (w : Stopwatch) (key : String) (now : Nat) : Stopwatch :=
  { w with inner := WatchRack.update key (·.start now) w.inner }

/-- Changes the stopwatch at the end of a path that starts inside this one,
if the path leads to one. -/
def adjust? (f : Stopwatch → Stopwatch) :
    List String → Stopwatch → Option Stopwatch
  | [], w => some (f w)
  | key :: path, w => do
    let v ← w.inner.lookup key
    let v ← v.adjust? f path
    pure { w with inner := WatchRack.update key (fun _ => v) w.inner }

end Stopwatch

/-- Nested stopwatches. -/
structure Stopwatches where
  /-- The keys of the stopwatches that run, the outermost first. -/
  running : List String := []
  /-- The outermost stopwatches by their keys. -/
  watches : WatchRack := []
deriving Repr

namespace Stopwatches

/-- Changes the current stopwatch, if the keys that run lead to one. -/
def adjustCurrent? (s : Stopwatches) (f : Stopwatch → Stopwatch) :
    Option Stopwatches :=
  match s.running with
  | [] => none
  | key :: path => do
    let w ← s.watches.lookup key
    let w ← w.adjust? f path
    pure { s with watches := WatchRack.update key (fun _ => w) s.watches }

/-- Starts the stopwatch `key` inside the current one, or outermost if there
is none. -/
def start (s : Stopwatches) (key : String) (now : Nat) : Stopwatches :=
  let started := match s.adjustCurrent? (·.startInner key now) with
    | some s => s
    | none => { s with watches := WatchRack.update key (·.start now) s.watches }
  { started with running := s.running ++ [key] }

/-- Stops the current stopwatch; the one around it becomes current. Nothing
happens if none runs. -/
def stop (s : Stopwatches) (now : Nat) : Stopwatches :=
  let stopped := match s.adjustCurrent? (·.stop now) with
    | some s => s
    | none => s
  { stopped with running := s.running.dropLast }

/-- The time that the outermost stopwatch `key` ran for. -/
def elapsed (s : Stopwatches) (key : String) : Nat :=
  match s.watches.lookup key with
  | none => 0
  | some w => w.elapsed

/-- The time that all outermost stopwatches ran for. -/
def total (s : Stopwatches) : Nat :=
  s.watches.foldl (fun time w => time + w.2.elapsed) 0

end Stopwatches

end Equilibration
