import Equilibration.Balancing
import Equilibration.Decimal.Scientific
import Equilibration.NormPolicy
import Equilibration.StorageOrder
import Equilibration.Vec

/-!
# Report — the text of one equilibration

A report has an empty line, a heading and ten lines of facts. Factors and
the residual have two decimals, the norm has four. The time is told in the
largest unit that it fills, with the decimals it has.
-/

namespace Equilibration

/-- The facts that a report states. -/
structure Report (α : Type) where
  rows : Nat
  cols : Nat
  entryCount : Nat
  order : StorageOrder
  balanceNorm : NormPolicy
  normalizeNorm : NormPolicy
  /-- How balancing went. -/
  balance : BalanceRecord α
  /-- The norm before normalization. -/
  norm : α
  /-- The row factors. -/
  d : Array α
  /-- The column factors. -/
  e : Array α
  /-- The time that the equilibration took, in nanoseconds. -/
  time : Nat

namespace Report

variable {α : Type} [Scalar α] [Displayed α]

/-- A line of facts. The names fill fourteen columns. -/
def line (name fact : String) : String :=
  "  " ++ name ++ String.ofList (List.replicate (14 - name.length) ' ')
    ++ "= " ++ fact ++ "\n"

/-- The smallest and the largest element of a vector. -/
def rangeText (x : Array α) : String :=
  "[" ++ Displayed.scientific 2 (Vec.minimum x) ++ ", "
    ++ Displayed.scientific 2 (Vec.maximum x) ++ "]"

/-- How balancing went, in words. -/
def balanceText (record : BalanceRecord α) : String :=
  Decimal.natText record.iterations ++ " iterations, converged = "
    ++ (if record.converged then "true" else "false")
    ++ ", residual = " ++ Displayed.scientific 2 record.residual

/-- The decimals of `part` out of `10 ^ width`, without zeros at the end. -/
def decimals : (width part : Nat) → List Char
  | 0, _ => []
  | width + 1, part =>
    if part = 0 then []
    else Decimal.digitChar (part / Nat.pow 10 width)
      :: decimals width (part % Nat.pow 10 width)

/-- A duration in units of `10 ^ width` nanoseconds. -/
def inUnits (width : Nat) (name : String) (time : Nat) : String :=
  let whole := Decimal.natText (time / Nat.pow 10 width)
  match decimals width (time % Nat.pow 10 width) with
  | [] => whole ++ name
  | part => whole ++ "." ++ String.ofList part ++ name

/-- A duration in the largest unit that it fills. -/
def durationText (time : Nat) : String :=
  if 1000000000 ≤ time then inUnits 9 "s" time
  else if 1000000 ≤ time then inUnits 6 "ms" time
  else if 1000 ≤ time then inUnits 3 "µs" time
  else inUnits 0 "ns" time

/-- The lines of a report. -/
def lines (r : Report α) : List String :=
  [ "\nequilibration:\n", line "rows" (Decimal.natText r.rows), line "cols"
    (Decimal.natText r.cols), line "nnz" (Decimal.natText r.entryCount),
    line "order" r.order.name, line "norms"
      (r.balanceNorm.display ++ " (balance), " ++ r.normalizeNorm.display
        ++ " (normalize)"), line "sinkhorn" (balanceText r.balance),
    line "norm(A)" (Displayed.scientific 4 r.norm),
    line "d range" (rangeText r.d), line "e range" (rangeText r.e),
    line "time" (durationText r.time) ]

/-- The whole report. -/
def text (r : Report α) : String := String.join r.lines

end Report

end Equilibration
