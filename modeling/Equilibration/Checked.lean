/-!
# Checked — computations that stop at a violated precondition

The kernels read and write arrays at positions that come from data. A
position outside its array, two lengths that must agree and do not, or a
size that is too large ends the computation with a `Violation`: the caller
broke a precondition, and there is no result.

This is a different thing from a domain error such as a matrix that was
never built. Domain errors are ordinary results and have types of their
own; a `Checked` computation that ends well may carry one.

`read`, `write`, `cut` and `updateFrom` are the only ways in which the
kernels touch arrays. Each says exactly when it succeeds. Sizes and
positions are machine words: a sum that is not at once used as a position
in an array is formed by `addWords`.
-/

namespace Equilibration

/-- How a caller's data can break a precondition. -/
inductive Violation where
  /-- Two lengths that must agree do not. -/
  | length
  /-- A position lies outside its array. -/
  | index
  /-- The ends of a slice are in the wrong order or outside the array. -/
  | slice
  /-- An array would be too large to exist, or a size too large for a
  machine word. -/
  | capacity
deriving DecidableEq, Repr

/-- A computation that ends with a result or at a violated precondition. -/
abbrev Checked (β : Type) := Except Violation β

namespace Checked

/-- Goes on if `p` holds. -/
def require (p : Prop) [Decidable p] (v : Violation) : Checked Unit :=
  if p then .ok () else .error v

/-- The element at position `i`. -/
def read {β : Type} (a : Array β) (i : Nat) : Checked β :=
  if h : i < a.size then .ok a[i] else .error .index

/-- The array with `b` put at position `i`. -/
def write {β : Type} (a : Array β) (i : Nat) (b : β) : Checked (Array β) :=
  if h : i < a.size then .ok (a.set i b h) else .error .index

/-- The elements at the positions `lo ≤ p < hi`, where `lo ≤ hi` must lie
in the array or at its end. -/
def cut {β : Type} (a : Array β) (lo hi : Nat) : Checked (List β) :=
  if lo ≤ hi ∧ hi ≤ a.size then .ok (a.extract lo hi).toList else .error .slice

/-- The elements at the positions `lo ≤ p < hi`, read one position at a
time: ends in the wrong order give none. -/
def readRange {β : Type} (a : Array β) (lo hi : Nat) : Checked (List β) :=
  if lo < hi then cut a lo hi else .ok []

/-- Combines the cells from `start` on with the elements of a list, one
cell for each element. -/
def updateFrom {β γ : Type} (f : β → γ → β) (a : Array β) (start : Nat) :
    List γ → Checked (Array β)
  | [] => .ok a
  | c :: cs => do
    let b ← read a start
    let a ← write a start (f b c)
    updateFrom f a (start + 1) cs

/-- No array has this many machine words; they would fill half of all
64-bit addresses. -/
def capacity : Nat := 1152921504606846976

/-- The sum of two machine words. -/
def addWords (a b : Nat) : Checked Nat := do
  require (a + b < UInt64.size) .capacity
  pure (a + b)

/-- An array of `count` copies. -/
def allocate {β : Type} (count : Nat) (b : β) : Checked (Array β) := do
  require (count < capacity) .capacity
  pure (Array.replicate count b)

/-! ## When they succeed -/

theorem read_eq_ok {β : Type} {a : Array β} {i : Nat} (h : i < a.size) :
    read a i = .ok a[i] := by
  simp [read, h]

theorem write_eq_ok {β : Type} {a : Array β} {i : Nat} (h : i < a.size)
    (b : β) :
    write a i b = .ok (a.set i b h) := by
  simp [write, h]

theorem cut_eq_ok {β : Type} {a : Array β} {lo hi : Nat} (h : lo ≤ hi)
    (h' : hi ≤ a.size) :
    cut a lo hi = .ok (a.extract lo hi).toList := by
  simp [cut, h, h']

theorem readRange_eq_ok {β : Type} {a : Array β} {lo hi : Nat}
    (h' : hi ≤ a.size) :
    readRange a lo hi = .ok (a.extract lo hi).toList := by
  unfold readRange
  split
  · next h => exact cut_eq_ok (Nat.le_of_lt h) h'
  · next h =>
      simp [Array.extract_eq_empty_of_le (show min hi a.size ≤ lo by omega)]

theorem addWords_eq_ok {a b : Nat} (h : a + b < UInt64.size) :
    addWords a b = .ok (a + b) := by
  rw [addWords, require, if_pos h]
  rfl

/-- A successful write keeps the size. -/
theorem size_of_write {β : Type} {a a' : Array β} {i : Nat} {b : β}
    (h : write a i b = .ok a') : a'.size = a.size := by
  unfold write at h
  split at h
  · cases h; simp
  · cases h

end Checked

end Equilibration
