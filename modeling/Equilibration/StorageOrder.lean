/-!
# StorageOrder — by rows or by columns, as it is or transposed

A sparse matrix is stored by rows or by columns (`StorageOrder`), and a
product uses it as it is or transposed (`Shape`). Both tags have one-letter
names in either case; any other letter is a `TagError`.
-/

namespace Equilibration

/-- Which dimension of a sparse matrix is cut into slices. -/
inductive StorageOrder where
  | row
  | col
deriving DecidableEq, Repr

/-- Whether a product takes the matrix or its transpose. -/
inductive Shape where
  | normal
  | transposed
deriving DecidableEq, Repr

/-- A letter that names no tag. -/
inductive TagError where
  | shape (letter : Char)
  | order (letter : Char)
deriving DecidableEq, Repr

/-- The text of a tag error. -/
def TagError.message : TagError → String
  | .shape c => "bad transpose flag '" ++ c.toString ++ "'"
  | .order c => "bad storage order '" ++ c.toString ++ "'"

namespace StorageOrder

/-- The order of a letter, `r` for rows and `c` for columns. -/
def ofChar (c : Char) : Except TagError StorageOrder :=
  if c = 'r' ∨ c = 'R' then .ok .row
  else if c = 'c' ∨ c = 'C' then .ok .col
  else .error (.order c)

/-- The opposite order. -/
def flip : StorageOrder → StorageOrder
  | .row => .col
  | .col => .row

/-- The name of an order in reports. -/
def name : StorageOrder → String
  | .row => "row"
  | .col => "col"

/-- The dimension that storage in an order cuts into slices. -/
def primary (o : StorageOrder) (rows cols : Nat) : Nat :=
  match o with
  | .row => rows
  | .col => cols

/-- The slice and the index of a position of a matrix. -/
def locate (o : StorageOrder) (row col : Nat) : Nat × Nat :=
  match o with
  | .row => (row, col)
  | .col => (col, row)

@[simp] theorem flip_flip (o : StorageOrder) : o.flip.flip = o := by
  cases o <;> rfl

theorem flip_ne (o : StorageOrder) : o.flip ≠ o := by cases o <;> decide

end StorageOrder

/-- The shape of a letter, `n` for the matrix itself and `t` for its
transpose. -/
def Shape.ofChar (c : Char) : Except TagError Shape :=
  if c = 'n' ∨ c = 'N' then .ok .normal
  else if c = 't' ∨ c = 'T' then .ok .transposed
  else .error (.shape c)

end Equilibration
