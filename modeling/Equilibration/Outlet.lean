import Equilibration.World

/-!
# Outlet — where reports go

A matrix prints to the standard output, into a buffer of its own, to a file
or to another stream, or nowhere. A stream may have room for a limited
number of bytes: it takes what fits, and a write that does not fit fails.
After a failed write the rest of a report is not written.

Files and streams take bytes, and a stream may stop in the middle of a
character. What they took is kept as a text that has one character for each
byte, that of the same number (`Outlet.ofBytes`); a text in ASCII is kept as
it is.
-/

namespace Equilibration

/-- A place to print to, with what was printed there. -/
inductive Outlet where
  /-- The standard output, whose text belongs to the world. -/
  | stdout
  /-- Nowhere: every text is taken and lost. -/
  | discard
  /-- A buffer that the matrix keeps and can show. -/
  | buffer (text : String)
  /-- A file that the caller opened. -/
  | file (text : String)
  /-- A stream that takes `room` bytes more, or any number. -/
  | stream (room : Option Nat) (text : String)
deriving DecidableEq, Repr

/-- A place that reports can be redirected to. -/
inductive PrintTarget where
  | stdout
  | discard
  | buffer
  | file
  /-- A stream that takes `room` bytes, or any number. -/
  | stream (room : Option Nat)
deriving DecidableEq, Repr

/-- The refusal to show a buffer that is not there. -/
inductive OutputError where
  | notBuffered
deriving DecidableEq, Repr

/-- The text of an output error. -/
def OutputError.message : OutputError → String
  | .notBuffered => "Print buffering is not configured."

namespace Outlet

/-- A place to print to, with nothing printed there yet. -/
def opened : PrintTarget → Outlet
  | .stdout => .stdout
  | .discard => .discard
  | .buffer => .buffer ""
  | .file => .file ""
  | .stream room => .stream room ""

/-- The bytes of a text. -/
def bytesOf (s : String) : List UInt8 := s.toUTF8.data.toList

/-- A text with one character for each byte, that of the same number. -/
def ofBytes (bytes : List UInt8) : String :=
  String.ofList (bytes.map fun b => Char.ofNat b.toNat)

/-- Writes a text. Gives whether all of it was taken, and the outlet and
the world afterwards. -/
def write (t : Outlet) (s : String) (w : World) : Bool × Outlet × World :=
  match t with
  | .stdout => (true, .stdout, w.print s)
  | .discard => (true, .discard, w)
  | .buffer text => (true, .buffer (text ++ s), w)
  | .file text => (true, .file (text ++ ofBytes (bytesOf s)), w)
  | .stream none text => (true, .stream none (text ++ ofBytes (bytesOf s)), w)
  | .stream (some room) text =>
    let bytes := bytesOf s
    (decide (bytes.length ≤ room), .stream (some (room - bytes.length))
      (text ++ ofBytes (bytes.take room)), w)

/-- Writes lines one after the other, up to the first that is not wholly
taken. -/
def writeLines (t : Outlet) (lines : List String) (w : World) :
    Outlet × World :=
  match lines with
  | [] => (t, w)
  | line :: rest =>
    match t.write line w with
    | (true, t, w) => t.writeLines rest w
    | (false, t, w) => (t, w)

/-- What a buffer holds. -/
def bufferText : Outlet → Except OutputError String
  | .buffer text => .ok text
  | _ => .error .notBuffered

end Outlet

end Equilibration
