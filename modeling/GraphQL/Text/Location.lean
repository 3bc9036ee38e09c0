/-!
Places in a source text: lines and columns counted from one, a column for each character.

A `LineIndex` holds the byte offsets at which the lines of a text start. The line of an offset is
found by bisection, and its column by counting the characters since the start of the line.
-/

set_option autoImplicit false

namespace GraphQL

structure Location where
  line : UInt32
  column : UInt32
  deriving DecidableEq, Repr, Inhabited

/-- A text, and the byte offsets at which its lines start, in order. -/
structure LineIndex where
  source : String
  lineStarts : Array Nat
  deriving Repr

/-- What a search among ascending numbers comes to: the index of the number, or the index at which
it would have to be put in. -/
inductive Search where
  | hit (i : Nat)
  | miss (i : Nat)
  deriving DecidableEq, Repr

namespace Search

/-- Halves a range of `size` ascending numbers from index `base` on until a single one is left: the
last that is not above `x`, unless they all are. -/
def bisect (xs : Array Nat) (x base size : Nat) : Nat :=
  if size ≤ 1 then base
  else
    let half := size / 2
    let mid := base + half
    if xs[mid]?.any (x < ·) then bisect xs x base (size - half) else bisect xs x mid (size - half)
termination_by size

/-- Looks for a number among ascending ones. -/
def run (xs : Array Nat) (x : Nat) : Search :=
  let i := bisect xs x 0 xs.size
  match xs[i]? with
  | none => miss 0
  | some y => if y = x then hit i else if y < x then miss (i + 1) else miss i

end Search

namespace LineIndex

/-- The offsets behind the line feeds of a text that starts at byte `offset`. -/
def startsAfter (offset : Nat) : List Char → List Nat
  | [] => []
  | c :: cs =>
    let next := offset + c.utf8Size
    if c = '\n' then next :: startsAfter next cs else startsAfter next cs

def ofText (text : String) : LineIndex := ⟨text, (0 :: startsAfter 0 text.toList).toArray⟩

/-- The part of a text between two bytes, if it consists of whole characters. -/
def slice? (text : String) (start stop : Nat) : Option String := do
  let slice ← text.slice? (← text.pos? ⟨start⟩) (← text.pos? ⟨stop⟩)
  return slice.copy

/-- The line that a byte belongs to, counted from zero. -/
def lineAt (index : LineIndex) (offset : Nat) : Nat :=
  match Search.run index.lineStarts offset with
  | .hit line => line
  | .miss next => next - 1

def location (index : LineIndex) (offset : Nat) : Location :=
  let line := index.lineAt offset
  let start := index.lineStarts.getD line 0
  let column := ((slice? index.source start offset).map String.length).getD 0
  ⟨UInt32.ofNat (line + 1), UInt32.ofNat (column + 1)⟩

end LineIndex

end GraphQL
