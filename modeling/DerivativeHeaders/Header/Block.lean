import DerivativeHeaders.Header.Print
import DerivativeHeaders.Text.Blank
import DerivativeHeaders.Text.Ends
import DerivativeHeaders.Text.Lines

/-! # Blocks of a header text

A block starts at a pair of markers with comments between them, which spell its variant, and
reaches to the next marker. What stands before the first marker belongs to no block. -/
namespace DerivativeHeaders

structure Line where
  number : Nat
  text : List Char
deriving DecidableEq

def Line.ofText (cs : List Char) : List Line :=
  ((Text.lines cs).zipIdx 1).map fun x => ⟨x.2, x.1⟩

def isMarker (text : List Char) : Bool := Text.trim text == marker.toList

/-- What follows the slashes of a comment line. -/
def comment? (text : List Char) : Option (List Char) :=
  Text.dropStart? commentStart.toList (Text.trim text)

structure Block where
  variant : Variant
  opened : Nat
  body : List Line
deriving DecidableEq

namespace Block

/-- Where a reader of lines stands; lines it has collected are the latest first. -/
inductive Stage where
  | preface
  | comments (opened : Nat) (comments : List (List Char))
  | body (variant : Variant) (opened : Nat) (lines : List Line)
deriving DecidableEq

def readVariant (opened : Nat) (comments : List (List Char)) : Except Fault Variant :=
  match Variant.ofText true (String.ofList (['\n'].intercalate comments)) with
  | .ok v => .ok v
  | .error cause => .error (.line opened (.variantText cause))

def locateFrom (stage : Stage) : List Line → Except Fault (List Block)
  | [] =>
    match stage with
    | .preface => .ok []
    | .comments opened _ => .error (.line opened .openMarker)
    | .body v opened lines => .ok [⟨v, opened, lines.reverse⟩]
  | l :: ls =>
    match stage with
    | .preface =>
      locateFrom (if isMarker l.text then .comments l.number [] else .preface) ls
    | .comments opened comments =>
      if isMarker l.text then do
        let v ← readVariant opened comments.reverse
        locateFrom (.body v opened []) ls
      else
        match comment? l.text with
        | some comment => locateFrom (.comments opened (comment :: comments)) ls
        | none => .error (.line l.number (.interruptedMarker opened))
    | .body v opened lines =>
      if isMarker l.text then
        (⟨v, opened, lines.reverse⟩ :: ·) <$> locateFrom (.comments l.number []) ls
      else locateFrom (.body v opened (l :: lines)) ls

def locate (lines : List Line) : Except Fault (List Block) := locateFrom .preface lines

end Block

def blockRegion? (cs : List Char) : Option (List Char) :=
  match (Text.segments cs).dropWhile fun segment => !isMarker segment with
  | [] => none
  | segments => some segments.flatten

end DerivativeHeaders
