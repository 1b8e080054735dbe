/-! # Lines

A segment is a line with its terminator. The segments of a text, joined, are the text; the
lines are the segments without their terminators. -/
namespace DerivativeHeaders.Text

def segments : List Char → List (List Char)
  | [] => []
  | c :: cs =>
    if c = '\n' then [c] :: segments cs
    else
      match segments cs with
      | [] => [[c]]
      | segment :: rest => (c :: segment) :: rest

theorem flatten_segments (cs : List Char) : (segments cs).flatten = cs := by
  induction cs with
  | nil => rfl
  | cons c cs ih =>
    rw [segments]
    split
    · simp [ih]
    · split
      · rename_i h
        simp only [h, List.flatten_nil] at ih
        simp [← ih]
      · rename_i h
        simp only [h, List.flatten_cons] at ih
        simp [← ih]

/-- The segment without its line feed and one carriage return before that. -/
def dropTerminator (segment : List Char) : List Char :=
  if segment.getLast? = some '\n' then
    let line := segment.dropLast
    if line.getLast? = some '\r' then line.dropLast else line
  else segment

def lines (cs : List Char) : List (List Char) := (segments cs).map dropTerminator

end DerivativeHeaders.Text
