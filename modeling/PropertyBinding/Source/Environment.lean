import PropertyBinding.Source
import PropertyBinding.Text.Characters

/-!
# Properties of an environment

Environment variables whose names begin with a label and two underscores are properties. Two
underscores separate the segments of the name (`Text.piecesAtDouble`); a single one stands for a
hyphen.
-/

namespace PropertyBinding

namespace Text

/-- The pieces between doubled occurrences of `mark`, taken from the left: of three marks in a
row, the third begins a piece. -/
def piecesAtDouble (mark : Char) : List Char → List (List Char)
  | [] => [[]]
  | [c] => [[c]]
  | c :: d :: cs =>
    if c = mark ∧ d = mark then [] :: piecesAtDouble mark cs
    else match piecesAtDouble mark (d :: cs) with
      | [] => [[c]]
      | p :: ps => (c :: p) :: ps

theorem piecesAtDouble_ne_nil (mark : Char) (cs : List Char) : piecesAtDouble mark cs ≠ [] := by
  induction cs using piecesAtDouble.induct mark with
  | case1 => simp [piecesAtDouble]
  | case2 c => simp [piecesAtDouble]
  | case3 c d cs h ih => simp [piecesAtDouble, h]
  | case4 c d cs h hnil ih => exact absurd hnil ih
  | case5 c d cs h piece rest hcons ih => simp [piecesAtDouble, h, hcons]

end Text

namespace Properties

/-- What follows a word, if the text begins with it. -/
def behind? (word cs : List Char) : Option (List Char) :=
  if word.isPrefixOf cs then some (cs.drop word.length) else none

/-- The segment that a piece of a variable's name stands for. -/
def environmentSegment (piece : List Char) : String :=
  String.ofList ((Text.lower piece).map fun c => if c = '_' then '-' else c)

/-- The property name of a variable, if the variable belongs to the label. -/
def environmentName? (label name : String) : Option String := do
  let rest ← behind? (label.toList ++ ['_', '_']) name.toList
  let pieces := Text.piecesAtDouble '_' rest
  if pieces.any (·.isEmpty) then none
  return String.intercalate "." (Text.lowercased label :: pieces.map environmentSegment)

/-- The properties of the variables that belong to a label. -/
def ofEnvironment (label : String) (env : List (String × String)) : Properties :=
  ofPairs (env.filterMap fun (name, value) =>
    (environmentName? label name).map (·, value))

end Properties

end PropertyBinding
