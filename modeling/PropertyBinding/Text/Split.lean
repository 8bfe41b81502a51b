/-!
# Cutting text at a separator

Cutting keeps every piece, the empty ones too: a text with `n` separators has `n + 1` pieces, and
joining the pieces with the separator gives the text back. Lists are joined with commas. The parts
of a path are what stands between its slashes: repeated and trailing slashes do not count, nor does
a single dot, unless a relative path begins with one.
-/

namespace PropertyBinding.Text

/-- The pieces between the occurrences of `sep`. -/
def pieces (sep : Char) : List Char → List (List Char)
  | [] => [[]]
  | c :: cs =>
    if c = sep then [] :: pieces sep cs
    else match pieces sep cs with
      | [] => [[c]]
      | p :: ps => (c :: p) :: ps

/-- The pieces of a string between the occurrences of `sep`. -/
def split (sep : Char) (s : String) : List String :=
  (pieces sep s.toList).map String.ofList

/-- There is always a piece. -/
theorem pieces_ne_nil (sep : Char) (cs : List Char) : pieces sep cs ≠ [] := by
  cases cs with
  | nil => simp [pieces]
  | cons c cs =>
    rw [pieces]
    split
    · simp
    · split <;> simp

/-- The text with every comma written as a backslash and a comma. -/
def escapeCommas (cs : List Char) : List Char :=
  cs.flatMap fun c => if c = ',' then ['\\', ','] else [c]

/-- List items as one text: commas inside an item are escaped, items are separated by commas. -/
def joinItems (items : List String) : String :=
  String.intercalate "," (items.map fun item => String.ofList (escapeCommas item.toList))

/-! ### Parts of a path -/

/-- What a path begins with: the slash of an absolute path, or the dot of a relative one that
begins with a dot. -/
def pathStart (pieces : List (List Char)) : List (List Char) :=
  match pieces with
  | [] :: _ :: _ => [['/']]
  | ['.'] :: _ => [['.']]
  | _ => []

/-- The parts of a path: its start, and the pieces between slashes that are neither empty nor a
dot. -/
def pathParts (path : String) : List (List Char) :=
  let pieces := pieces '/' path.toList
  pathStart pieces ++ pieces.filter fun piece => piece ≠ [] ∧ piece ≠ ['.']

/-- Whether two texts are the same path. -/
def samePath (a b : String) : Bool :=
  pathParts a == pathParts b

/-- Every text is the same path as itself. -/
theorem samePath_self (a : String) : samePath a a = true := by
  simp [samePath]

end PropertyBinding.Text
