import PropertyBinding.Entries
import PropertyBinding.Error
import PropertyBinding.Name

/-!
# Pattern maps

A map from dotted patterns to values, kept as a tree of segments. A pattern segment may be the
wildcard, which stands for any one segment. Matching prefers a literal child to the wildcard child
at every level and never takes a step back: once a literal child has been entered, a dead end below
it is no match, even if the wildcard child would have matched.
-/

namespace PropertyBinding

/-- The pattern segment that stands for any one segment. -/
def wildcard : String := "\x7b*\x7d"

/-- A tree of pattern segments: the value bound here, the children for literal segments in
ascending order, and the child for the wildcard. -/
inductive PatternMap (α : Type) where
  | node (bound : Option α) (literals : List (String × PatternMap α)) (any : Option (PatternMap α))

namespace PatternMap

variable {α : Type}

/-- The map without patterns. -/
def empty : PatternMap α := .node none [] none

instance : Inhabited (PatternMap α) := ⟨empty⟩

/-- The value bound at the top of the tree. -/
def bound : PatternMap α → Option α
  | .node bound _ _ => bound

/-- The children for literal segments, in ascending order. -/
def literals : PatternMap α → Entries (PatternMap α)
  | .node _ literals _ => literals

/-- The child for the wildcard. -/
def any : PatternMap α → Option (PatternMap α)
  | .node _ _ any => any

/-- Whether there is neither a value nor a child. -/
def isEmpty : PatternMap α → Bool
  | .node none [] none => true
  | _ => false

/-- The child that a pattern segment leads to. -/
def child? (m : PatternMap α) (segment : String) : Option (PatternMap α) :=
  if segment = wildcard then m.any else m.literals.lookup segment

/-- The pattern segments that lead to a child, the wildcard last. -/
def childNames (m : PatternMap α) : List String :=
  Entries.keys m.literals ++ (if m.any.isSome then [wildcard] else [])

/-- The map with a value bound at a path of pattern segments, unless one is bound there. -/
def insertAt (value : α) : List String → PatternMap α → Option (PatternMap α)
  | [], .node none literals any => some (.node (some value) literals any)
  | [], .node (some _) _ _ => none
  | segment :: path, .node bound literals any =>
    if segment = wildcard then
      (insertAt value path (any.getD empty)).map fun child => .node bound literals (some child)
    else
      (insertAt value path ((literals.lookup segment).getD empty)).map fun child =>
        .node bound (Entries.insert segment child literals) any

/-- The value bound at a path of pattern segments. -/
def find? : List String → PatternMap α → Option α
  | [], m => m.bound
  | segment :: path, m => (m.child? segment).bind (find? path)

/-- Bind a value to a pattern. A pattern whose segments have a value is refused. -/
def insert (m : PatternMap α) (pattern : String) (value : α) :
    Except BindError (PatternMap α) :=
  match insertAt value (Name.segments pattern) m with
  | some m => .ok m
  | none => .error (.duplicatePattern pattern)

/-- Whether a value is bound to the pattern. -/
def contains (m : PatternMap α) (pattern : String) : Bool :=
  (m.find? (Name.segments pattern)).isSome

/-- The value of the pattern that the segments of a name match. -/
def matchSegments : List String → PatternMap α → Option α
  | [], m => m.bound
  | segment :: rest, m =>
    match m.literals.lookup segment with
    | some child => matchSegments rest child
    | none => m.any.bind (matchSegments rest)

/-- The value of the pattern that the segments after a cursor match. -/
def matchName (m : PatternMap α) (name : Cursor) : Option α :=
  m.matchSegments name.remaining

/-- A pattern with a segment added. -/
def extend (pattern segment : String) : String :=
  if pattern = "" then segment else pattern ++ "." ++ segment

mutual

/-- The bound values under a node that `pattern` leads to, each with its pattern: the node's own
value, then the literal children in ascending order, then the wildcard child. -/
def entriesFrom (pattern : String) : PatternMap α → List (String × α)
  | .node bound literals any =>
    (bound.map fun value => (pattern, value)).toList ++ literalEntries pattern literals ++
      anyEntries pattern any

/-- The bound values under literal children. -/
def literalEntries (pattern : String) : List (String × PatternMap α) → List (String × α)
  | [] => []
  | (segment, child) :: rest =>
    entriesFrom (extend pattern segment) child ++ literalEntries pattern rest

/-- The bound values under the wildcard child. -/
def anyEntries (pattern : String) : Option (PatternMap α) → List (String × α)
  | none => []
  | some child => entriesFrom (extend pattern wildcard) child

end

/-- The bound values, each with its pattern. -/
def entries (m : PatternMap α) : List (String × α) :=
  m.entriesFrom ""

end PatternMap

end PropertyBinding
