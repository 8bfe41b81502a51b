/-!
# Dotted names

A name is a text cut into segments at dots. A segment that begins with a quotation mark runs to
the closing mark and on to the next dot, so map keys may contain dots. An unclosed mark swallows
the rest of the name. Segments are handed out without their marks.

A `Cursor` stands between the segments of a name: it can peek at the segment after it, step over
it, and step back.
-/

namespace PropertyBinding

namespace Name

/-- The raw text of the first segment, and what follows it: nothing, or a text that begins with
the dot after the segment. -/
def splitFirst : List Char → List Char × List Char
  | '"' :: cs =>
    let inside := cs.takeWhile (· ≠ '"')
    match cs.dropWhile (· ≠ '"') with
    | [] => ('"' :: cs, [])
    | mark :: after =>
      ('"' :: inside ++ mark :: after.takeWhile (· ≠ '.'), after.dropWhile (· ≠ '.'))
  | cs => (cs.takeWhile (· ≠ '.'), cs.dropWhile (· ≠ '.'))

/-- The first segment and what follows it make up the text. -/
theorem splitFirst_append (cs : List Char) : (splitFirst cs).1 ++ (splitFirst cs).2 = cs := by
  unfold splitFirst
  split
  · rename_i cs
    split
    · simp
    · rename_i mark after h
      have : cs.takeWhile (· ≠ '"') ++ mark :: after = cs := by
        rw [← h, List.takeWhile_append_dropWhile]
      simp only [List.cons_append, List.append_assoc, List.takeWhile_append_dropWhile, this]
  · exact List.takeWhile_append_dropWhile

/-- The raw segments: the texts between the dots outside quotation marks. A dot at the end of the
name does not begin another segment. -/
def rawSegments (cs : List Char) : List (List Char) :=
  if _ : cs = [] then []
  else (splitFirst cs).1 :: rawSegments ((splitFirst cs).2.drop 1)
termination_by cs.length
decreasing_by
  have e := congrArg List.length (splitFirst_append cs)
  have p : 0 < cs.length := List.length_pos_iff.2 ‹_›
  simp only [List.length_append, List.length_drop] at e ⊢
  omega

/-- A raw segment without its opening quotation mark and, if it ends in one, its closing mark. -/
def unquote : List Char → List Char
  | '"' :: cs => if cs.getLast? = some '"' then cs.dropLast else cs
  | cs => cs

/-- The segments of a name, without their quotation marks. -/
def segments (name : String) : List String :=
  (rawSegments name.toList).map fun raw => String.ofList (unquote raw)

/-- Where a raw segment stands in its name: it begins at character `start` and ends before
character `stop`. -/
structure Span where
  start : Nat
  stop : Nat
  deriving DecidableEq, Repr

/-- The spans of consecutive raw segments, the first of which begins at `start`: each is followed
by the one character that separates it from the next. -/
def spansFrom (start : Nat) : List (List Char) → List Span
  | [] => []
  | raw :: rest => ⟨start, start + raw.length⟩ :: spansFrom (start + raw.length + 1) rest

/-- The spans of the segments of a name. -/
def spans (name : String) : List Span :=
  spansFrom 0 (rawSegments name.toList)

/-- The segment between quotation marks, if it could not be read back as one segment without. -/
def quoteSegment (key : String) : String :=
  if '.' ∈ key.toList ∨ key.toList.head? = some '"' then "\"" ++ key ++ "\"" else key

/-- The dotted name of a list of segments, quoted where needed. -/
def joinSegments (segments : List String) : String :=
  String.intercalate "." (segments.map quoteSegment)

end Name

/-- A position between two segments of a name: `position` segments lie before it. -/
structure Cursor where
  name : String
  position : Nat
  deriving DecidableEq, Repr

namespace Cursor

/-- A cursor in front of the first segment. -/
def ofName (name : String) : Cursor := ⟨name, 0⟩

/-- The number of segments of the name. -/
def segmentCount (c : Cursor) : Nat := (Name.segments c.name).length

/-- The segment with this index, wherever the cursor stands. -/
def segment? (c : Cursor) (index : Nat) : Option String := (Name.segments c.name)[index]?

/-- The segment after the cursor. -/
def peek? (c : Cursor) : Option String := c.segment? c.position

/-- Whether the segment after the cursor is `expected`. -/
def peekEquals (c : Cursor) (expected : String) : Bool := c.peek? = some expected

/-- Whether there is a segment after the cursor. -/
def hasNext (c : Cursor) : Bool := c.position < c.segmentCount

/-- Whether there is a segment before the cursor. -/
def hasPrevious (c : Cursor) : Bool := 0 < c.position

/-- Step over the next segment, handing it out. At the end the cursor stays. -/
def next (c : Cursor) : Option String × Cursor :=
  match c.peek? with
  | none => (none, c)
  | some segment => (some segment, { c with position := c.position + 1 })

/-- Step back over the last segment, handing it out. In front of the first one the cursor
stays. -/
def previous (c : Cursor) : Option String × Cursor :=
  match c.position with
  | 0 => (none, c)
  | before + 1 => (c.segment? before, { c with position := before })

/-- The cursor behind the last segment. -/
def toEnd (c : Cursor) : Cursor := { c with position := c.segmentCount }

/-- The cursor in front of the first segment. -/
def toStart (c : Cursor) : Cursor := { c with position := 0 }

/-- The cursor after stepping over `count` segments, or over all if there are fewer. -/
def skip (c : Cursor) : Nat → Cursor
  | 0 => c
  | count + 1 => c.next.2.skip count

/-- The text of the name up to the end of the last segment before the cursor. -/
def consumed (c : Cursor) : String :=
  match c.position with
  | 0 => ""
  | before + 1 =>
    match (Name.spans c.name)[before]? with
    | some span => String.ofList (c.name.toList.take span.stop)
    | none => ""

/-- The segments after the cursor. -/
def remaining (c : Cursor) : List String := (Name.segments c.name).drop c.position

end Cursor

end PropertyBinding
