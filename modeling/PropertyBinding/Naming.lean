import PropertyBinding.Text.Characters

/-!
# Derived names

Identifiers are cut into humps: at underscores and hyphens, which are dropped, and before capitals,
where a run of capitals stays together. The hyphenated form of an identifier joins its humps in
lower case; the names of a root drop a trailing word for configuration.
-/

namespace PropertyBinding.Naming

/-- Whether a capital between these neighbours begins a hump. -/
def beginsHump (before : Char) (after : Option Char) : Bool :=
  Text.isLower before || before.isDigit || (Text.isUpper before && after.any Text.isLower)

/-- The humps of the text after `before`, of which `current` has been read. -/
def humpsFrom (before : Char) (current : List Char) : List Char → List (List Char)
  | [] => if current = [] then [] else [current]
  | c :: cs =>
    if c = '_' ∨ c = '-' then
      if current = [] then humpsFrom c [] cs else current :: humpsFrom c [] cs
    else if Text.isUpper c ∧ current ≠ [] ∧ beginsHump before cs.head? then
      current :: humpsFrom c [c] cs
    else humpsFrom c (current ++ [c]) cs

/-- The humps of an identifier. -/
def humps (ident : List Char) : List (List Char) :=
  humpsFrom '_' [] ident

/-- The humps of an identifier, as strings. -/
def camelHumps (ident : String) : List String :=
  (humps ident.toList).map String.ofList

/-- Humps in lower case, joined by hyphens. -/
def hyphenateHumps (humps : List (List Char)) : String :=
  String.intercalate "-" (humps.map fun hump => String.ofList (Text.lower hump))

/-- The hyphenated form of an identifier. -/
def hyphenate (ident : String) : String :=
  hyphenateHumps (humps ident.toList)

/-- What stands behind the last double colon of a text. -/
def afterColons? : List Char → Option (List Char)
  | [] => none
  | c :: cs =>
    match afterColons? cs with
    | some rest => some rest
    | none => if c = ':' ∧ cs.head? = some ':' then some cs.tail else none

/-- A type name without the modules in front of it. -/
def simpleName (typeName : List Char) : List Char :=
  (afterColons? typeName).getD typeName

/-- Whether a hump only says that the type holds configuration. -/
def isConfigWord (hump : List Char) : Bool :=
  let word := hump.map Char.toLower
  word == "config".toList || word == "configuration".toList

/-- The humps of a root's type name without a trailing word for configuration, unless that is the
whole name. -/
def rootHumps (typeName : String) : List (List Char) :=
  let all := humps (simpleName typeName.toList)
  if 1 < all.length ∧ all.getLast?.any isConfigWord then all.dropLast else all

/-- The internal name of a root: its humps, the first one in lower case. -/
def containingName (typeName : String) : String :=
  match rootHumps typeName with
  | [] => ""
  | first :: rest => String.ofList (Text.lower first ++ rest.flatten)

/-- The external name of a root: its humps in lower case, joined by hyphens. -/
def hyphenatedRootName (typeName : String) : String :=
  hyphenateHumps (rootHumps typeName)

end PropertyBinding.Naming
