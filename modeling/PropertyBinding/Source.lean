import PropertyBinding.Entries

/-!
# Property sources

A source is a flat, ordered view of raw values under property names. The same name may be listed
more than once, and a listed name may have no value.
-/

namespace PropertyBinding

/-- A view of properties: the names in order, and the raw value of each. -/
structure Source where
  names : List String
  value? : String → Option String

/-- Properties with distinct names, in the order in which the names were first put. -/
abbrev Properties := Entries String

namespace Properties

/-- Put properties one after the other. -/
def ofPairs (pairs : List (String × String)) : Properties :=
  pairs.foldl (fun acc (name, value) => Entries.put name value acc) []

/-- The view of properties. -/
def toSource (p : Properties) : Source where
  names := Entries.keys p
  value? := fun name => p.lookup name

end Properties

end PropertyBinding
