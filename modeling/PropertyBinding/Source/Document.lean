import PropertyBinding.Error
import PropertyBinding.Name
import PropertyBinding.Source
import PropertyBinding.Text.Split
import PropertyBinding.Toml.Reader

/-!
# Properties of a document

A TOML document as properties: tables nest into dotted names, keys are quoted where a name needs
it, and arrays become lists with commas between their items. The parser that reads the document as a
table is a parameter.
-/

namespace PropertyBinding

namespace Toml

/-- The raw value of a document value that is no table at the top of its property. -/
def scalarText : Toml → String
  | .string s => s
  | .integer n => toString n.toInt
  | .float x => FloatText.plain.write x
  | .boolean b => if b then "true" else "false"
  | .datetime d => String.ofList d.text
  | value => String.ofList value.text

/-- The name of an entry below a table with the given name. -/
def entryName (outer key : String) : String :=
  if outer = "" then Name.quoteSegment key else outer ++ "." ++ Name.quoteSegment key

mutual

/-- The properties of a value with the given name. -/
def flatten (name : String) : Toml → List (String × String)
  | .table entries => flattenEntries name entries
  | .array items => [(name, Text.joinItems (items.map scalarText))]
  | value => [(name, scalarText value)]

/-- The properties of the entries of a table with the given name. -/
def flattenEntries (outer : String) : List (String × Toml) → List (String × String)
  | [] => []
  | (key, value) :: rest =>
    flatten (entryName outer key) value ++ flattenEntries outer rest

end

end Toml

namespace Properties

/-- The properties of a text that a parser reads as a table. -/
def ofDocumentWith (parse : String → Option (Entries Toml)) (text : String) :
    Except BindError Properties :=
  match parse text with
  | some entries => .ok (.ofPairs (Toml.flattenEntries "" entries))
  | none => .error .sourceParse

/-- The properties of a TOML document. -/
def ofDocument (text : String) : Except BindError Properties := ofDocumentWith Toml.parse? text

end Properties

end PropertyBinding
