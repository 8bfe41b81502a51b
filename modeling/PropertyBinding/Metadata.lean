import PropertyBinding.Error
import PropertyBinding.Numeric.FloatText
import PropertyBinding.Schema
import PropertyBinding.Text.Characters
import PropertyBinding.Text.Split

/-!
# Declarations from metadata

Metadata describes a settings structure: the names, comments and default expressions of its fields,
and the structures nested in it. A declaration is derived from it: nested structures become groups,
and the type of a field is guessed from its default. A field without a default is a string.
-/

namespace PropertyBinding

/-- A default expression. -/
inductive DefaultExpr where
  | str (s : String)
  | bool (b : Bool)
  | integer (n : Int)
  | single (x : Single)
  | double (x : Double)
  | array (items : List DefaultExpr)
  | map (entries : List (DefaultExpr × DefaultExpr))

mutual

/-- Metadata of a settings structure. -/
structure Metadata where
  name : String
  fields : List MetaField

/-- Metadata of a field: its name, the lines of its comment, and what it holds. -/
structure MetaField where
  name : String
  doc : List String
  content : MetaContent

/-- What a field holds. -/
inductive MetaContent where
  | nested (m : Metadata)
  | optional
  | required (default : Option DefaultExpr)

end

namespace DefaultExpr

/-- The text of a scalar expression. -/
def scalarText? : DefaultExpr → Option String
  | .str s => some s
  | .bool b => some (if b then "true" else "false")
  | .integer n => some (toString n)
  | .single x => some (FloatText.plain.write x)
  | .double x => some (FloatText.plain.write x)
  | .array _ => none
  | .map _ => none

/-- The shape and the default text that an expression implies. -/
def shape : DefaultExpr → Except DefaultFault (Shape × String)
  | .str s => .ok (.object .string, s)
  | .bool b => .ok (.primitive .boolean, if b then "true" else "false")
  | .integer n => .ok (.primitive .long, toString n)
  | .single x => .ok (.primitive .double, FloatText.plain.write x)
  | .double x => .ok (.primitive .double, FloatText.plain.write x)
  | .array items =>
    match items.mapM scalarText? with
    | some texts => .ok (.list (some .string), Text.joinItems texts)
    | none => .error .nestedList
  | .map _ => .error .map

end DefaultExpr

/-- A comment without the blanks around its lines; none if it has no lines. -/
def commentOf (lines : List String) : Option String :=
  if lines = [] then none else some (String.intercalate "\n" (lines.map Text.trimmed))

mutual

/-- The declaration of a structure. -/
def Metadata.toGroup : Metadata → Except BindError GroupDecl
  | ⟨name, fields⟩ => do
    let fields ← fieldsToDecls name fields
    return ⟨name, false, fields⟩

/-- The declarations of the fields of a structure. -/
def fieldsToDecls (typeName : String) : List MetaField → Except BindError (List FieldDecl)
  | [] => .ok []
  | field :: rest => do
    let field ← field.toDecl typeName
    let rest ← fieldsToDecls typeName rest
    return field :: rest

/-- The declaration of a field of a structure. -/
def MetaField.toDecl (typeName : String) : MetaField → Except BindError FieldDecl
  | ⟨name, doc, content⟩ => do
    let (shape, default) ← content.toShape (typeName ++ "." ++ name)
    return {
      ident := name
      name := .element
      default := default
      shape := shape
      overridable := false
      doc := commentOf doc }

/-- The shape and the default of what a field holds. -/
def MetaContent.toShape (label : String) : MetaContent → Except BindError (Shape × Default)
  | .nested m => do
    let group ← m.toGroup
    return (.group { group with isGroup := true }, none)
  | .optional => .ok (.optional (some .string), none)
  | .required none => .ok (.object .string, none)
  | .required (some expr) =>
    match expr.shape with
    | .ok (shape, text) => .ok (shape, some text)
    | .error fault => .error (.invalidDefault label fault)

end

/-- The declaration of a root for a structure. -/
def Metadata.toRoot (m : Metadata) (phase : Phase) : Except BindError RootDecl := do
  let group ← m.toGroup
  return ⟨group, .hyphenated, phase⟩

end PropertyBinding
