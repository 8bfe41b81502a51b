import PropertyBinding.Phase
import PropertyBinding.ValueType

/-!
# Declarations

What a schema author writes: a root is a group with a name and a phase; a group has fields; a field
has a shape, a way to be named, and perhaps a default.
-/

namespace PropertyBinding

/-- How an attribute or a root derives what it contributes to its key. -/
inductive ItemName where
  /-- Nothing: the key of the parent is used. -/
  | parent
  /-- The identifier as it is. -/
  | element
  /-- The identifier in hyphenated form. -/
  | hyphenated
  /-- This name. Each of its dots begins another segment. -/
  | explicit (name : String)
  deriving DecidableEq, Repr

/-- A declared default, which differs from none even if it is empty. -/
abbrev Default := Option String

/-- The supplied default, or the canonical one if none is supplied. -/
def Default.orCanonical (default : Default) (canonical : String) : String :=
  default.getD canonical

mutual

/-- The shape of an attribute. An absent type parameter stands for a declaration without one, which
registration refuses where one is required. -/
inductive Shape where
  | group (decl : GroupDecl)
  | primitive (type : Primitive)
  | map (key : Option ValueType) (value : Option Shape)
  | list (element : Option ValueType)
  | optional (element : Option ValueType)
  | object (type : ValueType)

/-- A set of attributes of fixed shapes. -/
structure GroupDecl where
  typeName : String
  /-- Whether the type is declared as a reusable group, which cannot be a root. -/
  isGroup : Bool
  fields : List FieldDecl

/-- One attribute of a group. -/
structure FieldDecl where
  ident : String
  name : ItemName
  default : Default
  shape : Shape
  /-- Whether the attribute may be resolved again after the process has started. -/
  overridable : Bool
  doc : Option String

end

/-- A top-level configuration root. -/
structure RootDecl where
  group : GroupDecl
  name : ItemName
  phase : Phase

end PropertyBinding
