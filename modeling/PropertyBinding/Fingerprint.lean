import PropertyBinding.Definition

/-!
# Fingerprints

A number that tells whether two definitions would realize alike. It is the hash of a signature: the
names and phases of the roots, and the pattern, kind, default and path of every leaf. Docs, the type
names of nested groups and attributes without leaves do not enter it.

The hash is a parameter of everything that has to do with fingerprints, and nothing that is proved
depends on it. There is one to run programs with (`Signature.mix`).
-/

namespace PropertyBinding

/-- What the signature keeps of a root. -/
structure RootSignature where
  containingName : String
  rootName : String
  typeName : String
  phase : Phase
  deriving DecidableEq, Repr

/-- What the signature keeps of a leaf. -/
structure LeafSignature where
  pattern : String
  kind : LeafKind
  default : String
  overridable : Bool
  path : List PathStep
  deriving DecidableEq, Repr

/-- What is hashed of a definition. -/
structure Signature where
  roots : List RootSignature
  leaves : List LeafSignature
  deriving DecidableEq, Repr

/-- The signature of a definition. -/
def Definition.signature (d : Definition) : Signature where
  roots := d.roots.map fun r => ⟨r.containingName, r.rootName, r.typeName, r.phase⟩
  leaves := d.leaves.map fun l => ⟨l.pattern, l.kind, l.default, l.overridable, l.path⟩

namespace Signature

/-- A string as numbers: its length and its code points. -/
def ofString (s : String) : List Nat :=
  s.length :: s.toList.map Char.toNat

/-- A list as numbers: its length and the numbers of its items. -/
def ofItems {α : Type} (f : α → List Nat) (items : List α) : List Nat :=
  items.length :: items.flatMap f

/-- A phase as numbers. -/
def ofPhase : Phase → List Nat
  | .buildTime => [0]
  | .buildAndRunTimeFixed => [1]
  | .runTime => [2]

/-- A type as numbers. -/
def ofType : ValueType → List Nat
  | .string => [0]
  | .boolean => [1]
  | .integer => [2]
  | .long => [3]
  | .float => [4]
  | .double => [5]
  | .path => [6]
  | .memorySize => [7]
  | .enum names => 8 :: ofItems ofString names

/-- A kind as numbers. -/
def ofKind : LeafKind → List Nat
  | .boolean => [0]
  | .int => [1]
  | .long => [2]
  | .float => [3]
  | .double => [4]
  | .object type => 5 :: ofType type
  | .objectList element => 6 :: ofType element
  | .optionalObject element => 7 :: ofType element

/-- A path step as numbers. -/
def ofStep : PathStep → List Nat
  | .field ident => 0 :: ofString ident
  | .key segment template => [1, segment, template]

/-- A signature as numbers. -/
def numbers (s : Signature) : List Nat :=
  ofItems (fun r => ofString r.containingName ++ ofString r.rootName ++ ofString r.typeName ++
      ofPhase r.phase) s.roots ++
    ofItems (fun l => ofString l.pattern ++ ofKind l.kind ++ ofString l.default ++
      [l.overridable.toNat] ++ ofItems ofStep l.path) s.leaves

/-- A hash to run programs with. It depends on every part of the signature: each number is added to
what has been mixed so far, which is then multiplied and folded onto itself. -/
def mix (s : Signature) : UInt64 :=
  s.numbers.foldl (fun h n =>
    let x := (h ^^^ UInt64.ofNat n) * 0x9E3779B97F4A7C15
    x ^^^ (x >>> 29)) 0xCBF29CE484222325

end Signature

/-- The fingerprint of a definition: its signature under a hash. -/
def Definition.fingerprint (d : Definition) (hash : Signature → UInt64 := Signature.mix) : UInt64 :=
  hash d.signature

end PropertyBinding
