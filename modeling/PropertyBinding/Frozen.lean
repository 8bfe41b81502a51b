import PropertyBinding.Loader
import PropertyBinding.Text.Split

/-!
# Frozen configurations

A realized graph that no longer changes, with a cell for every overridable leaf. A leaf below a map
has one cell for each entry that is realized when the graph is frozen. Cells can be resolved again
from a source; the graph itself stays as it is.
-/

namespace PropertyBinding

/-- The current value of one overridable property. -/
structure RuntimeCell where
  /-- The index of the leaf. -/
  leaf : Nat
  value : Value

/-- A frozen graph and its cells, in ascending order of their names without the namespace. -/
structure FrozenConfig where
  config : RealizedConfig
  cells : Entries RuntimeCell

/-! ### Freezing -/

/-- The values at the end of a path below a slot, each with the map keys on the way. -/
def Value.collect (slot : Value) : List PathStep → List (List String × Value)
  | [] => [([], slot)]
  | .field ident :: rest =>
    match slot with
    | .group g =>
      match g.get? ident with
      | some inner => inner.collect rest
      | none => []
    | _ => []
  | .key _ _ :: rest =>
    match slot with
    | .map entries => entries.flatMap fun (key, entry) =>
        (entry.collect rest).map fun (keys, value) => (key :: keys, value)
    | _ => []

/-- The pieces of a pattern with its wildcards replaced by keys, in order. -/
def fillWildcards : List String → List String → List String
  | [], _ => []
  | piece :: rest, keys =>
    if piece = wildcard then
      match keys with
      | [] => piece :: fillWildcards rest []
      | key :: keys => Name.quoteSegment key :: fillWildcards rest keys
    else piece :: fillWildcards rest keys

/-- The name that a pattern stands for when its wildcards are replaced by keys. -/
def concreteName (pattern : String) (keys : List String) : String :=
  String.intercalate "." (fillWildcards (Text.split '.' pattern) keys)

/-- The cells of a leaf in a realized graph. -/
def Leaf.cells (leaf : Leaf) (id : Nat) (config : RealizedConfig) : List (String × RuntimeCell) :=
  if leaf.overridable then
    match config.get? leaf.root with
    | some root => ((Value.group root).collect leaf.path).map fun (keys, value) =>
        (concreteName leaf.pattern keys, ⟨id, value⟩)
    | none => []
  else []

/-- Freeze a realized graph. Of two cells with one name the later one stays. -/
def RealizedConfig.freeze (config : RealizedConfig) (d : Definition) : FrozenConfig where
  config := config
  cells := Entries.sorted
    ((d.leaves.zipIdx.map fun (leaf, id) => leaf.cells id config).flatten)

/-! ### Resolving again -/

namespace Loader

/-- Resolve cells again, in order. The result are the cells afterwards, and the full names of those
whose value has changed; a value that cannot be read ends the pass and leaves the rest. -/
def resolveCells (l : Loader) (source : Source) (d : Definition) :
    Entries RuntimeCell → Entries RuntimeCell × Except BindError (List String)
  | [] => ([], .ok [])
  | (name, cell) :: rest =>
    let full := l.namespaceName ++ "." ++ name
    match d.leaf? cell.leaf with
    | none =>
      let (after, changed) := l.resolveCells source d rest
      ((name, cell) :: after, changed)
    | some leaf =>
      match leaf.valueOf full ((source.value? full).getD "") with
      | .error e => ((name, cell) :: rest, .error e)
      | .ok value =>
        let (after, changed) := l.resolveCells source d rest
        if cell.value.equals value then ((name, cell) :: after, changed)
        else ((name, { cell with value }) :: after, changed.map (full :: ·))

/-- Resolve the cells of a frozen configuration again. -/
def reResolve (l : Loader) (source : Source) (d : Definition) (f : FrozenConfig) :
    FrozenConfig × Except BindError (List String) :=
  let (cells, changed) := l.resolveCells source d f.cells
  ({ f with cells }, changed)

end Loader

end PropertyBinding
