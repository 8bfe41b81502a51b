import PropertyBinding.Fingerprint
import PropertyBinding.Realized

/-!
# Construction plans

A plan is a definition's default graph, compiled into a flat list of operations per root. It can be
stored and replayed later. A stored plan is outside data, so a replay checks every operation against
the descriptor tree: groups must nest and close, and each attribute must exist with the same kind
and appear once.
-/

namespace PropertyBinding

/-- One step of a compiled root. -/
inductive PlanOp where
  /-- Begin a nested group, stored under `field` of the current group. -/
  | enter (field typeName : String)
  /-- Store a default that has been read, under `field` of the current group. -/
  | set (field : String) (value : Value)
  /-- Finish the current nested group. -/
  | exit

/-- The compiled form of a root. -/
structure RootPlan where
  containingName : String
  typeName : String
  phase : Phase
  ops : List PlanOp

/-- A compiled definition. -/
structure Plan where
  fingerprint : UInt64
  roots : List RootPlan

/-! ### Compiling -/

mutual

/-- The operations that build an attribute with its default. -/
def compileNode (leaves : List Leaf) (field : String) : Node → List PlanOp
  | .group ⟨typeName, fields⟩ => .enter field typeName :: (compileFields leaves fields ++ [.exit])
  | .map value => [.set field (Definition.defaultOver leaves (.map value))]
  | .leaf id => [.set field (Definition.defaultOver leaves (.leaf id))]

/-- The operations that build attributes one after the other. -/
def compileFields (leaves : List Leaf) : List (String × Node) → List PlanOp
  | [] => []
  | (field, node) :: rest => compileNode leaves field node ++ compileFields leaves rest

end

/-- The compiled form of a root over a table of leaves. -/
def Root.compile (leaves : List Leaf) (root : Root) : RootPlan where
  containingName := root.containingName
  typeName := root.typeName
  phase := root.phase
  ops := compileFields leaves root.tree.fields

/-- Compile every root of a definition, whatever its phase. -/
def Definition.compile (d : Definition) (hash : Signature → UInt64 := Signature.mix) : Plan where
  fingerprint := d.fingerprint hash
  roots := d.roots.map (Root.compile d.leaves)

/-! ### Replaying -/

/-- A group under construction: the attribute it will be stored in, what it has accepted, and its
descriptor. -/
structure PlanFrame where
  field : String
  group : Group
  node : GroupNode

/-- The first attribute of this name in a descriptor. -/
def GroupNode.field? (node : GroupNode) (field : String) : Option Node :=
  node.fields.lookup field

/-- A finished group must have every attribute of its descriptor. -/
def checkComplete (g : Group) (node : GroupNode) : Except PlanFault Unit :=
  match node.fields.find? fun (ident, _) => (g.get? ident).isNone with
  | some (ident, _) => .error (.neverSet ident node.typeName)
  | none => .ok ()

/-- Carry out one operation on the groups under construction, the innermost first. -/
def PlanOp.step : PlanOp → List PlanFrame → Except PlanFault (List PlanFrame)
  | _, [] => .error .rootClosed
  | .enter field typeName, frame :: outer =>
    match frame.node.field? field with
    | some (.group nested) =>
      if nested.typeName ≠ typeName then .error (.noGroup typeName field)
      else if (frame.group.get? field).isSome then .error (.setTwice field)
      else .ok (⟨field, .empty typeName, nested⟩ :: frame :: outer)
    | _ => .error (.noGroup typeName field)
  | .set field value, frame :: outer =>
    match frame.node.field? field with
    | some (.leaf _) | some (.map _) =>
      if (frame.group.get? field).isSome then .error (.setTwice field)
      else .ok ({ frame with group := frame.group.accept field value } :: outer)
    | _ => .error (.noAttribute field frame.node.typeName)
  | .exit, [_] => .error .exitWithoutEnter
  | .exit, frame :: parent :: outer =>
    match checkComplete frame.group frame.node with
    | .error fault => .error fault
    | .ok () =>
      .ok ({ parent with group := parent.group.accept frame.field (.group frame.group) } :: outer)

/-- Carry out operations one after the other. -/
def runOps (ops : List PlanOp) (frames : List PlanFrame) : Except PlanFault (List PlanFrame) :=
  ops.foldlM (fun frames op => op.step frames) frames

/-- The group that a root has come to. All groups in it must be finished, and it must be complete
itself. -/
def finishRoot : List PlanFrame → Except PlanFault Group
  | [frame] => do
    checkComplete frame.group frame.node
    return frame.group
  | _ => throw .enterWithoutExit

/-- A root before the first operation. -/
def Root.frame (root : Root) : PlanFrame := ⟨"", .empty root.typeName, root.tree⟩

/-- Replay operations against the tree of a root. -/
def Root.replay (root : Root) (ops : List PlanOp) : Except BindError Group :=
  match runOps ops [root.frame] >>= finishRoot with
  | .ok g => .ok g
  | .error fault => .error (.malformedPlan root.typeName fault)

/-- Realize a compiled root of a definition, beside the roots of a config. -/
def RootPlan.realize (d : Definition) (c : RealizedConfig) (rootPlan : RootPlan) :
    Except BindError RealizedConfig :=
  match d.root? rootPlan.containingName with
  | none => .error (.unknownRoot rootPlan.typeName)
  | some root => (root.replay rootPlan.ops).map (c.store root)

/-- Realize the roots of a stage by replaying a plan. The plan must have been compiled from a
definition with the same fingerprint; its own phases decide which roots belong to the stage. -/
def Plan.realize (plan : Plan) (d : Definition) (stage : Stage)
    (hash : Signature → UInt64 := Signature.mix) : Except BindError RealizedConfig :=
  if plan.fingerprint ≠ d.fingerprint hash then .error .stalePlan
  else (plan.roots.filter fun root => stage.includes root.phase).foldlM (RootPlan.realize d) .empty

/-! ### Equality of plans -/

/-- Equality of operations for the program. -/
def PlanOp.equals : PlanOp → PlanOp → Bool
  | .enter f t, .enter g u => f == g && t == u
  | .set f v, .set g w => f == g && v.equals w
  | .exit, .exit => true
  | _, _ => false

/-- Equality of lists, item by item. -/
def equalBy {α : Type} (eq : α → α → Bool) : List α → List α → Bool
  | [], [] => true
  | a :: as, b :: bs => eq a b && equalBy eq as bs
  | _, _ => false

/-- Equality of compiled roots for the program. -/
def RootPlan.equals (a b : RootPlan) : Bool :=
  a.containingName == b.containingName && a.typeName == b.typeName && a.phase == b.phase &&
    equalBy PlanOp.equals a.ops b.ops

/-- Equality of plans for the program. -/
def Plan.equals (a b : Plan) : Bool :=
  a.fingerprint == b.fingerprint && equalBy RootPlan.equals a.roots b.roots

end PropertyBinding
