import PropertyBinding.Metadata
import PropertyBinding.Proofs.DefaultGraphs
import PropertyBinding.Proofs.ListText
import PropertyBinding.Proofs.NumberText

/-!
# Declarations derived from metadata

Metadata is read without a declaration at hand: the default expressions in a structure
(`Metadata.defaults`) and the keys of its leaves (`Metadata.keys`), in the order of the fields. A
declaration is derived from it unless some default is a map or an array of more than scalars
(`Metadata.toGroup_cases`).

What has been derived obeys the rules of declarations (`Metadata.admissible_toGroup`), asks for
leaves under exactly these keys, and their defaults can be read if and only if every integer among
them is one of 64 bits (`Metadata.asksFor`). Then the declared graph mirrors the metadata
(`Metadata.mirrors_graph`).
-/

namespace PropertyBinding

/-! ### Default expressions -/

namespace DefaultExpr

/-- Whether the expression is neither an array nor a map. -/
def isScalar : DefaultExpr → Bool
  | .array _ | .map _ => false
  | _ => true

/-- Whether no property can stand for the expression: it is a map, or an array that holds an array
or a map. -/
def Unbindable : DefaultExpr → Prop
  | .map _ => True
  | .array items => ∃ item ∈ items, item.isScalar = false
  | _ => False

/-- Whether the expression, if it is an integer, is one of 64 bits. -/
def Fits : DefaultExpr → Prop
  | .integer n => Numeric.FitsLong n
  | _ => True

/-- What the default of a leaf is to become: texts, truth values and integers are kept as they are,
a floating-point number is what its text reads as, and the items of an array become those of a list,
in which they are the same exactly if they are separable. -/
def Arrives : DefaultExpr → Value → Prop
  | .str s, v => v = .string s
  | .bool b, v => v = .bool b
  | .integer n, v => ∃ k : Int64, k.toInt = n ∧ v = .long k
  | .single x, v =>
    ∃ y, Numeric.floating? (FloatText.plain.write x).toList = some y ∧ v = .double y
  | .double x, v =>
    ∃ y, Numeric.floating? (FloatText.plain.write x).toList = some y ∧ v = .double y
  | .array items, v => ∃ texts, items.mapM scalarText? = some texts ∧
    (v = .list (texts.map .string) ↔ Text.Separable texts)
  | .map _, _ => False

theorem scalarText?_eq_none_iff (expr : DefaultExpr) :
    expr.scalarText? = none ↔ expr.isScalar = false := by
  cases expr <;> simp [scalarText?, isScalar]

/-- Items have texts unless one of them is an array or a map. -/
theorem mapM_scalarText?_eq_none_iff (items : List DefaultExpr) :
    items.mapM scalarText? = none ↔ ∃ item ∈ items, item.isScalar = false := by
  induction items with
  | nil => simp
  | cons item items ih =>
    rw [List.mapM_cons, List.exists_mem_cons_iff, ← scalarText?_eq_none_iff, ← ih]
    cases item.scalarText? <;> cases items.mapM scalarText? <;> simp

/-- **An expression has a shape** unless no property can stand for it. -/
theorem shape_cases (expr : DefaultExpr) :
    (¬expr.Unbindable ∧ ∃ shape text, expr.shape = .ok (shape, text)) ∨
      expr.Unbindable ∧ ∃ fault, expr.shape = .error fault := by
  cases expr with
  | array items =>
    rw [shape, Unbindable, ← mapM_scalarText?_eq_none_iff]
    cases items.mapM scalarText? with
    | none => exact Or.inr ⟨rfl, _, rfl⟩
    | some texts => exact Or.inl ⟨by simp, _, _, rfl⟩
  | map entries => exact Or.inr ⟨trivial, _, rfl⟩
  | _ => exact Or.inl ⟨id, _, _, rfl⟩

/-- What the default text of a leaf comes to, for its expression: it reads as what the expression is
to become, unless this is an integer of more than 64 bits. -/
structure LeafReads (expr : DefaultExpr) (kind : LeafKind) (text : String) : Prop where
  reads_iff : (∃ v, Convert.value kind text = .ok v) ↔ expr.Fits
  arrives : ∀ v, Convert.value kind text = .ok v → expr.Arrives v

theorem LeafReads.of_eq {expr : DefaultExpr} {kind : LeafKind} {text : String} {v : Value}
    (hread : Convert.value kind text = .ok v) (hfits : expr.Fits) (h : expr.Arrives v) :
    expr.LeafReads kind text where
  reads_iff := iff_of_true ⟨v, hread⟩ hfits
  arrives := fun _ hread' => Except.ok.inj (hread.symm.trans hread') ▸ h

/-- The text of a truth value reads as this value. -/
theorem leafReads_bool (b : Bool) :
    (bool b).LeafReads .boolean (if b then "true" else "false") := by
  have hread : Convert.boolean (if b then "true" else "false") = .ok b := by
    cases b <;> decide +kernel
  refine .of_eq ?_ trivial rfl
  rw [Convert.value, Convert.scalar, hread]
  rfl

/-- The text of an integer reads as this integer, if it is one of 64 bits. -/
theorem leafReads_integer (n : Int) : (integer n).LeafReads .long (toString n) := by
  have hread : Convert.value .long (toString n) = if Numeric.FitsLong n then
      .ok (.long (Int64.ofInt n)) else .error (.number .long (toString n)) := by
    rw [Convert.value, Convert.scalar, Convert.number, Numeric.trim_toString,
      Numeric.int64?_toString]
    split_ifs <;> rfl
  by_cases h : Numeric.FitsLong n
  · rw [if_pos h] at hread
    exact .of_eq hread h ⟨_, Int64.toInt_ofInt_of_le h.1 (Int.lt_add_one_of_le h.2), rfl⟩
  · rw [if_neg h] at hread
    refine ⟨iff_of_false ?_ h, fun v hv => ?_⟩
    · rintro ⟨v, hv⟩
      cases hread.symm.trans hv
    · cases hread.symm.trans hv

/-- The plain text of a floating-point number reads as one. -/
theorem value_write {f : FloatFormat} (x : Floating f) : ∃ y : Double,
    Numeric.floating? (FloatText.plain.write x).toList = some y ∧
      Convert.value .double (FloatText.plain.write x) = .ok (.double y) := by
  obtain ⟨y, hy⟩ := Numeric.exists_floating?_write (g := .double) x
  refine ⟨y, hy, ?_⟩
  rw [Convert.value, Convert.scalar, Convert.number, Numeric.trim_write, hy]
  rfl

/-- **The default text of an expression** is that of a leaf and reads as what the expression is to
become, unless it is an integer of more than 64 bits. -/
theorem exists_leafReads {expr : DefaultExpr} {shape : Shape} {text : String}
    (h : expr.shape = .ok (shape, text)) :
    ∃ kind, shape.leaf? (some text) = some (kind, text) ∧ expr.LeafReads kind text := by
  cases expr with
  | str s =>
    obtain ⟨rfl, rfl⟩ := Prod.mk.inj (Except.ok.inj h)
    exact ⟨_, rfl, .of_eq rfl trivial rfl⟩
  | bool b =>
    obtain ⟨rfl, rfl⟩ := Prod.mk.inj (Except.ok.inj h)
    exact ⟨_, rfl, leafReads_bool b⟩
  | integer n =>
    obtain ⟨rfl, rfl⟩ := Prod.mk.inj (Except.ok.inj h)
    exact ⟨_, rfl, leafReads_integer n⟩
  | single x | double x =>
    obtain ⟨rfl, rfl⟩ := Prod.mk.inj (Except.ok.inj h)
    obtain ⟨y, hy, hread⟩ := value_write x
    exact ⟨_, rfl, .of_eq hread trivial ⟨y, hy, rfl⟩⟩
  | array items =>
    rw [DefaultExpr.shape] at h
    cases htexts : items.mapM scalarText? with
    | none =>
      rw [htexts] at h
      cases h
    | some texts =>
      rw [htexts] at h
      obtain ⟨rfl, rfl⟩ := Prod.mk.inj (Except.ok.inj h)
      refine ⟨_, rfl, .of_eq (Convert.value_stringList _) trivial ⟨texts, htexts, ?_⟩⟩
      rw [← Convert.value_joinItems_iff, Convert.value_stringList, Except.ok.injEq]
  | map entries => cases h

end DefaultExpr

/-! ### What is in a structure -/

mutual

/-- The default expressions in a structure, also below, in the order of the fields. -/
def Metadata.defaults : Metadata → List DefaultExpr
  | ⟨_, fields⟩ => fieldDefaults fields

/-- The default expressions of fields, also below. -/
def fieldDefaults : List MetaField → List DefaultExpr
  | [] => []
  | ⟨_, _, content⟩ :: rest => content.defaults ++ fieldDefaults rest

/-- The default expressions in what a field holds. -/
def MetaContent.defaults : MetaContent → List DefaultExpr
  | .nested m => m.defaults
  | .optional | .required none => []
  | .required (some expr) => [expr]

end

mutual

/-- A structure and those nested in it, at any depth. -/
def Metadata.structures : Metadata → List Metadata
  | ⟨name, fields⟩ => ⟨name, fields⟩ :: fieldStructures fields

/-- The structures nested in fields, at any depth. -/
def fieldStructures : List MetaField → List Metadata
  | [] => []
  | ⟨_, _, content⟩ :: rest => content.structures ++ fieldStructures rest

/-- The structures in what a field holds. -/
def MetaContent.structures : MetaContent → List Metadata
  | .nested m => m.structures
  | .optional | .required _ => []

end

mutual

/-- The keys of the leaves below a structure: the names of the fields around each of them. -/
def Metadata.keys : Metadata → List (List String)
  | ⟨_, fields⟩ => fieldKeys fields

/-- The keys of the leaves below fields. -/
def fieldKeys : List MetaField → List (List String)
  | [] => []
  | ⟨name, _, content⟩ :: rest => content.keys.map (name :: ·) ++ fieldKeys rest

/-- The keys of the leaves in what a field holds, below the field. -/
def MetaContent.keys : MetaContent → List (List String)
  | .nested m => m.keys
  | .optional | .required _ => [[]]

end

mutual

/-- Whether a group is what a structure is to become: of the same type, with one attribute for every
field, in order. -/
def Metadata.Mirrors : Metadata → Group → Prop
  | ⟨name, fields⟩, g => g.typeName = name ∧ FieldsMirror fields g.fields

/-- Whether attributes are what fields are to become. -/
def FieldsMirror : List MetaField → List (String × Value) → Prop
  | [], attributes => attributes = []
  | ⟨name, _, content⟩ :: rest, attributes =>
    ∃ v below, attributes = (name, v) :: below ∧ content.Mirrors v ∧ FieldsMirror rest below

/-- Whether a value is what the content of a field is to become: a group, nothing for an optional
field, and the empty string for a required one without a default. -/
def MetaContent.Mirrors : MetaContent → Value → Prop
  | .nested m, v => ∃ g, v = .group g ∧ m.Mirrors g
  | .optional, v => v = .optional none
  | .required none, v => v = .string ""
  | .required (some expr), v => expr.Arrives v

end

/-- Whether the fields of a structure have distinct names that are plain pieces. -/
def Metadata.NamesFields (m : Metadata) : Prop :=
  (m.fields.map (·.name)).Nodup ∧ ∀ field ∈ m.fields, PlainPiece field.name

/-- Whether the fields of a structure and of those nested in it have distinct names that are plain
pieces. -/
def Metadata.WellNamed (m : Metadata) : Prop := ∀ s ∈ m.structures, s.NamesFields

instance (piece : String) : Decidable (PlainPiece piece) :=
  decidable_of_iff (_ ∧ _ ∧ _ ∧ _) ⟨fun h => ⟨h.1, h.2.1, h.2.2.1, h.2.2.2⟩,
    fun h => ⟨h.ne_empty, h.no_dot, h.no_mark, h.ne_wildcard⟩⟩

instance (m : Metadata) : Decidable m.NamesFields := inferInstanceAs (Decidable (_ ∧ _))

instance (m : Metadata) : Decidable m.WellNamed :=
  inferInstanceAs (Decidable (∀ s ∈ m.structures, s.NamesFields))

/-! ### Deriving -/

mutual

/-- **A declaration is derived from a structure** unless no property can stand for some default in
it, which is an error about this default. -/
theorem Metadata.toGroup_cases : (m : Metadata) →
    ((∀ expr ∈ m.defaults, ¬expr.Unbindable) ∧ ∃ decl, m.toGroup = .ok decl) ∨
      (∃ expr ∈ m.defaults, expr.Unbindable) ∧
        ∃ label fault, m.toGroup = .error (.invalidDefault label fault)
  | ⟨name, fields⟩ => by
    rw [Metadata.defaults, Metadata.toGroup]
    rcases fieldsToDecls_cases name fields with
      ⟨hall, decls, hdecls⟩ | ⟨hexpr, label, fault, herror⟩
    · rw [hdecls]
      exact Or.inl ⟨hall, _, rfl⟩
    · rw [herror]
      exact Or.inr ⟨hexpr, label, fault, rfl⟩

/-- Fields are derived from those of a structure unless no property can stand for some default. -/
theorem fieldsToDecls_cases (typeName : String) : (fields : List MetaField) →
    ((∀ expr ∈ fieldDefaults fields, ¬expr.Unbindable) ∧
        ∃ decls, fieldsToDecls typeName fields = .ok decls) ∨
      (∃ expr ∈ fieldDefaults fields, expr.Unbindable) ∧
        ∃ label fault, fieldsToDecls typeName fields = .error (.invalidDefault label fault)
  | [] => Or.inl ⟨by simp [fieldDefaults], [], rfl⟩
  | ⟨name, doc, content⟩ :: rest => by
    rw [fieldDefaults, fieldsToDecls, MetaField.toDecl]
    rcases content.toShape_cases (typeName ++ "." ++ name) with
      ⟨hall, shape, default, hshape⟩ | ⟨⟨expr, hexpr, hunbindable⟩, label, fault, herror⟩
    · rw [hshape]
      rcases fieldsToDecls_cases typeName rest with
        ⟨hrest, decls, hdecls⟩ | ⟨⟨expr, hexpr, hunbindable⟩, label, fault, herror⟩
      · refine Or.inl ⟨List.forall_mem_append.mpr ⟨hall, hrest⟩, ?_⟩
        rw [hdecls]
        exact ⟨_, rfl⟩
      · refine Or.inr ⟨⟨expr, List.mem_append_right _ hexpr, hunbindable⟩, label, fault, ?_⟩
        rw [herror]
        rfl
    · refine Or.inr ⟨⟨expr, List.mem_append_left _ hexpr, hunbindable⟩, label, fault, ?_⟩
      rw [herror]
      rfl

/-- What a field holds has a shape unless no property can stand for some default in it. -/
theorem MetaContent.toShape_cases (label : String) : (content : MetaContent) →
    ((∀ expr ∈ content.defaults, ¬expr.Unbindable) ∧
        ∃ shape default, content.toShape label = .ok (shape, default)) ∨
      (∃ expr ∈ content.defaults, expr.Unbindable) ∧
        ∃ key fault, content.toShape label = .error (.invalidDefault key fault)
  | .nested m => by
    rw [MetaContent.defaults, MetaContent.toShape]
    rcases m.toGroup_cases with ⟨hall, decl, hdecl⟩ | ⟨hexpr, key, fault, herror⟩
    · rw [hdecl]
      exact Or.inl ⟨hall, _, _, rfl⟩
    · rw [herror]
      exact Or.inr ⟨hexpr, key, fault, rfl⟩
  | .optional => Or.inl ⟨by simp [MetaContent.defaults], _, _, rfl⟩
  | .required none => Or.inl ⟨by simp [MetaContent.defaults], _, _, rfl⟩
  | .required (some expr) => by
    rw [MetaContent.defaults, MetaContent.toShape]
    rcases expr.shape_cases with ⟨hbindable, shape, text, hshape⟩ | ⟨hunbindable, fault, herror⟩
    · rw [hshape]
      exact Or.inl ⟨by simpa using hbindable, _, _, rfl⟩
    · rw [herror]
      exact Or.inr ⟨⟨expr, List.mem_singleton_self _, hunbindable⟩, _, _, rfl⟩

end

theorem Metadata.toGroup_eq_ok {name : String} {fields : List MetaField} {decl : GroupDecl}
    (h : (Metadata.mk name fields).toGroup = .ok decl) :
    ∃ decls, fieldsToDecls name fields = .ok decls ∧ decl = ⟨name, false, decls⟩ := by
  rw [Metadata.toGroup] at h
  obtain ⟨decls, hdecls, h⟩ := ok_of_bind_eq_ok h
  exact ⟨decls, hdecls, (Except.ok.inj h).symm⟩

theorem fieldsToDecls_cons_eq_ok {typeName name : String} {doc : List String}
    {content : MetaContent} {rest : List MetaField} {decls : List FieldDecl}
    (h : fieldsToDecls typeName (⟨name, doc, content⟩ :: rest) = .ok decls) :
    ∃ shape default below, content.toShape (typeName ++ "." ++ name) = .ok (shape, default) ∧
      fieldsToDecls typeName rest = .ok below ∧
        decls = ⟨name, .element, default, shape, false, commentOf doc⟩ :: below := by
  rw [fieldsToDecls, MetaField.toDecl] at h
  obtain ⟨field, hfield, h⟩ := ok_of_bind_eq_ok h
  obtain ⟨⟨shape, default⟩, hshape, hfield⟩ := ok_of_bind_eq_ok hfield
  obtain ⟨below, hbelow, h⟩ := ok_of_bind_eq_ok h
  obtain rfl := Except.ok.inj hfield
  exact ⟨shape, default, below, hshape, hbelow, (Except.ok.inj h).symm⟩

/-- A field of a structure is derived to a group for a nested structure, and else to a leaf, whose
default text reads as what the field is to become unless it is that of an integer of more than 64
bits. -/
theorem MetaContent.toShape_eq_ok {content : MetaContent} {label : String} {shape : Shape}
    {default : Default} (h : content.toShape label = .ok (shape, default)) :
    (∃ m decl, content = .nested m ∧ m.toGroup = .ok decl ∧
        shape = .group { decl with isGroup := true } ∧ default = none) ∨
      ∃ kind text, shape.leaf? default = some (kind, text) ∧ content.keys = [[]] ∧
        content.structures = [] ∧
        ((∃ v, Convert.value kind text = .ok v) ↔ ∀ expr ∈ content.defaults, expr.Fits) ∧
        ∀ v, Convert.value kind text = .ok v → content.Mirrors v := by
  cases content with
  | nested m =>
    rw [MetaContent.toShape] at h
    obtain ⟨decl, hdecl, h⟩ := ok_of_bind_eq_ok h
    obtain ⟨rfl, rfl⟩ := Prod.mk.inj (Except.ok.inj h)
    exact Or.inl ⟨m, decl, rfl, hdecl, rfl, rfl⟩
  | optional =>
    obtain ⟨rfl, rfl⟩ := Prod.mk.inj (Except.ok.inj h)
    refine Or.inr ⟨_, _, rfl, rfl, rfl, iff_of_true ⟨_, rfl⟩ (by simp [defaults]), fun v hv => ?_⟩
    exact (Except.ok.inj hv).symm
  | required expr =>
    cases expr with
    | none =>
      obtain ⟨rfl, rfl⟩ := Prod.mk.inj (Except.ok.inj h)
      refine Or.inr ⟨_, _, rfl, rfl, rfl, iff_of_true ⟨_, rfl⟩ (by simp [defaults]), fun v hv => ?_⟩
      exact (Except.ok.inj hv).symm
    | some expr =>
      rw [MetaContent.toShape] at h
      split at h
      · rename_i shape' text hshape
        obtain ⟨rfl, rfl⟩ := Prod.mk.inj (Except.ok.inj h)
        obtain ⟨kind, hleaf, hreads⟩ := DefaultExpr.exists_leafReads hshape
        refine Or.inr ⟨kind, text, hleaf, rfl, rfl, ?_, hreads.arrives⟩
        rw [hreads.reads_iff, MetaContent.defaults, List.forall_mem_singleton]
      · cases h

/-! ### The rules -/

mutual

/-- What has been derived obeys the rules. -/
theorem Metadata.admissible_toGroup {phase : Phase} : (m : Metadata) → ∀ {decl : GroupDecl},
    m.toGroup = .ok decl → decl.Admissible phase
  | ⟨name, fields⟩, decl, h => by
    obtain ⟨decls, hdecls, rfl⟩ := Metadata.toGroup_eq_ok h
    rw [GroupDecl.Admissible]
    exact fieldsAdmissible_fieldsToDecls fields hdecls

/-- Derived fields obey the rules. -/
theorem fieldsAdmissible_fieldsToDecls {phase : Phase} : (fields : List MetaField) →
    ∀ {typeName : String} {decls : List FieldDecl}, fieldsToDecls typeName fields = .ok decls →
      FieldsAdmissible phase decls
  | [], typeName, decls, h => by
    obtain rfl := Except.ok.inj h
    trivial
  | ⟨name, doc, content⟩ :: rest, typeName, decls, h => by
    obtain ⟨shape, default, below, hshape, hbelow, rfl⟩ := fieldsToDecls_cons_eq_ok h
    rw [FieldsAdmissible, FieldDecl.Admissible]
    exact ⟨⟨fun hfalse => absurd hfalse Bool.false_ne_true, content.admissible_toShape hshape⟩,
      fieldsAdmissible_fieldsToDecls rest hbelow⟩

/-- The shape of a derived field obeys the rules. -/
theorem MetaContent.admissible_toShape {phase : Phase} : (content : MetaContent) →
    ∀ {label : String} {shape : Shape} {default : Default},
      content.toShape label = .ok (shape, default) → shape.Admissible phase default
  | content, label, shape, default, h => by
    rcases MetaContent.toShape_eq_ok h with
      ⟨m, decl, hcontent, hdecl, rfl, rfl⟩ | ⟨kind, text, hleaf, -⟩
    · match content, hcontent with
      | .nested m, rfl =>
        have hadmissible : decl.Admissible phase := m.admissible_toGroup hdecl
        obtain ⟨typeName, isGroup, fields⟩ := decl
        rw [GroupDecl.Admissible] at hadmissible
        rw [Shape.Admissible, GroupDecl.Admissible]
        exact ⟨rfl, hadmissible⟩
    · exact Shape.admissible_leaf hleaf phase

end

/-! ### The leaves asked for -/

/-- Whether what is asked for below a base are leaves with these keys, whose default texts can be
read if and only if these expressions fit. -/
structure AsksFor (requests : List String → List LeafRequest) (keys : List (List String))
    (defaults : List DefaultExpr) : Prop where
  patterns : ∀ base, (requests base).map (·.pattern) =
    keys.map fun key => String.intercalate "." (base ++ key)
  reads_iff : ∀ base, (∀ q ∈ requests base, q.Reads) ↔ ∀ expr ∈ defaults, expr.Fits

section AsksFor

variable {requests requests' : List String → List LeafRequest} {keys keys' : List (List String)}
  {defaults defaults' : List DefaultExpr}

theorem AsksFor.append (h : AsksFor requests keys defaults)
    (h' : AsksFor requests' keys' defaults') :
    AsksFor (fun base => requests base ++ requests' base) (keys ++ keys')
      (defaults ++ defaults') where
  patterns := fun base => by rw [List.map_append, h.patterns, h'.patterns, List.map_append]
  reads_iff := fun base => by
    rw [List.forall_mem_append, List.forall_mem_append, h.reads_iff, h'.reads_iff]

/-- What is asked for below a field. -/
theorem AsksFor.below (h : AsksFor requests keys defaults) (name : String) :
    AsksFor (fun base => requests (base ++ [name])) (keys.map (name :: ·)) defaults where
  patterns := fun base => by
    rw [h.patterns, List.map_map]
    simp [Function.comp_def]
  reads_iff := fun base => h.reads_iff _

end AsksFor

mutual

/-- **What a derived declaration asks for**: the leaves of the structure, under the names of the
fields around them. -/
theorem Metadata.asksFor (overridable : Bool) : (m : Metadata) → ∀ {decl : GroupDecl},
    m.toGroup = .ok decl →
      AsksFor (fun base => decl.requests base overridable) m.keys m.defaults
  | ⟨name, fields⟩, decl, h => by
    obtain ⟨decls, hdecls, rfl⟩ := Metadata.toGroup_eq_ok h
    simp only [GroupDecl.requests, Metadata.keys, Metadata.defaults]
    exact asksFor_fieldsToDecls overridable fields hdecls

/-- What derived fields ask for. -/
theorem asksFor_fieldsToDecls (overridable : Bool) : (fields : List MetaField) →
    ∀ {typeName : String} {decls : List FieldDecl}, fieldsToDecls typeName fields = .ok decls →
      AsksFor (fun base => fieldRequests base overridable decls) (fieldKeys fields)
        (fieldDefaults fields)
  | [], typeName, decls, h => by
    obtain rfl := Except.ok.inj h
    exact ⟨fun _ => rfl, fun _ => iff_of_true (by simp [fieldRequests]) (by simp [fieldDefaults])⟩
  | ⟨name, doc, content⟩ :: rest, typeName, decls, h => by
    obtain ⟨shape, default, below, hshape, hbelow, rfl⟩ := fieldsToDecls_cons_eq_ok h
    simp only [fieldRequests, FieldDecl.requests, fieldKeys, fieldDefaults, Bool.or_false]
    exact ((content.asksFor overridable name (commentOf doc) hshape).below name).append
      (asksFor_fieldsToDecls overridable rest hbelow)

/-- What a derived field asks for. -/
theorem MetaContent.asksFor (overridable : Bool) (ident : String) (doc : Option String) :
    (content : MetaContent) → ∀ {label : String} {shape : Shape} {default : Default},
      content.toShape label = .ok (shape, default) →
        AsksFor (fun key => shape.requests key overridable ident doc default) content.keys
          content.defaults
  | content, label, shape, default, h => by
    rcases MetaContent.toShape_eq_ok h with
      ⟨m, decl, hcontent, hdecl, rfl, rfl⟩ | ⟨kind, text, hleaf, hkeys, -, hreads, -⟩
    · match content, hcontent with
      | .nested m, rfl =>
        have hasks := m.asksFor overridable hdecl
        obtain ⟨typeName, isGroup, fields⟩ := decl
        simp only [GroupDecl.requests] at hasks
        simpa only [Shape.requests, GroupDecl.requests, MetaContent.keys, MetaContent.defaults]
          using hasks
    · rw [hkeys]
      constructor
      · intro base
        rw [Shape.requests_leaf hleaf]
        simp
      · intro base
        rw [Shape.requests_leaf hleaf, List.forall_mem_singleton]
        exact hreads

end

/-! ### The graph -/

/-- A group that accepts the declared defaults of fields with new idents gets one attribute for
every field, in order. -/
theorem acceptDeclared_eq {fields : List FieldDecl} {g : Group}
    (h : (g.fields.map (·.1) ++ fields.map (·.ident)).Nodup) : acceptDeclared g fields =
      ⟨g.typeName, g.fields ++ fields.map fun field =>
        (field.ident, field.shape.graph field.default)⟩ := by
  induction fields generalizing g with
  | nil =>
    obtain ⟨typeName, attributes⟩ := g
    rw [acceptDeclared, List.map_nil, List.append_nil]
  | cons field rest ih =>
    obtain ⟨ident, name, default, shape, own, doc⟩ := field
    have hnew : g.fields.lookup ident = none := by
      rw [List.lookup_eq_none_iff]
      intro p hp
      refine bne_iff_ne.mpr ?_
      rintro rfl
      exact (List.nodup_append.mp h).2.2 _ (List.mem_map_of_mem hp) _ List.mem_cons_self rfl
    rw [acceptDeclared, ih, Group.accept, Entries.put_eq_append hnew]
    · simp
    · rw [Group.accept, Entries.put_eq_append hnew]
      simpa using h

mutual

/-- **The declared graph mirrors the structure**, if its integers fit and its fields are well
named. -/
theorem Metadata.mirrors_graph : (m : Metadata) → ∀ {decl : GroupDecl}, m.toGroup = .ok decl →
    m.WellNamed → (∀ expr ∈ m.defaults, expr.Fits) → m.Mirrors decl.graph
  | ⟨name, fields⟩, decl, h, hnamed, hfits => by
    obtain ⟨decls, hdecls, rfl⟩ := Metadata.toGroup_eq_ok h
    obtain ⟨⟨hnodup, -⟩, hbelow⟩ := List.forall_mem_cons.mp hnamed
    obtain ⟨hidents, hmirror⟩ := mirror_fieldsToDecls fields hdecls hbelow hfits
    rw [← hidents] at hnodup
    rw [GroupDecl.graph, acceptDeclared_eq (by simpa [Group.empty] using hnodup), Metadata.Mirrors]
    exact ⟨rfl, hmirror⟩

/-- Derived fields have the names of the fields and declare what these are to become. -/
theorem mirror_fieldsToDecls : (fields : List MetaField) →
    ∀ {typeName : String} {decls : List FieldDecl}, fieldsToDecls typeName fields = .ok decls →
      (∀ s ∈ fieldStructures fields, s.NamesFields) →
      (∀ expr ∈ fieldDefaults fields, expr.Fits) →
        decls.map (·.ident) = fields.map (·.name) ∧ FieldsMirror fields
          (decls.map fun field => (field.ident, field.shape.graph field.default))
  | [], typeName, decls, h, _, _ => by
    obtain rfl := Except.ok.inj h
    exact ⟨rfl, rfl⟩
  | ⟨name, doc, content⟩ :: rest, typeName, decls, h, hnamed, hfits => by
    obtain ⟨shape, default, below, hshape, hbelow, rfl⟩ := fieldsToDecls_cons_eq_ok h
    rw [fieldStructures, List.forall_mem_append] at hnamed
    rw [fieldDefaults, List.forall_mem_append] at hfits
    obtain ⟨hidents, hmirror⟩ := mirror_fieldsToDecls rest hbelow hnamed.2 hfits.2
    refine ⟨by rw [List.map_cons, List.map_cons, hidents], ?_⟩
    rw [FieldsMirror]
    exact ⟨_, _, rfl, content.mirrors_graph hshape hnamed.1 hfits.1, hmirror⟩

/-- The shape of a derived field declares what the field is to become. -/
theorem MetaContent.mirrors_graph : (content : MetaContent) →
    ∀ {label : String} {shape : Shape} {default : Default},
      content.toShape label = .ok (shape, default) →
      (∀ s ∈ content.structures, s.NamesFields) →
      (∀ expr ∈ content.defaults, expr.Fits) → content.Mirrors (shape.graph default)
  | content, label, shape, default, h, hnamed, hfits => by
    rcases MetaContent.toShape_eq_ok h with
      ⟨m, decl, hcontent, hdecl, rfl, rfl⟩ | ⟨kind, text, hleaf, -, -, hreads, hmirrors⟩
    · match content, hcontent with
      | .nested m, rfl =>
        have hgraph := m.mirrors_graph hdecl hnamed hfits
        obtain ⟨typeName, isGroup, fields⟩ := decl
        rw [GroupDecl.graph] at hgraph
        rw [Shape.graph, GroupDecl.graph, MetaContent.Mirrors]
        exact ⟨_, rfl, hgraph⟩
    · obtain ⟨v, hv⟩ := hreads.mpr hfits
      rw [Shape.graph_leaf hleaf hv]
      exact hmirrors v hv

end

/-! ### Distinct keys -/

mutual

/-- If the fields of every structure have distinct plain names, then so have the keys. -/
theorem Metadata.nodup_keys : (m : Metadata) → m.WellNamed →
    m.keys.Nodup ∧ ∀ key ∈ m.keys, ∀ p ∈ key, PlainPiece p
  | ⟨name, fields⟩, h => by
    obtain ⟨⟨hnodup, hpieces⟩, hbelow⟩ := List.forall_mem_cons.mp h
    rw [Metadata.keys]
    obtain ⟨hkeys, hall⟩ := nodup_fieldKeys fields hnodup hpieces hbelow
    exact ⟨hkeys, fun key hkey => (hall key hkey).2⟩

/-- The keys of leaves below fields with distinct plain names begin with the names of the fields. -/
theorem nodup_fieldKeys : (fields : List MetaField) → (fields.map (·.name)).Nodup →
    (∀ field ∈ fields, PlainPiece field.name) →
    (∀ s ∈ fieldStructures fields, s.NamesFields) →
      (fieldKeys fields).Nodup ∧ ∀ key ∈ fieldKeys fields,
        (∃ name ∈ fields.map (·.name), key.head? = some name) ∧ ∀ p ∈ key, PlainPiece p
  | [], _, _, _ => by simp [fieldKeys]
  | ⟨name, doc, content⟩ :: rest, hnodup, hpieces, hnamed => by
    rw [fieldStructures, List.forall_mem_append] at hnamed
    obtain ⟨hname, hrest⟩ := List.nodup_cons.mp hnodup
    obtain ⟨hpiece, hpieces⟩ := List.forall_mem_cons.mp hpieces
    obtain ⟨hkeys, hall⟩ := content.nodup_keys hnamed.1
    obtain ⟨hkeys', hall'⟩ := nodup_fieldKeys rest hrest hpieces hnamed.2
    rw [fieldKeys]
    constructor
    · refine List.nodup_append.mpr ⟨hkeys.map (List.cons_injective), hkeys', ?_⟩
      -- A key below a later field begins with another name.
      rintro key hkey _ hkey' rfl
      obtain ⟨key, -, rfl⟩ := List.mem_map.mp hkey
      obtain ⟨⟨other, hother, hhead⟩, -⟩ := hall' _ hkey'
      exact hname (Option.some.inj hhead ▸ hother)
    · intro key hkey
      rcases List.mem_append.mp hkey with hkey | hkey
      · obtain ⟨inner, hinner, rfl⟩ := List.mem_map.mp hkey
        exact ⟨⟨name, List.mem_cons_self, rfl⟩,
          List.forall_mem_cons.mpr ⟨hpiece, hall inner hinner⟩⟩
      · obtain ⟨⟨other, hother, hhead⟩, hpieces⟩ := hall' key hkey
        exact ⟨⟨other, List.mem_cons_of_mem _ hother, hhead⟩, hpieces⟩

/-- The keys of leaves within a field are distinct and plain. -/
theorem MetaContent.nodup_keys : (content : MetaContent) →
    (∀ s ∈ content.structures, s.NamesFields) →
      content.keys.Nodup ∧ ∀ key ∈ content.keys, ∀ p ∈ key, PlainPiece p
  | .nested m, h => m.nodup_keys h
  | .optional, _ | .required _, _ => by simp [MetaContent.keys]

end

end PropertyBinding
