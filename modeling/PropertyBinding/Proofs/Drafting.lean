import PropertyBinding.Proofs.Layout

/-!
# What drafting does

Drafting a declaration succeeds exactly if the declaration obeys the rules at every level and the
draft accepts the leaves that it asks for, one after the other (`Accepts`). On success the draft has
grown by exactly these leaves, and the node that has been drafted lays them (`Lays`). On failure the
error is a schema error. `Settles` says all this of one drafting function, and
`draftGroup_settles` proves it of the whole walk, with one case for every shape.
-/

namespace PropertyBinding

open Definition

/-! ### Accepting leaves -/

/-- Whether leaves can be drafted one after the other when the patterns `seen` have been drafted:
their defaults read, no pattern is bound in the index, and no pattern comes twice. -/
def Accepts (index : PatternMap Nat) : List String → List LeafRequest → Prop
  | _, [] => True
  | seen, q :: rest =>
    (q.Reads ∧ index.contains q.pattern = false ∧ q.pattern ∉ seen) ∧
      Accepts index (seen ++ [q.pattern]) rest

theorem accepts_append {index : PatternMap Nat} {seen : List String} {as bs : List LeafRequest} :
    Accepts index seen (as ++ bs) ↔
      Accepts index seen as ∧ Accepts index (seen ++ as.map (·.pattern)) bs := by
  induction as generalizing seen with
  | nil => simp [Accepts]
  | cons q rest ih => simp [Accepts, ih, and_assoc]

/-- Leaves are accepted if their defaults read and their patterns are new and pairwise
distinct. -/
theorem accepts_iff {index : PatternMap Nat} {seen : List String} {qs : List LeafRequest} :
    Accepts index seen qs ↔
      (∀ q ∈ qs, q.Reads) ∧ (∀ q ∈ qs, index.find? q.segments = none) ∧
        (qs.map (·.pattern)).Nodup ∧ ∀ q ∈ qs, q.pattern ∉ seen := by
  induction qs generalizing seen with
  | nil => simp [Accepts]
  | cons q rest ih =>
    have hcontains : index.contains q.pattern = false ↔ index.find? q.segments = none := by
      simp [PatternMap.contains, LeafRequest.segments]
    rw [Accepts, ih, hcontains]
    simp only [List.mem_cons, forall_eq_or_imp, List.map_cons, List.nodup_cons, List.mem_append,
      List.mem_map, not_or, not_exists, not_and]
    constructor
    · rintro ⟨⟨hq, hfind, hseen⟩, hreads, hfree, hnodup, hnew⟩
      exact ⟨⟨hq, hreads⟩, ⟨hfind, hfree⟩, ⟨fun r hr => fun heq => (hnew r hr).2.1 heq, hnodup⟩,
        hseen, fun r hr => (hnew r hr).1⟩
    · rintro ⟨⟨hq, hreads⟩, ⟨hfind, hfree⟩, ⟨hne, hnodup⟩, hseen, hnew⟩
      exact ⟨⟨hq, hfind, hseen⟩, hreads, hfree, hnodup,
        fun r hr => ⟨hnew r hr, fun heq => hne r hr heq, by simp⟩⟩

/-! ### The outcome of a drafting function -/

/-- What the drafting of something that asks for leaves comes to: `ok` are the rules that it must
obey, and `lays` says what the result lays from given positions on. -/
def Settles {α : Type} (ctx : Drafting) (draft : Draft) (ok : Prop) (qs : List LeafRequest)
    (lays : α → Nat → Nat → List Leaf → List Value → Prop) :
    Except BindError (α × Draft) → Prop
  | .ok (a, after) =>
    (ok ∧ Accepts ctx.definition.index (draft.leaves.map (·.pattern)) qs) ∧
      ∃ ls ts, after = ⟨draft.leaves ++ ls, draft.templates ++ ts⟩ ∧ ls.map Leaf.request = qs ∧
        lays a (ctx.definition.leaves.length + draft.leaves.length)
          (ctx.definition.templates.length + draft.templates.length) ls ts
  | .error e =>
    e.isSchemaError = true ∧
      ¬(ok ∧ Accepts ctx.definition.index (draft.leaves.map (·.pattern)) qs)

section Settles

variable {α β : Type} {ctx : Drafting} {draft : Draft} {ok ok' : Prop} {qs qs' : List LeafRequest}
  {lays lays' : α → Nat → Nat → List Leaf → List Value → Prop}
  {r : Except BindError (α × Draft)}

/-- A refusal for a broken rule. -/
theorem settles_error {e : BindError} (he : e.isSchemaError = true) (hok : ¬ok) :
    Settles ctx draft ok qs lays (.error e) :=
  ⟨he, fun h => hok h.1⟩

/-- Only the strength of the rules counts. -/
theorem Settles.congr (hok : ok ↔ ok') (h : Settles ctx draft ok qs lays r) :
    Settles ctx draft ok' qs lays r := by
  rwa [show ok' = ok from propext hok.symm]

/-- The patterns that have been drafted after leaves were added. -/
theorem patterns_append {leaves ls : List Leaf} (h : ls.map Leaf.request = qs) :
    (leaves ++ ls).map (·.pattern) = leaves.map (·.pattern) ++ qs.map (·.pattern) := by
  subst h
  simp [Leaf.request, Function.comp_def]

/-- A drafting step whose result is repackaged, under a rule that holds. -/
theorem Settles.map {f : α → β} {laysβ : β → Nat → Nat → List Leaf → List Value → Prop}
    (hok : ok ↔ ok') (h : Settles ctx draft ok qs lays r)
    (hlays : ∀ a l t ls ts, lays a l t ls ts → laysβ (f a) l t ls ts) :
    Settles ctx draft ok' qs laysβ (r >>= fun x => pure (f x.1, x.2)) := by
  cases r with
  | error e =>
    rw [Settles, hok] at h
    exact h
  | ok x =>
    obtain ⟨a, after⟩ := x
    rw [Settles, hok] at h
    obtain ⟨haccepts, ls, ts, hafter, hqs, hl⟩ := h
    exact ⟨haccepts, ls, ts, hafter, hqs, hlays a _ _ ls ts hl⟩

/-- Two drafting steps, the second of which begins where the first one ends. -/
theorem Settles.bind {γ : Type} {s : α → Draft → Except BindError (β × Draft)} {f : α → β → γ}
    {laysβ : β → Nat → Nat → List Leaf → List Value → Prop}
    {laysγ : γ → Nat → Nat → List Leaf → List Value → Prop}
    (h : Settles ctx draft ok qs lays r)
    (hs : ∀ a after, Settles ctx after ok' qs' laysβ (s a after))
    (hlays : ∀ a b l t ls ts ls' ts', lays a l t ls ts →
      laysβ b (l + ls.length) (t + ts.length) ls' ts' →
        laysγ (f a b) l t (ls ++ ls') (ts ++ ts')) :
    Settles ctx draft (ok ∧ ok') (qs ++ qs') laysγ
      (r >>= fun x => s x.1 x.2 >>= fun y => pure (f x.1 y.1, y.2)) := by
  have hboth : (ok ∧ ok') ∧
      Accepts ctx.definition.index (draft.leaves.map (·.pattern)) (qs ++ qs') ↔
      (ok ∧ Accepts ctx.definition.index (draft.leaves.map (·.pattern)) qs) ∧
        (ok' ∧ Accepts ctx.definition.index
          (draft.leaves.map (·.pattern) ++ qs.map (·.pattern)) qs') := by
    rw [accepts_append]
    tauto
  cases r with
  | error e => exact ⟨h.1, fun hall => h.2 (hboth.mp hall).1⟩
  | ok x =>
    obtain ⟨a, after⟩ := x
    obtain ⟨haccepts, ls, ts, rfl, hqs, hl⟩ := h
    have hsecond := hs a ⟨draft.leaves ++ ls, draft.templates ++ ts⟩
    rw [← patterns_append hqs] at hboth
    change Settles ctx draft _ _ _
      (s a ⟨draft.leaves ++ ls, draft.templates ++ ts⟩ >>= fun y => pure (f a y.1, y.2))
    cases hr : s a ⟨draft.leaves ++ ls, draft.templates ++ ts⟩ with
    | error e =>
      rw [hr] at hsecond
      exact ⟨hsecond.1, fun hall => hsecond.2 (hboth.mp hall).2⟩
    | ok y =>
      obtain ⟨b, last⟩ := y
      rw [hr] at hsecond
      obtain ⟨haccepts', ls', ts', rfl, hqs', hl'⟩ := hsecond
      simp only [List.length_append, ← Nat.add_assoc] at hl'
      refine ⟨hboth.mpr ⟨haccepts, haccepts'⟩, ls ++ ls', ts ++ ts', ?_, ?_, ?_⟩
      · simp only [List.append_assoc]
      · rw [List.map_append, hqs, hqs']
      · exact hlays a b _ _ ls ts ls' ts' hl hl'

end Settles

/-! ### Leaves and maps -/

variable {piece : String → Prop} {idents : List String → Prop}

/-- What a drafted node lays at a site, with the identifiers of its groups as declared. -/
def LaysAt (ctx : Drafting) (piece : String → Prop) (idents : List String → Prop)
    (key : List String) (path : List PathStep) (node : Node) (l t : Nat) (ls : List Leaf)
    (ts : List Value) : Prop :=
  Lays piece ctx.root key path node l t ls ts ∧ node.Each idents

/-- A leaf is drafted if its default reads and its pattern is new. -/
theorem draftLeaf_settles (ctx : Drafting) (site : Site) (ident : String) (doc : Option String)
    (kind : LeafKind) (default : String) (draft : Draft) :
    Settles ctx draft True
      [⟨ident, String.intercalate "." site.key, kind, default, doc, site.overridable⟩]
      (LaysAt ctx piece idents site.key site.path)
      (draftLeaf ctx site ident doc kind default draft) := by
  rw [draftLeaf]
  split_ifs with hseen
  · refine ⟨rfl, fun h => ?_⟩
    obtain ⟨-, ⟨-, hcontains, hnew⟩, -⟩ := h
    rcases hseen with hseen | hseen
    · exact Bool.false_ne_true (hcontains.symm.trans hseen)
    · exact hnew hseen
  · rw [not_or, Bool.not_eq_true] at hseen
    cases hvalue : Convert.value kind default with
    | error reason =>
      refine ⟨rfl, fun h => ?_⟩
      obtain ⟨-, ⟨⟨v, hv⟩, -⟩, -⟩ := h
      rw [hvalue] at hv
      cases hv
    | ok v =>
      let leaf : Leaf :=
        { ident, pattern := String.intercalate "." site.key, kind, default, defaultValue := v, doc
          overridable := site.overridable
          root := ctx.root
          path := site.path }
      refine ⟨⟨trivial, ⟨⟨v, hvalue⟩, hseen⟩, trivial⟩, [leaf], [], ?_, rfl, ?_, trivial⟩
      · rw [List.append_nil]
      · exact Lays.leaf rfl rfl rfl hvalue

/-- A map is drafted if its values are: their template is the default of what has been drafted for
them. -/
theorem draftEntry_settles (ctx : Drafting) (site : Site)
    (draftValue : Site → Draft → Except BindError (Node × Draft)) {ok : Prop}
    {qs : List LeafRequest} (draft : Draft)
    (h : ∀ path after, Settles ctx after ok qs
      (LaysAt ctx piece idents (site.key ++ [wildcard]) path)
      (draftValue { site with key := site.key ++ [wildcard], path } after)) :
    Settles ctx draft ok qs (LaysAt ctx piece idents site.key site.path)
      (draftEntry ctx site draftValue draft) := by
  rw [draftEntry]
  have hvalue := h (site.path ++
      [.key site.key.length (ctx.definition.templates.length + draft.templates.length)])
    { draft with templates := draft.templates ++ [.unset] }
  rw [entrySite]
  cases hr : draftValue
      { site with
        key := site.key ++ [wildcard]
        path := site.path ++
          [.key site.key.length (ctx.definition.templates.length + draft.templates.length)] }
      { draft with templates := draft.templates ++ [.unset] } with
  | error e =>
    rw [hr] at hvalue
    exact hvalue
  | ok x =>
    obtain ⟨node, after⟩ := x
    rw [hr] at hvalue
    obtain ⟨haccepts, ls, ts, rfl, hqs, hlays, heach⟩ := hvalue
    rw [List.length_append, List.length_singleton, ← Nat.add_assoc] at hlays
    refine ⟨haccepts, ls,
      defaultOver (ctx.definition.leaves ++ (draft.leaves ++ ls)) node :: ts, ?_, hqs, ?_, heach⟩
    · -- The place of the template was taken before the values were drafted.
      simp only [List.append_assoc, List.singleton_append, Draft.mk.injEq, true_and]
      rw [List.set_append_right _ _ (Nat.le_refl _), Nat.sub_self, List.set_cons_zero]
    · refine hlays.entry ?_
      have hleaves := hasAt_append (ctx.definition.leaves ++ draft.leaves) ls
      rwa [List.length_append, List.append_assoc] at hleaves

/-! ### The walk -/

/-- A field's key is its group's key and the pieces that the field contributes. -/
theorem subKey_eq (base : List String) (ident : String) (name : ItemName) :
    subKey base ident name = base ++ subKey [] ident name := by
  cases name <;> simp [subKey]

theorem leafKind?_cases (type : Primitive) :
    (type.leafKind? = none ∧ ¬type.Bindable) ∨
      ∃ kind, type.leafKind? = some kind ∧ type.Bindable := by
  cases type <;> simp [Primitive.leafKind?, Primitive.Bindable]

theorem valueType?_cases (type : Primitive) :
    (type.valueType? = none ∧ ¬type.Bindable) ∨
      ∃ element, type.valueType? = some element ∧ type.Bindable := by
  cases type <;> simp [Primitive.valueType?, Primitive.Bindable]

/-- A map whose keys are no strings is refused, as an attribute and as a map value. -/
theorem mapKey_error (ctx : Drafting) (site : Site) (doc : Option String) {key : Option ValueType}
    (value : Option Shape) (draft : Draft) (hkey : key ≠ some .string) :
    ∃ e : BindError, e.isSchemaError = true ∧ ∀ ident default,
      draftShape ctx site ident doc default (.map key value) draft = .error e ∧
        draftMapValue ctx site doc (.map key value) draft = .error e := by
  cases key with
  | none => exact ⟨.notParameterized site.label "Map", rfl, by simp [draftShape, draftMapValue]⟩
  | some type =>
    have htype : type ≠ .string := fun h => hkey (congrArg some h)
    refine ⟨.mapKeyNotString site.label, rfl, fun ident default => ?_⟩
    rw [draftShape, draftMapValue]
    · exact ⟨rfl, rfl⟩
    all_goals simp [htype]

/-- A map without a type of its values is refused. -/
theorem mapValue_error (ctx : Drafting) (site : Site) (doc : Option String)
    (key : Option ValueType) (draft : Draft) :
    ∃ e : BindError, e.isSchemaError = true ∧ ∀ ident default,
      draftShape ctx site ident doc default (.map key none) draft = .error e ∧
        draftMapValue ctx site doc (.map key none) draft = .error e := by
  by_cases hkey : key = some .string
  · subst hkey
    exact ⟨.notParameterized site.label "Map", rfl, by simp [draftShape, draftMapValue]⟩
  · exact mapKey_error ctx site doc none draft hkey

mutual

/-- **What drafting a group does.** -/
theorem draftGroup_settles (ctx : Drafting) (base : List String) (path : List PathStep)
    (overridable : Bool) : (decl : GroupDecl) → decl.Each piece idents → (draft : Draft) →
      Settles ctx draft (decl.Admissible ctx.phase) (decl.requests base overridable)
        (fun g => LaysAt ctx piece idents base path (.group g))
        (draftGroup ctx base path overridable decl draft)
  | ⟨typeName, _, fields⟩, h, draft => by
    rw [GroupDecl.Each] at h
    rw [draftGroup, GroupDecl.Admissible, GroupDecl.requests]
    refine (draftFields_settles ctx base path overridable typeName fields h.2 draft).map Iff.rfl
      fun nodes l t ls ts hlays => ⟨hlays.1, ?_⟩
    rw [Node.Each, GroupNode.Each, hlays.2.1]
    exact ⟨h.1, hlays.2.2⟩

/-- What drafting fields does. -/
theorem draftFields_settles (ctx : Drafting) (base : List String) (path : List PathStep)
    (overridable : Bool) (typeName : String) : (fields : List FieldDecl) →
      FieldsEach piece idents fields → (draft : Draft) →
      Settles ctx draft (FieldsAdmissible ctx.phase fields) (fieldRequests base overridable fields)
        (fun nodes l t ls ts => Lays piece ctx.root base path (.group ⟨typeName, nodes⟩) l t ls ts ∧
          nodes.map (·.1) = fields.map (·.ident) ∧ NodesEach idents nodes)
        (draftFields ctx base path overridable typeName fields draft)
  | [], _, draft => by
    rw [draftFields, FieldsAdmissible, fieldRequests]
    refine ⟨⟨trivial, trivial⟩, [], [], ?_, rfl, Lays.nil, rfl, trivial⟩
    simp only [List.append_nil]
  | field :: rest, h, draft => by
    rw [FieldsEach] at h
    rw [draftFields, FieldsAdmissible, fieldRequests]
    refine (draftField_settles ctx base path overridable typeName field h.1 draft).bind
      (fun _ after => draftFields_settles ctx base path overridable typeName rest h.2 after)
      fun node nodes l t ls ts ls' ts' hfirst hrest => ?_
    obtain ⟨hlays, hident, heach⟩ := hfirst
    obtain ⟨hlays', hidents, heach'⟩ := hrest
    refine ⟨hlays.append hlays', ?_, ?_⟩
    · rw [List.map_cons, List.map_cons, hident, hidents]
    · exact ⟨heach, heach'⟩

/-- What drafting a field does. -/
theorem draftField_settles (ctx : Drafting) (base : List String) (path : List PathStep)
    (overridable : Bool) (typeName : String) : (field : FieldDecl) → field.Each piece idents →
      (draft : Draft) →
      Settles ctx draft (field.Admissible ctx.phase) (field.requests base overridable)
        (fun x l t ls ts => Lays piece ctx.root base path (.group ⟨typeName, [x]⟩) l t ls ts ∧
          x.1 = field.ident ∧ x.2.Each idents)
        (draftField ctx base path overridable typeName field draft)
  | ⟨ident, name, default, shape, own, doc⟩, h, draft => by
    rw [FieldDecl.Each] at h
    rw [draftField, FieldDecl.Admissible, FieldDecl.requests]
    by_cases hphase : own = true → ctx.phase = .runTime
    · have hguard : ¬(own = true ∧ ¬ctx.phase.isReadAtStart = true) := by
        rintro ⟨hown, hread⟩
        exact hread (by simp [Phase.isReadAtStart, hphase hown])
      rw [if_neg hguard]
      refine (draftShape_settles ctx ⟨subKey base ident name, path ++ [.field ident],
        overridable || own, typeName ++ "." ++ ident⟩ ident doc default shape h.2 draft).map
        (and_iff_right hphase).symm fun node l t ls ts hlays => ⟨?_, rfl, hlays.2⟩
      -- The key below the field is the key of the group and the pieces of the field alone.
      refine Lays.field h.1 ?_
      rw [← subKey_eq]
      exact hlays.1
    · have hguard : own = true ∧ ¬ctx.phase.isReadAtStart = true := by
        obtain ⟨hown, hne⟩ := Classical.not_imp.mp hphase
        exact ⟨hown, by simpa [Phase.isReadAtStart] using hne⟩
      rw [if_pos hguard]
      exact settles_error rfl fun hok => hphase hok.1

/-- What drafting an attribute by its shape does. -/
theorem draftShape_settles (ctx : Drafting) (site : Site) (ident : String) (doc : Option String)
    (default : Default) : (shape : Shape) → shape.Each piece idents → (draft : Draft) →
      Settles ctx draft (shape.Admissible ctx.phase default)
        (shape.requests site.key site.overridable ident doc default)
        (LaysAt ctx piece idents site.key site.path)
        (draftShape ctx site ident doc default shape draft)
  | .group decl, h, draft => by
    rw [Shape.Each] at h
    rw [draftShape, Shape.Admissible, Shape.requests]
    cases default with
    | none =>
      exact (draftGroup_settles ctx site.key site.path site.overridable decl h draft).map
        (and_iff_right rfl).symm fun g l t ls ts hlays => hlays
    | some text => exact settles_error rfl fun hok => nomatch hok.1
  | .primitive type, _, draft => by
    rw [draftShape, Shape.Admissible, Shape.requests]
    rcases leafKind?_cases type with ⟨hnone, hnot⟩ | ⟨kind, hkind, hbindable⟩
    · rw [hnone]
      exact settles_error rfl hnot
    · rw [hkind]
      exact (draftLeaf_settles ctx site ident doc kind _ draft).congr
        (iff_of_true trivial hbindable)
  | .map key (some value), h, draft => by
    rw [Shape.Each] at h
    rw [Shape.Admissible, Shape.requests]
    by_cases hkey : key = some .string
    · rw [hkey, draftShape]
      exact (draftEntry_settles ctx site _ draft fun path after => draftMapValue_settles ctx
        ⟨site.key ++ [wildcard], path, site.overridable, site.label⟩ doc value h after).congr
        (and_iff_right rfl).symm
    · obtain ⟨e, he, heq⟩ := mapKey_error ctx site doc (some value) draft hkey
      rw [(heq ident default).1]
      exact settles_error he fun hok => hkey hok.1
  | .map key none, _, draft => by
    obtain ⟨e, he, heq⟩ := mapValue_error ctx site doc key draft
    rw [Shape.Admissible, (heq ident default).1]
    exact settles_error he id
  | .list element, _, draft => by
    rw [Shape.Admissible, Shape.requests]
    cases element with
    | none =>
      rw [draftShape]
      exact settles_error rfl Bool.false_ne_true
    | some element =>
      rw [draftShape]
      exact (draftLeaf_settles ctx site ident doc (.objectList element) _ draft).congr
        (iff_of_true trivial rfl)
  | .optional element, _, draft => by
    rw [Shape.Admissible, Shape.requests]
    cases element with
    | none =>
      rw [draftShape]
      exact settles_error rfl Bool.false_ne_true
    | some element =>
      rw [draftShape]
      exact (draftLeaf_settles ctx site ident doc (.optionalObject element) _ draft).congr
        (iff_of_true trivial rfl)
  | .object type, _, draft => by
    rw [draftShape, Shape.Admissible, Shape.requests]
    exact draftLeaf_settles ctx site ident doc (.object type) _ draft

/-- What drafting a map value by its shape does. -/
theorem draftMapValue_settles (ctx : Drafting) (site : Site) (doc : Option String) :
    (shape : Shape) → shape.Each piece idents → (draft : Draft) →
      Settles ctx draft (shape.AdmissibleEntry ctx.phase)
        (shape.entryRequests site.key site.overridable doc)
        (LaysAt ctx piece idents site.key site.path) (draftMapValue ctx site doc shape draft)
  | .group decl, h, draft => by
    rw [Shape.Each] at h
    rw [draftMapValue, Shape.AdmissibleEntry, Shape.entryRequests]
    exact (draftGroup_settles ctx site.key site.path site.overridable decl h draft).map Iff.rfl
      fun g l t ls ts hlays => hlays
  | .primitive type, _, draft => by
    rw [draftMapValue, Shape.AdmissibleEntry, Shape.entryRequests]
    rcases valueType?_cases type with ⟨hnone, hnot⟩ | ⟨element, helement, hbindable⟩
    · rw [hnone]
      exact settles_error rfl hnot
    · rw [helement]
      exact (draftLeaf_settles ctx site "" doc (.object element) "" draft).congr
        (iff_of_true trivial hbindable)
  | .map key (some value), h, draft => by
    rw [Shape.Each] at h
    rw [Shape.AdmissibleEntry, Shape.entryRequests]
    by_cases hkey : key = some .string
    · rw [hkey, draftMapValue]
      exact (draftEntry_settles ctx site _ draft fun path after => draftMapValue_settles ctx
        ⟨site.key ++ [wildcard], path, site.overridable, site.label⟩ doc value h after).congr
        (and_iff_right rfl).symm
    · obtain ⟨e, he, heq⟩ := mapKey_error ctx site doc (some value) draft hkey
      rw [(heq "" none).2]
      exact settles_error he fun hok => hkey hok.1
  | .map key none, _, draft => by
    obtain ⟨e, he, heq⟩ := mapValue_error ctx site doc key draft
    rw [Shape.AdmissibleEntry, (heq "" none).2]
    exact settles_error he id
  | .list element, _, draft => by
    rw [Shape.AdmissibleEntry, Shape.entryRequests]
    cases element with
    | none =>
      rw [draftMapValue]
      exact settles_error rfl Bool.false_ne_true
    | some element =>
      rw [draftMapValue]
      exact (draftLeaf_settles ctx site "" doc (.objectList element) "" draft).congr
        (iff_of_true trivial rfl)
  | .optional element, _, draft => by
    rw [draftMapValue, Shape.AdmissibleEntry]
    exact settles_error rfl id
  | .object type, _, draft => by
    rw [draftMapValue, Shape.AdmissibleEntry, Shape.entryRequests]
    exact draftLeaf_settles ctx site "" doc (.object type) "" draft

end

end PropertyBinding
