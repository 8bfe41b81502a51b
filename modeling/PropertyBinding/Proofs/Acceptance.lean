import Mathlib.Data.List.Nodup
import PropertyBinding.Proofs.Drafting
import PropertyBinding.Proofs.Index

/-!
# Accepting a declaration

A registration drafts a declared root and then commits the drafted leaves one by one. Committing
stops at the first leaf whose segments are bound (`commitLeaves_cases`); drafting has seen to it
that they are not bound by an earlier registration, so they repeat those of a leaf before it.
`registerRoot_cases` puts both together and is what other modules use.

Two results are read off it. A definition accepts exactly the admissible declarations, and refuses
all others with a schema error (`registerRoot_ok_iff`). A refused declaration leaves the definition
as it was, unless it has passed the walk and two of its patterns are different texts with the same
segments; then the leaves before the first repetition stay (`registerRoot_atomic`).
-/

namespace PropertyBinding

open Definition

variable {piece : String → Prop} {idents : List String → Prop}

/-! ### Committing leaves -/

/-- A definition to which leaves have been committed: they follow the leaves that were there, and
the index finds them, and nothing else that is new, under their segments. -/
structure Committed (d : Definition) (ls : List Leaf) (d' : Definition) : Prop where
  leaves : d'.leaves = d.leaves ++ ls
  roots : d'.roots = d.roots
  templates : d'.templates = d.templates
  bound : ∀ (i : Nat) (leaf : Leaf), ls[i]? = some leaf →
    d'.index.find? leaf.request.segments = some (d.leaves.length + i)
  free : ∀ path, (∀ leaf ∈ ls, leaf.request.segments ≠ path) →
    d'.index.find? path = d.index.find? path
  tidy : d.index.Tidy → d'.index.Tidy

theorem Committed.refl (d : Definition) : Committed d [] d where
  leaves := (List.append_nil _).symm
  roots := rfl
  templates := rfl
  bound := by simp
  free := fun _ _ => rfl
  tidy := id

/-- Whether the segments of leaves are pairwise distinct and not bound. -/
def Fresh (d : Definition) (ls : List Leaf) : Prop :=
  (ls.map (·.request.segments)).Nodup ∧ ∀ leaf ∈ ls, d.index.find? leaf.request.segments = none

/-- Committing a leaf in front of others. -/
theorem Committed.cons {d d' : Definition} {leaf : Leaf} {ls : List Leaf}
    {index : PatternMap Nat}
    (hindex : d.index.insertAt d.leaves.length leaf.request.segments = some index)
    (hfresh : Fresh { d with index, leaves := d.leaves ++ [leaf] } ls)
    (h : Committed { d with index, leaves := d.leaves ++ [leaf] } ls d') :
    Committed d (leaf :: ls) d' where
  leaves := by rw [h.leaves, List.append_assoc, List.singleton_append]
  roots := h.roots
  templates := h.templates
  bound := by
    intro i leaf' hi
    cases i with
    | zero =>
      obtain rfl : leaf = leaf' := by simpa using hi
      have hself := PatternMap.find?_insertAt hindex leaf.request.segments
      rw [if_pos rfl] at hself
      -- The leaves after this one have other segments, so they leave what it has bound.
      rw [h.free, hself, Nat.add_zero]
      intro other hother heq
      have hnone := hfresh.2 other hother
      rw [heq, hself] at hnone
      cases hnone
    | succ i =>
      rw [h.bound i leaf' (by simpa using hi), List.length_append, List.length_singleton]
      congr 1
      omega
  free := by
    intro path hpath
    rw [h.free path fun other hother => hpath other (List.mem_cons_of_mem _ hother),
      PatternMap.find?_insertAt hindex, if_neg (Ne.symm (hpath leaf List.mem_cons_self))]
  tidy := fun ht => h.tidy (ht.insertAt hindex)

/-- After a leaf, leaves are fresh exactly if they were and do not repeat its segments. -/
theorem fresh_cons {d : Definition} {leaf : Leaf} {ls : List Leaf} {index : PatternMap Nat}
    (hindex : d.index.insertAt d.leaves.length leaf.request.segments = some index)
    (hfree : d.index.find? leaf.request.segments = none) :
    Fresh { d with index, leaves := d.leaves ++ [leaf] } ls ↔ Fresh d (leaf :: ls) := by
  have hfind : ∀ other : Leaf, index.find? other.request.segments = none ↔
      other.request.segments ≠ leaf.request.segments ∧
        d.index.find? other.request.segments = none := by
    intro other
    rw [PatternMap.find?_insertAt hindex]
    split_ifs with heq <;> simp [heq]
  simp only [Fresh, hfind, List.map_cons, List.nodup_cons, List.mem_map, List.mem_cons,
    forall_eq_or_imp, hfree, true_and, not_exists, not_and]
  constructor
  · rintro ⟨hnodup, hall⟩
    exact ⟨⟨fun other hother => (hall other hother).1, hnodup⟩, fun other ho => (hall other ho).2⟩
  · rintro ⟨⟨hne, hnodup⟩, hall⟩
    exact ⟨hnodup, fun other ho => ⟨hne other ho, hall other ho⟩⟩

/-- **What committing leaves does.** Either all are committed, and were fresh; or the fresh ones
before the first that repeats are, whether it repeats a segment list of its own draft or one that
was bound. -/
theorem commitLeaves_cases (ls : List Leaf) (d : Definition) :
    (∃ d', commitLeaves ls d = (d', .ok ()) ∧ Committed d ls d' ∧ Fresh d ls) ∨
      ∃ before leaf after d', ls = before ++ leaf :: after ∧
        commitLeaves ls d = (d', .error (.duplicatePattern leaf.pattern)) ∧
        Committed d before d' ∧ Fresh d before ∧ (d'.index.find? leaf.request.segments).isSome := by
  induction ls generalizing d with
  | nil => exact Or.inl ⟨d, rfl, .refl d, by simp [Fresh]⟩
  | cons leaf rest ih =>
    rw [commitLeaves]
    rcases d.index.insert_eq leaf.pattern d.leaves.length with
      ⟨index, hinsert, hindex, hfree⟩ | ⟨hinsert, hbound⟩
    · rw [hinsert]
      rcases ih { d with index, leaves := d.leaves ++ [leaf] } with
        ⟨d', hcommit, hd', hfresh⟩ | ⟨before, leaf', after, d', rfl, hcommit, hd', hfresh, hrep⟩
      · exact Or.inl ⟨d', hcommit, hd'.cons hindex hfresh, (fresh_cons hindex hfree).mp hfresh⟩
      · exact Or.inr ⟨leaf :: before, leaf', after, d', rfl, hcommit, hd'.cons hindex hfresh,
          (fresh_cons hindex hfree).mp hfresh, hrep⟩
    · rw [hinsert]
      exact Or.inr ⟨[], leaf, rest, d, rfl, rfl, .refl d, by simp [Fresh], hbound⟩

/-! ### Drafting a root -/

mutual

/-- Nothing asked of name pieces and identifiers holds of every group. -/
theorem GroupDecl.each_true : (decl : GroupDecl) → decl.Each (fun _ => True) (fun _ => True)
  | ⟨_, _, fields⟩ => by rw [GroupDecl.Each]; exact ⟨trivial, fieldsEach_true fields⟩

/-- Nothing asked of name pieces and identifiers holds of all fields. -/
theorem fieldsEach_true : (fields : List FieldDecl) →
    FieldsEach (fun _ => True) (fun _ => True) fields
  | [] => by rw [FieldsEach]; trivial
  | field :: rest => by rw [FieldsEach]; exact ⟨field.each_true, fieldsEach_true rest⟩

/-- Nothing asked of name pieces and identifiers holds of every field. -/
theorem FieldDecl.each_true : (field : FieldDecl) → field.Each (fun _ => True) (fun _ => True)
  | ⟨_, _, _, shape, _, _⟩ => by rw [FieldDecl.Each]; exact ⟨fun _ _ => trivial, shape.each_true⟩

/-- Nothing asked of name pieces and identifiers holds of every shape. -/
theorem Shape.each_true : (shape : Shape) → shape.Each (fun _ => True) (fun _ => True)
  | .group decl => by rw [Shape.Each]; exact decl.each_true
  | .map _ (some value) => by rw [Shape.Each]; exact value.each_true
  | .map _ none | .primitive _ | .list _ | .optional _ | .object _ => by
    rw [Shape.Each]; trivial

end

/-- A drafted group has its declared type. -/
theorem draftGroup_typeName {ctx : Drafting} {base : List String} {path : List PathStep}
    {overridable : Bool} {decl : GroupDecl} {draft after : Draft} {g : GroupNode}
    (h : draftGroup ctx base path overridable decl draft = .ok (g, after)) :
    g.typeName = decl.typeName := by
  obtain ⟨typeName, isGroup, fields⟩ := decl
  rw [draftGroup] at h
  cases hfields : draftFields ctx base path overridable typeName fields draft with
  | error e =>
    rw [hfields] at h
    cases h
  | ok x =>
    rw [hfields] at h
    obtain ⟨rfl, -⟩ := Prod.mk.inj (Except.ok.inj h)
    rfl

/-- What the draft of an accepted root is: it passes the walk, and its tree lays exactly the
requested leaves behind those of the definition. -/
structure RootDrafted (piece : String → Prop) (idents : List String → Prop) (d : Definition)
    (decl : RootDecl) (root : Root) (draft : Draft) : Prop where
  typeName : root.typeName = decl.group.typeName
  treeTypeName : root.tree.typeName = decl.group.typeName
  containingName : root.containingName = decl.containingName
  phase : root.phase = decl.phase
  passes : decl.PassesWalk d root.rootName
  requests : draft.leaves.map Leaf.request = decl.requests root.rootName
  lays : Lays piece root.containingName (Text.split '.' root.rootName) [] (.group root.tree)
    d.leaves.length d.templates.length draft.leaves draft.templates
  idents : (Node.group root.tree).Each idents

/-- A root is drafted exactly if its declaration passes the walk; otherwise the error is a schema
error. -/
theorem draftRoot_cases (d : Definition) (decl : RootDecl) (heach : decl.group.Each piece idents) :
    (∃ e, d.draftRoot decl = .error e ∧ e.isSchemaError = true ∧
        ∀ rootName, ¬decl.PassesWalk d rootName) ∨
      ∃ root draft, d.draftRoot decl = .ok (root, draft) ∧
        RootDrafted piece idents d decl root draft := by
  rw [draftRoot]
  by_cases hgroup : decl.group.isGroup = true
  · refine Or.inl ⟨_, if_pos hgroup, rfl, fun rootName hpass => ?_⟩
    exact Bool.false_ne_true (hpass.1.notGroup.symm.trans hgroup)
  rw [if_neg hgroup]
  cases hname : externalName? decl.group.typeName decl.name with
  | none =>
    refine Or.inl ⟨_, rfl, rfl, fun rootName hpass => ?_⟩
    have hnamed := hpass.1.named
    rw [RootDecl.externalName?, hname] at hnamed
    cases hnamed
  | some rootName =>
    -- The rules speak of some external name, which can only be the one that has been computed.
    have huniq : ∀ other, decl.PassesWalk d other → other = rootName := fun other hpass =>
      (Option.some.inj (hname.symm.trans hpass.1.named)).symm
    dsimp only
    by_cases hcontaining : (d.root? (Naming.containingName decl.group.typeName)).isSome = true
    · refine Or.inl ⟨_, if_pos hcontaining, rfl, fun other hpass => ?_⟩
      obtain ⟨root, hmem, heq⟩ := List.find?_isSome.mp hcontaining
      exact hpass.1.newContainingName root hmem (of_decide_eq_true heq)
    rw [if_neg hcontaining]
    by_cases hexternal : d.roots.any (·.rootName = rootName) = true
    · refine Or.inl ⟨_, if_pos hexternal, rfl, fun other hpass => ?_⟩
      obtain ⟨root, hmem, heq⟩ := List.any_eq_true.mp hexternal
      rw [huniq other hpass] at hpass
      exact hpass.1.newExternalName root hmem (of_decide_eq_true heq)
    rw [if_neg hexternal]
    let ctx : Drafting := { definition := d, root := decl.containingName, phase := decl.phase }
    -- From here on only the walk can refuse: the rules about the root itself hold.
    have hsettles := draftGroup_settles ctx (Text.split '.' rootName) [] false decl.group heach {}
    have hpasses : decl.PassesWalk d rootName ↔
        decl.group.Admissible decl.phase ∧ Accepts d.index [] (decl.requests rootName) := by
      rw [accepts_iff, RootDecl.PassesWalk]
      constructor
      · rintro ⟨hwell, hnodup, hfree⟩
        exact ⟨hwell.fields, hwell.defaults, hfree, hnodup, by simp⟩
      · rintro ⟨hfields, hdefaults, hfree, hnodup, -⟩
        refine ⟨⟨by simpa using hgroup, hname, fun root hmem heq => ?_, fun root hmem heq => ?_,
          hfields, hdefaults⟩, hnodup, hfree⟩
        · exact hcontaining (List.find?_isSome.mpr ⟨root, hmem, decide_eq_true heq⟩)
        · exact hexternal (List.any_eq_true.mpr ⟨root, hmem, decide_eq_true heq⟩)
    change (∃ e, (draftGroup ctx (Text.split '.' rootName) [] false decl.group {} >>= fun x =>
      pure (_, x.2)) = .error e ∧ _) ∨ ∃ root draft, (draftGroup ctx (Text.split '.' rootName) []
        false decl.group {} >>= fun x => pure (_, x.2)) = .ok (root, draft) ∧ _
    cases hdraft : draftGroup ctx (Text.split '.' rootName) [] false decl.group {} with
    | error e =>
      rw [hdraft] at hsettles
      refine Or.inl ⟨e, rfl, hsettles.1, fun other hpass => ?_⟩
      rw [huniq other hpass] at hpass
      exact hsettles.2 (hpasses.mp hpass)
    | ok x =>
      obtain ⟨tree, draft⟩ := x
      rw [hdraft] at hsettles
      obtain ⟨haccepts, ls, ts, rfl, hrequests, hlays, hidents⟩ := hsettles
      exact Or.inr ⟨_, _, rfl, rfl, draftGroup_typeName hdraft, rfl, rfl, hpasses.mpr haccepts,
        hrequests, hlays, hidents⟩

/-! ### Registering a root -/

/-- **What registering a root does.** The declaration is refused in the walk, and nothing changes;
or a leaf of the draft repeats the segments of a leaf before it, and those before it stay; or the
root is registered with all its leaves. -/
theorem registerRoot_cases (d : Definition) (decl : RootDecl)
    (heach : decl.group.Each piece idents) :
    (∃ e, d.registerRoot decl = (d, .error e) ∧ e.isSchemaError = true ∧
        ∀ rootName, ¬decl.PassesWalk d rootName) ∨
      ∃ root draft, d.draftRoot decl = .ok (root, draft) ∧
        RootDrafted piece idents d decl root draft ∧
        ((∃ before leaf after d', draft.leaves = before ++ leaf :: after ∧
            d.registerRoot decl = (d', .error (.duplicatePattern leaf.pattern)) ∧
            Committed d before d' ∧ Fresh d before ∧
            leaf.request.segments ∈ before.map (·.request.segments)) ∨
          ∃ d', d.registerRoot decl = ({ d' with
              roots := d'.roots ++ [root]
              templates := d'.templates ++ draft.templates }, .ok ()) ∧
            Committed d draft.leaves d' ∧ Fresh d draft.leaves) := by
  rw [registerRoot]
  rcases draftRoot_cases d decl heach with ⟨e, hdraft, he, hpass⟩ | ⟨root, draft, hdraft, hroot⟩
  · rw [hdraft]
    exact Or.inl ⟨e, rfl, he, hpass⟩
  refine Or.inr ⟨root, draft, hdraft, hroot, ?_⟩
  rw [hdraft]
  rcases commitLeaves_cases draft.leaves d with
    ⟨d', hcommit, hd', hfresh⟩ | ⟨before, leaf, after, d', hsplit, hcommit, hd', hfresh, hbound⟩
  · refine Or.inr ⟨d', ?_, hd', hfresh⟩
    dsimp only
    rw [hcommit]
  · refine Or.inl ⟨before, leaf, after, d', hsplit, ?_, hd', hfresh, ?_⟩
    · dsimp only
      rw [hcommit]
    -- The walk has found the segments unbound, so it is one of the new leaves that binds them.
    by_contra hnew
    have hfind := hd'.free leaf.request.segments fun other hother heq =>
      hnew (heq ▸ List.mem_map_of_mem hother)
    have hleaf : leaf.request ∈ decl.requests root.rootName := by
      rw [← hroot.requests, hsplit]
      simp
    rw [hfind, hroot.passes.2.2 _ hleaf] at hbound
    cases hbound

/-- The segments of leaves are fresh exactly if those of their requests are. -/
theorem fresh_iff {d : Definition} {ls : List Leaf} {qs : List LeafRequest}
    (h : ls.map Leaf.request = qs) :
    Fresh d ls ↔ (qs.map (·.segments)).Nodup ∧ ∀ q ∈ qs, d.index.find? q.segments = none := by
  subst h
  simp [Fresh, Function.comp_def]

/-- Patterns with distinct segments are distinct, so admissible declarations pass the walk. -/
theorem RootDecl.Admissible.exists_passesWalk {d : Definition} {decl : RootDecl}
    (h : decl.Admissible d) : ∃ rootName, decl.PassesWalk d rootName := by
  obtain ⟨rootName, hwell, hnodup, hfree⟩ := h
  refine ⟨rootName, hwell, ?_, hfree⟩
  have hsegments : (decl.requests rootName).map (·.segments) =
      ((decl.requests rootName).map (·.pattern)).map Name.segments := by
    rw [List.map_map]
    rfl
  rw [hsegments] at hnodup
  exact List.Nodup.of_map _ hnodup

/-- **Acceptance.** A definition accepts a declaration exactly if it is admissible, and refuses
every other one with a schema error. -/
theorem registerRoot_ok_iff (d : Definition) (decl : RootDecl) :
    ((d.registerRoot decl).2 = .ok () ↔ decl.Admissible d) ∧
      (decl.Admissible d ∨
        ∃ e, (d.registerRoot decl).2 = .error e ∧ e.isSchemaError = true) := by
  rcases registerRoot_cases d decl decl.group.each_true with
    ⟨e, hresult, he, hpass⟩ | ⟨root, draft, -, hroot, hcommit⟩
  · have hnot : ¬decl.Admissible d := fun hadm => by
      obtain ⟨rootName, hwalk⟩ := hadm.exists_passesWalk
      exact hpass rootName hwalk
    rw [hresult]
    exact ⟨iff_of_false (by simp) hnot, Or.inr ⟨e, rfl, he⟩⟩
  have hfresh := fresh_iff (d := d) hroot.requests
  rcases hcommit with ⟨before, leaf, after, d', hsplit, hresult, -, -, hrep⟩ |
    ⟨d', hresult, -, hall⟩
  · have hnot : ¬decl.Admissible d := fun hadm => by
      obtain ⟨rootName, hwalk⟩ := hadm.exists_passesWalk
      obtain ⟨name, hwell, hnodup, hfree⟩ := hadm
      obtain rfl : name = root.rootName :=
        Option.some.inj (hwell.named.symm.trans hroot.passes.1.named)
      have hall := (hfresh.mpr ⟨hnodup, hfree⟩).1
      rw [hsplit, List.map_append, List.map_cons] at hall
      exact (List.nodup_append.mp hall).2.2 _ hrep _ List.mem_cons_self rfl
    rw [hresult]
    exact ⟨iff_of_false (by simp) hnot, Or.inr ⟨_, rfl, rfl⟩⟩
  · have hadm : decl.Admissible d := ⟨root.rootName, hroot.passes.1, hfresh.mp hall⟩
    rw [hresult]
    exact ⟨iff_of_true rfl hadm, Or.inl hadm⟩

/-! ### Atomicity -/

/-- Whether a declaration passes the walk although two of its patterns are different texts with the
same segments. -/
def RootDecl.Clashes (d : Definition) (decl : RootDecl) : Prop :=
  ∃ rootName, decl.PassesWalk d rootName ∧
    ∃ q ∈ decl.requests rootName, ∃ r ∈ decl.requests rootName,
      q.pattern ≠ r.pattern ∧ q.segments = r.segments

/-- What a refused declaration leaves behind if it fails at the first leaf that repeats the segments
of an earlier one: the drafted leaves before it, bound under consecutive indices, and nothing
else. -/
def HalfCommitted (d : Definition) (decl : RootDecl) (e : BindError) (d' : Definition) : Prop :=
  ∃ root draft before leaf after, d.draftRoot decl = .ok (root, draft) ∧
    draft.leaves.map Leaf.request = decl.requests root.rootName ∧
    draft.leaves = before ++ leaf :: after ∧
    (before.map (·.request.segments)).Nodup ∧
    leaf.request.segments ∈ before.map (·.request.segments) ∧
    e = .duplicatePattern leaf.pattern ∧
    d'.leaves = d.leaves ++ before ∧ d'.roots = d.roots ∧ d'.templates = d.templates ∧
    (∀ i earlier, before[i]? = some earlier →
      d'.index.find? earlier.request.segments = some (d.leaves.length + i)) ∧
    ∀ path, path ∉ before.map (·.request.segments) → d'.index.find? path = d.index.find? path

/-- **Registration is atomic, with one exception.** A refused declaration leaves the definition as
it was, unless it clashes with itself; then the leaves before the first repetition stay. -/
theorem registerRoot_atomic (d : Definition) (decl : RootDecl) (e : BindError)
    (h : (d.registerRoot decl).2 = .error e) :
    (decl.Clashes d ∧ HalfCommitted d decl e (d.registerRoot decl).1) ∨
      (¬decl.Clashes d ∧ (d.registerRoot decl).1 = d) := by
  rcases registerRoot_cases d decl decl.group.each_true with
    ⟨e', hresult, -, hpass⟩ | ⟨root, draft, hdraft, hroot, hcommit⟩
  · rw [hresult]
    exact Or.inr ⟨fun ⟨rootName, hwalk, _⟩ => hpass rootName hwalk, rfl⟩
  rcases hcommit with ⟨before, leaf, after, d', hsplit, hresult, hd', hfresh, hrep⟩ |
    ⟨d', hresult, -, -⟩
  · rw [hresult] at h ⊢
    obtain rfl : BindError.duplicatePattern leaf.pattern = e := by simpa using h
    refine Or.inl ⟨⟨root.rootName, hroot.passes, ?_⟩, root, draft, before, leaf, after, hdraft,
      hroot.requests, hsplit, hfresh.1, hrep, rfl, hd'.leaves, hd'.roots, hd'.templates, hd'.bound,
      fun path hpath => hd'.free path fun other hother heq =>
        hpath (heq ▸ List.mem_map_of_mem hother)⟩
    -- The repeated leaf has another text: the walk has compared the texts.
    obtain ⟨earlier, hearlier, hsegments⟩ := List.mem_map.mp hrep
    have hrequests := hroot.requests
    rw [hsplit, List.map_append, List.map_cons] at hrequests
    refine ⟨earlier.request, ?_, leaf.request, ?_, fun hpattern => ?_, hsegments⟩
    · rw [← hrequests]
      exact List.mem_append_left _ (List.mem_map_of_mem hearlier)
    · rw [← hrequests]
      exact List.mem_append_right _ List.mem_cons_self
    · have hnodup := hroot.passes.2.1
      rw [← hrequests, List.map_append, List.map_cons] at hnodup
      exact (List.nodup_append.mp hnodup).2.2 _
        (List.mem_map_of_mem (List.mem_map_of_mem hearlier)) _ List.mem_cons_self hpattern
  · rw [hresult] at h
    cases h

/-- A declaration that clashes with itself: the dot at the end of the second name begins no
segment. -/
def clashingDecl : RootDecl where
  group := ⟨"AConfig", false,
    [⟨"x", .element, none, .object .string, false, none⟩,
      ⟨"y", .explicit "x.", none, .object .string, false, none⟩]⟩
  name := .hyphenated
  phase := .runTime

/-- The first leaf of the clashing declaration stays. -/
theorem registerRoot_atomic_clashingDecl :
    (empty.registerRoot clashingDecl).2 = .error (.duplicatePattern "a.x.") ∧
      ((clashingDecl.Clashes empty ∧ HalfCommitted empty clashingDecl (.duplicatePattern "a.x.")
          (empty.registerRoot clashingDecl).1) ∨
        (¬clashingDecl.Clashes empty ∧ (empty.registerRoot clashingDecl).1 = empty)) :=
  have hresult : (empty.registerRoot clashingDecl).2 = .error (.duplicatePattern "a.x.") := by
    decide +kernel
  ⟨hresult, registerRoot_atomic empty clashingDecl _ hresult⟩

end PropertyBinding
