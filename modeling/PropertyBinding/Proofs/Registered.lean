import PropertyBinding.Proofs.Acceptance
import PropertyBinding.Proofs.Slots

/-!
# Definitions after any registrations

Registering declarations one after the other, whether each is accepted or refused, keeps a
definition sound (`Definition.Sound`): the index binds exactly the leaves of the table, every leaf
under its own segments, and the tree of every registered root lays leaves and templates that the
tables hold (`Root.Laid`). This also holds of the leaves that a refused declaration has left behind;
only, no tree need have them. If every declaration has been accepted, every leaf is one of a
registered root (`Built.owned`).
-/

namespace PropertyBinding

open Definition

variable {piece : String → Prop} {idents : List String → Prop}

/-- The definition after declarations have been registered one after the other, no matter which of
them have been refused. -/
def registerAll (decls : List RootDecl) : Definition :=
  decls.foldl (fun d decl => (d.registerRoot decl).1) .empty

/-- A definition built by accepted declarations that all have a property. -/
inductive Built (good : RootDecl → Prop) : Definition → Prop where
  | empty : Built good .empty
  | register {d d' : Definition} {decl : RootDecl} (built : Built good d) (good_decl : good decl)
      (accepted : d.registerRoot decl = (d', .ok ())) : Built good d'

/-- Whether all name pieces that a declared root and its fields contribute have one property, and
all its lists of identifiers another. -/
def RootDecl.Each (piece : String → Prop) (idents : List String → Prop) (decl : RootDecl) : Prop :=
  (∀ rootName, decl.externalName? = some rootName → ∀ p ∈ Text.split '.' rootName, piece p) ∧
    decl.group.Each piece idents

theorem RootDecl.each_true (decl : RootDecl) : decl.Each (fun _ => True) (fun _ => True) :=
  ⟨fun _ _ _ _ => trivial, decl.group.each_true⟩

/-- A name is matched by the index, and the leaf stands in the table. -/
theorem Definition.matchLeaf_eq_some {d : Definition} {name : Cursor} {id : Nat} {leaf : Leaf}
    (h : d.matchLeaf name = some (id, leaf)) :
    d.index.matchName name = some id ∧ d.leaf? id = some leaf := by
  obtain ⟨id', hindex, h⟩ := Option.bind_eq_some_iff.mp h
  obtain ⟨leaf', hleaf, h⟩ := Option.bind_eq_some_iff.mp h
  obtain ⟨rfl, rfl⟩ : id' = id ∧ leaf' = leaf := by simpa using h
  exact ⟨hindex, hleaf⟩

/-! ### Sound definitions -/

/-- Whether the tables of a definition hold what a root has added to them. -/
structure Root.Laid (piece : String → Prop) (idents : List String → Prop) (d : Definition)
    (root : Root) : Prop where
  typeName : root.tree.typeName = root.typeName
  pieces : ∀ p ∈ Text.split '.' root.rootName, piece p
  idents : (Node.group root.tree).Each idents
  lays : ∃ l t ls ts, HasAt d.leaves l ls ∧ HasAt d.templates t ts ∧
    Lays piece root.containingName (Text.split '.' root.rootName) [] (.group root.tree) l t ls ts

/-- Tables that grow hold what they held. -/
theorem Root.Laid.mono {d d' : Definition} {root : Root} (h : root.Laid piece idents d)
    {ls : List Leaf} {ts : List Value} (hleaves : d'.leaves = d.leaves ++ ls)
    (htemplates : d'.templates = d.templates ++ ts) : root.Laid piece idents d' where
  typeName := h.typeName
  pieces := h.pieces
  idents := h.idents
  lays := by
    obtain ⟨l, t, ls', ts', hl, ht, hlays⟩ := h.lays
    refine ⟨l, t, ls', ts', ?_, ?_, hlays⟩
    · rw [hleaves]
      exact hl.append_right ls
    · rw [htemplates]
      exact ht.append_right ts

/-- A root's leaves stand in the table, and the root's tree leads to them. -/
theorem Root.Laid.exists_leaf {d : Definition} {root : Root} (h : root.Laid piece idents d)
    {id : Nat} (hid : id ∈ root.tree.leafIds) :
    ∃ leaf, d.leaves[id]? = some leaf ∧ leaf.root = root.containingName ∧
      leaf.OnWay d.leaves d.templates piece (.group root.tree) (Text.split '.' root.rootName) []
        id := by
  obtain ⟨l, t, ls, ts, hl, ht, hlays⟩ := h.lays
  have hids := hlays.ids
  rw [Node.leafIds] at hids
  rw [hids] at hid
  obtain ⟨hle, hlt⟩ := List.mem_range'_1.mp hid
  -- Leaves of the root are numbered from `l` on, in the order in which they were laid.
  have hlen : id - l < ls.length := by omega
  have hleaf : ls[id - l]? = some ls[id - l] := List.getElem?_eq_getElem hlen
  have hsum : l + (id - l) = id := by omega
  have hat := hl _ _ hleaf
  have hway := hlays.ways d.leaves d.templates hl ht _ _ hleaf
  rw [hsum] at hat hway
  exact ⟨_, hat, hlays.roots _ (List.getElem_mem hlen), hway⟩

/-- What holds of a definition after any registrations. -/
structure Definition.Sound (piece : String → Prop) (idents : List String → Prop)
    (d : Definition) : Prop where
  tidy : d.index.Tidy
  /-- The index binds leaves of the table under their segments, -/
  found : ∀ path id, d.index.find? path = some id →
    ∃ leaf, d.leaves[id]? = some leaf ∧ leaf.request.segments = path
  /-- and all of them. -/
  bound : ∀ (id : Nat) (leaf : Leaf), d.leaves[id]? = some leaf →
    d.index.find? leaf.request.segments = some id
  values : ∀ leaf ∈ d.leaves, Convert.value leaf.kind leaf.default = .ok leaf.defaultValue
  names : (d.roots.map (·.containingName)).Nodup
  laid : ∀ root ∈ d.roots, root.Laid piece idents d

/-- The defaults of all leaves are scalars. -/
theorem Definition.Sound.scalar {d : Definition} (h : d.Sound piece idents) :
    ∀ leaf ∈ d.leaves, leaf.defaultValue.IsScalar :=
  fun leaf hleaf => Convert.value_isScalar (h.values leaf hleaf)

/-- The pattern of the leaf that a name matches covers the segments of the name. -/
theorem Definition.Sound.covers {d : Definition} (h : d.Sound piece idents) {name : Cursor}
    {id : Nat} {leaf : Leaf} (hmatch : d.matchLeaf name = some (id, leaf)) :
    PatternMap.Covers (Name.segments leaf.pattern) name.remaining := by
  obtain ⟨hindex, hleaf⟩ := matchLeaf_eq_some hmatch
  obtain ⟨path, hcovers, hfind⟩ := PatternMap.exists_covers_of_matchSegments h.tidy hindex
  obtain ⟨leaf', hleaf', rfl⟩ := h.found path id hfind
  obtain rfl := Option.some.inj (hleaf.symm.trans hleaf')
  exact hcovers

/-- A name that matches a leaf has as many segments as the leaf's pattern. -/
theorem Definition.Sound.length_segments {d : Definition} (h : d.Sound piece idents) {name : Cursor}
    {id : Nat} {leaf : Leaf} (hmatch : d.matchLeaf name = some (id, leaf)) :
    (Name.segments leaf.pattern).length = name.remaining.length :=
  (h.covers hmatch).length_eq

theorem Definition.sound_empty : Definition.empty.Sound piece idents where
  tidy := PatternMap.tidy_empty
  found := by simp [Definition.empty, PatternMap.find?_empty]
  bound := by simp [Definition.empty]
  values := by simp [Definition.empty]
  names := List.nodup_nil
  laid := by simp [Definition.empty]

/-- Committing fresh leaves keeps a definition sound. -/
theorem Definition.Sound.commit {d d' : Definition} {ls : List Leaf} (h : d.Sound piece idents)
    (hd' : Committed d ls d') (hfresh : Fresh d ls)
    (hvalues : ∀ leaf ∈ ls, Convert.value leaf.kind leaf.default = .ok leaf.defaultValue) :
    d'.Sound piece idents where
  tidy := hd'.tidy h.tidy
  found := by
    intro path id hfind
    rw [hd'.leaves]
    by_cases hpath : ∃ leaf ∈ ls, leaf.request.segments = path
    · obtain ⟨leaf, hleaf, rfl⟩ := hpath
      obtain ⟨i, hi⟩ := List.mem_iff_getElem?.mp hleaf
      rw [hd'.bound i leaf hi] at hfind
      obtain rfl := Option.some.inj hfind
      exact ⟨leaf, hasAt_append d.leaves ls i leaf hi, rfl⟩
    · rw [hd'.free path fun leaf hleaf heq => hpath ⟨leaf, hleaf, heq⟩] at hfind
      obtain ⟨leaf, hleaf, hsegments⟩ := h.found path id hfind
      have hlt : id < d.leaves.length := (List.getElem?_eq_some_iff.mp hleaf).1
      exact ⟨leaf, by rw [List.getElem?_append_left hlt, hleaf], hsegments⟩
  bound := by
    intro id leaf hleaf
    rw [hd'.leaves] at hleaf
    rcases Nat.lt_or_ge id d.leaves.length with hlt | hge
    · rw [List.getElem?_append_left hlt] at hleaf
      have hbound := h.bound id leaf hleaf
      -- A fresh leaf does not have the segments of one that is bound.
      rw [hd'.free _ fun other hother heq => ?_, hbound]
      have hnone := hfresh.2 other hother
      rw [heq, hbound] at hnone
      cases hnone
    · rw [List.getElem?_append_right hge] at hleaf
      rw [hd'.bound _ leaf hleaf, Nat.add_sub_cancel' hge]
  values := by
    intro leaf hleaf
    rw [hd'.leaves] at hleaf
    rcases List.mem_append.mp hleaf with hleaf | hleaf
    · exact h.values leaf hleaf
    · exact hvalues leaf hleaf
  names := by
    rw [hd'.roots]
    exact h.names
  laid := by
    intro root hroot
    rw [hd'.roots] at hroot
    exact (h.laid root hroot).mono hd'.leaves (by rw [hd'.templates, List.append_nil])

/-- Adding the root whose leaves have been committed keeps a definition sound. -/
theorem Definition.Sound.addRoot {d d' : Definition} {root : Root} {draft : Draft}
    {decl : RootDecl} (h : d'.Sound piece idents) (hd' : Committed d draft.leaves d')
    (hdecl : decl.Each piece idents) (hroot : RootDrafted piece idents d decl root draft) :
    ({ d' with
        roots := d'.roots ++ [root]
        templates := d'.templates ++ draft.templates } : Definition).Sound piece idents where
  tidy := h.tidy
  found := h.found
  bound := h.bound
  values := h.values
  names := by
    rw [List.map_append, List.nodup_append]
    refine ⟨h.names, List.nodup_singleton _, ?_⟩
    intro name hname other hother
    obtain ⟨earlier, hearlier, rfl⟩ := List.mem_map.mp hname
    obtain rfl : other = root.containingName := by simpa using hother
    rw [hd'.roots] at hearlier
    rw [hroot.containingName]
    exact hroot.passes.1.newContainingName earlier hearlier
  laid := by
    intro other hother
    rcases List.mem_append.mp hother with hother | hother
    · exact (h.laid other hother).mono (List.append_nil _).symm rfl
    · obtain rfl := List.mem_singleton.mp hother
      refine ⟨hroot.treeTypeName.trans hroot.typeName.symm,
        fun p hp => hdecl.1 _ hroot.passes.1.named p hp, hroot.idents, ?_⟩
      refine ⟨_, _, _, _, ?_, ?_, hroot.lays⟩
      · change HasAt d'.leaves _ _
        rw [hd'.leaves]
        exact hasAt_append d.leaves draft.leaves
      · change HasAt (d'.templates ++ draft.templates) _ _
        rw [hd'.templates]
        exact hasAt_append d.templates draft.templates

/-- **Registering keeps a definition sound**, also if the declaration is refused. -/
theorem Definition.Sound.registerRoot {d : Definition} (h : d.Sound piece idents)
    {decl : RootDecl} (hdecl : decl.Each piece idents) :
    (d.registerRoot decl).1.Sound piece idents := by
  rcases registerRoot_cases d decl hdecl.2 with
    ⟨e, hresult, -, -⟩ | ⟨root, draft, -, hroot, hcommit⟩
  · rw [hresult]
    exact h
  rcases hcommit with ⟨before, leaf, after, d', hsplit, hresult, hd', hfresh, -⟩ |
    ⟨d', hresult, hd', hfresh⟩
  · rw [hresult]
    refine h.commit hd' hfresh fun other hother => hroot.lays.values other ?_
    rw [hsplit]
    exact List.mem_append_left _ hother
  · rw [hresult]
    exact (h.commit hd' hfresh hroot.lays.values).addRoot hd' hdecl hroot

/-- What holds of the definition without roots and is preserved by registering, holds after any
registrations. -/
theorem registerAll_holds {P : Definition → Prop} (hempty : P .empty)
    (hregister : ∀ d decl, P d → P (d.registerRoot decl).1) (decls : List RootDecl) :
    P (registerAll decls) :=
  List.foldlRecOn decls _ hempty fun d hd decl _ => hregister d decl hd

/-- After any registrations, a definition is sound. -/
theorem registerAll_sound (decls : List RootDecl) :
    (registerAll decls).Sound (fun _ => True) (fun _ => True) :=
  registerAll_holds sound_empty (fun _ decl hd => hd.registerRoot decl.each_true) decls

/-! ### Definitions without refusals -/

/-- A definition built by accepted declarations is sound. -/
theorem Built.sound {d : Definition} (h : Built (RootDecl.Each piece idents) d) :
    d.Sound piece idents := by
  induction h with
  | empty => exact sound_empty
  | register _ hdecl accepted ih =>
    have hsound := ih.registerRoot hdecl
    rwa [accepted] at hsound

/-- A definition built by accepted declarations is sound, whatever they are like. -/
theorem Built.sound_any {d : Definition} {good : RootDecl → Prop} (h : Built good d) :
    d.Sound (fun _ => True) (fun _ => True) := by
  have hany : Built (RootDecl.Each (fun _ => True) fun _ => True) d := by
    induction h with
    | empty => exact .empty
    | @register _ _ decl _ _ accepted ih => exact .register ih decl.each_true accepted
  exact hany.sound

/-- In a definition built by accepted declarations, every leaf is one of a registered root. -/
theorem Built.owned {d : Definition} {good : RootDecl → Prop} (h : Built good d) {id : Nat}
    (hid : id < d.leaves.length) : ∃ root ∈ d.roots, id ∈ root.tree.leafIds := by
  induction h with
  | empty => exact absurd hid (Nat.not_lt_zero _)
  | @register d d' decl built _ accepted ih =>
    rcases registerRoot_cases d decl decl.group.each_true with
      ⟨e, hresult, -, -⟩ | ⟨root, draft, -, hroot, hcommit⟩
    · rw [accepted] at hresult
      cases hresult
    rcases hcommit with ⟨before, leaf, after, d'', hsplit, hresult, -, -, -⟩ |
      ⟨d'', hresult, hd'', -⟩
    · rw [accepted] at hresult
      cases hresult
    -- Only the last case accepts: leaves from before have earlier roots, the new ones the new root.
    obtain rfl := congrArg Prod.fst (accepted.symm.trans hresult)
    dsimp only at hid ⊢
    rw [hd''.roots]
    rw [hd''.leaves, List.length_append] at hid
    rcases Nat.lt_or_ge id d.leaves.length with hlt | hge
    · obtain ⟨earlier, hearlier, hmem⟩ := ih hlt
      exact ⟨earlier, List.mem_append_left _ hearlier, hmem⟩
    · have hids := hroot.lays.ids
      rw [Node.leafIds] at hids
      refine ⟨root, List.mem_append_right _ (List.mem_singleton.mpr rfl), ?_⟩
      rw [hids]
      exact List.mem_range'_1.mpr ⟨hge, hid⟩

end PropertyBinding
