import PropertyBinding.Proofs.DerivedDeclarations
import PropertyBinding.Proofs.DerivedNames
import PropertyBinding.Proofs.Freezing

/-!
# Roots derived from metadata

A structure with well named fields and an identifier for its type name asks for leaves whose
patterns begin with one plain piece for the root and go on with the names of the fields around each
leaf. Such patterns have different segments (`Metadata.nodup_segments`), so nothing but a default
that cannot be read keeps a definition without roots from accepting the derived root: an integer of
more than 64 bits. What is realized for an accepted one mirrors the structure
(`Metadata.toRoot_registers`).
-/

namespace PropertyBinding

open Definition

/-! ### Accepting -/

section Registering

variable {d d' : Definition} {decl : RootDecl}

/-- An admissible declaration is accepted. -/
theorem RootDecl.Admissible.exists_registerRoot (h : decl.Admissible d) :
    ∃ d', d.registerRoot decl = (d', .ok ()) := by
  rcases registerRoot_cases d decl decl.group.each_true with
    ⟨e, -, -, hpass⟩ | ⟨root, draft, -, hroot, hcommit⟩
  · obtain ⟨rootName, hwalk⟩ := h.exists_passesWalk
    exact absurd hwalk (hpass rootName)
  rcases hcommit with ⟨before, leaf, after, d', hsplit, -, -, -, hrep⟩ | ⟨d', hresult, -⟩
  · -- A leaf that repeats segments answers a request that does.
    obtain ⟨rootName, hwell, hnodup, -⟩ := h
    obtain rfl := Option.some.inj (hwell.named.symm.trans hroot.passes.1.named)
    rw [← hroot.requests, hsplit, List.map_map, List.map_append, List.map_cons] at hnodup
    exact absurd rfl ((List.nodup_append.mp hnodup).2.2 _ hrep _ List.mem_cons_self)
  · exact ⟨_, hresult⟩

/-- The defaults of an accepted declaration can be read. -/
theorem RootDecl.reads_of_registerRoot (h : (d.registerRoot decl).2 = .ok ()) {rootName : String}
    (hname : decl.externalName? = some rootName) : ∀ q ∈ decl.requests rootName, q.Reads := by
  rcases registerRoot_cases d decl decl.group.each_true with
    ⟨e, hresult, -⟩ | ⟨root, draft, -, hroot, -⟩
  · rw [hresult] at h
    cases h
  · obtain rfl := Option.some.inj (hname.symm.trans hroot.passes.1.named)
    exact hroot.passes.1.defaults

end Registering

/-! ### Derived roots -/

namespace Metadata

variable {m : Metadata} {phase : Phase} {decl : RootDecl}

/-- A root is derived as a group that is named after its type. -/
theorem toRoot_eq_ok (h : m.toRoot phase = .ok decl) :
    ∃ group, m.toGroup = .ok group ∧ decl = ⟨group, .hyphenated, phase⟩ := by
  obtain ⟨group, hgroup, h⟩ := ok_of_bind_eq_ok h
  exact ⟨group, hgroup, (Except.ok.inj h).symm⟩

theorem toGroup_names {group : GroupDecl} (h : m.toGroup = .ok group) :
    group.typeName = m.name ∧ group.isGroup = false := by
  obtain ⟨name, fields⟩ := m
  obtain ⟨decls, -, rfl⟩ := toGroup_eq_ok h
  exact ⟨rfl, rfl⟩

/-- The plain pieces of the root's name and the keys are the segments of the patterns. -/
theorem nodup_segments {group : GroupDecl} (h : m.toGroup = .ok group) (hnamed : m.WellNamed)
    {piece : String} (hpiece : PlainPiece piece) :
    ((group.requests [piece] false).map (·.segments)).Nodup := by
  obtain ⟨hkeys, hpieces⟩ := m.nodup_keys hnamed
  have hsegments : (group.requests [piece] false).map (·.segments) =
      m.keys.map (piece :: ·) := by
    have hpatterns := congrArg (List.map Name.segments) ((m.asksFor false h).patterns [piece])
    rw [List.map_map, List.map_map] at hpatterns
    refine hpatterns.trans (List.map_congr_left fun key hkey => ?_)
    exact Name.segments_intercalate fun p hp =>
      (List.forall_mem_cons.mpr ⟨hpiece, hpieces key hkey⟩ p hp).bare
  rw [hsegments]
  exact hkeys.map (List.cons_injective)

/-- All expressions fit exactly if the integers do. -/
theorem forall_fits_iff (m : Metadata) :
    (∀ expr ∈ m.defaults, expr.Fits) ↔ ∀ n, .integer n ∈ m.defaults → Numeric.FitsLong n := by
  refine ⟨fun h n hn => h _ hn, fun h expr hexpr => ?_⟩
  cases expr with
  | integer n => exact h n hexpr
  | _ => trivial

/-- The name of a derived root is one plain piece. -/
theorem split_externalName (h : m.toRoot phase = .ok decl) (hname : Naming.IsIdentifier m.name) :
    ∃ rootName, decl.externalName? = some rootName ∧ PlainPiece rootName ∧
      Text.split '.' rootName = [rootName] := by
  obtain ⟨group, hgroup, rfl⟩ := toRoot_eq_ok h
  refine ⟨Naming.hyphenatedRootName group.typeName, rfl, ?_⟩
  rw [(toGroup_names hgroup).1]
  have hpiece := Naming.plainPiece_hyphenatedRootName hname
  exact ⟨hpiece, by rw [Text.split, Text.pieces_of_not_mem hpiece.no_dot, List.map_singleton,
    String.ofList_toList]⟩

/-- **A derived root is accepted** by the definition without roots exactly if its integers fit. -/
theorem registerRoot_toRoot_iff (h : m.toRoot phase = .ok decl)
    (hname : Naming.IsIdentifier m.name) (hnamed : m.WellNamed) :
    (empty.registerRoot decl).2 = .ok () ↔ ∀ expr ∈ m.defaults, expr.Fits := by
  obtain ⟨rootName, hexternal, hpiece, hsplit⟩ := split_externalName h hname
  obtain ⟨group, hgroup, rfl⟩ := toRoot_eq_ok h
  have hreads : (∀ q ∈ RootDecl.requests ⟨group, .hyphenated, phase⟩ rootName, q.Reads) ↔
      ∀ expr ∈ m.defaults, expr.Fits := by
    rw [RootDecl.requests, hsplit]
    exact (m.asksFor false hgroup).reads_iff _
  constructor
  · exact fun hok => hreads.mp (RootDecl.reads_of_registerRoot hok hexternal)
  · intro hfits
    have hadmissible : RootDecl.Admissible empty ⟨group, .hyphenated, phase⟩ := by
      refine ⟨rootName, ⟨(toGroup_names hgroup).2, hexternal, by simp [empty], by simp [empty],
        m.admissible_toGroup hgroup, hreads.mpr hfits⟩, ?_, ?_⟩
      · rw [RootDecl.requests, hsplit]
        exact nodup_segments hgroup hnamed hpiece
      · exact fun q _ => PatternMap.find?_empty _
    obtain ⟨d, hd⟩ := hadmissible.exists_registerRoot
    rw [hd]

/-- **Derived roots.** No declaration is derived from a structure exactly if some default in it, at
any depth, is a map or an array of more than scalars, and the error is about a default. A derived
root with an identifier for its type name and well named fields is accepted by the definition
without roots exactly if all integers among the defaults have 64 bits; what is realized for it then
mirrors the structure. -/
theorem toRoot_registers (m : Metadata) (phase : Phase) :
    ((∃ e, m.toGroup = .error e) ↔ ∃ expr ∈ m.defaults, expr.Unbindable) ∧
      (∀ e, m.toGroup = .error e → ∃ key fault, e = .invalidDefault key fault) ∧
      ∀ decl, m.toRoot phase = .ok decl → Naming.IsIdentifier m.name → m.WellNamed →
        ((empty.registerRoot decl).2 = .ok () ↔
          ∀ n, .integer n ∈ m.defaults → Numeric.FitsLong n) ∧
        ∀ d, empty.registerRoot decl = (d, .ok ()) →
          ∀ stage : Stage, stage.includes phase = true →
            ∃ g, (d.realize stage).instanceOf m.name = .ok g ∧ m.Mirrors g := by
  refine ⟨?_, ?_, fun decl h hname hnamed => ?_⟩
  · rcases m.toGroup_cases with ⟨hall, group, hgroup⟩ | ⟨hexpr, key, fault, herror⟩
    · rw [hgroup]
      exact iff_of_false (by simp) fun ⟨expr, hexpr, hunbindable⟩ => hall expr hexpr hunbindable
    · exact iff_of_true ⟨_, herror⟩ hexpr
  · intro e he
    rcases m.toGroup_cases with ⟨-, group, hgroup⟩ | ⟨-, key, fault, herror⟩
    · cases hgroup.symm.trans he
    · exact ⟨key, fault, Except.error.inj (he.symm.trans herror)⟩
  have hiff := registerRoot_toRoot_iff h hname hnamed
  refine ⟨hiff.trans m.forall_fits_iff, fun d hd stage hstage => ?_⟩
  obtain ⟨group, hgroup, rfl⟩ := toRoot_eq_ok h
  refine ⟨group.graph, ?_, m.mirrors_graph hgroup hnamed (hiff.mp (by rw [hd]))⟩
  rw [← (toGroup_names hgroup).1]
  exact Built.realize_graph .empty hd hstage

end Metadata

/-- A structure with a nested one, and with defaults of every kind that a property can stand for. -/
def serverMetadata : Metadata where
  name := "ServerConfig"
  fields := [⟨"name", [], .required none⟩, ⟨"port", [], .required (some (.integer 8080))⟩,
    ⟨"hosts", [], .required (some (.array [.str "a,b", .integer 7]))⟩, ⟨"user", [], .optional⟩,
    ⟨"log", [" The log."], .nested ⟨"LogConfig", [⟨"level", [], .required (some (.str "info"))⟩,
      ⟨"color", [], .required (some (.bool true))⟩]⟩⟩]

/-- The root that is derived from this structure is accepted, and what is realized mirrors it. -/
theorem toRoot_registers_serverMetadata :
    ∃ decl d g, serverMetadata.toRoot .runTime = .ok decl ∧
      Naming.IsIdentifier serverMetadata.name ∧ serverMetadata.WellNamed ∧
      empty.registerRoot decl = (d, .ok ()) ∧ Stage.runtime.includes .runTime = true ∧
      (d.realize .runtime).instanceOf "ServerConfig" = .ok g ∧ serverMetadata.Mirrors g := by
  have hname : Naming.IsIdentifier serverMetadata.name := by decide +kernel
  have hnamed : serverMetadata.WellNamed := by decide +kernel
  obtain ⟨decl, hdecl⟩ : ∃ decl, serverMetadata.toRoot .runTime = .ok decl := ⟨_, rfl⟩
  obtain ⟨haccepted, hrealized⟩ :=
    (Metadata.toRoot_registers serverMetadata .runTime).2.2 decl hdecl hname hnamed
  have hfits : ∀ n, .integer n ∈ serverMetadata.defaults → Numeric.FitsLong n := by
    intro n hn
    have hdefaults : serverMetadata.defaults = [.integer 8080, .array [.str "a,b", .integer 7],
      .str "info", .bool true] := rfl
    obtain rfl : n = 8080 := by simpa [hdefaults] using hn
    decide
  obtain ⟨d, hd⟩ : ∃ d, empty.registerRoot decl = (d, .ok ()) :=
    ⟨_, Prod.ext rfl (haccepted.mpr hfits)⟩
  obtain ⟨g, hg, hmirrors⟩ := hrealized d hd .runtime rfl
  exact ⟨decl, d, g, hdecl, hname, hnamed, hd, rfl, hg, hmirrors⟩

end PropertyBinding
