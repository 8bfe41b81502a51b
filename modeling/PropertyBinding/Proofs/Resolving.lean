import PropertyBinding.Proofs.Freezing
import PropertyBinding.Proofs.LoadRuns

/-!
# Resolving cells again

Loading goes through the names of a source, in whatever way they are spelled. A frozen config is
resolved again by the names of its cells, each of which has one spelling, put behind the namespace
as it is. So the source that a config has been loaded from need not leave the cells alone.

The value in a leaf slot is the one that the last name given for the slot has, or the default
(`Loader.lastRaw`, `Loader.Run.settled`). This says exactly when resolving again from the source of
the load changes nothing: where the last name of every cell's slot and the name of the cell have
equal values (`Built.reResolve_iff`). It is so if all names of overridable slots are spelled as
those of the cells (`Loaded.reResolve_of_spelled`), and not in general
(`reResolve_cellsDecl_changes`).
-/

namespace PropertyBinding

open Definition

/-! ### Names of slots -/

/-- Whether the segments of a name that a leaf's path reads are these map keys. -/
def Leaf.Reads (leaf : Leaf) (name : Cursor) (keys : List String) : Prop :=
  (keySegments leaf.path).map (fun segment => name.segment? (name.position + segment)) =
    keys.map some

instance (leaf : Leaf) (name : Cursor) (keys : List String) : Decidable (leaf.Reads name keys) :=
  inferInstanceAs (Decidable (_ = _))

section Addresses

variable {keyAt : Nat → Option String} {path : List PathStep} {keys : List String}
  {address : List SlotStep}

/-- If the keys that a path reads are there, a write along it has an address. -/
theorem exists_addresses_of_keys (h : (keySegments path).map keyAt = keys.map some) :
    ∃ address, Addresses keyAt path address ∧ fillPath path keys = some address := by
  refine exists_addresses ?_
  rw [← List.forall₂_map_right_iff (R := fun segment k => keyAt segment = k),
    ← List.forall₂_map_left_iff (R := Eq), h]
  exact List.forall₂_refl _

/-- The addresses of a path in a write are those that it has with the keys that it reads. -/
theorem addresses_iff : Addresses keyAt path address ↔
    ∃ keys, (keySegments path).map keyAt = keys.map some ∧ fillPath path keys = some address := by
  constructor
  · intro h
    induction h with
    | nil => exact ⟨[], rfl, rfl⟩
    | field ident _ ih =>
      obtain ⟨keys, hkeys, hfill⟩ := ih
      exact ⟨keys, hkeys, by rw [fillPath, hfill]; rfl⟩
    | @entry _ _ _ k template key_eq _ ih =>
      obtain ⟨keys, hkeys, hfill⟩ := ih
      exact ⟨k :: keys, by rw [keySegments, List.map_cons, hkeys, key_eq]; rfl,
        by rw [fillPath, hfill]; rfl⟩
  · rintro ⟨keys, hkeys, hfill⟩
    obtain ⟨address', haddresses, hfill'⟩ := exists_addresses_of_keys hkeys
    obtain rfl := Option.some.inj (hfill.symm.trans hfill')
    exact haddresses

end Addresses

namespace Loader

/-- Whether a full name is one for the slot that the leaf `id` has under map keys. -/
def Reaches (l : Loader) (d : Definition) (id : Nat) (keys : List String) (name : String) : Prop :=
  l.Owns name ∧ ∃ leaf, d.matchLeaf (Cursor.ofName name).next.2 = some (id, leaf) ∧
    leaf.Reads (Cursor.ofName name).next.2 keys

instance (l : Loader) (d : Definition) (id : Nat) (keys : List String) (name : String) :
    Decidable (l.Reaches d id keys name) :=
  decidable_of_iff (l.Owns name ∧ (d.matchLeaf (Cursor.ofName name).next.2).any (fun found =>
      decide (found.1 = id ∧ found.2.Reads (Cursor.ofName name).next.2 keys)) = true) (by
    rw [Reaches]
    refine and_congr Iff.rfl ?_
    cases d.matchLeaf (Cursor.ofName name).next.2 with
    | none => simp
    | some found => simp [Prod.ext_iff, and_assoc])

/-- The raw text of the last of some names for a slot. It is empty if there is none. -/
def lastRaw (l : Loader) (d : Definition) (value? : String → Option String) (id : Nat)
    (keys names : List String) : String :=
  ((names.filter fun name => decide (l.Reaches d id keys name)).getLast?.bind value?).getD ""

section LastRaw

variable {l : Loader} {d : Definition} {value? : String → Option String} {id : Nat}
  {keys names : List String} {name : String}

theorem lastRaw_append_of_reaches (h : l.Reaches d id keys name) :
    l.lastRaw d value? id keys (names ++ [name]) = (value? name).getD "" := by
  rw [lastRaw, List.filter_append, List.filter_singleton, decide_eq_true h, cond_true,
    List.getLast?_concat, Option.bind_some]

theorem lastRaw_append_of_not (h : ¬l.Reaches d id keys name) :
    l.lastRaw d value? id keys (names ++ [name]) = l.lastRaw d value? id keys names := by
  rw [lastRaw, lastRaw, List.filter_append, List.filter_singleton, decide_eq_false h, cond_false,
    List.append_nil]

theorem lastRaw_of_forall_not (h : ∀ name ∈ names, ¬l.Reaches d id keys name) :
    l.lastRaw d value? id keys names = "" := by
  rw [lastRaw, List.filter_eq_nil_iff.mpr fun name hname => by simpa using h name hname]
  rfl

/-- If only one of some names is one for a slot, the raw text is the one of this name. -/
theorem lastRaw_eq_of_only (only : String)
    (h : ∀ name ∈ names, l.Reaches d id keys name ↔ name = only)
    (hlisted : only ∉ names → value? only = none) :
    l.lastRaw d value? id keys names = (value? only).getD "" := by
  by_cases hmem : only ∈ names
  · have hfilter : ∀ name ∈ names.filter fun name => decide (l.Reaches d id keys name),
        name = only := by
      intro name hname
      obtain ⟨hname, hreach⟩ := List.mem_filter.mp hname
      exact (h name hname).mp (of_decide_eq_true hreach)
    have hlast : (names.filter fun name => decide (l.Reaches d id keys name)).getLast? =
        some only := by
      have hin : only ∈ names.filter fun name => decide (l.Reaches d id keys name) :=
        List.mem_filter.mpr ⟨hmem, decide_eq_true ((h only hmem).mpr rfl)⟩
      rw [List.getLast?_eq_some_getLast (List.ne_nil_of_mem hin)]
      exact congrArg some (hfilter _ (List.getLast_mem _))
    rw [lastRaw, hlast, Option.bind_some]
  · rw [hlisted hmem, lastRaw_of_forall_not fun name hname hreach => ?_]
    · rfl
    · exact hmem ((h name hname).mp hreach ▸ hname)

end LastRaw

end Loader

/-! ### The values of loaded slots -/

/-- Whether the value in every leaf slot is the one that the last of some names has for the slot. If
the root of a leaf is realized, a name for a slot makes the slot. -/
def RealizedConfig.Settled (c : RealizedConfig) (l : Loader) (d : Definition)
    (value? : String → Option String) (names : List String) : Prop :=
  ∀ (id : Nat) (leaf : Leaf) (keys : List String), d.leaf? id = some leaf →
    (∃ value, c.slot? leaf keys = some value ∧
        leaf.Gives (l.lastRaw d value? id keys names) value) ∨
      c.slot? leaf keys = none ∧ (∀ name ∈ names, ¬l.Reaches d id keys name) ∨
      c.get? leaf.root = none

section Settled

variable {piece : String → Prop} {d : Definition} {c c' : RealizedConfig} {id : Nat} {leaf : Leaf}
  {keys names : List String} {l : Loader} {value? : String → Option String} {name : String}
  {fate : Loader.Fate} {log : List (String × Loader.Fate)}

/-- The slots of realized defaults hold defaults. -/
theorem Built.realize_settled (h : Built (RootDecl.Each piece List.Nodup) d) (stage : Stage)
    (l : Loader) (value? : String → Option String) :
    (d.realize stage).Settled l d value? [] := by
  intro id leaf keys hleaf
  cases hget : (d.realize stage).get? leaf.root with
  | none => exact Or.inr (Or.inr rfl)
  | some g =>
    cases hslot : (d.realize stage).slot? leaf keys with
    | none => exact Or.inr (Or.inl ⟨rfl, List.forall_mem_nil _⟩)
    | some value =>
      refine Or.inl ⟨value, rfl, Or.inl ⟨rfl, ?_⟩⟩
      obtain ⟨g', hget', hbelow⟩ := Option.bind_eq_some_iff.mp hslot
      obtain ⟨address, hfill, hat⟩ := Option.bind_eq_some_iff.mp hbelow
      obtain ⟨root, hroot, hname, -, rfl⟩ := exists_root_of_realize_get? hget'
      rw [defaultGroup, ← defaultOver] at hat
      obtain ⟨node, hnode, rfl⟩ := exists_node_of_defaultOver_at? h.sound.scalar hat
      obtain rfl := Option.some.inj ((h.at?_eq hroot hleaf hname.symm hfill).symm.trans hnode)
      have hgetElem : d.leaves[id]? = some leaf := hleaf
      rw [defaultOver, hgetElem]
      rfl

namespace Loader

/-- A step keeps the realized roots. -/
theorem Step.isSome_get? (hstep : l.Step value? name [⟨d, c⟩] fate [⟨d, c'⟩]) (root : String) :
    (c'.get? root).isSome = (c.get? root).isSome := by
  cases (Run.cons hstep (.nil _)).keepsRoots with
  | cons hkeeps _ => exact hkeeps.2.2 root

/-- **What a name does to a leaf slot**: a name for the slot fills it, and another one leaves it as
it is or makes it with its default, if the root of the leaf is realized. -/
theorem Step.slot_cases (h : Built (RootDecl.Each piece List.Nodup) d) (hc : Loaded d c)
    (hstep : l.Step value? name [⟨d, c⟩] fate [⟨d, c'⟩]) (hleaf : d.leaf? id = some leaf)
    (keys : List String) :
    (l.Reaches d id keys name ∧ ∃ value, c'.slot? leaf keys = some value ∧
        leaf.Gives ((value? name).getD "") value) ∨
      (¬l.Reaches d id keys name ∧ (c'.slot? leaf keys = c.slot? leaf keys ∨
        c.slot? leaf keys = none ∧ c'.slot? leaf keys = some leaf.defaultValue)) ∨
      c.get? leaf.root = none ∧ c'.get? leaf.root = none := by
  rcases hstep.single_cases with ⟨heq, -, hnone, -⟩ | ⟨hown, root, g', written, hplaces, -, heq⟩
  · obtain rfl : c' = c := (LoadTarget.mk.inj (List.cons.inj heq).1).2
    by_cases hreach : l.Reaches d id keys name
    · obtain ⟨hown, leaf', hmatch, -⟩ := hreach
      have hget := hnone hown id leaf' hmatch
      obtain rfl := Option.some.inj (hleaf.symm.trans (matchLeaf_eq_some hmatch).2)
      exact Or.inr (Or.inr ⟨hget, hget⟩)
    · exact Or.inr (Or.inl ⟨hreach, Or.inl rfl⟩)
  obtain ⟨id', leaf', g, value, hmatch, rfl, hget, hgives, hplace⟩ := hplaces
  have hleaf' := (matchLeaf_eq_some hmatch).2
  obtain ⟨root, hroot, hname, hfits⟩ := hc.fits h _ g hget
  obtain rfl : c' = _ := (LoadTarget.mk.inj (List.cons.inj heq).1).2
  -- The root of the leaf is replaced, and the other roots stay.
  have hself : (if written then c.placed leaf'.root g' name ((value? name).getD "")
      else c.withRoot leaf'.root g').get? leaf'.root = some g' := by
    cases written <;> exact Entries.lookup_put_self _ _ _
  have hothers : ∀ other, other ≠ leaf'.root →
      (if written then c.placed leaf'.root g' name ((value? name).getD "")
        else c.withRoot leaf'.root g').get? other = c.get? other := by
    intro other hne
    cases written <;> exact Entries.lookup_put_of_ne hne _ _
  by_cases hreach : l.Reaches d id keys name
  · refine Or.inl ⟨hreach, value, ?_⟩
    obtain ⟨-, leaf'', hmatch', hreads⟩ := hreach
    obtain ⟨rfl, rfl⟩ := Prod.mk.inj (Option.some.inj (hmatch.symm.trans hmatch'))
    obtain rfl := Option.some.inj (hleaf.symm.trans hleaf')
    obtain ⟨address, haddresses, hfill⟩ := exists_addresses_of_keys hreads
    obtain ⟨g'', hplace', hfilled⟩ :=
      h.place_eq_fill_of_addresses hroot hleaf hname.symm haddresses value hfits
    obtain ⟨rfl, -⟩ := Prod.mk.inj (Except.ok.inj (hplace.symm.trans hplace'))
    have hat := h.at?_eq hroot hleaf hname.symm hfill
    exact ⟨by rw [RealizedConfig.slot?_eq hself hfill, hfilled,
      (Value.filled_fill h.sound.scalar hat value hfits).self], hgives⟩
  · refine Or.inr (Or.inl ⟨hreach, ?_⟩)
    have hkept := h.place_kept hroot hleaf' hname.symm hfits hplace
    refine h.slots_of_kept hroot hkept (by rw [hname]; exact hget) (by rw [hname]; exact hself)
      (by rw [hname]; exact hothers) hleaf fun hname' address hfill htouched => ?_
    obtain ⟨keys', hreads, hfill'⟩ := addresses_iff.mp htouched
    -- The name would be one for this slot, which its address tells.
    by_cases hsame : (id, keys) = (id', keys')
    · obtain ⟨rfl, rfl⟩ := Prod.mk.inj hsame
      exact hreach ⟨hown, leaf', hmatch, hreads⟩
    · exact h.address_ne hroot hleaf' hleaf hname.symm hname' hfill' hfill hsame rfl

/-- A name settles the slot that it is for. -/
theorem Step.settled (h : Built (RootDecl.Each piece List.Nodup) d) (hc : Loaded d c)
    (hstep : l.Step value? name [⟨d, c⟩] fate [⟨d, c'⟩]) (hsettled : c.Settled l d value? names) :
    c'.Settled l d value? (names ++ [name]) := by
  intro id leaf keys hleaf
  rcases hstep.slot_cases h hc hleaf keys with ⟨hreach, hslot⟩ | ⟨hnot, hslot⟩ | ⟨-, hnone⟩
  · rw [lastRaw_append_of_reaches hreach]
    exact Or.inl hslot
  · rw [lastRaw_append_of_not hnot]
    rcases hsettled id leaf keys hleaf with ⟨value, hvalue, hgives⟩ | ⟨hnone, hnames⟩ | hnone
    · refine Or.inl ⟨value, ?_, hgives⟩
      rcases hslot with heq | ⟨hnone, -⟩
      · rw [heq, hvalue]
      · cases hvalue.symm.trans hnone
    · rcases hslot with heq | ⟨-, hdefault⟩
      · refine Or.inr (Or.inl ⟨heq.trans hnone, fun other hother => ?_⟩)
        rcases List.mem_append.mp hother with hother | hother
        · exact hnames other hother
        · rwa [List.mem_singleton.mp hother]
      · exact Or.inl ⟨_, hdefault, Or.inl ⟨lastRaw_of_forall_not hnames, rfl⟩⟩
    · have hkept := hstep.isSome_get? leaf.root
      rw [hnone, Option.isSome_none, Option.isSome_eq_false_iff, Option.isNone_iff_eq_none] at hkept
      exact Or.inr (Or.inr hkept)
  · exact Or.inr (Or.inr hnone)

/-- **A run settles the slots** by its names. -/
theorem Run.settled (h : Built (RootDecl.Each piece List.Nodup) d) (hc : Loaded d c)
    (run : l.Run value? [⟨d, c⟩] log [⟨d, c'⟩]) (hsettled : c.Settled l d value? names) :
    c'.Settled l d value? (names ++ log.map (·.1)) := by
  induction log generalizing c names with
  | nil =>
    cases run
    rwa [List.map_nil, List.append_nil]
  | cons entry log ih =>
    cases run with
    | cons step run =>
      obtain ⟨between, rfl⟩ := step.exists_single
      have hrest := ih (step.isLoaded hc) run (step.settled h hc hsettled)
      rwa [List.append_assoc] at hrest

end Loader

/-- Whether a config has been realized for a definition, by walking its trees or by replaying its
plan, and not changed since. -/
def Definition.Fresh (d : Definition) (c : RealizedConfig) : Prop :=
  ∃ stage, c = d.realize stage ∨
    ∃ hash : Signature → UInt64, (d.compile hash).realize d stage hash = .ok c

/-- **What a load leaves in the slots** of a config that has just been realized: the values of the
last names for them. -/
theorem Built.load_settled (h : Built (RootDecl.Each piece List.Nodup) d) {fresh : RealizedConfig}
    (hfresh : d.Fresh fresh) {source : Source} {report : LoadReport}
    (hload : l.load source [⟨d, fresh⟩] = ([⟨d, c⟩], .ok report)) :
    Loaded d c ∧ c.Settled l d source.value? source.names := by
  obtain ⟨stage, rfl⟩ : ∃ stage, fresh = d.realize stage := by
    obtain ⟨stage, heq | ⟨hash, hplan⟩⟩ := hfresh
    · exact ⟨stage, heq⟩
    · exact ⟨stage, h.sound.realize_of_compile hplan⟩
  obtain ⟨log, hnames, run, -⟩ := Loader.load_eq_ok_iff.mp hload
  obtain ⟨c', heq, hc⟩ := run.exists_loaded (.walked stage)
  obtain rfl : c = c' := (LoadTarget.mk.inj (List.cons.inj heq).1).2
  have hsettled := run.settled h (.walked stage) (h.realize_settled stage l source.value?)
  rw [List.nil_append, hnames] at hsettled
  exact ⟨hc, hsettled⟩

end Settled

/-! ### Resolving again -/

/-- Whether two raw texts give a leaf values that are equal for the program. -/
def Leaf.GivesAlike (leaf : Leaf) (raw raw' : String) : Prop :=
  ∃ value value', leaf.Gives raw value ∧ leaf.Gives raw' value' ∧ value.equals value' = true

/-- Whether a source has a value for a cell under its name that is equal to the one in the cell. -/
def Loader.Confirms (l : Loader) (source : Source) (d : Definition)
    (entry : String × RuntimeCell) : Prop :=
  ∀ leaf, d.leaf? entry.2.leaf = some leaf → ∃ value,
    leaf.Gives ((source.value? (l.namespaceName ++ "." ++ entry.1)).getD "") value ∧
      entry.2.value.equals value = true

/-- Resolving cells again changes nothing exactly if the source confirms all of them. -/
theorem Loader.resolveCells_eq_iff {l : Loader} {source : Source} {d : Definition}
    {cells : Entries RuntimeCell} : l.resolveCells source d cells = (cells, .ok []) ↔
      ∀ entry ∈ cells, l.Confirms source d entry := by
  induction cells with
  | nil => simp [resolveCells]
  | cons first rest ih =>
    obtain ⟨name, cell⟩ := first
    rw [List.forall_mem_cons, ← ih, resolveCells, Confirms]
    dsimp only
    cases hleaf : d.leaf? cell.leaf with
    | none => simp [Prod.ext_iff]
    | some leaf =>
      dsimp only
      cases hvalue : leaf.valueOf (l.namespaceName ++ "." ++ name)
        ((source.value? (l.namespaceName ++ "." ++ name)).getD "") with
      | error e =>
        have hnone : ¬∃ value, leaf.Gives
            ((source.value? (l.namespaceName ++ "." ++ name)).getD "") value ∧
              cell.value.equals value = true := by
          rintro ⟨value, hgives, -⟩
          cases hvalue.symm.trans (Leaf.valueOf_eq_ok_iff.mpr hgives)
        simp [hnone]
      | ok value =>
        have hgives := Leaf.valueOf_eq_ok_iff.mp hvalue
        have hone : (∃ value', leaf.Gives
            ((source.value? (l.namespaceName ++ "." ++ name)).getD "") value' ∧
              cell.value.equals value' = true) ↔ cell.value.equals value = true := by
          constructor
          · rintro ⟨value', hgives', hequals⟩
            rwa [hgives.unique hgives']
          · exact fun hequals => ⟨value, hgives, hequals⟩
        simp only [Option.some.injEq, forall_eq', hone]
        split_ifs with hequals
        · simp [hequals, Prod.ext_iff]
        · -- The name of a cell that has changed is reported.
          cases (l.resolveCells source d rest).2 <;> simp [hequals, Except.map]

section Resolve

variable {piece : String → Prop} {d : Definition} {c fresh : RealizedConfig} {l : Loader}
  {source : Source} {report : LoadReport}

/-- The value in a cell is the one of the last name for its slot. -/
theorem Built.gives_lastRaw (h : Built (RootDecl.Each piece List.Nodup) d) (hfresh : d.Fresh fresh)
    (hload : l.load source [⟨d, fresh⟩] = ([⟨d, c⟩], .ok report)) {name : String}
    {cell : RuntimeCell} {leaf : Leaf} {keys : List String}
    (hcell : c.CellOf d name cell leaf keys) :
    leaf.Gives (l.lastRaw d source.value? cell.leaf keys source.names) cell.value := by
  rcases (h.load_settled hfresh hload).2 cell.leaf leaf keys hcell.leaf_eq with
    ⟨value, hvalue, hgives⟩ | ⟨hnone, -⟩ | hnone
  · rwa [Option.some.inj (hcell.slot_eq.symm.trans hvalue)]
  · cases hcell.slot_eq.symm.trans hnone
  · have hslot := hcell.slot_eq
    rw [RealizedConfig.slot?, hnone] at hslot
    cases hslot

/-- **Resolving again from the source of a load** changes nothing exactly if, for the slot of every
cell, the last name that is one for it in the source and the name of the cell have equal values. -/
theorem Built.reResolve_iff (h : Built (RootDecl.Each piece List.Nodup) d) (hfresh : d.Fresh fresh)
    (hload : l.load source [⟨d, fresh⟩] = ([⟨d, c⟩], .ok report)) :
    l.reResolve source d (c.freeze d) = (c.freeze d, .ok []) ↔
      ∀ name cell leaf keys, (name, cell) ∈ (c.freeze d).cells → c.CellOf d name cell leaf keys →
        leaf.GivesAlike (l.lastRaw d source.value? cell.leaf keys source.names)
          ((source.value? (l.namespaceName ++ "." ++ name)).getD "") := by
  obtain ⟨hc, -⟩ := h.load_settled hfresh hload
  have hconfirms : l.reResolve source d (c.freeze d) = (c.freeze d, .ok []) ↔
      ∀ entry ∈ (c.freeze d).cells, l.Confirms source d entry := by
    rw [← Loader.resolveCells_eq_iff, Loader.reResolve, Prod.ext_iff, Prod.ext_iff]
    exact and_congr ⟨fun heq => congrArg FrozenConfig.cells heq,
      fun heq => congrArg (fun cells => { c.freeze d with cells }) heq⟩ Iff.rfl
  rw [hconfirms]
  constructor
  · intro hall name cell leaf keys hmem hcell
    obtain ⟨value, hgives, hequals⟩ := hall (name, cell) hmem leaf hcell.leaf_eq
    exact ⟨cell.value, value, h.gives_lastRaw hfresh hload hcell, hgives, hequals⟩
  · rintro hall ⟨name, cell⟩ hmem leaf hleaf
    obtain ⟨leaf', keys, hcell⟩ := hc.exists_cellOf h hmem
    obtain rfl := Option.some.inj (hleaf.symm.trans hcell.leaf_eq)
    obtain ⟨value, value', hgives, hgives', hequals⟩ := hall name cell leaf keys hmem hcell
    rw [hgives.unique (h.gives_lastRaw hfresh hload hcell)] at hequals
    exact ⟨value', hgives', hequals⟩

/-- In a plain definition, the name of a cell behind a namespace that is one segment is a name for
the slot of the cell, unless it ends in an empty key. -/
theorem RealizedConfig.CellOf.reaches (h : Built RootDecl.Plain d) (hc : Loaded d c)
    (hns : Name.Bare l.namespaceName) {name : String} {cell : RuntimeCell} {leaf : Leaf}
    {keys : List String} (hcell : c.CellOf d name cell leaf keys)
    (hend : ¬leaf.EndsInEmptyKey keys) :
    l.Reaches d cell.leaf keys (l.namespaceName ++ "." ++ name) := by
  obtain ⟨hmatch, hkeys⟩ := hcell.matchLeaf h hc hend (l.remaining_append hns name)
  refine ⟨l.owns_append hns name, leaf, hmatch, ?_⟩
  obtain ⟨address, haddresses, hfill⟩ :=
    h.sound.exists_addresses hmatch (h.counted hcell.leaf_eq)
  obtain ⟨keys', hreads, hfill'⟩ := addresses_iff.mp haddresses
  rwa [fillPath_inj hfill' hfill, hkeys] at hreads

/-- **A source spelled as the cells are** leaves them alone when they are resolved again: in a plain
definition, if all names for slots of cells are those of the cells, none of which ends in an empty
key, and no value is a floating-point number that differs from itself. -/
theorem Loaded.reResolve_of_spelled (h : Built RootDecl.Plain d) (hfresh : d.Fresh fresh)
    (hns : Name.Bare l.namespaceName) {properties : Properties}
    (hload : l.load properties.toSource [⟨d, fresh⟩] = ([⟨d, c⟩], .ok report))
    (hspelled : ∀ name cell leaf keys, c.CellOf d name cell leaf keys →
      ¬leaf.EndsInEmptyKey keys ∧ ∀ full ∈ Entries.keys properties,
        l.Reaches d cell.leaf keys full → full = l.namespaceName ++ "." ++ name)
    (hself : ∀ name cell, (name, cell) ∈ (c.freeze d).cells →
      cell.value.equals cell.value = true) :
    l.reResolve properties.toSource d (c.freeze d) = (c.freeze d, .ok []) := by
  obtain ⟨hc, -⟩ := h.load_settled hfresh hload
  rw [h.reResolve_iff hfresh hload]
  intro name cell leaf keys hmem hcell
  obtain ⟨hend, hnames⟩ := hspelled name cell leaf keys hcell
  have hgives := h.gives_lastRaw hfresh hload hcell
  refine ⟨cell.value, cell.value, hgives, ?_, hself name cell hmem⟩
  rwa [Loader.lastRaw_eq_of_only (l.namespaceName ++ "." ++ name)] at hgives
  · refine fun full hfull => ⟨hnames full hfull, ?_⟩
    rintro rfl
    exact hcell.reaches h hc hns hend
  · intro hnot
    rw [← Option.not_isSome_iff_eq_none]
    exact fun hsome => hnot (Entries.isSome_lookup_iff.mp hsome)

end Resolve

/-- A load of a name that is spelled as its cell is: resolving again changes nothing. -/
theorem reResolve_iff_cellsDecl :
    let d := (empty.registerRoot cellsDecl).1
    let l := Loader.ofNamespace "app"
    let source := (Properties.ofPairs [("app.a.n.\"x.y\"", "1")]).toSource
    ∃ c report, l.load source [⟨d, d.realize .runtime⟩] = ([⟨d, c⟩], .ok report) ∧
      (l.reResolve source d (c.freeze d) = (c.freeze d, .ok []) ↔
        ∀ name cell leaf keys, (name, cell) ∈ (c.freeze d).cells →
          c.CellOf d name cell leaf keys →
          leaf.GivesAlike (l.lastRaw d source.value? cell.leaf keys source.names)
            ((source.value? (l.namespaceName ++ "." ++ name)).getD "")) ∧
      (l.reResolve source d (c.freeze d)).2.toOption = some [] ∧
      l.lastRaw d source.value? 1 ["x.y"] source.names = "1" := by
  intro d l source
  have hreport : (l.load source [⟨d, d.realize .runtime⟩]).2.toOption =
      some { applied := 1 } := by decide +kernel
  have hresolved : (l.load source [⟨d, d.realize .runtime⟩]).1.map (fun t =>
      (l.reResolve source d (t.config.freeze d)).2.toOption) = [some []] := by decide +kernel
  obtain ⟨c, hload, -⟩ := Loader.exists_load_of_toOption (.walked .runtime) hreport
  rw [hload] at hresolved
  exact ⟨c, _, hload, built_cellsDecl.reResolve_iff ⟨.runtime, Or.inl rfl⟩ hload,
    (List.cons.inj hresolved).1, by decide +kernel⟩

/-- **A source need not leave the cells alone** that have been loaded from it: a key that is quoted
without need, and a namespace with a dot, are read by a load, but not when the cells are resolved
again, which restores the default. -/
theorem reResolve_cellsDecl_changes :
    let d := (empty.registerRoot cellsDecl).1
    let texts := fun (f : FrozenConfig) => f.cells.map fun cell => (cell.1, cell.2.value.asString?)
    ∀ read ∈ [("app", "app.a.n.\"k\"", "app.a.n.k"),
        ("my.app", "\"my.app\".a.n.k", "my.app.a.n.k")],
      let l := Loader.ofNamespace read.1
      let source := (Properties.ofPairs [(read.2.1, "1")]).toSource
      let run := l.load source [⟨d, d.realize .runtime⟩]
      run.2.toOption = some { applied := 1 } ∧
        run.1.map (fun t => texts (t.config.freeze d)) = [[("a.n.k", some "1")]] ∧
        run.1.map (fun t => (l.reResolve source d (t.config.freeze d)).2.toOption) =
          [some [read.2.2]] ∧
        run.1.map (fun t => texts (l.reResolve source d (t.config.freeze d)).1) =
          [[("a.n.k", some "")]] := by
  decide +kernel

end PropertyBinding
