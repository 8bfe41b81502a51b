import Mathlib.Data.List.Perm.Basic
import PropertyBinding.Proofs.Matching

/-!
# Binding patterns, in place and in any order

A pattern map is a partial map whose keys are lists of segments
(`PatternMap.insertAll_partialMap`).

Binding in place enters the nodes on the path of a pattern, and makes those that are missing, before
it comes to the end of the path and sees whether a value is bound there. In an orderly map this
leaves nothing behind when the pattern is refused: the path to a bound value is there already, and
the children that are put back into their nodes stood in them (`PatternMap.Orderly.bindAt_eq`).

The tree of an orderly map is determined by the values that are found in it
(`PatternMap.Orderly.ext`): every node is on the path to a value, and the literal children stand in
one order. So it does not matter in which order patterns have been bound
(`PatternMap.insertAll_perm`).
-/

namespace PropertyBinding

section Ascending

variable {α : Type} {entries entries' : Entries α}

/-- Entries in ascending order are determined by what stands among them. -/
theorem Entries.Ascending.ext (h : Entries.Ascending entries) (h' : Entries.Ascending entries')
    (hmem : ∀ entry, entry ∈ entries ↔ entry ∈ entries') : entries = entries' := by
  have hperm : entries.Perm entries' :=
    (List.perm_ext_iff_of_nodup h.nodup.of_map h'.nodup.of_map).mpr hmem
  refine hperm.eq_of_pairwise (fun a b _ _ hab hba => ?_) (List.pairwise_map.mp h)
    (List.pairwise_map.mp h')
  exact absurd hab (String.lt_asymm hba)

end Ascending

namespace PatternMap

variable {α : Type}

/-! ### Binding in place -/

/-- Bind a value at a path in place: the nodes on the path are entered, and made where there are
none, before it shows whether a value is bound at its end. The result is the map afterwards, and
whether the value has been bound. -/
def bindAt (value : α) : List String → PatternMap α → PatternMap α × Bool
  | [], .node none literals any => (.node (some value) literals any, true)
  | [], .node (some old) literals any => (.node (some old) literals any, false)
  | segment :: path, .node bound literals any =>
    if segment = wildcard then
      let (child, fresh) := bindAt value path (any.getD empty)
      (.node bound literals (some child), fresh)
    else
      let (child, fresh) := bindAt value path ((literals.lookup segment).getD empty)
      (.node bound (Entries.insert segment child literals) any, fresh)

/-- Bind a value to a pattern in place. A pattern whose segments have a value is refused. -/
def bindInPlace (m : PatternMap α) (pattern : String) (value : α) :
    PatternMap α × Except BindError Unit :=
  match bindAt value (Name.segments pattern) m with
  | (m, true) => (m, .ok ())
  | (m, false) => (m, .error (.duplicatePattern pattern))

/-- Bind values to patterns in place, one after the other. -/
def bindAllInPlace (m : PatternMap α) (inserts : List (String × α)) : PatternMap α :=
  inserts.foldl (fun m entry => (m.bindInPlace entry.1 entry.2).1) m

section InPlace

variable {m : PatternMap α} {value : α} {path : List String}

/-- Nothing is refused in the map without patterns. -/
theorem insertAt_empty_ne_none (value : α) (path : List String) :
    insertAt value path (empty : PatternMap α) ≠ none := by
  rw [Ne, insertAt_eq_none_iff, find?_empty]
  exact Bool.false_ne_true

/-- **Binding in place** gives the map that binding gives, and leaves an orderly map as it is when
the value is refused. -/
theorem Orderly.bindAt_eq (h : m.Orderly) (value : α) (path : List String) :
    bindAt value path m =
      ((PatternMap.insertAt value path m).getD m, (PatternMap.insertAt value path m).isSome) := by
  induction path generalizing m with
  | nil =>
    obtain ⟨b, lits, wild⟩ := m
    cases b <;> rfl
  | cons segment path ih =>
    obtain @⟨b, lits, wild, ascending, plain, below, bears, under, bears_any⟩ := h
    rw [bindAt, PatternMap.insertAt]
    split_ifs with hw
    · have hchild : (wild.getD empty).Orderly := by
        cases wild with
        | none => exact orderly_empty
        | some child => exact under child rfl
      simp only [ih hchild]
      cases hinsert : PatternMap.insertAt value path (wild.getD empty) with
      | some child => rfl
      | none =>
        -- A value is bound below the wildcard child, so there is one, and it goes back.
        cases wild with
        | none => exact absurd hinsert (insertAt_empty_ne_none value path)
        | some child => rfl
    · have hchild : ((lits.lookup segment).getD empty).Orderly := by
        cases hlit : lits.lookup segment with
        | none => exact orderly_empty
        | some child => exact below segment child (Entries.mem_of_lookup hlit)
      simp only [ih hchild]
      cases hinsert : PatternMap.insertAt value path ((lits.lookup segment).getD empty) with
      | some child => rfl
      | none =>
        cases hlit : lits.lookup segment with
        | none =>
          rw [hlit] at hinsert
          exact absurd hinsert (insertAt_empty_ne_none value path)
        | some child => simp [ascending.insert_eq_self hlit]

/-- Binding to a pattern in place leaves an orderly map as it is when the pattern is refused. -/
theorem Orderly.bindInPlace_eq (h : m.Orderly) (pattern : String) (value : α) :
    m.bindInPlace pattern value =
      match m.insert pattern value with
      | .ok m' => (m', .ok ())
      | .error e => (m, .error e) := by
  rw [bindInPlace, insert, h.bindAt_eq]
  cases PatternMap.insertAt value (Name.segments pattern) m <;> rfl

/-- Binding in place, one pattern after the other, gives the map that binding gives. -/
theorem Orderly.bindAllInPlace_eq (h : m.Orderly) (inserts : List (String × α)) :
    m.bindAllInPlace inserts = m.insertAll inserts := by
  induction inserts generalizing m with
  | nil => rfl
  | cons entry rest ih =>
    obtain ⟨pattern, value⟩ := entry
    rw [bindAllInPlace, List.foldl_cons, h.bindInPlace_eq, insertAll]
    rcases m.insert_eq pattern value with ⟨m', hinsert, hat, -⟩ | ⟨hinsert, -⟩
    · simp only [hinsert]
      exact ih (h.insertAt hat)
    · simp only [hinsert]
      exact ih h

end InPlace

/-! ### The tree of an orderly map -/

section Extensionality

variable {m m' : PatternMap α} {segment : String}

/-- What leads to a child in an orderly map leads to one in a map in which the same is found. -/
theorem Orderly.isSome_child? (h : m.Orderly) (hfind : ∀ path, m.find? path = m'.find? path)
    (hchild : (m.child? segment).isSome) : (m'.child? segment).isSome := by
  obtain ⟨child, hchild⟩ := Option.isSome_iff_exists.mp hchild
  obtain ⟨path, value, hvalue⟩ := (h.of_child? hchild).2
  have hbelow : m'.find? (segment :: path) = some value := by
    rw [← hfind, find?_cons, hchild, Option.bind_some, hvalue]
  rw [find?_cons] at hbelow
  exact Option.isSome_of_isSome_bind (Option.isSome_of_eq_some hbelow)

/-- The literal children of an orderly map are the children under other segments than the
wildcard. -/
theorem Orderly.mem_literals_iff (h : m.Orderly) {child : PatternMap α} :
    (segment, child) ∈ m.literals ↔ segment ≠ wildcard ∧ m.child? segment = some child := by
  obtain @⟨b, lits, wild, ascending, plain, below, bears, under, bears_any⟩ := h
  constructor
  · intro hmem
    have hne : segment ≠ wildcard := fun heq => plain (heq ▸ List.mem_map_of_mem hmem)
    exact ⟨hne, by rw [child?, if_neg hne]; exact Entries.lookup_eq_of_mem ascending.nodup hmem⟩
  · rintro ⟨hne, hchild⟩
    rw [child?, if_neg hne] at hchild
    exact Entries.mem_of_lookup hchild

/-- **The tree of an orderly map** is determined by what is found in it. -/
theorem Orderly.ext (h : m.Orderly) (h' : m'.Orderly)
    (hfind : ∀ path, m.find? path = m'.find? path) : m = m' := by
  induction h generalizing m' with
  | @node b lits wild ascending plain below bears under bears_any ihbelow ihunder =>
    have hm : (PatternMap.node b lits wild).Orderly :=
      .node ascending plain below bears under bears_any
    have hchild : ∀ segment, (PatternMap.node b lits wild).child? segment = m'.child? segment := by
      intro segment
      cases hc : (PatternMap.node b lits wild).child? segment with
      | none =>
        have hnone : ¬(m'.child? segment).isSome := fun hsome => by
          have hback := h'.isSome_child? (fun path => (hfind path).symm) hsome
          rw [hc] at hback
          cases hback
        exact (Option.not_isSome_iff_eq_none.mp hnone).symm
      | some child =>
        obtain ⟨child', hc'⟩ := Option.isSome_iff_exists.mp
          (hm.isSome_child? hfind (Option.isSome_of_eq_some hc))
        have hbelow : ∀ path, child.find? path = child'.find? path := fun path => by
          have hcons := hfind (segment :: path)
          rwa [find?_cons, find?_cons, hc, hc'] at hcons
        have horderly := (h'.of_child? hc').1
        rw [hc']
        by_cases hw : segment = wildcard
        · rw [child?, if_pos hw] at hc
          rw [ihunder child hc horderly hbelow]
        · have hmem := (hm.mem_literals_iff.mpr ⟨hw, hc⟩)
          rw [ihbelow segment child hmem horderly hbelow]
    have hliterals : lits = m'.literals := by
      have hascending' : Entries.Ascending m'.literals := by
        obtain @⟨_, _, _, ascending', _, _, _, _, _⟩ := h'
        exact ascending'
      refine ascending.ext hascending' fun entry => ?_
      obtain ⟨segment, child⟩ := entry
      rw [h'.mem_literals_iff, ← hchild]
      exact hm.mem_literals_iff
    have hbound := hfind []
    have hany := hchild wildcard
    obtain ⟨b', lits', wild'⟩ := m'
    rw [find?_nil, find?_nil] at hbound
    rw [child?, child?, if_pos rfl, if_pos rfl] at hany
    simp only [bound, any, literals] at hbound hany hliterals
    rw [hbound, hany, hliterals]

end Extensionality

/-! ### Any order -/

section Order

variable {m : PatternMap α} {inserts inserts' : List (String × α)}

/-- The segments of patterns, each with the value that goes with the pattern. -/
def readPatterns (inserts : List (String × α)) : List (List String × α) :=
  inserts.map fun entry => (Name.segments entry.1, entry.2)

/-- Patterns that differ in their segments, and from all that have a value, are accepted. -/
theorem accepted_eq_of_nodup (hfree : ∀ entry ∈ inserts, m.find? (Name.segments entry.1) = none)
    (hnodup : (inserts.map fun entry => Name.segments entry.1).Nodup) :
    m.accepted inserts = readPatterns inserts := by
  induction inserts generalizing m with
  | nil => rfl
  | cons entry rest ih =>
    obtain ⟨pattern, value⟩ := entry
    obtain ⟨hfirst, hrest⟩ := List.forall_mem_cons.mp hfree
    rw [List.map_cons, List.nodup_cons] at hnodup
    rw [accepted, readPatterns, List.map_cons]
    rcases m.insert_eq pattern value with ⟨m', hinsert, hat, -⟩ | ⟨-, hsome⟩
    · simp only [hinsert]
      refine congrArg _ (ih (fun other hother => ?_) hnodup.2)
      have hne : Name.segments other.1 ≠ Name.segments pattern := fun heq =>
        hnodup.1 (List.mem_map.mpr ⟨other, hother, heq⟩)
      rw [find?_insertAt hat, if_neg hne, hrest other hother]
    · rw [hfirst] at hsome
      cases hsome

/-- What is found after binding to the map without patterns has been accepted. -/
theorem find?_insertAll_empty {path : List String} {value : α} :
    (empty.insertAll inserts).find? path = some value ↔ (path, value) ∈ empty.accepted inserts := by
  rw [find?_insertAll_iff, find?_empty]
  exact or_iff_right nofun

/-- A map that has been built by binding is orderly. -/
theorem orderly_insertAll (inserts : List (String × α)) :
    (empty.insertAll inserts).Orderly :=
  insertAll_holds Orderly.insertAt orderly_empty inserts

/-- **The order does not matter** in which patterns with different segments are bound. -/
theorem insertAll_perm (hperm : inserts.Perm inserts')
    (hnodup : (inserts.map fun entry => Name.segments entry.1).Nodup) :
    empty.insertAll inserts = empty.insertAll inserts' := by
  have hnodup' : (inserts'.map fun entry => Name.segments entry.1).Nodup :=
    (hperm.map _).nodup hnodup
  have hfree : ∀ (inserts : List (String × α)), ∀ entry ∈ inserts,
      (empty : PatternMap α).find? (Name.segments entry.1) = none := fun _ _ _ => find?_empty _
  refine (orderly_insertAll inserts).ext (orderly_insertAll inserts') fun path =>
    Option.ext fun value => ?_
  rw [find?_insertAll_empty, find?_insertAll_empty, accepted_eq_of_nodup (hfree _) hnodup,
    accepted_eq_of_nodup (hfree _) hnodup']
  exact (hperm.map _).mem_iff

end Order

/-! ### Sequences of bindings -/

section Sequences

variable {m : PatternMap α} {inserts : List (String × α)} {path : List String} {value : α}

/-- The accepted patterns are those of the bindings that succeed, each after those before it. -/
theorem mem_accepted_iff : (path, value) ∈ m.accepted inserts ↔
    ∃ before pattern after m', inserts = before ++ (pattern, value) :: after ∧
      Name.segments pattern = path ∧ (m.insertAll before).insert pattern value = .ok m' := by
  induction inserts generalizing m with
  | nil => simp [accepted]
  | cons entry rest ih =>
    obtain ⟨first, new⟩ := entry
    constructor
    · intro hmem
      rw [accepted] at hmem
      rcases m.insert_eq first new with ⟨m₁, hinsert, -, -⟩ | ⟨hinsert, -⟩
      · simp only [hinsert] at hmem
        rcases List.mem_cons.mp hmem with heq | hmem
        · obtain ⟨rfl, rfl⟩ := Prod.mk.inj heq
          exact ⟨[], first, rest, m₁, rfl, rfl, hinsert⟩
        · obtain ⟨before, pattern, after, m', rfl, hpath, hok⟩ := ih.mp hmem
          exact ⟨(first, new) :: before, pattern, after, m', rfl, hpath, by
            rwa [insertAll, hinsert]⟩
      · simp only [hinsert] at hmem
        obtain ⟨before, pattern, after, m', rfl, hpath, hok⟩ := ih.mp hmem
        exact ⟨(first, new) :: before, pattern, after, m', rfl, hpath, by
          rwa [insertAll, hinsert]⟩
    · rintro ⟨before, pattern, after, m', heq, hpath, hok⟩
      rw [accepted]
      cases before with
      | nil =>
        obtain ⟨hfirst, rfl⟩ := List.cons.inj heq
        obtain ⟨rfl, rfl⟩ := Prod.mk.inj hfirst
        simp only [insertAll] at hok
        rw [hok, ← hpath]
        exact List.mem_cons_self
      | cons earlier before =>
        obtain ⟨rfl, rfl⟩ := List.cons.inj heq
        rw [insertAll] at hok
        rcases m.insert_eq first new with ⟨m₁, hinsert, -, -⟩ | ⟨hinsert, -⟩
        · simp only [hinsert] at hok ⊢
          exact List.mem_cons_of_mem _ (ih.mpr ⟨before, pattern, after, m', rfl, hpath, hok⟩)
        · simp only [hinsert] at hok ⊢
          exact ih.mpr ⟨before, pattern, after, m', rfl, hpath, hok⟩

/-- Whether one of the bindings of a sequence, which begins with the map without patterns, has
succeeded for a pattern with these segments. -/
def BoundBy (inserts : List (String × α)) (path : List String) : Prop :=
  ∃ before pattern value after m', inserts = before ++ (pattern, value) :: after ∧
    Name.segments pattern = path ∧ (empty.insertAll before).insert pattern value = .ok m'

/-- A value is found after a sequence of bindings exactly if one of them has succeeded. -/
theorem isSome_find?_insertAll_iff :
    ((empty.insertAll inserts).find? path).isSome ↔ BoundBy inserts path := by
  simp only [Option.isSome_iff_exists, find?_insertAll_empty, mem_accepted_iff]
  constructor
  · rintro ⟨value, before, pattern, after, m', h⟩
    exact ⟨before, pattern, value, after, m', h⟩
  · rintro ⟨before, pattern, value, after, m', h⟩
    exact ⟨value, before, pattern, after, m', h⟩

/-- **A pattern map is a partial map with lists of segments as its keys.** After any sequence of
bindings, a pattern is refused exactly if an earlier binding has succeeded for a pattern with the
same segments, and exactly if the map contains it; else it is accepted. Binding in place leaves the
map as it is when the pattern is refused, and gives the same map otherwise, also over the whole
sequence. Bindings of patterns that all differ in their segments give the same map in any order. -/
theorem insertAll_partialMap (inserts : List (String × α)) :
    (∀ pattern value,
      ((empty.insertAll inserts).insert pattern value = .error (.duplicatePattern pattern) ↔
        BoundBy inserts (Name.segments pattern)) ∧
      ((∃ m', (empty.insertAll inserts).insert pattern value = .ok m') ↔
        ¬BoundBy inserts (Name.segments pattern)) ∧
      ((empty.insertAll inserts).contains pattern = true ↔
        BoundBy inserts (Name.segments pattern)) ∧
      (empty.insertAll inserts).bindInPlace pattern value =
        match (empty.insertAll inserts).insert pattern value with
        | .ok m' => (m', .ok ())
        | .error e => (empty.insertAll inserts, .error e)) ∧
      empty.bindAllInPlace inserts = empty.insertAll inserts ∧
      ((inserts.map fun entry => Name.segments entry.1).Nodup →
        ∀ inserts', inserts.Perm inserts' →
          empty.insertAll inserts' = empty.insertAll inserts) := by
  have horderly : (empty.insertAll inserts).Orderly := orderly_insertAll inserts
  refine ⟨fun pattern value => ⟨?_, ?_, ?_, horderly.bindInPlace_eq pattern value⟩,
    orderly_empty.bindAllInPlace_eq inserts,
    fun hnodup inserts' hperm => (insertAll_perm hperm hnodup).symm⟩
  · rw [← isSome_find?_insertAll_iff]
    rcases (empty.insertAll inserts).insert_eq pattern value with
      ⟨m', hinsert, -, hnone⟩ | ⟨hinsert, hsome⟩
    · simp [hinsert, hnone]
    · exact iff_of_true hinsert hsome
  · rw [← isSome_find?_insertAll_iff]
    rcases (empty.insertAll inserts).insert_eq pattern value with
      ⟨m', hinsert, -, hnone⟩ | ⟨hinsert, hsome⟩
    · exact iff_of_true ⟨m', hinsert⟩ (Option.not_isSome_iff_eq_none.mpr hnone)
    · exact iff_of_false (fun ⟨m', hok⟩ => by cases hinsert.symm.trans hok) (not_not.mpr hsome)
  · rw [← isSome_find?_insertAll_iff]
    rfl

/-- Three patterns give one map in two orders, and the wildcard between quotation marks is the
wildcard. -/
theorem insertAll_partialMap_swapped :
    let inserts := [("m.\"x.y\".v", 1), ("m.\x7b*\x7d", 2), ("m", 3)]
    let swapped := [("m", 3), ("m.\"x.y\".v", 1), ("m.\x7b*\x7d", 2)]
    (inserts.map fun entry => Name.segments entry.1).Nodup ∧ inserts.Perm swapped ∧
      empty.insertAll swapped = empty.insertAll inserts ∧
      (empty.insertAll inserts).insert "m.\"\x7b*\x7d\"" 4 =
        .error (.duplicatePattern "m.\"\x7b*\x7d\"") := by
  intro inserts swapped
  have hnodup : (inserts.map fun entry => Name.segments entry.1).Nodup := by decide +kernel
  have hperm : inserts.Perm swapped := by decide
  obtain ⟨hsteps, -, horder⟩ := insertAll_partialMap inserts
  obtain ⟨hrefused, -, hcontains, -⟩ := hsteps "m.\"\x7b*\x7d\"" 4
  exact ⟨hnodup, hperm, horder hnodup swapped hperm,
    hrefused.mpr (hcontains.mp (by decide +kernel))⟩

end Sequences

end PatternMap

end PropertyBinding
