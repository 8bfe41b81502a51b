import PropertyBinding.Proofs.MapKeys

/-!
# Greedy matching

Which value a name finds in a pattern map can be said without the tree: by a walk through the
segments of the name that knows only which patterns have been accepted (`PatternMap.greedy`). At
every segment the walk prefers the segment itself to the wildcard, if an accepted pattern goes on
with it, and it never takes a step back.

The tree of a map that has been built by binding has no dead nodes, so a node stands for the
accepted patterns that go on from it (`PatternMap.Orderly.isSome_node?_iff`). Hence the walk ends at
the pattern along which the name is led (`PatternMap.greedy_eq_some_iff`), and matching gives the
value of this pattern (`PatternMap.matchName_insertAll`).
-/

namespace PropertyBinding

namespace PatternMap

variable {α : Type}

/-! ### Binding one pattern after the other -/

/-- Bind values to patterns, one after the other. A pattern that is refused changes nothing. -/
def insertAll (m : PatternMap α) : List (String × α) → PatternMap α
  | [] => m
  | (pattern, value) :: rest =>
    match m.insert pattern value with
    | .ok m' => m'.insertAll rest
    | .error _ => m.insertAll rest

/-- The segments of the patterns that are accepted when values are bound to patterns one after the
other, each with its value. -/
def accepted (m : PatternMap α) : List (String × α) → List (List String × α)
  | [] => []
  | (pattern, value) :: rest =>
    match m.insert pattern value with
    | .ok m' => (Name.segments pattern, value) :: m'.accepted rest
    | .error _ => m.accepted rest

section InsertAll

variable {m : PatternMap α} {inserts : List (String × α)} {path : List String} {value : α}

/-- What binding keeps holds after any bindings. -/
theorem insertAll_holds {P : PatternMap α → Prop}
    (hstep : ∀ {m m' : PatternMap α} {path : List String} {value : α}, P m →
      insertAt value path m = some m' → P m') (hm : P m) (inserts : List (String × α)) :
    P (m.insertAll inserts) := by
  induction inserts generalizing m with
  | nil => exact hm
  | cons entry rest ih =>
    obtain ⟨pattern, value⟩ := entry
    rw [insertAll]
    rcases m.insert_eq pattern value with ⟨m', hinsert, hat, -⟩ | ⟨hinsert, -⟩
    · rw [hinsert]
      exact ih (hstep hm hat)
    · rw [hinsert]
      exact ih hm

/-- What a map finds after any bindings has been found before, or it has been accepted. -/
theorem find?_insertAll_iff : (m.insertAll inserts).find? path = some value ↔
    m.find? path = some value ∨ (path, value) ∈ m.accepted inserts := by
  induction inserts generalizing m with
  | nil => simp [insertAll, accepted]
  | cons entry rest ih =>
    obtain ⟨pattern, new⟩ := entry
    rw [insertAll, accepted]
    rcases m.insert_eq pattern new with ⟨m', hinsert, hat, hnone⟩ | ⟨hinsert, -⟩
    · simp only [hinsert]
      rw [ih, find?_insertAt hat, List.mem_cons, ← or_assoc]
      refine or_congr ?_ Iff.rfl
      by_cases hpath : path = Name.segments pattern
      · simp [hpath, hnone, eq_comm]
      · simp [hpath]
    · simp only [hinsert]
      exact ih

/-- A pattern with a value is not accepted again. -/
theorem not_mem_accepted (h : (m.find? path).isSome) (inserts : List (String × α)) :
    path ∉ (m.accepted inserts).map (·.1) := by
  induction inserts generalizing m with
  | nil => exact List.not_mem_nil
  | cons entry rest ih =>
    obtain ⟨pattern, value⟩ := entry
    rw [accepted]
    rcases m.insert_eq pattern value with ⟨m', hinsert, hat, hnone⟩ | ⟨hinsert, -⟩
    · simp only [hinsert]
      have hne : path ≠ Name.segments pattern := by
        rintro rfl
        rw [hnone] at h
        cases h
      rw [List.map_cons, List.mem_cons, not_or]
      exact ⟨hne, ih (by rwa [find?_insertAt hat, if_neg hne])⟩
    · simp only [hinsert]
      exact ih h

/-- No pattern is accepted twice. -/
theorem nodup_accepted (m : PatternMap α) (inserts : List (String × α)) :
    ((m.accepted inserts).map (·.1)).Nodup := by
  induction inserts generalizing m with
  | nil => exact List.nodup_nil
  | cons entry rest ih =>
    obtain ⟨pattern, value⟩ := entry
    rw [accepted]
    rcases m.insert_eq pattern value with ⟨m', hinsert, hat, -⟩ | ⟨hinsert, -⟩
    · simp only [hinsert]
      refine List.nodup_cons.mpr ⟨not_mem_accepted ?_ rest, ih m'⟩
      rw [find?_insertAt hat, if_pos rfl]
      rfl
    · simp only [hinsert]
      exact ih m

end InsertAll

/-! ### The greedy walk -/

/-- Whether one of some patterns begins with these segments. -/
def Continues (patterns : List (List String)) (before : List String) : Prop :=
  ∃ pattern ∈ patterns, before <+: pattern

instance (patterns : List (List String)) (before : List String) :
    Decidable (Continues patterns before) :=
  inferInstanceAs (Decidable (∃ pattern ∈ patterns, before <+: pattern))

/-- The pattern at which the greedy walk through segments ends that has come along `before`. -/
def greedy (patterns : List (List String)) : List String → List String → Option (List String)
  | before, [] => if before ∈ patterns then some before else none
  | before, segment :: rest =>
    if Continues patterns (before ++ [segment]) then greedy patterns (before ++ [segment]) rest
    else if Continues patterns (before ++ [wildcard]) then
      greedy patterns (before ++ [wildcard]) rest
    else none

/-- Whether one of some patterns goes on with a segment itself behind these segments. -/
def HasLiteral (patterns : List (List String)) (before : List String) (segment : String) : Prop :=
  segment ≠ wildcard ∧ Continues patterns (before ++ [segment])

/-- Whether no segment that stands at a wildcard of a pattern is one with which a pattern goes on
there. -/
def Undisturbed (patterns : List (List String)) (pattern segments : List String) : Prop :=
  ∀ i, pattern[i]? = some wildcard → ∀ segment, segments[i]? = some segment →
    ¬HasLiteral patterns (pattern.take i) segment

section Nodes

variable {m n : PatternMap α} {path before segments pattern : List String} {segment : String}

theorem node?_append (m : PatternMap α) (before path : List String) :
    m.node? (before ++ path) = (m.node? before).bind (node? path) := by
  induction before generalizing m with
  | nil => rfl
  | cons segment before ih =>
    rw [List.cons_append, node?, node?, Option.bind_assoc]
    exact congrArg _ (funext fun child => ih child)

/-- What is found at a path is bound at the node that the path leads to. -/
theorem find?_eq_bound (m : PatternMap α) (path : List String) :
    m.find? path = (m.node? path).bind bound := by
  induction path generalizing m with
  | nil => rfl
  | cons segment path ih =>
    rw [find?_cons, node?, Option.bind_assoc]
    exact congrArg _ (funext fun child => ih child)

theorem find?_append (m : PatternMap α) (before path : List String) :
    m.find? (before ++ path) = (m.node? before).bind (find? path) := by
  rw [find?_eq_bound, node?_append, Option.bind_assoc]
  exact congrArg _ (funext fun n => (find?_eq_bound n path).symm)

theorem node?_concat (hnode : m.node? before = some n) (segment : String) :
    m.node? (before ++ [segment]) = n.child? segment := by
  rw [node?_append, hnode, Option.bind_some, node?]
  cases n.child? segment <;> rfl

/-- Whether some patterns are those that have a value in a map. -/
def Lists (m : PatternMap α) (patterns : List (List String)) : Prop :=
  ∀ path, path ∈ patterns ↔ (m.find? path).isSome

variable {patterns : List (List String)}

/-- **A node below the top stands for the patterns that go on from it.** -/
theorem Orderly.isSome_node?_iff (h : m.Orderly) (hlists : m.Lists patterns) (hne : path ≠ []) :
    (m.node? path).isSome ↔ Continues patterns path := by
  constructor
  · intro hsome
    obtain ⟨n, hnode⟩ := Option.isSome_iff_exists.mp hsome
    obtain ⟨rest, value, hfind⟩ := h.exists_find? hnode hne
    exact ⟨path ++ rest, (hlists _).mpr (by rw [hfind]; rfl), List.prefix_append _ _⟩
  · rintro ⟨pattern, hpattern, rest, rfl⟩
    have hfind := (hlists _).mp hpattern
    rw [find?_append] at hfind
    exact Option.isSome_of_isSome_bind hfind

/-- An orderly map keeps the wildcard out of its literal children. -/
theorem Orderly.tidy (h : m.Orderly) : m.Tidy := by
  induction h with
  | node ascending plain below bears under bears_any ihbelow ihunder =>
    refine .node ?_ (fun segment child hchild => ?_) ihunder
    · rwa [← Option.not_isSome_iff_eq_none, Entries.isSome_lookup_iff]
    · exact ihbelow segment child (Entries.mem_of_lookup hchild)

/-- A tidy map has a literal child for a segment that is not the wildcard and leads to a child. -/
theorem Tidy.isSome_lookup_iff (h : m.Tidy) :
    (m.literals.lookup segment).isSome ↔ segment ≠ wildcard ∧ (m.child? segment).isSome := by
  rcases h.taken_cases segment with ⟨hnone, -⟩ | ⟨hsome, hne, -⟩
  · rw [hnone, child?, hnone]
    by_cases hw : segment = wildcard <;> simp [hw]
  · simp [child?, hne]

/-- No literal child takes a segment behind a path exactly if no pattern goes on with it. -/
theorem Orderly.freeAt_iff (h : m.Orderly) (hlists : m.Lists patterns) :
    m.FreeAt before segment ↔ ¬HasLiteral patterns before segment := by
  rw [FreeAt, HasLiteral, ← h.isSome_node?_iff hlists (by simp)]
  cases hnode : m.node? before with
  | none => simp [node?_append, hnode]
  | some n =>
    rw [node?_concat hnode, ← (h.of_node? hnode).tidy.isSome_lookup_iff,
      Option.not_isSome_iff_eq_none]
    simp

/-- A name is led along a pattern exactly if the pattern covers it and no segment at a wildcard is
one with which a pattern goes on. -/
theorem Orderly.ledAlong_iff (h : m.Orderly) (hlists : m.Lists patterns) :
    m.LedAlong pattern segments ↔
      Covers pattern segments ∧ Undisturbed patterns pattern segments := by
  constructor
  · exact fun hled => ⟨hled.covers, fun i hi segment hsegment =>
      (h.freeAt_iff hlists).mp (hled.free i hi segment hsegment)⟩
  · exact fun ⟨hcovers, hfree⟩ => ⟨hcovers, fun i hi segment hsegment =>
      (h.freeAt_iff hlists).mpr (hfree i hi segment hsegment)⟩

/-- The walk goes on with the piece that the next segment takes at the node to which it has come. -/
theorem Orderly.greedy_cons (h : m.Orderly) (hlists : m.Lists patterns)
    (hnode : m.node? before = some n) (segment : String) (rest : List String) :
    greedy patterns before (segment :: rest) =
      if (n.child? (n.taken segment)).isSome then
        greedy patterns (before ++ [n.taken segment]) rest
      else none := by
  have hcontinues : ∀ piece, Continues patterns (before ++ [piece]) ↔ (n.child? piece).isSome := by
    intro piece
    rw [← h.isSome_node?_iff hlists (by simp), node?_concat hnode]
  have hn := (h.of_node? hnode).tidy
  rw [greedy]
  simp only [hcontinues]
  rcases hn.taken_cases segment with ⟨hnone, htaken⟩ | ⟨hsome, -, htaken⟩
  · rw [htaken]
    by_cases hw : segment = wildcard
    · -- A segment that reads like the wildcard is the wildcard to the walk.
      rw [hw]
      split_ifs <;> rfl
    · have hchild : ¬(n.child? segment).isSome := fun hchild => by
        have hlookup := hn.isSome_lookup_iff.mpr ⟨hw, hchild⟩
        rw [hnone] at hlookup
        cases hlookup
      rw [if_neg hchild]
  · rw [htaken, if_pos (hn.isSome_lookup_iff.mp hsome).2, if_pos (hn.isSome_lookup_iff.mp hsome).2]

/-- The walk that has come to a node ends at the pattern along which the name is led from there. -/
theorem Orderly.greedy_eq_some_iff_of_node (h : m.Orderly) (hlists : m.Lists patterns)
    (hnode : m.node? before = some n) :
    greedy patterns before segments = some pattern ↔ ∃ path, pattern = before ++ path ∧
      (n.find? path).isSome ∧ n.LedAlong path segments := by
  induction segments generalizing before n with
  | nil =>
    have hbefore : before ∈ patterns ↔ (n.find? []).isSome := by
      rw [hlists, find?_eq_bound, hnode]
      rfl
    rw [greedy]
    constructor
    · intro hend
      split_ifs at hend with hmem
      obtain rfl := Option.some.inj hend
      exact ⟨[], (List.append_nil _).symm, hbefore.mp hmem, .nil, by simp⟩
    · rintro ⟨path, rfl, hfind, hled⟩
      cases hled.covers
      rw [if_pos (hbefore.mpr hfind), List.append_nil]
  | cons segment rest ih =>
    have hn := (h.of_node? hnode).tidy
    rw [h.greedy_cons hlists hnode]
    constructor
    · intro hend
      split_ifs at hend with hchild
      obtain ⟨child, hchild⟩ := Option.isSome_iff_exists.mp hchild
      obtain ⟨path, rfl, hfind, hled⟩ := (ih ((node?_concat hnode _).trans hchild)).mp hend
      refine ⟨n.taken segment :: path, by simp, ?_, (hn.ledAlong_cons_iff hchild).mpr ⟨rfl, hled⟩⟩
      rwa [find?_cons, hchild]
    · rintro ⟨path, rfl, hfind, hled⟩
      cases path with
      | nil => cases hled.covers
      | cons piece path =>
        rw [find?_cons] at hfind
        obtain ⟨child, hchild⟩ := Option.isSome_iff_exists.mp (Option.isSome_of_isSome_bind hfind)
        rw [hchild] at hfind
        obtain ⟨rfl, hrest⟩ := (hn.ledAlong_cons_iff hchild).mp hled
        rw [if_pos (by rw [hchild]; rfl)]
        exact (ih ((node?_concat hnode _).trans hchild)).mpr ⟨path, by simp, hfind, hrest⟩

/-- **The walk ends at the pattern along which the name is led.** -/
theorem Orderly.greedy_eq_some_iff (h : m.Orderly) (hlists : m.Lists patterns) :
    greedy patterns [] segments = some pattern ↔
      pattern ∈ patterns ∧ m.LedAlong pattern segments := by
  rw [h.greedy_eq_some_iff_of_node hlists rfl, hlists]
  simp

end Nodes

/-! ### Matching after any bindings -/

/-- **Matching is the greedy walk** through the patterns that have been accepted, each once: a name
has the value of the pattern at which the walk ends. So a name that an accepted pattern covers has
the value of this pattern, if no segment at a wildcard is one with which a pattern goes on there;
and else the walk does not end at this pattern, and a value that the name has is that of another. -/
theorem matchName_insertAll (inserts : List (String × α)) (name : Cursor) :
    let m := empty.insertAll inserts
    let bound := empty.accepted inserts
    let patterns := bound.map (·.1)
    patterns.Nodup ∧
      (∀ value, m.matchName name = some value ↔ ∃ pattern,
        greedy patterns [] name.remaining = some pattern ∧ (pattern, value) ∈ bound) ∧
      ∀ pattern value, (pattern, value) ∈ bound → Covers pattern name.remaining →
        (Undisturbed patterns pattern name.remaining → m.matchName name = some value) ∧
        (¬Undisturbed patterns pattern name.remaining →
          greedy patterns [] name.remaining ≠ some pattern ∧
          ∀ other, m.matchName name = some other →
            ∃ pattern', pattern' ≠ pattern ∧ (pattern', other) ∈ bound) := by
  intro m bound patterns
  have horderly : m.Orderly := insertAll_holds Orderly.insertAt orderly_empty inserts
  have hfind : ∀ path value, m.find? path = some value ↔ (path, value) ∈ bound := by
    intro path value
    rw [find?_insertAll_iff, find?_empty]
    exact or_iff_right nofun
  have hlists : m.Lists patterns := by
    intro path
    rw [Option.isSome_iff_exists, List.mem_map]
    simp [hfind]
  have hmatch : ∀ value, m.matchName name = some value ↔ ∃ pattern,
      greedy patterns [] name.remaining = some pattern ∧ (pattern, value) ∈ bound := by
    intro value
    rw [matchName, matchSegments_iff horderly.tidy]
    refine exists_congr fun pattern => ?_
    rw [hfind, horderly.greedy_eq_some_iff hlists]
    constructor
    · rintro ⟨hmem, hled⟩
      exact ⟨⟨List.mem_map_of_mem hmem, hled⟩, hmem⟩
    · rintro ⟨⟨-, hled⟩, hmem⟩
      exact ⟨hmem, hled⟩
  have hgreedy : ∀ {pattern}, greedy patterns [] name.remaining = some pattern ↔
      pattern ∈ patterns ∧ Covers pattern name.remaining ∧
        Undisturbed patterns pattern name.remaining := by
    intro pattern
    rw [horderly.greedy_eq_some_iff hlists, horderly.ledAlong_iff hlists]
  refine ⟨nodup_accepted empty inserts, hmatch, fun pattern value hmem hcovers =>
    ⟨fun hfree => ?_, fun hnot => ⟨fun hend => hnot (hgreedy.mp hend).2.2, fun other hother => ?_⟩⟩⟩
  · exact (hmatch value).mpr
      ⟨pattern, hgreedy.mpr ⟨List.mem_map_of_mem hmem, hcovers, hfree⟩, hmem⟩
  · obtain ⟨pattern', hend, hmem'⟩ := (hmatch other).mp hother
    refine ⟨pattern', ?_, hmem'⟩
    rintro rfl
    exact hnot (hgreedy.mp hend).2.2

/-- A literal segment shadows the wildcard, also where it leads nowhere, and a pattern that is
refused leaves nothing behind. -/
theorem matchName_insertAll_shadowed :
    let inserts := [("m.\x7b*\x7d.value", 1), ("m.special.other", 2), ("m.\"\x7b*\x7d\".value", 3)]
    let m := empty.insertAll inserts
    empty.accepted inserts = [(["m", wildcard, "value"], 1), (["m", "special", "other"], 2)] ∧
      m.matchName (.ofName "m.x.value") = some 1 ∧
      m.matchName (.ofName "m.special.value") = none := by
  intro inserts m
  have haccepted : empty.accepted inserts =
      [(["m", wildcard, "value"], 1), (["m", "special", "other"], 2)] := by decide +kernel
  refine ⟨haccepted, ?_, Option.eq_none_iff_forall_ne_some.mpr fun value hmatch => ?_⟩
  · refine ((matchName_insertAll inserts _).2.1 1).mpr ⟨["m", wildcard, "value"], ?_⟩
    rw [haccepted]
    decide +kernel
  · obtain ⟨pattern, hend, -⟩ := ((matchName_insertAll inserts _).2.1 value).mp hmatch
    rw [haccepted] at hend
    have hnone : greedy [["m", wildcard, "value"], ["m", "special", "other"]] []
        (Cursor.ofName "m.special.value").remaining = none := by decide +kernel
    cases hnone.symm.trans hend

end PatternMap

end PropertyBinding
