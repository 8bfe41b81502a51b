import Mathlib.Data.List.Forall2
import PropertyBinding.Pattern

/-!
# The pattern index as a partial map

Seen through `find?`, a pattern map is a partial map from lists of segments to values. Binding a
value at a path changes what is found at this path and at no other, and is refused exactly where a
value is found (`find?_insertAt`, `insertAt_eq_none_iff`).

Matching a name is not a lookup of its segments, since a wildcard stands for any segment. In a map
that keeps the wildcard out of its literal children (`Tidy`, which binding preserves), a match finds
the value of a pattern that covers the name (`exists_covers_of_matchSegments`), and the pattern
itself, read as a name, matches itself (`matchSegments_self`).
-/

namespace PropertyBinding

namespace PatternMap

variable {α : Type}

/-! ### Binding and finding -/

@[simp]
theorem find?_nil (m : PatternMap α) : m.find? [] = m.bound := by rw [find?]

@[simp]
theorem find?_cons (m : PatternMap α) (segment : String) (path : List String) :
    m.find? (segment :: path) = (m.child? segment).bind (find? path) := by rw [find?]

@[simp]
theorem child?_empty (segment : String) : (empty : PatternMap α).child? segment = none := by
  simp [child?, empty, any, literals]

/-- Nothing is found in the map without patterns. -/
theorem find?_empty (path : List String) : (empty : PatternMap α).find? path = none := by
  cases path with
  | nil => rfl
  | cons segment path => simp

/-- What an absent child would find is what the map without patterns finds. -/
private theorem bind_find?_eq (child : Option (PatternMap α)) (path : List String) :
    child.bind (find? path) = (child.getD empty).find? path := by
  cases child with
  | none => simp [find?_empty]
  | some child => rfl

/-- Binding below a segment: the child that the segment leads to is replaced, the others and the
value at the top stay. -/
private theorem insertAt_cons {value : α} {segment : String} {path : List String}
    {m m' : PatternMap α} (h : insertAt value (segment :: path) m = some m') :
    ∃ child, insertAt value path ((m.child? segment).getD empty) = some child ∧
      m'.bound = m.bound ∧ m'.child? segment = some child ∧
      ∀ other, other ≠ segment → m'.child? other = m.child? other := by
  obtain ⟨b, lits, wild⟩ := m
  rw [insertAt] at h
  by_cases hw : segment = wildcard
  · rw [if_pos hw] at h
    obtain ⟨child, hchild, rfl⟩ := Option.map_eq_some_iff.mp h
    refine ⟨child, by simpa [child?, hw, any] using hchild, rfl, by simp [child?, hw, any], ?_⟩
    intro other hne
    rw [hw] at hne
    simp [child?, hne, literals]
  · rw [if_neg hw] at h
    obtain ⟨child, hchild, rfl⟩ := Option.map_eq_some_iff.mp h
    refine ⟨child, by simpa [child?, hw, literals] using hchild, rfl, ?_, ?_⟩
    · simp [child?, hw, literals, Entries.lookup_insert_self]
    · intro other hne
      by_cases ho : other = wildcard
      · simp [child?, ho, any]
      · simp [child?, ho, literals, Entries.lookup_insert_of_ne hne]

/-- **Binding is an update.** The value is found at its path; elsewhere nothing changes. -/
theorem find?_insertAt {value : α} {path : List String} {m m' : PatternMap α}
    (h : insertAt value path m = some m') (other : List String) :
    m'.find? other = if other = path then some value else m.find? other := by
  induction path generalizing m m' other with
  | nil =>
    obtain ⟨b, lits, wild⟩ := m
    cases b with
    | some b => simp [insertAt] at h
    | none =>
      obtain rfl : PatternMap.node (some value) lits wild = m' := by simpa [insertAt] using h
      cases other with
      | nil => simp [bound]
      | cons segment rest => simp [child?, any, literals]
  | cons segment path ih =>
    -- Below the segment, an absent child finds what the empty map finds.
    obtain ⟨child, hchild, hbound, hself, hne⟩ := insertAt_cons h
    cases other with
    | nil => simp [hbound]
    | cons step rest =>
      by_cases hstep : step = segment
      · subst hstep
        simp only [find?_cons, hself, Option.bind_some, ih hchild, List.cons.injEq, true_and,
          bind_find?_eq]
      · simp [hne step hstep, hstep]

/-- Binding is refused exactly where a value is found. -/
theorem insertAt_eq_none_iff (value : α) {path : List String} {m : PatternMap α} :
    insertAt value path m = none ↔ (m.find? path).isSome := by
  induction path generalizing m with
  | nil =>
    obtain ⟨b, lits, wild⟩ := m
    cases b <;> simp [insertAt, bound]
  | cons segment path ih =>
    obtain ⟨b, lits, wild⟩ := m
    rw [insertAt, find?_cons, bind_find?_eq]
    by_cases hw : segment = wildcard
    · simp [hw, child?, any, ih]
    · simp [hw, child?, literals, ih]

/-- A pattern is refused exactly if its segments have a value. -/
theorem insert_eq (m : PatternMap α) (pattern : String) (value : α) :
    (∃ m', m.insert pattern value = .ok m' ∧ insertAt value (Name.segments pattern) m = some m' ∧
        m.find? (Name.segments pattern) = none) ∨
      (m.insert pattern value = .error (.duplicatePattern pattern) ∧
        (m.find? (Name.segments pattern)).isSome) := by
  rw [insert]
  cases h : insertAt value (Name.segments pattern) m with
  | none => exact Or.inr ⟨rfl, (insertAt_eq_none_iff value).mp h⟩
  | some m' =>
    refine Or.inl ⟨m', rfl, rfl, ?_⟩
    rw [← Option.not_isSome_iff_eq_none, ← insertAt_eq_none_iff value, h]
    simp

/-! ### Matching names -/

/-- No literal child of the map or below it stands under the wildcard. -/
inductive Tidy : PatternMap α → Prop where
  | node {bound : Option α} {literals : List (String × PatternMap α)}
      {any : Option (PatternMap α)} (plain : literals.lookup wildcard = none)
      (below : ∀ segment child, literals.lookup segment = some child → Tidy child)
      (under : ∀ child, any = some child → Tidy child) : Tidy (.node bound literals any)

theorem tidy_empty : (empty : PatternMap α).Tidy :=
  .node rfl (by simp) (by simp)

/-- Binding keeps a map tidy. -/
theorem Tidy.insertAt {value : α} {path : List String} {m m' : PatternMap α} (hm : m.Tidy)
    (h : insertAt value path m = some m') : m'.Tidy := by
  induction path generalizing m m' with
  | nil =>
    obtain @⟨b, lits, wild, plain, below, under⟩ := hm
    cases b with
    | some b => simp [PatternMap.insertAt] at h
    | none =>
      obtain rfl : PatternMap.node (some value) lits wild = m' := by
        simpa [PatternMap.insertAt] using h
      exact .node plain below under
  | cons segment path ih =>
    obtain @⟨b, lits, wild, plain, below, under⟩ := hm
    rw [PatternMap.insertAt] at h
    split_ifs at h with hw
    · obtain ⟨child, hchild, rfl⟩ := Option.map_eq_some_iff.mp h
      have htidy : (wild.getD empty).Tidy := by
        cases wild with
        | none => exact tidy_empty
        | some child => exact under child rfl
      refine .node plain below fun other hother => ?_
      obtain rfl := Option.some.inj hother
      exact ih htidy hchild
    · obtain ⟨child, hchild, rfl⟩ := Option.map_eq_some_iff.mp h
      have htidy : ((lits.lookup segment).getD empty).Tidy := by
        cases hl : lits.lookup segment with
        | none => exact tidy_empty
        | some child => exact below segment child hl
      refine .node ?_ (fun other child' hother => ?_) under
      · rw [Entries.lookup_insert_of_ne (Ne.symm hw), plain]
      · by_cases ho : other = segment
        · subst ho
          rw [Entries.lookup_insert_self] at hother
          obtain rfl := Option.some.inj hother
          exact ih htidy hchild
        · rw [Entries.lookup_insert_of_ne ho] at hother
          exact below other child' hother

/-- Whether the segments of a pattern stand for the segments of a name, one for one. -/
def Covers (pattern segments : List String) : Prop :=
  List.Forall₂ (fun piece segment => piece = wildcard ∨ piece = segment) pattern segments

/-- A match finds the value of a pattern that covers the segments. -/
theorem exists_covers_of_matchSegments {segments : List String} {m : PatternMap α} {value : α}
    (hm : m.Tidy) (h : m.matchSegments segments = some value) :
    ∃ path, Covers path segments ∧ m.find? path = some value := by
  induction segments generalizing m with
  | nil => exact ⟨[], .nil, by simpa [matchSegments] using h⟩
  | cons segment rest ih =>
    obtain @⟨b, lits, wild, plain, below, under⟩ := hm
    rw [matchSegments] at h
    cases hl : lits.lookup segment with
    | some child =>
      rw [literals, hl] at h
      obtain ⟨path, hcov, hfind⟩ := ih (below segment child hl) h
      -- No literal child is under the wildcard, so this step of the path is the segment itself.
      have hne : segment ≠ wildcard := by
        rintro rfl
        rw [plain] at hl
        simp at hl
      exact ⟨segment :: path, .cons (Or.inr rfl) hcov, by simp [child?, hne, literals, hl, hfind]⟩
    | none =>
      rw [literals, hl] at h
      obtain ⟨child, hchild, hmatch⟩ := Option.bind_eq_some_iff.mp h
      obtain ⟨path, hcov, hfind⟩ := ih (under child hchild) hmatch
      exact ⟨wildcard :: path, .cons (Or.inl rfl) hcov, by simp [child?, hchild, hfind]⟩

/-- A pattern with a value matches itself: a name's segment that reads like the wildcard has no
literal child. -/
theorem matchSegments_self {path : List String} {m : PatternMap α} {value : α} (hm : m.Tidy)
    (h : m.find? path = some value) : m.matchSegments path = some value := by
  induction path generalizing m with
  | nil => simpa [matchSegments] using h
  | cons segment rest ih =>
    obtain @⟨b, lits, wild, plain, below, under⟩ := hm
    rw [find?_cons] at h
    obtain ⟨child, hchild, hfind⟩ := Option.bind_eq_some_iff.mp h
    rw [matchSegments]
    by_cases hw : segment = wildcard
    · subst hw
      simp only [child?, any, if_true] at hchild
      simp only [literals, plain, any, hchild, Option.bind_some]
      exact ih (under child hchild) hfind
    · simp only [child?, hw, literals, if_false] at hchild
      simp only [literals, hchild]
      exact ih (below segment child hchild) hfind

end PatternMap

end PropertyBinding
