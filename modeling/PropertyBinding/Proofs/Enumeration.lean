import PropertyBinding.Proofs.Binding

/-!
# Rebuilding a pattern map from its enumeration

A traversal shows every bound value once, with the segments on its path joined by dots as they stand
(`PatternMap.shownPattern`). Read back as a pattern, this text leaves characters out: quotation
marks, and the dots around empty segments at either end (`Name.intercalate_unquote_sublist`). So it
is the path again only if no segment has a dot or begins with a quotation mark, and neither the
first nor the last one is empty (`PatternMap.segments_shownPattern_eq_iff`).

Binding the shown patterns once more gives the map again exactly if all paths are of this kind
(`PatternMap.insertEach_entries_iff`). There is no other way to come back to the same paths: if no
two of them were read as one, and those that are not read as they are changed places, then the
texts of some would grow.
-/

namespace PropertyBinding

namespace Name

/-! ### Segments joined as they stand -/

section Joined

variable {cs rest : List Char}

/-- A raw segment without its marks is what it was if it does not begin with one. -/
theorem unquote_eq_self_iff : unquote cs = cs ↔ cs.head? ≠ some '"' := by
  cases cs with
  | nil => exact iff_of_true rfl nofun
  | cons c cs =>
    by_cases hc : c = '"'
    · subst hc
      refine iff_of_false (fun heq => ?_) fun hne => hne rfl
      have hlength := congrArg List.length heq
      rw [unquote] at hlength
      split_ifs at hlength
      · rw [List.length_dropLast, List.length_cons] at hlength
        omega
      · rw [List.length_cons] at hlength
        omega
    · rw [unquote]
      · simpa using hc
      · rintro rest ⟨⟩
        exact hc rfl

/-- A separator in front of nothing is left out. -/
theorem intercalate_cons_sublist {α : Type} (sep first : List α) (others : List (List α)) :
    (sep.intercalate (first :: others)).Sublist (first ++ (sep ++ sep.intercalate others)) := by
  cases others with
  | nil =>
    rw [List.intercalate_singleton]
    exact List.sublist_append_left _ _
  | cons next others => rw [List.intercalate_cons_cons, List.append_assoc]

/-- Reading a name and joining its segments as they stand leaves characters out. -/
theorem intercalate_unquote_sublist (cs : List Char) :
    (['.'].intercalate ((rawSegments cs).map unquote)).Sublist cs := by
  induction cs using rawSegments.induct with
  | case1 => simp [rawSegments]
  | case2 cs hne ih =>
    rw [rawSegments_of_ne_nil hne, List.map_cons]
    rcases splitFirst_cases cs with ⟨hfirst, hrest⟩ | hfirst
    · rw [hrest, rawSegments, dif_pos rfl, List.map_nil, List.intercalate_singleton]
      exact (unquote_sublist _).trans (hfirst ▸ List.Sublist.refl _)
    · refine (intercalate_cons_sublist _ _ _).trans ?_
      conv_rhs => rw [hfirst]
      exact (unquote_sublist _).append (ih.cons_cons '.')

/-- If reading a name and joining its segments as they stand leaves nothing out, no segment is
quoted or has a dot, and the last one is not empty. -/
theorem rawSegments_of_intercalate_eq
    (h : ['.'].intercalate ((rawSegments cs).map unquote) = cs) :
    (∀ raw ∈ rawSegments cs, '.' ∉ raw ∧ raw.head? ≠ some '"') ∧
      (rawSegments cs).getLast? ≠ some [] := by
  induction cs using rawSegments.induct with
  | case1 => simp [rawSegments]
  | case2 cs hne ih =>
    have hraw : unquote (splitFirst cs).1 = (splitFirst cs).1 →
        '.' ∉ (splitFirst cs).1 ∧ (splitFirst cs).1.head? ≠ some '"' := by
      intro hunquoted
      have hhead := unquote_eq_self_iff.mp hunquoted
      refine ⟨?_, hhead⟩
      have hmark : cs.head? ≠ some '"' := by
        rw [← splitFirst_append cs, List.head?_append]
        cases hfirst : (splitFirst cs).1.head? with
        | none => exact fun hmark => absurd (head?_splitFirst_snd cs _ hmark) (by decide)
        | some c => rwa [hfirst] at hhead
      rw [splitFirst_eq hmark]
      exact fun hdot => absurd (List.mem_takeWhile_imp hdot) (by simp)
    rw [rawSegments_of_ne_nil hne, List.map_cons] at h
    rw [rawSegments_of_ne_nil hne]
    rcases splitFirst_cases cs with ⟨hfirst, hrest⟩ | hfirst
    · rw [hrest, rawSegments, dif_pos rfl] at h ⊢
      rw [List.map_nil, List.intercalate_singleton] at h
      refine ⟨List.forall_mem_singleton.mpr (hraw (h.trans hfirst)), ?_⟩
      rw [List.getLast?_singleton, ← hfirst]
      exact fun hnil => hne (Option.some.inj hnil)
    · have hfirst_le := (unquote_sublist (splitFirst cs).1).length_le
      have hrest_le := (intercalate_unquote_sublist ((splitFirst cs).2.drop 1)).length_le
      generalize hafter : (splitFirst cs).2.drop 1 = after at *
      cases hsegments : rawSegments after with
      | nil =>
        rw [hsegments, List.map_nil, List.intercalate_singleton] at h
        have hlength := congrArg List.length (h.trans hfirst)
        rw [List.length_append, List.length_cons] at hlength
        omega
      | cons next others =>
        rw [hsegments, List.map_cons, List.intercalate_cons_cons, ← List.map_cons, ← hsegments,
          List.append_assoc, List.singleton_append] at h
        have hsplit := h.trans hfirst
        have hlength := congrArg List.length hsplit
        rw [List.length_append, List.length_append, List.length_cons, List.length_cons] at hlength
        obtain ⟨hunquoted, htail⟩ := List.append_inj hsplit (by omega)
        obtain ⟨hmem, hlast⟩ := ih (List.cons.inj htail).2
        rw [← hsegments]
        refine ⟨List.forall_mem_cons.mpr ⟨hraw hunquoted, hmem⟩, ?_⟩
        rw [hsegments, List.getLast?_cons_cons, ← hsegments]
        exact hlast

end Joined

/-- Joining the segments of a name as they stand leaves characters of the name out. -/
theorem intercalate_segments_sublist (name : String) :
    (String.intercalate "." (segments name)).toList.Sublist name.toList := by
  have hlist : (String.intercalate "." (segments name)).toList =
      ['.'].intercalate ((rawSegments name.toList).map unquote) := by
    rw [String.toList_intercalate, segments, List.map_map]
    simp [Function.comp_def]
  rw [hlist]
  exact intercalate_unquote_sublist name.toList

/-- If a name is its segments joined as they stand, none of them needs quotation marks, and the last
one is not empty. -/
theorem unmarked_of_intercalate_segments {name : String}
    (h : String.intercalate "." (segments name) = name) :
    (∀ segment ∈ segments name, Unmarked segment) ∧ (segments name).getLast? ≠ some "" := by
  have hlist : ['.'].intercalate ((rawSegments name.toList).map unquote) = name.toList := by
    have htoList := congrArg String.toList h
    rw [String.toList_intercalate, segments, List.map_map] at htoList
    simpa [Function.comp_def] using htoList
  obtain ⟨hraw, hlast⟩ := rawSegments_of_intercalate_eq hlist
  constructor
  · intro segment hsegment
    obtain ⟨raw, hmem, rfl⟩ := List.mem_map.mp hsegment
    obtain ⟨hdot, hmark⟩ := hraw raw hmem
    rw [unquote_eq_self_iff.mpr hmark, Unmarked, String.toList_ofList]
    exact ⟨hdot, hmark⟩
  · rw [segments, List.getLast?_map]
    intro hempty
    obtain ⟨raw, hmem, hunquoted⟩ := Option.map_eq_some_iff.mp hempty
    obtain ⟨-, hmark⟩ := hraw raw (List.mem_of_getLast? hmem)
    rw [unquote_eq_self_iff.mpr hmark] at hunquoted
    obtain rfl : raw = [] := by simpa using congrArg String.toList hunquoted
    exact hlast hmem

end Name

namespace PatternMap

variable {α : Type}

/-! ### Shown patterns -/

/-- The text that a traversal shows for a path. -/
def shownPattern (path : List String) : String := path.foldl extend ""

/-- Whether the text of a path is read back as the path: no segment has a dot or begins with a
quotation mark, and neither the first nor the last one is empty. -/
structure ReadsBack (path : List String) : Prop where
  first : path.head? ≠ some ""
  last : path.getLast? ≠ some ""
  unmarked : ∀ segment ∈ path, Name.Unmarked segment

instance (path : List String) : Decidable (ReadsBack path) :=
  decidable_of_iff (path.head? ≠ some "" ∧ path.getLast? ≠ some "" ∧
      ∀ segment ∈ path, '.' ∉ segment.toList ∧ segment.toList.head? ≠ some '"')
    ⟨fun h => ⟨h.1, h.2.1, h.2.2⟩, fun h => ⟨h.first, h.last, h.unmarked⟩⟩

section Shown

variable {path : List String}

theorem foldl_extend_of_ne_empty {pattern : String} (h : pattern ≠ "") (path : List String) :
    path.foldl extend pattern = String.intercalate "." (pattern :: path) := by
  induction path generalizing pattern with
  | nil => simp
  | cons segment path ih =>
    have hne : pattern ++ "." ++ segment ≠ "" := by
      intro hempty
      have hlist := congrArg String.toList hempty
      simp [String.toList_append] at hlist
    rw [List.foldl_cons, extend, if_neg h, ih hne]
    cases path with
    | nil => simp
    | cons next path => simp [String.append_assoc]

/-- A traversal shows the segments of a path joined by dots, without the empty ones in front. -/
theorem shownPattern_eq (path : List String) :
    shownPattern path = String.intercalate "." (path.dropWhile (· = "")) := by
  induction path with
  | nil => rfl
  | cons segment path ih =>
    rw [shownPattern, List.foldl_cons, extend, if_pos rfl]
    by_cases hempty : segment = ""
    · subst hempty
      exact ih
    · rw [foldl_extend_of_ne_empty hempty, List.dropWhile_cons_of_neg (by simpa using hempty)]

/-- Joining all segments of a path gives a longer text than the shown one, if the path begins with
an empty segment and has another one. -/
theorem shownPattern_sublist (path : List String) :
    (shownPattern path).toList.Sublist (String.intercalate "." path).toList := by
  rw [shownPattern_eq]
  induction path with
  | nil => exact List.Sublist.refl _
  | cons segment path ih =>
    by_cases hempty : segment = ""
    · rw [List.dropWhile_cons_of_pos (by simpa using hempty)]
      refine ih.trans ?_
      cases path with
      | nil => simp
      | cons next path =>
        rw [String.intercalate_cons_cons, String.toList_append]
        exact List.sublist_append_right _ _
    · rw [List.dropWhile_cons_of_neg (by simpa using hempty)]

/-- Reading a shown text and showing its segments leaves characters of it out. -/
theorem shownPattern_segments_sublist (name : String) :
    (shownPattern (Name.segments name)).toList.Sublist name.toList :=
  (shownPattern_sublist _).trans (Name.intercalate_segments_sublist name)

/-- **Which shown texts are read back** as their paths. -/
theorem segments_shownPattern_eq_iff :
    Name.segments (shownPattern path) = path ↔ ReadsBack path := by
  constructor
  · intro h
    -- Neither reading the text nor showing the path has left anything out.
    have hjoin := Name.intercalate_segments_sublist (shownPattern path)
    rw [h] at hjoin
    have heq : String.intercalate "." path = shownPattern path :=
      String.toList_inj.mp (hjoin.antisymm (shownPattern_sublist path))
    have hname :
        String.intercalate "." (Name.segments (shownPattern path)) = shownPattern path := by
      rw [h, heq]
    obtain ⟨hunmarked, hlast⟩ := Name.unmarked_of_intercalate_segments hname
    rw [h] at hunmarked hlast
    refine ⟨fun hfirst => ?_, hlast, hunmarked⟩
    obtain ⟨rest, rfl⟩ := List.head?_eq_some_iff.mp hfirst
    have hrest : shownPattern ("" :: rest) = shownPattern rest := rfl
    cases rest with
    | nil => exact hlast rfl
    | cons next rest =>
      have hlength := (shownPattern_sublist (next :: rest)).length_le
      rw [← hrest, ← heq, String.intercalate_cons_cons, String.toList_append,
        List.length_append] at hlength
      have hdot : ("" ++ ".").toList.length = 1 := rfl
      omega
  · intro h
    have hdrop : path.dropWhile (· = "") = path := by
      cases path with
      | nil => rfl
      | cons segment rest =>
        exact List.dropWhile_cons_of_neg (by simpa using h.first)
    have hquote : path.map Name.quoteSegment = path :=
      List.map_congr_left (fun segment hsegment =>
        Name.quoteSegment_of_unmarked (h.unmarked segment hsegment)) |>.trans (List.map_id _)
    have hjoin : shownPattern path = Name.joinSegments path := by
      rw [shownPattern_eq, hdrop, Name.joinSegments, hquote]
    rw [hjoin]
    exact Name.segments_joinSegments_eq_iff.mpr
      ⟨h.last, fun segment hsegment => (h.unmarked segment hsegment).quotable⟩

/-- If the shown texts of some paths are read as paths among them, and as different ones, then each
is read back as its own path. -/
theorem segments_shownPattern_of_injOn {paths : List (List String)}
    (hmem : ∀ path ∈ paths, Name.segments (shownPattern path) ∈ paths)
    (hinj : ∀ path ∈ paths, ∀ other ∈ paths,
      Name.segments (shownPattern path) = Name.segments (shownPattern other) → path = other) :
    ∀ path ∈ paths, Name.segments (shownPattern path) = path := by
  -- The induction is on the length of the text, which reading and showing does not increase.
  suffices h : ∀ n, ∀ path ∈ paths, (shownPattern path).toList.length = n →
      Name.segments (shownPattern path) = path from fun path hpath => h _ path hpath rfl
  intro n
  induction n using Nat.strongRecOn with
  | ind n ih =>
    intro path hpath hlength
    have hread := hmem path hpath
    refine hinj _ hread path hpath ?_
    have hsublist := shownPattern_segments_sublist (shownPattern path)
    rcases Nat.lt_or_ge (shownPattern (Name.segments (shownPattern path))).toList.length n with
      hlt | hge
    · rw [ih _ hlt _ hread rfl]
    · have htext := hsublist.eq_of_length (Nat.le_antisymm hsublist.length_le (hlength ▸ hge))
      rw [String.toList_inj.mp htext]

end Shown

/-! ### Binding what has been shown -/

section Rebuild

variable {m m' : PatternMap α} {inserts : List (String × α)} {path : List String} {value : α}

/-- Bind values to patterns, one after the other, until one is refused. -/
def insertEach (m : PatternMap α) (inserts : List (String × α)) :
    Except BindError (PatternMap α) :=
  inserts.foldlM (fun m entry => m.insert entry.1 entry.2) m

/-- All bindings succeed exactly if all patterns are accepted. -/
theorem insertEach_eq_ok_iff : m.insertEach inserts = .ok m' ↔
    m.accepted inserts = readPatterns inserts ∧ m.insertAll inserts = m' := by
  induction inserts generalizing m with
  | nil => simp [insertEach, accepted, readPatterns, insertAll, pure, Except.pure]
  | cons entry rest ih =>
    obtain ⟨pattern, value⟩ := entry
    rw [insertEach, List.foldlM_cons, accepted, insertAll, readPatterns, List.map_cons]
    rcases m.insert_eq pattern value with ⟨m₁, hinsert, -, -⟩ | ⟨hinsert, hsome⟩
    · simp only [hinsert, List.cons.injEq, true_and]
      exact ih
    · simp only [hinsert]
      refine iff_of_false (fun hok => by cases hok) fun h => not_mem_accepted hsome rest ?_
      rw [h.1]
      exact List.mem_cons_self

/-- What a traversal visits: every path, with the text that is shown for it. -/
theorem entries_eq (m : PatternMap α) :
    m.entries = m.bindings.map fun b => (shownPattern b.1, b.2) :=
  entriesFrom_eq m ""

/-- A traversal of a map visits what has been accepted, each pattern once. -/
theorem bindings_perm (inserts : List (String × α)) :
    (empty.insertAll inserts).bindings.Perm (empty.accepted inserts) := by
  have horderly := orderly_insertAll inserts
  refine (List.perm_ext_iff_of_nodup horderly.nodup_paths.of_map
    (nodup_accepted empty inserts).of_map).mpr fun ⟨path, value⟩ => ?_
  rw [horderly.mem_bindings_iff, find?_insertAll_empty]

/-- If binding the shown patterns gives the map again, then each of its paths is read back. -/
theorem readsBack_of_insertEach_entries (h : m.Orderly)
    (hrebuilt : empty.insertEach m.entries = .ok m) : ∀ b ∈ m.bindings, ReadsBack b.1 := by
  obtain ⟨haccepted, hequal⟩ := insertEach_eq_ok_iff.mp hrebuilt
  have hread : empty.accepted m.entries =
      m.bindings.map fun b => (Name.segments (shownPattern b.1), b.2) := by
    rw [haccepted, readPatterns, entries_eq, List.map_map]
    rfl
  have hmem : ∀ path ∈ m.bindings.map (·.1),
      Name.segments (shownPattern path) ∈ m.bindings.map (·.1) := by
    intro path hpath
    obtain ⟨⟨path, value⟩, hb, rfl⟩ := List.mem_map.mp hpath
    have hfound : m.find? (Name.segments (shownPattern path)) = some value := by
      rw [← hequal, find?_insertAll_empty, hread]
      exact List.mem_map_of_mem hb
    exact List.mem_map_of_mem (f := Prod.fst) (h.mem_bindings_iff.mpr hfound)
  have hinj : ∀ path ∈ m.bindings.map (·.1), ∀ other ∈ m.bindings.map (·.1),
      Name.segments (shownPattern path) = Name.segments (shownPattern other) → path = other := by
    intro path hpath other hother heq
    obtain ⟨b, hb, rfl⟩ := List.mem_map.mp hpath
    obtain ⟨b', hb', rfl⟩ := List.mem_map.mp hother
    have hnodup := nodup_accepted empty m.entries
    rw [hread, List.map_map] at hnodup
    rw [List.inj_on_of_nodup_map hnodup hb hb' heq]
  intro b hb
  exact segments_shownPattern_eq_iff.mp
    (segments_shownPattern_of_injOn hmem hinj b.1 (List.mem_map_of_mem hb))

/-- If all paths of a map are read back, binding the shown patterns gives the map again. -/
theorem insertEach_entries_of_readsBack (h : m.Orderly)
    (hreads : ∀ b ∈ m.bindings, ReadsBack b.1) : empty.insertEach m.entries = .ok m := by
  have hread : readPatterns m.entries = m.bindings := by
    rw [readPatterns, entries_eq, List.map_map]
    refine (List.map_congr_left fun b hb => ?_).trans (List.map_id _)
    exact Prod.ext (segments_shownPattern_eq_iff.mpr (hreads b hb)) rfl
  have hnodup : (m.entries.map fun entry => Name.segments entry.1).Nodup := by
    have hpaths := h.nodup_paths
    rw [← hread, readPatterns, List.map_map] at hpaths
    exact hpaths
  have haccepted := accepted_eq_of_nodup (m := empty) (fun _ _ => find?_empty _) hnodup
  refine insertEach_eq_ok_iff.mpr ⟨haccepted, ?_⟩
  refine (orderly_insertAll m.entries).ext h fun path => Option.ext fun value => ?_
  rw [find?_insertAll_empty, haccepted, hread, h.mem_bindings_iff]

/-- **Rebuilding a map from its enumeration.** A map that has been built by successful bindings is
visited so that every bound value comes once, with the text that is shown for the segments of its
pattern. Binding what has been shown, pattern by pattern, succeeds and gives the map again exactly
if the shown text of every pattern is read back as the pattern's segments: none of them has a dot or
begins with a quotation mark, and neither the first nor the last one is empty. -/
theorem insertEach_entries_iff (h : empty.insertEach inserts = .ok m) :
    m.entries.Perm (inserts.map fun entry =>
        (shownPattern (Name.segments entry.1), entry.2)) ∧
      (empty.insertEach m.entries = .ok m ↔
        ∀ entry ∈ inserts, ReadsBack (Name.segments entry.1)) := by
  obtain ⟨haccepted, rfl⟩ := insertEach_eq_ok_iff.mp h
  have horderly := orderly_insertAll inserts
  have hperm : (empty.insertAll inserts).bindings.Perm (readPatterns inserts) :=
    haccepted ▸ bindings_perm inserts
  have hpaths : (∀ b ∈ (empty.insertAll inserts).bindings, ReadsBack b.1) ↔
      ∀ entry ∈ inserts, ReadsBack (Name.segments entry.1) := by
    simp only [hperm.mem_iff, readPatterns, List.forall_mem_map]
  constructor
  · rw [entries_eq]
    have hshown := hperm.map fun b => (shownPattern b.1, b.2)
    rwa [readPatterns, List.map_map] at hshown
  · rw [← hpaths]
    exact ⟨readsBack_of_insertEach_entries horderly, insertEach_entries_of_readsBack horderly⟩

/-- A map with a wildcard, an empty segment between two others and the empty pattern is rebuilt. -/
theorem insertEach_entries_wildcard :
    let inserts := [("a.\x7b*\x7d..\"b\"", 1), ("", 2), ("m", 3)]
    let m := empty.insertAll inserts
    empty.insertEach inserts = .ok m ∧
      (∀ entry ∈ inserts, ReadsBack (Name.segments entry.1)) ∧
      empty.insertEach m.entries = .ok m := by
  intro inserts m
  have hnodup : (inserts.map fun entry => Name.segments entry.1).Nodup := by decide +kernel
  have hbuilt : empty.insertEach inserts = .ok m :=
    insertEach_eq_ok_iff.mpr ⟨accepted_eq_of_nodup (fun _ _ => find?_empty _) hnodup, rfl⟩
  have hreads : ∀ entry ∈ inserts, ReadsBack (Name.segments entry.1) := by decide +kernel
  exact ⟨hbuilt, hreads, (insertEach_entries_iff hbuilt).2.mpr hreads⟩

/-- A segment with a dot is shown without its quotation marks. The text denotes another node, at
which nothing is bound, and binding it does not give the map again. -/
theorem insertEach_entries_dotted_ne :
    let inserts := [("a.\"x.y\"", 1)]
    let m := empty.insertAll inserts
    empty.insertEach inserts = .ok m ∧ m.entries = [("a.x.y", 1)] ∧
      m.contains "a.x.y" = false ∧ empty.insertEach m.entries ≠ .ok m := by
  intro inserts m
  have hnodup : (inserts.map fun entry => Name.segments entry.1).Nodup := by decide +kernel
  have hbuilt : empty.insertEach inserts = .ok m :=
    insertEach_eq_ok_iff.mpr ⟨accepted_eq_of_nodup (fun _ _ => find?_empty _) hnodup, rfl⟩
  have hentries : m.entries = [("a.x.y", 1)] := by decide +kernel
  have hfree : m.contains "a.x.y" = false := by decide +kernel
  refine ⟨hbuilt, hentries, hfree, fun hrebuilt => ?_⟩
  have hequal := (insertEach_eq_ok_iff.mp hrebuilt).2
  have hbound : (empty.insertAll [("a.x.y", 1)]).contains "a.x.y" = true := by decide +kernel
  rw [← hentries, hequal, hfree] at hbound
  cases hbound

end Rebuild

end PatternMap

end PropertyBinding
