import Mathlib.Data.List.Induction
import PropertyBinding.Proofs.Filling

/-!
# Writings

With its keys, its templates and its value at hand, a write is a function of the value that is
written to (`Writing.apply`), whatever that value is: it need not follow the schema. So the slot of
one writing may lie on the way of another, which ends there once a scalar has been written into it.

What has once been written to is ready for a writing (`Writing.Ready`): every slot on the way is
there, as far as the way can be followed, and the last one holds a scalar. Other writings keep it so
(`Writing.Ready.apply`). A writing that a value is ready for only replaces a scalar, so it neither
blocks nor unblocks another (`Writing.reaches_apply_of_ready`), and what it has written is lost if
it stands between two applications of another (`Writing.apply_apply_apply`).
-/

namespace PropertyBinding

/-- One step of a writing: into an attribute, or into a map entry, which is made from a template if
it is missing. -/
inductive WriteStep where
  | field (ident : String)
  | entry (key : String) (template : Value)

/-- The slot that a step leads into. -/
def WriteStep.slot : WriteStep → SlotStep
  | .field ident => .field ident
  | .entry key _ => .entry key

/-- What a write goes on in after a step, if the step can be taken. -/
def Value.below? : Value → WriteStep → Option Value
  | .group g, .field ident => g.get? ident
  | .map entries, .entry key template => some ((entries.lookup key).getD template)
  | _, _ => none

/-- A write whose keys, templates and value are at hand. -/
inductive Writing where
  /-- Nothing is written, for want of a key. -/
  | leave
  | replace (value : Value) (scalar : value.IsScalar)
  | into (step : WriteStep) (rest : Writing)

namespace Writing

/-- What is written to, after the writing. -/
def apply : Writing → Value → Value
  | .leave, v => v
  | .replace value _, _ => value
  | .into step rest, v =>
    match v.below? step with
    | none => v
    | some inner => v.put step.slot (rest.apply inner)

/-- Whether the value is written. -/
def reaches : Writing → Value → Bool
  | .leave, _ => false
  | .replace _ _, _ => true
  | .into step rest, v =>
    match v.below? step with
    | none => false
    | some inner => rest.reaches inner

/-- Whether every slot on the way of a writing is there, as far as the way can be followed, and the
last one holds a scalar. -/
def Ready : Writing → Value → Prop
  | .leave, _ => True
  | .replace _ _, v => v.IsScalar
  | .into step rest, v =>
    ∀ inner, v.below? step = some inner → v.slot? step.slot = some inner ∧ rest.Ready inner

end Writing

/-! ### One step -/

namespace Value

variable {v inner : Value} {s t : WriteStep}

/-- A step leads into the value that is in its slot. -/
theorem below?_of_slot? (h : v.slot? s.slot = some inner) : v.below? s = some inner := by
  cases s with
  | field ident =>
    cases v with
    | group g => exact h
    | _ => cases h
  | entry key template =>
    cases v with
    | map entries =>
      have hlookup : entries.lookup key = some inner := h
      rw [below?, hlookup, Option.getD_some]
    | _ => cases h

/-- A value in which a step can be taken takes its slot. -/
theorem takes_of_below? (h : v.below? s = some inner) : v.Takes s.slot := by
  cases s with
  | field ident =>
    cases v with
    | group g => trivial
    | _ => cases h
  | entry key template =>
    cases v with
    | map entries => trivial
    | _ => cases h

/-- Whether a step can be taken depends on its slot only. -/
theorem exists_below? (h : v.below? t = some inner) (hslot : t.slot = s.slot) :
    ∃ inner', v.below? s = some inner' := by
  cases s with
  | field ident =>
    cases t with
    | field other =>
      obtain rfl : other = ident := SlotStep.field.inj hslot
      exact ⟨inner, h⟩
    | entry key template => cases hslot
  | entry key template =>
    cases t with
    | field ident => cases hslot
    | entry other template' =>
      cases v with
      | map entries => exact ⟨_, rfl⟩
      | _ => cases h

theorem IsScalar.below? (h : v.IsScalar) (s : WriteStep) : v.below? s = none := by
  cases v with
  | group g => cases h
  | map entries => cases h
  | _ => rfl

/-- A step into a slot that has been filled leads into what it has been filled with. -/
theorem below?_put_self (h : v.Takes s.slot) (inner : Value) :
    (v.put s.slot inner).below? s = some inner :=
  below?_of_slot? (slot?_put_self h inner)

/-- A step into another slot is as before. -/
theorem below?_put_of_ne (h : t.slot ≠ s.slot) (inner : Value) :
    (v.put s.slot inner).below? t = v.below? t := by
  have hslot := slot?_put_of_ne h inner (v := v)
  cases v with
  | group g =>
    cases s <;> cases t <;> first | rfl | exact hslot
  | map entries =>
    cases s with
    | field ident => rfl
    | entry key template =>
      cases t with
      | field ident => rfl
      | entry other template' =>
        have hlookup : (Entries.insert key inner entries).lookup other = entries.lookup other :=
          hslot
        simp only [WriteStep.slot, put, below?, hlookup]
  | _ => rfl

end Value

namespace Writing

variable {v inner : Value} {s t : WriteStep} {w u : Writing}

/-! ### One writing -/

/-- A step that cannot be taken ends the writing. -/
theorem apply_into_of_none (h : v.below? s = none) : (into s w).apply v = v := by
  simp only [apply, h]

/-- A step that can be taken fills its slot with what has been written to. -/
theorem apply_into (h : v.below? s = some inner) :
    (into s w).apply v = v.put s.slot (w.apply inner) := by
  simp only [apply, h]

theorem reaches_into_of_none (h : v.below? s = none) : (into s w).reaches v = false := by
  simp only [reaches, h]

theorem reaches_into (h : v.below? s = some inner) :
    (into s w).reaches v = w.reaches inner := by
  simp only [reaches, h]

/-- In a slot that has been filled, a writing goes on in what it has been filled with. -/
theorem apply_into_put_self (htakes : v.Takes s.slot) :
    (into s w).apply (v.put s.slot inner) = v.put s.slot (w.apply inner) := by
  rw [apply_into (Value.below?_put_self htakes inner), Value.put_put]

theorem reaches_into_put_self (htakes : v.Takes s.slot) :
    (into s w).reaches (v.put s.slot inner) = w.reaches inner :=
  reaches_into (Value.below?_put_self htakes inner)

/-- Whether a writing reaches its slot does not depend on the other slots. -/
theorem reaches_into_put_of_ne (h : t.slot ≠ s.slot) :
    (into t w).reaches (v.put s.slot inner) = (into t w).reaches v := by
  simp only [reaches, Value.below?_put_of_ne h]

/-- **A writing leaves what it is ready for.** -/
theorem ready_apply_self (w : Writing) (v : Value) : w.Ready (w.apply v) := by
  induction w generalizing v with
  | leave => trivial
  | replace value scalar => exact scalar
  | into s w ih =>
    intro inner' hbelow'
    cases hbelow : v.below? s with
    | none =>
      rw [apply_into_of_none hbelow, hbelow] at hbelow'
      cases hbelow'
    | some inner =>
      have htakes := Value.takes_of_below? hbelow
      rw [apply_into hbelow] at hbelow' ⊢
      obtain rfl := Option.some.inj ((Value.below?_put_self htakes _).symm.trans hbelow')
      exact ⟨Value.slot?_put_self htakes _, ih inner⟩

/-- A second application of a writing changes nothing. -/
theorem apply_apply (w : Writing) (v : Value) : w.apply (w.apply v) = w.apply v := by
  induction w generalizing v with
  | leave => rfl
  | replace value scalar => rfl
  | into s w ih =>
    cases hbelow : v.below? s with
    | none => rw [apply_into_of_none hbelow, apply_into_of_none hbelow]
    | some inner =>
      rw [apply_into hbelow, apply_into_put_self (Value.takes_of_below? hbelow), ih]

/-- A second application of a writing reaches its slot if the first has. -/
theorem reaches_apply_self (w : Writing) (v : Value) : w.reaches (w.apply v) = w.reaches v := by
  induction w generalizing v with
  | leave => rfl
  | replace value scalar => rfl
  | into s w ih =>
    cases hbelow : v.below? s with
    | none => rw [apply_into_of_none hbelow]
    | some inner =>
      rw [apply_into hbelow, reaches_into_put_self (Value.takes_of_below? hbelow),
        reaches_into hbelow, ih]

/-- A scalar stays one. -/
theorem isScalar_apply (w : Writing) (h : v.IsScalar) : (w.apply v).IsScalar := by
  cases w with
  | leave => exact h
  | replace value scalar => exact scalar
  | into s w => rwa [apply_into_of_none (h.below? s)]

/-! ### Two writings -/

/-- A value that is ready for a step goes on in what is in its slot, and so do other writings that
go into the slot. -/
theorem Ready.below? (h : (into s w).Ready v) (hslot : t.slot = s.slot)
    (hbelow : v.below? t = some inner) :
    v.slot? s.slot = some inner ∧ v.below? s = some inner ∧ w.Ready inner := by
  obtain ⟨inner', hinner'⟩ := Value.exists_below? hbelow hslot
  obtain ⟨hthere, hready⟩ := h inner' hinner'
  have hbelow' := Value.below?_of_slot? (hslot ▸ hthere : v.slot? t.slot = some inner')
  obtain rfl := Option.some.inj (hbelow.symm.trans hbelow')
  exact ⟨hthere, hinner', hready⟩

/-- **Other writings keep a value ready.** -/
theorem Ready.apply (h : w.Ready v) (u : Writing) : w.Ready (u.apply v) := by
  induction w generalizing u v with
  | leave => trivial
  | replace value scalar => exact u.isScalar_apply h
  | into s w ih =>
    cases u with
    | leave => exact h
    | replace value scalar =>
      intro inner hinner
      cases (scalar.below? s).symm.trans hinner
    | into t u =>
      cases hbelow : v.below? t with
      | none => rwa [apply_into_of_none hbelow]
      | some inner =>
        have htakes := Value.takes_of_below? hbelow
        rw [apply_into hbelow]
        intro inner' hinner'
        by_cases hslot : t.slot = s.slot
        · obtain ⟨-, -, hready⟩ := h.below? hslot hbelow
          rw [hslot] at htakes hinner' ⊢
          obtain rfl := Option.some.inj ((Value.below?_put_self htakes _).symm.trans hinner')
          exact ⟨Value.slot?_put_self htakes _, ih hready u⟩
        · rw [Value.below?_put_of_ne (Ne.symm hslot)] at hinner'
          rw [Value.slot?_put_of_ne (Ne.symm hslot)]
          exact h inner' hinner'

/-- What a value is ready for and does not follow to the end, it does not follow to the end after
other writings either. -/
theorem Ready.reaches_of_apply (h : w.Ready v) (hreaches : w.reaches (u.apply v) = true) :
    w.reaches v = true := by
  induction w generalizing u v with
  | leave => cases hreaches
  | replace value scalar => rfl
  | into s w ih =>
    cases u with
    | leave => exact hreaches
    | replace value scalar =>
      rw [Writing.apply, reaches_into_of_none (scalar.below? s)] at hreaches
      cases hreaches
    | into t u =>
      cases hbelow : v.below? t with
      | none => rwa [apply_into_of_none hbelow] at hreaches
      | some inner =>
        rw [apply_into hbelow] at hreaches
        by_cases hslot : t.slot = s.slot
        · obtain ⟨-, hbelow', hready⟩ := h.below? hslot hbelow
          rw [hslot, reaches_into_put_self (Value.takes_of_below? hbelow')] at hreaches
          rw [reaches_into hbelow']
          exact ih hready hreaches
        · rwa [reaches_into_put_of_ne (Ne.symm hslot)] at hreaches

/-- A writing that a value is ready for does not change which writings reach their slots. -/
theorem reaches_apply_of_ready (h : u.Ready v) (w : Writing) :
    w.reaches (u.apply v) = w.reaches v := by
  induction u generalizing w v with
  | leave => rfl
  | replace value scalar =>
    cases w with
    | leave => rfl
    | replace _ _ => rfl
    | into s w =>
      have hready : v.IsScalar := h
      rw [apply, reaches_into_of_none (scalar.below? s), reaches_into_of_none (hready.below? s)]
  | into t u ih =>
    cases hbelow : v.below? t with
    | none => rw [apply_into_of_none hbelow]
    | some inner =>
      rw [apply_into hbelow]
      cases w with
      | leave => rfl
      | replace _ _ => rfl
      | into s w =>
        by_cases hslot : t.slot = s.slot
        · obtain ⟨hthere, hready⟩ := h inner hbelow
          have hbelow' := Value.below?_of_slot? (hslot ▸ hthere : v.slot? s.slot = some inner)
          rw [hslot, reaches_into_put_self (Value.takes_of_below? hbelow'), reaches_into hbelow']
          exact ih hready w
        · exact reaches_into_put_of_ne (Ne.symm hslot)

/-- **What stands between two applications of a writing** loses what the first has changed: it does
not matter whether there was a first one, if the value is ready for what stands between. -/
theorem apply_apply_apply (h : u.Ready v) (w : Writing) :
    w.apply (u.apply (w.apply v)) = w.apply (u.apply v) := by
  induction u generalizing w v with
  | leave => exact w.apply_apply v
  | replace value scalar => rfl
  | into t u ih =>
    cases w with
    | leave => rfl
    | replace _ _ => rfl
    | into s w =>
      cases hbelow : v.below? s with
      | none => rw [apply_into_of_none hbelow]
      | some inner =>
        have htakes := Value.takes_of_below? hbelow
        by_cases hslot : s.slot = t.slot
        · -- Both go into one slot: what matters happens below it.
          obtain ⟨-, hbelow', hready⟩ := h.below? hslot hbelow
          have htakes' := Value.takes_of_below? hbelow'
          rw [apply_into hbelow, apply_into hbelow', hslot, apply_into_put_self htakes', ← hslot,
            apply_into_put_self htakes, apply_into_put_self htakes, ih hready]
        cases hbelow' : v.below? t with
        | none =>
          have hnone := (Value.below?_put_of_ne (Ne.symm hslot) (w.apply inner)).trans hbelow'
          rw [apply_into_of_none hbelow', apply_into hbelow, apply_into_of_none hnone,
            apply_into_put_self htakes, w.apply_apply]
        | some other =>
          -- The slots can be filled in either order, and the first of them twice.
          obtain ⟨hthere, -⟩ := h other hbelow'
          have hcomm : ∀ x y, (v.put s.slot x).put t.slot y = (v.put t.slot y).put s.slot x :=
            fun x y => v.put_comm (Ne.symm hslot)
              (fun ident hident => by rw [hthere]; rfl) y x
          have hbelow_put : ∀ y, (v.put t.slot y).below? s = some inner :=
            fun y => (Value.below?_put_of_ne hslot y).trans hbelow
          rw [apply_into hbelow, apply_into hbelow',
            apply_into ((Value.below?_put_of_ne (Ne.symm hslot) _).trans hbelow'), hcomm,
            apply_into_put_self (Value.takes_of_below? (hbelow_put _)), w.apply_apply,
            apply_into (hbelow_put _)]

end Writing

/-! ### Writings that note their texts -/

/-- A realized value, and the literal texts of the names whose values have been written into it. -/
structure NotedValue where
  value : Value
  texts : Entries String

namespace Writing

/-- The value after a writing, with the literal text of the name if the writing reaches its slot. -/
def note (w : Writing) (name raw : String) (s : NotedValue) : NotedValue where
  value := w.apply s.value
  texts := if w.reaches s.value then Entries.insert name raw s.texts else s.texts

/-- Whether a value is ready for a writing, whose text has been noted if it reaches its slot. -/
structure Settled (w : Writing) (name raw : String) (s : NotedValue) : Prop where
  ready : w.Ready s.value
  noted : w.reaches s.value = true → Entries.insert name raw s.texts = s.texts

section Note

variable {w u : Writing} {name other raw raw' : String} {s s' : NotedValue}

/-- What is settled stays so if the text is noted again. -/
theorem Settled.texts_eq (h : w.Settled name raw s) :
    (if w.reaches s.value then Entries.insert name raw s.texts else s.texts) = s.texts := by
  split_ifs with hreaches
  · exact h.noted hreaches
  · rfl

/-- A writing settles what it writes to. -/
theorem settled_note_self (w : Writing) (name raw : String) (s : NotedValue) :
    w.Settled name raw (w.note name raw s) where
  ready := w.ready_apply_self s.value
  noted := by
    intro hreaches
    have hreached : w.reaches s.value = true := by rwa [note, reaches_apply_self] at hreaches
    simp only [note, hreached, if_true, Entries.insert_insert]

/-- Other writings keep a value settled, if one name has one text. -/
theorem Settled.note (h : w.Settled name raw s) (u : Writing) (hraw : other = name → raw' = raw) :
    w.Settled name raw (u.note other raw' s) where
  ready := h.ready.apply u
  noted := by
    intro hreaches
    have hnoted := h.noted (h.ready.reaches_of_apply hreaches)
    simp only [Writing.note]
    split_ifs
    · by_cases hname : other = name
      · rw [hname, hraw hname, Entries.insert_insert]
      · rw [Entries.insert_comm (Ne.symm hname), hnoted]
    · exact hnoted

/-- A second application of a writing changes nothing. -/
theorem note_note (w : Writing) (name raw : String) (s : NotedValue) :
    w.note name raw (w.note name raw s) = w.note name raw s := by
  simp only [note, apply_apply, reaches_apply_self]
  split_ifs <;> simp only [Entries.insert_insert]

/-- A writing that has been settled between two applications of another: it does not matter whether
there was a first one. -/
theorem note_note_note (h : u.Settled other raw' s) (hraw : name = other → raw = raw') :
    w.note name raw (u.note other raw' (w.note name raw s)) =
      w.note name raw (u.note other raw' s) := by
  have hnoted := (h.note w hraw).texts_eq
  simp only [note] at hnoted
  simp only [note, apply_apply_apply h.ready, reaches_apply_of_ready h.ready,
    reaches_apply_of_ready (h.ready.apply w), reaches_apply_self, h.texts_eq, hnoted]
  split_ifs <;> simp only [Entries.insert_insert]

end Note

/-! ### One writing after the other -/

section Sequence

variable {writing : String → Writing} {raw : String → String} {names : List String} {name : String}
  {s s' : NotedValue}

/-- A value after the writings of names, one after the other. -/
def noteAll (writing : String → Writing) (raw : String → String) (names : List String)
    (s : NotedValue) : NotedValue :=
  names.foldl (fun s name => (writing name).note name (raw name) s) s

theorem noteAll_append_singleton : noteAll writing raw (names ++ [name]) s =
    (writing name).note name (raw name) (noteAll writing raw names s) := by
  rw [noteAll, List.foldl_append]
  rfl

/-- The writings of names settle a value. -/
theorem settled_noteAll (writing : String → Writing) (raw : String → String) (names : List String)
    (s : NotedValue) :
    ∀ name ∈ names, (writing name).Settled name (raw name) (noteAll writing raw names s) := by
  induction names using List.reverseRecOn with
  | nil => exact List.forall_mem_nil _
  | append_singleton names last ih =>
    rw [noteAll_append_singleton]
    intro name hname
    rcases List.mem_append.mp hname with hname | hname
    · exact (ih name hname).note (writing last) fun heq => by rw [heq]
    · rw [List.mem_singleton.mp hname]
      exact settled_note_self _ _ _ _

/-- Settled values that a writing takes to one value are taken to one value by it also after the
writings of names. -/
theorem note_noteAll_congr (hs : ∀ name ∈ names, (writing name).Settled name (raw name) s)
    (hs' : ∀ name ∈ names, (writing name).Settled name (raw name) s')
    (heq : (writing name).note name (raw name) s = (writing name).note name (raw name) s') :
    (writing name).note name (raw name) (noteAll writing raw names s) =
      (writing name).note name (raw name) (noteAll writing raw names s') := by
  induction names generalizing s s' with
  | nil => exact heq
  | cons first names ih =>
    obtain ⟨hfirst, hrest⟩ := List.forall_mem_cons.mp hs
    obtain ⟨hfirst', hrest'⟩ := List.forall_mem_cons.mp hs'
    refine ih (fun other hother => (hrest other hother).note _ fun heq => by rw [heq])
      (fun other hother => (hrest' other hother).note _ fun heq => by rw [heq]) ?_
    rw [← note_note_note hfirst fun heq => by rw [heq],
      ← note_note_note hfirst' fun heq => by rw [heq], heq]

/-- **The writings of names change nothing when they are done again.** -/
theorem noteAll_noteAll (writing : String → Writing) (raw : String → String) (names : List String)
    (s : NotedValue) :
    noteAll writing raw names (noteAll writing raw names s) = noteAll writing raw names s := by
  induction names using List.reverseRecOn with
  | nil => rfl
  | append_singleton names last ih =>
    rw [noteAll_append_singleton, noteAll_append_singleton]
    have hsettled := settled_noteAll writing raw names s
    rw [note_noteAll_congr (fun name hname => (hsettled name hname).note (writing last)
      fun heq => by rw [heq]) hsettled (note_note _ _ _ _), ih]

end Sequence

end Writing

end PropertyBinding
