import Mathlib.Tactic.Common

/-!
# One key of a write-back cache

A cache stacked on a parent holds, for each key, nothing or a slot: a value
with two flags. `dirty` says that the value may differ from the parent's;
`fresh` says that the parent has nothing for the key. Some values are `null`:
they stand for the absence of the key, and a reader cannot tell the two apart,
so what a reader sees of a value is `live null v`.

`Coherent null parent slot` is the meaning of the two flags relative to what the
parent shows. The lemmas say that filling a slot, editing it and merging it
into the parent keep the flags meaningful and show the reader what they should.
-/

namespace Foundation

structure CacheSlot (V : Type*) where
  value : V
  dirty : Bool
  fresh : Bool
deriving DecidableEq, Repr

namespace CacheSlot

variable {V : Type*} (null : V → Bool)

def live (v : V) : Option V := if null v then none else some v

def liveOption (o : Option V) : Option V := o.bind (live null)

def read (parent : Option V) : Option (CacheSlot V) → Option V
  | none => parent
  | some s => live null s.value

/-- The flags of a slot are right, over a parent that shows `parent`. -/
structure Coherent (parent : Option V) (slot : Option (CacheSlot V)) : Prop where
  clean : ∀ s, slot = some s → s.dirty = false → live null s.value = parent
  fresh : ∀ s, slot = some s → s.fresh = true → parent = none

variable {null} {v : V} {parent : Option V} {s : CacheSlot V} {held slot : Option (CacheSlot V)}
  {P : V → Prop}

@[simp] theorem live_of_null (h : null v = true) : live null v = none := by
  simp [live, h]

@[simp] theorem live_of_not_null (h : null v = false) : live null v = some v := by
  simp [live, h]

theorem live_eq_none_iff : live null v = none ↔ null v = true := by
  cases h : null v <;> simp [live, h]

theorem live_eq_some_iff {v w : V} : live null v = some w ↔ null v = false ∧ v = w := by
  cases h : null v <;> simp [live, h]

@[simp] theorem read_none (parent : Option V) : read null parent none = parent := rfl

theorem coherent_none (parent : Option V) : Coherent null parent none where
  clean := fun _ h => nomatch h
  fresh := fun _ h => nomatch h

theorem coherent_fetched (h : live null v = parent) :
    Coherent null parent (some ⟨v, false, null v⟩) := by
  refine ⟨fun s hs _ => ?_, fun s hs hf => ?_⟩
  · cases hs
    exact h
  · cases hs
    rw [← h]
    exact live_of_null hf

/-- The end of an edit: a fresh slot left null is dropped, since the parent has
nothing for the key either. -/
def closed (null : V → Bool) (s : CacheSlot V) : Option (CacheSlot V) :=
  if s.fresh && null s.value then none else some s

theorem coherent_closed (hdirty : s.dirty = true)
    (hfresh : s.fresh = true → parent = none) : Coherent null parent (closed null s) := by
  unfold closed
  split_ifs
  · exact coherent_none parent
  · refine ⟨fun t ht hd => ?_, fun t ht hf => ?_⟩
    · cases ht
      rw [hdirty] at hd
      cases hd
    · cases ht
      exact hfresh hf

theorem read_closed (hfresh : s.fresh = true → parent = none) :
    read null parent (closed null s) = live null s.value := by
  unfold closed
  split_ifs with h
  · rw [Bool.and_eq_true] at h
    rw [read_none, hfresh h.1, live_of_null h.2]
  · rfl

/-- Merging a dirty slot into what the parent cache holds for the key, unless
the slot claims that the parent has nothing and the parent has. -/
def merged (null : V → Bool) (held : Option (CacheSlot V)) (s : CacheSlot V) :
    Option (CacheSlot V) :=
  match held with
  | none => if s.fresh && null s.value then none else some ⟨s.value, true, s.fresh⟩
  | some t => if t.fresh && null s.value then none else some ⟨s.value, true, t.fresh⟩

section

variable (hheld : Coherent null parent held) (hs : Coherent null (read null parent held) (some s))
include hheld hs

theorem coherent_merged : Coherent null parent (merged null held s) := by
  cases held with
  | none =>
    change Coherent null parent (closed null ⟨s.value, true, s.fresh⟩)
    exact coherent_closed rfl (hs.fresh s rfl)
  | some t =>
    change Coherent null parent (closed null ⟨s.value, true, t.fresh⟩)
    exact coherent_closed rfl (hheld.fresh t rfl)

theorem read_merged : read null parent (merged null held s) = live null s.value := by
  cases held with
  | none =>
    change read null parent (closed null ⟨s.value, true, s.fresh⟩) = _
    exact read_closed (hs.fresh s rfl)
  | some t =>
    change read null parent (closed null ⟨s.value, true, t.fresh⟩) = _
    exact read_closed (hheld.fresh t rfl)

end

/-- What the parent cache holds for a key after the child's slot, if any, was
merged into it: slots that are not dirty are skipped. -/
def absorbed (null : V → Bool) (held : Option (CacheSlot V)) :
    Option (CacheSlot V) → Option (CacheSlot V)
  | none => held
  | some s => if s.dirty then merged null held s else held

theorem absorbed_clean (h : s.dirty = false) : absorbed null held (some s) = held := by
  simp [absorbed, h]

theorem absorbed_dirty (h : s.dirty = true) : absorbed null held (some s) = merged null held s := by
  simp [absorbed, h]

theorem absorbed_spec
    (hheld : Coherent null parent held) (hslot : Coherent null (read null parent held) slot) :
    Coherent null parent (absorbed null held slot) ∧
      read null parent (absorbed null held slot) = read null (read null parent held) slot := by
  cases slot with
  | none => exact ⟨hheld, rfl⟩
  | some s =>
    cases hdirty : s.dirty with
    | true =>
      rw [absorbed_dirty hdirty]
      exact ⟨coherent_merged hheld hslot, read_merged hheld hslot⟩
    | false =>
      rw [absorbed_clean hdirty]
      exact ⟨hheld, (hslot.clean s rfl hdirty).symm⟩

/-- Whatever a reader can come to see for the key satisfies `P`: the value of the
slot, and what the parent shows where there is no slot, or one that copies the
parent or may be dropped. The flags need not be right. -/
structure Guards (P : V → Prop) (parent : Option V) (slot : Option (CacheSlot V)) : Prop where
  value : ∀ s, slot = some s → P s.value
  parent : (∀ s, slot = some s → s.dirty = false ∨ s.fresh = true) → ∀ v, parent = some v → P v

theorem Guards.read (h : Guards P parent slot) (hread : read null parent slot = some v) : P v := by
  cases slot with
  | none => exact h.parent (fun _ hs => nomatch hs) v hread
  | some s =>
    rw [← (live_eq_some_iff.1 hread).2]
    exact h.value s rfl

theorem guards_of_coherent (hnull : ∀ v, null v = true → P v) (h : Coherent null parent slot)
    (hread : ∀ v, CacheSlot.read null parent slot = some v → P v) : Guards P parent slot where
  value s hs := by
    subst hs
    cases hv : null s.value with
    | true => exact hnull _ hv
    | false => exact hread _ (live_of_not_null hv)
  parent hflags v hv := by
    cases slot with
    | none => exact hread v hv
    | some s =>
      rcases hflags s rfl with hclean | hfresh
      · exact hread v ((h.clean s rfl hclean).trans hv)
      · rw [h.fresh s rfl hfresh] at hv
        cases hv

section

variable (hvalue : P s.value)
  (hparent : s.dirty = false ∨ s.fresh = true → ∀ v, parent = some v → P v)
include hvalue hparent

theorem guards_some : Guards P parent (some s) where
  value t ht := by
    cases ht
    exact hvalue
  parent hflags := hparent (hflags s rfl)

theorem guards_closed : Guards P parent (closed null s) := by
  unfold closed
  split_ifs with h
  · rw [Bool.and_eq_true] at h
    exact ⟨(fun _ ht => nomatch ht), fun _ => hparent (Or.inr h.1)⟩
  · exact guards_some hvalue hparent

end

end CacheSlot

end Foundation
