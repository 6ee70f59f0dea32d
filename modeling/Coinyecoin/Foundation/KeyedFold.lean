import Coinyecoin.Foundation.Computation
import Mathlib.Data.List.AList

/-!
# Folding the entries of one map into another

A loop that takes the entries of a map one by one and updates another map only
at the key of the entry acts key by key. When no entry can fail on what the
other map holds for its key, the whole loop succeeds, whatever the order of the
entries, and its result is known at every key. Of the map that is updated only
its reading `get` matters.
-/

namespace Foundation

section

variable {E K V W M : Type} [DecidableEq K] (get : M → K → Option W)

def mergedAt (upd : Option W → V → Option W) (held : Option W) : Option V → Option W
  | none => held
  | some v => upd held v

/-- A step that updates a map at one key only, as `upd` says, provided that
`ok` holds of what is at the key. -/
structure KeyedStep (step : M → K → V → Except E M) (ok : Option W → V → Prop)
    (upd : Option W → V → Option W) : Prop where
  returns : ∀ m k v, ok (get m k) v → ∃ m', step m k v = .ok m' ∧
    get m' k = upd (get m k) v ∧ ∀ k', k' ≠ k → get m' k' = get m k'

variable {get} {step : M → K → V → Except E M} {ok : Option W → V → Prop}
  {upd : Option W → V → Option W}

theorem foldlM_entries (hstep : KeyedStep get step ok upd)
    (l : List (Sigma fun _ : K => V)) (hl : l.NodupKeys) (m : M)
    (hok : ∀ k v, l.dlookup k = some v → ok (get m k) v) :
    ∃ m', l.foldlM (fun m e => step m e.1 e.2) m = .ok m' ∧
      ∀ k, get m' k = mergedAt upd (get m k) (l.dlookup k) := by
  induction l generalizing m with
  | nil => exact ⟨m, rfl, fun k => rfl⟩
  | cons e l ih =>
    obtain ⟨k₀, v₀⟩ := e
    have hkeys := List.nodupKeys_cons.1 hl
    have hfree : l.dlookup k₀ = none := List.dlookup_eq_none.2 hkeys.1
    obtain ⟨m₁, hm₁, hat, hoff⟩ := hstep.returns m k₀ v₀ (hok k₀ v₀ (by simp))
    obtain ⟨m', hm', hlookup⟩ := ih hkeys.2 m₁ (fun k v hk => by
      have hne : k ≠ k₀ := by
        rintro rfl
        rw [hfree] at hk
        cases hk
      rw [hoff k hne]
      exact hok k v (by rw [List.dlookup_cons_ne _ _ hne]; exact hk))
    refine ⟨m', ?_, fun k => ?_⟩
    · rw [List.foldlM_cons, hm₁, ok_bind]
      exact hm'
    · rw [hlookup k]
      by_cases hk : k = k₀
      · subst hk
        rw [hfree, hat, List.dlookup_cons_eq]
        rfl
      · rw [hoff k hk, List.dlookup_cons_ne _ _ hk]

theorem foldlM_alist (hstep : KeyedStep get step ok upd) (s : AList (fun _ : K => V)) (m : M)
    (hok : ∀ k v, s.lookup k = some v → ok (get m k) v) :
    ∃ m', s.entries.foldlM (fun m e => step m e.1 e.2) m = .ok m' ∧
      ∀ k, get m' k = mergedAt upd (get m k) (s.lookup k) :=
  foldlM_entries hstep s.entries s.nodupKeys m hok

theorem foldl_alist {step : M → K → V → M}
    (hstep : KeyedStep (E := Empty) get (fun m k v => .ok (step m k v)) (fun _ _ => True) upd)
    (s : AList (fun _ : K => V)) (m : M) (k : K) :
    get (s.entries.foldl (fun m e => step m e.1 e.2) m) k =
      mergedAt upd (get m k) (s.lookup k) := by
  obtain ⟨m', hrun, hlookup⟩ := foldlM_alist hstep s m fun _ _ _ => trivial
  have hpure := List.foldlM_pure (m := Except Empty) (f := fun m (e : Sigma fun _ : K => V) =>
    step m e.1 e.2) (l := s.entries) (b := m)
  rw [Except.ok.inj (hpure.symm.trans hrun)]
  exact hlookup k

end

end Foundation
