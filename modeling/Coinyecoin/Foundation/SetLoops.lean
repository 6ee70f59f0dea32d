import Coinyecoin.Foundation.Computation
import Mathlib.Algebra.BigOperators.Group.Finset.Basic
import Mathlib.Data.Finmap

/-!
# Loops over finite sets

A loop over a set goes through its elements once each, in some order that the
set keeps; a worklist takes the first element of a stage and may put others on
it. Both have a rule that never mentions the order: the loop's invariant is a
statement about the set of elements already done, and the worklist's about the
set of elements already taken. `worklist_closure` is the worklist that collects
what can be reached.
-/

namespace Foundation

open Finset List

/-- An order in which the elements of finite sets are gone through. -/
@[ext]
structure SetOrder (α : Type) where
  elems : Finset α → List α
  nodup : ∀ s, (elems s).Nodup
  mem_elems : ∀ s a, a ∈ elems s ↔ a ∈ s

section

variable {α σ ε : Type} (ord : SetOrder α)

def forEach (s : Finset α) (body : σ → α → Except ε σ) (init : σ) : Except ε σ :=
  (ord.elems s).foldlM body init

theorem forEach_empty (body : σ → α → Except ε σ) (init : σ) :
    forEach ord ∅ body init = .ok init := by
  have hnil : ord.elems ∅ = [] := eq_nil_iff_forall_not_mem.2 fun a ha =>
    notMem_empty a ((ord.mem_elems _ _).1 ha)
  rw [forEach, hnil]
  rfl

variable [DecidableEq α] {body : σ → α → Except ε σ} {init : σ} {s : Finset α}
  (I : Finset α → σ → Prop)

theorem forEach_ends {Stop : ε → Prop} (hstep : ∀ done a x, a ∈ s → a ∉ done → done ⊆ s → I done x →
      Ends Stop (I (insert a done)) (body x a))
    (hinit : I ∅ init) : Ends Stop (I s) (forEach ord s body init) := by
  -- the list holds each of the elements not done yet once
  have hrun : ∀ (l : List α) (done : Finset α) (x : σ), l.Nodup → (∀ a, a ∈ l ↔ a ∈ s ∧ a ∉ done) →
      done ⊆ s → I done x → Ends Stop (I s) (l.foldlM body x) := by
    intro l
    induction l with
    | nil =>
      intro done x _ hleft hdone hI
      have hall : done = s := hdone.antisymm fun a ha => by
        by_contra hnot
        exact absurd ((hleft a).2 ⟨ha, hnot⟩) not_mem_nil
      exact hall ▸ hI
    | cons a l ih =>
      intro done x hnodup hleft hdone hI
      obtain ⟨hfresh, hnodup⟩ := nodup_cons.1 hnodup
      obtain ⟨ha, hnew⟩ := (hleft a).1 mem_cons_self
      rw [foldlM_cons]
      refine (hstep done a x ha hnew hdone hI).bind fun x₁ hI₁ =>
        ih (insert a done) x₁ hnodup (fun b => ?_) (insert_subset ha hdone) hI₁
      rw [mem_insert, not_or]
      constructor
      · intro hb
        obtain ⟨hbs, hbd⟩ := (hleft b).1 (mem_cons_of_mem a hb)
        exact ⟨hbs, fun hba => hfresh (hba ▸ hb), hbd⟩
      · rintro ⟨hbs, hba, hbd⟩
        exact (mem_cons.1 ((hleft b).2 ⟨hbs, hbd⟩)).resolve_left hba
  exact hrun _ ∅ init (ord.nodup s) (fun a => by simp [ord.mem_elems]) (empty_subset s) hinit

theorem forEach_returns (hstep : ∀ done a x, a ∈ s → a ∉ done → done ⊆ s → I done x →
      ∃ x', body x a = .ok x' ∧ I (insert a done) x')
    (hinit : I ∅ init) : ∃ x, forEach ord s body init = .ok x ∧ I s x := by
  refine (forEach_ends ord I (fun done a x ha hnew hdone hI => ?_) hinit).returns
  obtain ⟨x', hbody, hI'⟩ := hstep done a x ha hnew hdone hI
  rw [hbody]
  exact hI'

theorem forEach_sum {M : Type} [AddCommMonoid M] {body : M → α → Except ε M}
    (w : α → M) (hbody : ∀ a ∈ s, ∀ x, body x a = .ok (x + w a)) (init : M) :
    forEach ord s body init = .ok (init + ∑ a ∈ s, w a) := by
  have hrun : ∃ x, forEach ord s body init = .ok x ∧ x = init + ∑ a ∈ s, w a := by
    refine forEach_returns ord (fun done x => x = init + ∑ a ∈ done, w a)
      (fun done a x ha hnew _ hx => ⟨_, hbody a ha x, ?_⟩) ?_
    · rw [hx, sum_insert hnew, add_assoc, add_comm (w a)]
    · simp
  obtain ⟨x, hrun, hx⟩ := hrun
  rw [hrun, hx]

theorem forEach_rewrite {V : Type}
    (put : (Finmap fun _ : α => V) → σ) (g : α → V → V) {m : Finmap fun _ : α => V}
    (hmem : ∀ a ∈ s, a ∈ m)
    (hbody : ∀ m' a v, a ∈ s → m.lookup a = some v → m'.lookup a = some v →
      body (put m') a = .ok (put (m'.insert a (g a v)))) :
    ∃ m', forEach ord s body (put m) = .ok (put m') ∧
      ∀ x, m'.lookup x = (m.lookup x).map fun v => if x ∈ s then g x v else v := by
  have hrun : ∃ x, forEach ord s body (put m) = .ok x ∧ ∃ m', x = put m' ∧
      ∀ y, m'.lookup y = (m.lookup y).map fun v => if y ∈ s then g y v else v := by
    refine forEach_returns ord (fun done x => ∃ m', x = put m' ∧
      ∀ y, m'.lookup y = (m.lookup y).map fun v => if y ∈ done then g y v else v)
      (fun done a x ha hnew _ hx => ?_) ⟨m, rfl, by simp⟩
    obtain ⟨m', rfl, hm'⟩ := hx
    obtain ⟨v, hv⟩ := Option.isSome_iff_exists.1 (Finmap.lookup_isSome.2 (hmem a ha))
    have hv' : m'.lookup a = some v := by simp [hm', hv, hnew]
    refine ⟨_, hbody m' a v ha hv hv', _, rfl, fun y => ?_⟩
    by_cases hy : y = a
    · subst hy
      simp [hv]
    · simp [Finmap.lookup_insert_of_ne _ hy, hm', hy]
  obtain ⟨x, hrun, m', rfl, hm'⟩ := hrun
  exact ⟨m', hrun, hm'⟩

end

section

variable {α σ ε : Type} [DecidableEq α] (ord : SetOrder α)

/-- The loop that takes the first element off the stage until there is none; `visit` may put
others on the stage. It stops when `fuel` runs out. -/
def worklist (visit : α → Finset α → σ → Except ε (Finset α × σ)) :
    ℕ → Finset α → σ → Except ε σ
  | 0, _, x => .ok x
  | fuel + 1, stage, x =>
    match (ord.elems stage).head? with
    | none => .ok x
    | some a => do
      let next ← visit a (stage.erase a) x
      worklist visit fuel next.1 next.2

theorem worklist_ends {visit : α → Finset α → σ → Except ε (Finset α × σ)} {Stop : ε → Prop}
    (bound : Finset α) (I : Finset α → Finset α → σ → Prop)
    (hstage : ∀ taken stage x, I taken stage x → stage ⊆ bound \ taken)
    (hstep : ∀ taken stage x a, a ∈ stage → I taken stage x →
      Ends Stop (fun next => I (insert a taken) next.1 next.2) (visit a (stage.erase a) x))
    {fuel : ℕ} {taken stage : Finset α} {x : σ} (hfuel : (bound \ taken).card ≤ fuel)
    (hI : I taken stage x) :
    Ends Stop (fun x' => ∃ taken', I taken' ∅ x') (worklist ord visit fuel stage x) := by
  induction fuel generalizing taken stage x with
  | zero =>
    have hnone : bound \ taken = ∅ := card_eq_zero.1 (Nat.le_zero.1 hfuel)
    have hempty : stage = ∅ := subset_empty.1 (hnone ▸ hstage taken stage x hI)
    exact ⟨taken, hempty ▸ hI⟩
  | succ fuel ih =>
    rw [worklist]
    cases hhead : (ord.elems stage).head? with
    | none =>
      have hempty : stage = ∅ := by
        refine eq_empty_of_forall_notMem fun a ha => ?_
        rw [← ord.mem_elems, head?_eq_none_iff.1 hhead] at ha
        exact absurd ha not_mem_nil
      exact ⟨taken, hempty ▸ hI⟩
    | some a =>
      have ha : a ∈ stage := (ord.mem_elems stage a).1 (mem_of_head? hhead)
      have hless : (bound \ insert a taken).card ≤ fuel := by
        have hmem := hstage taken stage x hI ha
        rw [sdiff_insert, card_erase_of_mem hmem]
        omega
      exact (hstep taken stage x a ha hI).bind fun next hI' => ih hless hI'

end

section

variable {α : Type}

def ReachedFrom (E : α → α → Prop) (start : Finset α) (b : α) : Prop :=
  ∃ a ∈ start, Relation.ReflTransGen E a b

variable {E : α → α → Prop}

theorem ReachedFrom.step {start : Finset α} {a b : α}
    (ha : ReachedFrom E start a) (hab : E a b) : ReachedFrom E start b := by
  obtain ⟨s, hs, hsa⟩ := ha
  exact ⟨s, hs, hsa.tail hab⟩

theorem ReachedFrom.mem_of_closed {start closed : Finset α}
    (hstart : start ⊆ closed) (hclosed : ∀ a b, a ∈ closed → E a b → b ∈ closed) {b : α}
    (hb : ReachedFrom E start b) : b ∈ closed := by
  obtain ⟨a, ha, hab⟩ := hb
  induction hab with
  | refl => exact hstart ha
  | tail _ hstep ih => exact hclosed _ _ ih hstep

variable {σ ε : Type} [DecidableEq α] (ord : SetOrder α)

/-- A worklist that notes each element it takes and stages the neighbours not noted yet ends with
all that the first stage leads to, on top of what was noted and closed before. -/
theorem worklist_closure (Stop : ε → Prop) {visit : α → Finset α → σ → Except ε (Finset α × σ)}
    (bound : Finset α) (next : α → Finset α) (noted : σ → Finset α)
    (hnext : ∀ a ∈ bound, next a ⊆ bound)
    (hvisit : ∀ a ∈ bound, ∀ stage x, Ends Stop (fun after => noted after.2 = insert a (noted x) ∧
      after.1 = stage ∪ next a \ insert a (noted x)) (visit a stage x))
    {fuel : ℕ} {stage : Finset α} {x : σ} (hfuel : bound.card ≤ fuel)
    (hstage : stage ⊆ bound \ noted x) (hclosed : ∀ a ∈ noted x, next a ⊆ noted x) :
    Ends Stop (fun x' => ∀ b, b ∈ noted x' ↔
        b ∈ noted x ∨ ReachedFrom (fun a b => b ∈ next a) stage b)
      (worklist ord visit fuel stage x) := by
  let E : α → α → Prop := fun a b => b ∈ next a
  let I : Finset α → Finset α → σ → Prop := fun taken todo y =>
    taken = noted y ∧ todo ⊆ bound \ taken ∧ noted x ⊆ noted y ∧ stage ⊆ noted y ∪ todo ∧
      (∀ a ∈ noted y, next a ⊆ noted y ∪ todo) ∧
      ∀ b ∈ noted y ∪ todo, b ∈ noted x ∨ ReachedFrom E stage b
  have hstart : I (noted x) stage x := by
    refine ⟨rfl, hstage, subset_rfl, subset_union_right, fun a ha =>
      (hclosed a ha).trans subset_union_left, fun b hb => ?_⟩
    exact (mem_union.1 hb).imp id fun hb => ⟨b, hb, .refl⟩
  have hround : ∀ taken todo y a, a ∈ todo → I taken todo y →
      Ends Stop (fun after => I (insert a taken) after.1 after.2) (visit a (todo.erase a) y) := by
    rintro taken todo y a ha ⟨rfl, htodo, hnoted, hfirst, hall, hsound⟩
    have habound : a ∈ bound := (mem_sdiff.1 (htodo ha)).1
    -- what is noted or staged after the round is what was before, and the neighbours of `a`
    have hcover : ∀ b, b ∈ insert a (noted y) ∪ (todo.erase a ∪ next a \ insert a (noted y)) ↔
        b ∈ noted y ∪ todo ∨ b ∈ next a := by
      intro b
      simp only [mem_union, mem_insert, mem_erase, mem_sdiff]
      by_cases hb : b = a
      · simp [hb, ha]
      · simp only [hb, false_or, not_false_eq_true, true_and, ne_eq]
        tauto
    refine (hvisit a habound (todo.erase a) y).imp fun after hafter => ?_
    obtain ⟨hseen, htodo'⟩ := hafter
    refine ⟨hseen.symm, ?_, ?_, ?_, ?_, ?_⟩
    · rw [htodo']
      intro b hb
      rw [mem_sdiff]
      rcases mem_union.1 hb with hb | hb
      · obtain ⟨hba, hb⟩ := mem_erase.1 hb
        obtain ⟨hbb, hbn⟩ := mem_sdiff.1 (htodo hb)
        exact ⟨hbb, by simp [hba, hbn]⟩
      · obtain ⟨hb, hbn⟩ := mem_sdiff.1 hb
        exact ⟨hnext a habound hb, hbn⟩
    · exact hnoted.trans (hseen ▸ subset_insert a (noted y))
    · intro b hb
      rw [hseen, htodo', hcover]
      exact .inl (hfirst hb)
    · intro c hc b hb
      rw [hseen, htodo', hcover]
      rw [hseen] at hc
      rcases mem_insert.1 hc with rfl | hc
      · exact .inr hb
      · exact .inl (hall c hc hb)
    · intro b hb
      rw [hseen, htodo', hcover] at hb
      rcases hb with hb | hb
      · exact hsound b hb
      · rcases hsound a (mem_union_right _ ha) with hold | hreach
        · exact .inl (hclosed a hold hb)
        · exact .inr (hreach.step hb)
  refine (worklist_ends ord bound I (fun _ _ _ hI => hI.2.1) hround
    ((card_le_card sdiff_subset).trans hfuel) hstart).imp fun x' hend => ?_
  obtain ⟨taken, -, -, hnoted, hfirst, hall, hsound⟩ := hend
  simp only [union_empty] at hfirst hall hsound
  exact fun b => ⟨hsound b, fun hb => hb.elim (fun h => hnoted h)
    fun h => h.mem_of_closed hfirst fun a b ha hab => hall a ha hab⟩

end

end Foundation
