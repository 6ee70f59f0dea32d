import Mathlib.Algebra.BigOperators.Group.Finset.Piecewise

/-!
# Totals along a dependency relation

`E c p` says that `c` depends on `p` directly. The ancestry of a vertex is all
that it depends on, at any distance, and its progeny all that depends on it;
both count the vertex itself. The lemmas say how the two change when a vertex
nobody depends on is added and when vertices are taken away, and what becomes
of sums of weights over them.
-/

namespace Foundation

open Relation Finset

section

variable {α : Type}

def Acyclic (E : α → α → Prop) : Prop := ∀ x, ¬ TransGen E x x

theorem Acyclic.mono {E E' : α → α → Prop} (h : Acyclic E) (hsub : ∀ c p, E' c p → E c p) :
    Acyclic E' := fun x hx => h x (TransGen.mono hsub x x hx)

theorem Acyclic.swap {E : α → α → Prop} (h : Acyclic E) : Acyclic (Function.swap E) :=
  fun x hx => h x (transGen_swap.1 hx)

/-- `E'` is `E` with a new vertex `n`, which depends on `parents` and on which nobody depends. -/
structure AddsTop (E E' : α → α → Prop) (n : α) (parents : Finset α) : Prop where
  edge_iff : ∀ c p, E' c p ↔ E c p ∨ c = n ∧ p ∈ parents
  fresh : ∀ c p, E c p → c ≠ n ∧ p ≠ n
  parent_ne : ∀ p ∈ parents, p ≠ n

namespace AddsTop

variable {E E' : α → α → Prop} {n : α} {parents : Finset α}

section

variable (h : AddsTop E E' n parents)
include h

variable {x y : α}

theorem reach_iff (hx : x ≠ n) : ReflTransGen E' x y ↔ ReflTransGen E x y := by
  constructor
  · intro hxy
    induction hxy with
    | refl => exact .refl
    | @tail b c _ hbc ih =>
      refine ih.tail (((h.edge_iff b c).1 hbc).resolve_right fun hn => ?_)
      obtain ⟨rfl, -⟩ := hn
      rcases ReflTransGen.cases_tail ih with heq | ⟨d, -, hdb⟩
      · exact hx heq.symm
      · exact (h.fresh d b hdb).2 rfl
  · exact ReflTransGen.mono (fun c p hcp => (h.edge_iff c p).2 (.inl hcp)) x y

theorem reach_new_iff : ReflTransGen E' n y ↔ y = n ∨ ∃ p ∈ parents, ReflTransGen E p y := by
  constructor
  · intro hy
    rcases ReflTransGen.cases_head hy with heq | ⟨p, hnp, hpy⟩
    · exact .inl heq.symm
    · have hp : p ∈ parents := by
        rcases (h.edge_iff n p).1 hnp with hold | ⟨-, hp⟩
        · exact absurd rfl (h.fresh n p hold).1
        · exact hp
      exact .inr ⟨p, hp, (h.reach_iff (h.parent_ne p hp)).1 hpy⟩
  · rintro (rfl | ⟨p, hp, hpy⟩)
    · exact .refl
    · exact .head ((h.edge_iff n p).2 (.inr ⟨rfl, hp⟩)) ((h.reach_iff (h.parent_ne p hp)).2 hpy)

theorem not_reach_new (hx : x ≠ n) : ¬ ReflTransGen E' x n := by
  intro hxn
  rcases ReflTransGen.cases_tail ((h.reach_iff hx).1 hxn) with heq | ⟨d, -, hd⟩
  · exact hx heq.symm
  · exact (h.fresh d n hd).2 rfl

theorem acyclic (hE : Acyclic E) : Acyclic E' := by
  intro x hx
  obtain ⟨y, hxy, hyx⟩ := TransGen.head'_iff.1 hx
  by_cases hn : x = n
  · subst hn
    rcases (h.edge_iff x y).1 hxy with hold | ⟨-, hy⟩
    · exact (h.fresh x y hold).1 rfl
    · exact h.not_reach_new (h.parent_ne y hy) hyx
  · rcases (h.edge_iff x y).1 hxy with hold | ⟨hxn, -⟩
    · exact hE x (TransGen.head' hold ((h.reach_iff (h.fresh x y hold).2).1 hyx))
    · exact hn hxn

end

end AddsTop

/-- `E'` is `E` without the vertices of `gone`, and every chain between two vertices that stay
avoids them. -/
structure Drops (E E' : α → α → Prop) (gone : Finset α) : Prop where
  edge_iff : ∀ c p, E' c p ↔ E c p ∧ c ∉ gone ∧ p ∉ gone
  through : ∀ x m y, m ∈ gone → ReflTransGen E x m → ReflTransGen E m y → x ∈ gone ∨ y ∈ gone

namespace Drops

variable {E E' : α → α → Prop} {gone : Finset α}

theorem of_closed (hE' : ∀ c p, E' c p ↔ E c p ∧ c ∉ gone ∧ p ∉ gone)
    (hclosed : ∀ c p, E c p → p ∈ gone → c ∈ gone) : Drops E E' gone where
  edge_iff := hE'
  through x m y hm hxm _ := by
    refine .inl ?_
    induction hxm using ReflTransGen.head_induction_on with
    | refl => exact hm
    | head hstep _ ih => exact hclosed _ _ hstep ih

theorem of_root {x₀ : α} (hE' : ∀ c p, E' c p ↔ E c p ∧ c ∉ ({x₀} : Finset α) ∧
    p ∉ ({x₀} : Finset α)) (hroot : ∀ p, ¬ E x₀ p) : Drops E E' {x₀} where
  edge_iff := hE'
  through x m y hm _ hmy := by
    rw [mem_singleton] at hm
    subst hm
    rcases ReflTransGen.cases_head hmy with heq | ⟨p, hp, -⟩
    · exact .inr (by simp [← heq])
    · exact absurd hp (hroot p)

theorem reach_iff (h : Drops E E' gone) {x y : α} (hx : x ∉ gone) (hy : y ∉ gone) :
    ReflTransGen E' x y ↔ ReflTransGen E x y := by
  constructor
  · exact ReflTransGen.mono (fun c p hcp => ((h.edge_iff c p).1 hcp).1) x y
  · intro hxy
    induction hxy with
    | refl => exact .refl
    | @tail b c hxb hbc ih =>
      have hb : b ∉ gone := fun hb => (h.through x b c hb hxb (.single hbc)).elim hx hy
      exact (ih hb).tail ((h.edge_iff b c).2 ⟨hbc, hb, hy⟩)

end Drops

open Classical in
/-- The vertices of `V` that `x` depends on, and `x` if it is one of them. -/
noncomputable def ancestry (E : α → α → Prop) (V : Finset α) (x : α) : Finset α :=
  V.filter (ReflTransGen E x)

open Classical in
/-- The vertices of `V` that depend on `x`, and `x` if it is one of them. -/
noncomputable def progeny (E : α → α → Prop) (V : Finset α) (x : α) : Finset α :=
  V.filter fun y => ReflTransGen E y x

variable {E E' : α → α → Prop} {V : Finset α}

@[simp] theorem mem_ancestry {x y : α} : y ∈ ancestry E V x ↔ y ∈ V ∧ ReflTransGen E x y := by
  simp [ancestry]

@[simp] theorem mem_progeny {x y : α} : y ∈ progeny E V x ↔ y ∈ V ∧ ReflTransGen E y x := by
  simp [progeny]

theorem progeny_eq_ancestry (x : α) : progeny E V x = ancestry (Function.swap E) V x := by
  ext y
  simp [reflTransGen_swap]

variable [DecidableEq α] {n : α} {parents : Finset α}

section

variable (h : AddsTop E E' n parents)
include h

variable {x : α} {A : Finset α}

theorem AddsTop.ancestry_of_ne (hx : x ≠ n) : ancestry E' (insert n V) x = ancestry E V x := by
  ext y
  simp only [mem_ancestry, mem_insert]
  constructor
  · rintro ⟨rfl | hy, hxy⟩
    · exact absurd hxy (h.not_reach_new hx)
    · exact ⟨hy, (h.reach_iff hx).1 hxy⟩
  · rintro ⟨hy, hxy⟩
    exact ⟨.inr hy, (h.reach_iff hx).2 hxy⟩

theorem AddsTop.ancestry_new (hAV : A ⊆ V) (hA : ∀ y, y ∈ A ↔ ∃ p ∈ parents, ReflTransGen E p y) :
    ancestry E' (insert n V) n = insert n A := by
  ext y
  simp only [mem_ancestry, mem_insert, h.reach_new_iff, ← hA]
  constructor
  · exact fun hy => hy.2
  · exact fun hy => ⟨hy.imp_right fun hyA => hAV hyA, hy⟩

theorem AddsTop.progeny_of_ne (hn : n ∉ V)
    (hA : ∀ y, y ∈ A ↔ ∃ p ∈ parents, ReflTransGen E p y) (hx : x ≠ n) :
    progeny E' (insert n V) x =
      if x ∈ A then insert n (progeny E V x) else progeny E V x := by
  ext y
  by_cases hy : y = n
  · subst hy
    have hreach : ReflTransGen E' y x ↔ x ∈ A := by
      rw [h.reach_new_iff, hA, or_iff_right hx]
    split_ifs with hxA
    · simp [hreach, hxA]
    · simp [hreach, hxA, hn]
  · have hold : y ∈ progeny E' (insert n V) x ↔ y ∈ progeny E V x := by
      simp [hy, h.reach_iff hy]
    split_ifs
    · rw [hold, mem_insert, or_iff_right hy]
    · exact hold

theorem AddsTop.progeny_new : progeny E' (insert n V) n = {n} := by
  ext y
  simp only [mem_progeny, mem_insert, mem_singleton]
  constructor
  · rintro ⟨-, hy⟩
    by_contra hne
    exact h.not_reach_new hne hy
  · rintro rfl
    exact ⟨.inl rfl, .refl⟩

end

variable {gone : Finset α}

theorem Drops.ancestry_eq (h : Drops E E' gone) {x : α} (hx : x ∉ gone) :
    ancestry E' (V \ gone) x = ancestry E V x \ gone := by
  ext y
  simp only [mem_ancestry, mem_sdiff]
  constructor
  · rintro ⟨⟨hy, hyg⟩, hxy⟩
    exact ⟨⟨hy, (h.reach_iff hx hyg).1 hxy⟩, hyg⟩
  · rintro ⟨⟨hy, hxy⟩, hyg⟩
    exact ⟨⟨hy, hyg⟩, (h.reach_iff hx hyg).2 hxy⟩

theorem Drops.progeny_eq (h : Drops E E' gone) {x : α} (hx : x ∉ gone) :
    progeny E' (V \ gone) x = progeny E V x \ gone := by
  ext y
  simp only [mem_progeny, mem_sdiff]
  constructor
  · rintro ⟨⟨hy, hyg⟩, hyx⟩
    exact ⟨⟨hy, (h.reach_iff hyg hx).1 hyx⟩, hyg⟩
  · rintro ⟨⟨hy, hyx⟩, hyg⟩
    exact ⟨⟨hy, hyg⟩, (h.reach_iff hyg hx).2 hyx⟩

end

section

variable {α : Type} [DecidableEq α] {E : α → α → Prop} {V done : Finset α}

/-- The ancestry of `x` without the vertices of `done`, but with `x`. -/
noncomputable def ancestryLeft (E : α → α → Prop) (V done : Finset α) (x : α) : Finset α :=
  (ancestry E V x).filter fun y => y = x ∨ y ∉ done

/-- The progeny of `x` without the vertices of `done`, but with `x`. -/
noncomputable def progenyLeft (E : α → α → Prop) (V done : Finset α) (x : α) : Finset α :=
  (progeny E V x).filter fun y => y = x ∨ y ∉ done

theorem progenyLeft_eq (x : α) :
    progenyLeft E V done x = ancestryLeft (Function.swap E) V done x := by
  rw [progenyLeft, ancestryLeft, progeny_eq_ancestry]

theorem mem_ancestryLeft {x y : α} :
    y ∈ ancestryLeft E V done x ↔ (y ∈ V ∧ ReflTransGen E x y) ∧ (y = x ∨ y ∉ done) := by
  simp [ancestryLeft]

theorem ancestryLeft_subset (x : α) : ancestryLeft E V done x ⊆ V :=
  fun _ hy => (mem_ancestryLeft.1 hy).1.1

theorem progenyLeft_subset (x : α) : progenyLeft E V done x ⊆ V :=
  progenyLeft_eq (E := E) x ▸ ancestryLeft_subset x

variable {x r : α}

theorem self_mem_ancestryLeft (hx : x ∈ V) : x ∈ ancestryLeft E V done x :=
  mem_ancestryLeft.2 ⟨⟨hx, .refl⟩, .inl rfl⟩

theorem self_mem_progenyLeft (hx : x ∈ V) : x ∈ progenyLeft E V done x :=
  progenyLeft_eq (E := E) x ▸ self_mem_ancestryLeft hx

@[simp] theorem ancestryLeft_empty (x : α) : ancestryLeft E V ∅ x = ancestry E V x := by
  simp [ancestryLeft]

@[simp] theorem progenyLeft_empty (x : α) : progenyLeft E V ∅ x = progeny E V x := by
  simp [progenyLeft]

theorem ancestryLeft_of_notMem (hx : x ∉ done) :
    ancestryLeft E V done x = ancestry E V x \ done := by
  ext y
  simp only [mem_ancestryLeft, mem_sdiff, mem_ancestry]
  refine and_congr_right fun _ => ⟨?_, .inr⟩
  rintro (rfl | hy)
  · exact hx
  · exact hy

theorem progenyLeft_of_notMem (hx : x ∉ done) : progenyLeft E V done x = progeny E V x \ done := by
  rw [progenyLeft_eq, ancestryLeft_of_notMem hx, progeny_eq_ancestry]

theorem ancestryLeft_insert_of_not (hxr : ¬ TransGen E x r) :
    ancestryLeft E V (insert r done) x = ancestryLeft E V done x := by
  ext y
  simp only [mem_ancestryLeft, mem_insert, not_or]
  refine and_congr_right fun hy => ?_
  by_cases hyx : y = x
  · simp [hyx]
  · have hne : y ≠ r := by
      rintro rfl
      exact (reflTransGen_iff_eq_or_transGen.1 hy.2).elim hyx hxr
    simp [hyx, hne]

variable {M : Type} [AddCommGroup M]

theorem sum_ancestryLeft_insert (h : Acyclic E) (hr : r ∈ V) (hnew : r ∉ done)
    (hxr : TransGen E x r) (w : α → M) :
    ∑ y ∈ ancestryLeft E V (insert r done) x, w y = ∑ y ∈ ancestryLeft E V done x, w y - w r := by
  have hne : r ≠ x := by
    rintro rfl
    exact h r hxr
  have hinsert : ancestryLeft E V done x = insert r (ancestryLeft E V (insert r done) x) := by
    ext y
    simp only [mem_insert, mem_ancestryLeft, not_or]
    by_cases hy : y = r
    · subst hy
      simp [hr, hxr.to_reflTransGen, hnew]
    · simp [hy]
  have hgone : r ∉ ancestryLeft E V (insert r done) x := by simp [mem_ancestryLeft, hne]
  rw [hinsert, sum_insert hgone, add_sub_cancel_left]

theorem progenyLeft_insert_of_not (hrx : ¬ TransGen E r x) :
    progenyLeft E V (insert r done) x = progenyLeft E V done x := by
  rw [progenyLeft_eq, progenyLeft_eq, ancestryLeft_insert_of_not fun hxr => hrx (transGen_swap.1 hxr)]

theorem sum_progenyLeft_insert (h : Acyclic E) (hr : r ∈ V) (hnew : r ∉ done)
    (hrx : TransGen E r x) (w : α → M) :
    ∑ y ∈ progenyLeft E V (insert r done) x, w y = ∑ y ∈ progenyLeft E V done x, w y - w r := by
  rw [progenyLeft_eq, progenyLeft_eq, sum_ancestryLeft_insert h.swap hr hnew (transGen_swap.2 hrx)]

end

end Foundation
