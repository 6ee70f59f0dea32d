import Mathlib.Logic.Function.Iterate
import Mathlib.Tactic.Common
import Mathlib.Tactic.Ring

/-!
# Merkle trees over an arbitrary pair hash

`root H l` pairs the elements of a level until one is left; a level of odd
length pairs its last element with itself. Two ways to get there without
keeping whole levels are compared with it. `steps` are the right siblings along
the path of the first leaf. `counter` keeps one subtree per set bit of the number
of leaves: `push` adds a leaf as a binary increment does, and `finish` closes the
unfinished subtrees from the right. A push that pairs two equal elements shows
siblings that are equal.

In a tree over a power of two of leaves every node has a sibling, and folding a leaf
through its branch, on the side the parity of the index says, gives the root.
-/

namespace Foundation

open List

namespace MerkleTree

variable {α : Type} (H : α → α → α)

def pairUp : List α → List α
  | [] => []
  | [a] => [H a a]
  | a :: b :: l => H a b :: pairUp l

def pairs : List α → List α
  | [] => []
  | [_] => []
  | a :: b :: l => H a b :: pairs l

def leftover : List α → Option α
  | [] => none
  | [a] => some a
  | _ :: _ :: l => leftover l

section

variable (l : List α)
include l

theorem length_pairUp : (pairUp H l).length = (l.length + 1) / 2 := by
  induction l using pairUp.induct with
  | case1 => simp [pairUp]
  | case2 a => simp [pairUp]
  | case3 a b l ih =>
    simp only [pairUp, length_cons, ih]
    omega

theorem length_pairs : (pairs H l).length = l.length / 2 := by
  induction l using pairs.induct with
  | case1 => simp [pairs]
  | case2 a => simp [pairs]
  | case3 a b l ih =>
    simp only [pairs, length_cons, ih]
    omega

theorem pairUp_eq : pairUp H l = pairs H l ++ (leftover l).toList.map fun a => H a a := by
  induction l using pairs.induct with
  | case1 => rfl
  | case2 a => rfl
  | case3 a b l ih => simp only [pairUp, pairs, leftover, ih, cons_append]

theorem pairs_append (h : α) :
    pairs H (l ++ [h]) = pairs H l ++ (leftover l).toList.map fun a => H a h := by
  induction l using pairs.induct with
  | case1 => rfl
  | case2 a => rfl
  | case3 a b l ih => simp only [cons_append, pairs, leftover, ih]

theorem leftover_append (h : α) :
    leftover (l ++ [h]) = (leftover l).elim (some h) fun _ => none := by
  induction l using leftover.induct with
  | case1 => rfl
  | case2 a => rfl
  | case3 a b l ih => simpa only [cons_append, leftover] using ih

theorem leftover_eq : leftover l = if l.length % 2 = 1 then l.getLast? else none := by
  induction l using leftover.induct with
  | case1 => rfl
  | case2 a => rfl
  | case3 a b l ih =>
    have hlen : (a :: b :: l).length % 2 = l.length % 2 := by
      simp only [length_cons]
      omega
    rw [leftover, ih, hlen]
    cases l with
    | nil => rfl
    | cons c l => rw [getLast?_cons_cons, getLast?_cons_cons]

end

theorem pairUp_append_of_none {l : List α} (hl : leftover l = none) (h : α) :
    pairUp H (l ++ [h]) = pairs H l ++ [H h h] := by
  rw [pairUp_eq, pairs_append, leftover_append, hl]
  simp

theorem pairUp_append_of_some {l : List α} {a : α} (hl : leftover l = some a) (h : α) :
    pairUp H (l ++ [h]) = pairs H l ++ [H a h] := by
  rw [pairUp_eq, pairs_append, leftover_append, hl]
  simp

def root : List α → Option α
  | [] => none
  | [a] => some a
  | a :: b :: l => root (pairUp H (a :: b :: l))
termination_by l => l.length
decreasing_by
  rw [length_pairUp]
  simp only [List.length_cons]
  omega

@[simp] theorem root_nil : root H ([] : List α) = none := by rw [root]

@[simp] theorem root_singleton (a : α) : root H [a] = some a := by rw [root]

theorem root_pairUp {l : List α} (hl : 1 < l.length) : root H l = root H (pairUp H l) := by
  match l, hl with
  | a :: b :: l, _ => rw [root]

/-- The right siblings met by the first leaf on its way up, when `l` are the
elements to its right. -/
def steps : List α → List α
  | [] => []
  | s :: l => s :: steps (pairUp H l)
termination_by l => l.length
decreasing_by
  rw [length_pairUp, List.length_cons]
  omega

@[simp] theorem steps_nil : steps H ([] : List α) = [] := by rw [steps]

theorem steps_cons (s : α) (l : List α) : steps H (s :: l) = s :: steps H (pairUp H l) := by
  rw [steps]

theorem root_cons (a : α) (l : List α) : root H (a :: l) = some ((steps H l).foldl H a) := by
  induction l using steps.induct H generalizing a with
  | case1 => rw [steps_nil, root_singleton, foldl_nil]
  | case2 s l ih =>
    rw [root_pairUp H (by simp), pairUp, ih, steps_cons, foldl_cons]

/-- One entry per level, lowest first: the leftover of that level. -/
def counter : List α → List (Option α)
  | [] => []
  | a :: l => leftover (a :: l) :: counter (pairs H (a :: l))
termination_by l => l.length
decreasing_by
  rw [length_pairs, List.length_cons]
  omega

@[simp] theorem counter_nil : counter H ([] : List α) = [] := by rw [counter]

theorem counter_of_ne_nil {l : List α} (hl : l ≠ []) :
    counter H l = leftover l :: counter H (pairs H l) := by
  match l, hl with
  | a :: l, _ => rw [counter]

/-- Adds a finished subtree at the lowest level. -/
def push (h : α) : List (Option α) → List (Option α)
  | [] => [some h]
  | none :: r => some h :: r
  | some a :: r => none :: push (H a h) r

/-- Closes the levels above, given the subtree that ends the tree there. -/
def carryUp (h : α) : List (Option α) → α
  | [] => h
  | none :: r => carryUp (H h h) r
  | some a :: r => carryUp (H a h) r

def finish : List (Option α) → Option α
  | [] => none
  | none :: r => finish r
  | [some a] => some a
  | some a :: r => some (carryUp H (H a a) r)

theorem pairs_of_leftover_none {l : List α} (hl : l ≠ []) (hnone : leftover l = none) :
    pairs H l ≠ [] := by
  match l, hl with
  | [a], _ => exact absurd hnone (by simp [leftover])
  | a :: b :: l, _ => simp [pairs]

theorem push_counter (l : List α) (h : α) : push H h (counter H l) = counter H (l ++ [h]) := by
  induction l using counter.induct H generalizing h with
  | case1 =>
    rw [counter_nil, nil_append, counter_of_ne_nil H (by simp), pairs, counter_nil]
    rfl
  | case2 a l ih =>
    have hne : a :: l ++ [h] ≠ [] := by simp
    rw [counter_of_ne_nil H (cons_ne_nil a l), counter_of_ne_nil H hne, leftover_append,
      pairs_append]
    cases hl : leftover (a :: l) with
    | none => simp [push]
    | some b => simpa [push] using ih (H b h)

theorem carryUp_counter (l : List α) (h : α) :
    some (carryUp H h (counter H l)) = root H (l ++ [h]) := by
  induction l using counter.induct H generalizing h with
  | case1 => rw [counter_nil, nil_append, root_singleton, carryUp]
  | case2 a l ih =>
    rw [counter_of_ne_nil H (by simp), root_pairUp H (by simp)]
    cases hl : leftover (a :: l) with
    | none => rw [carryUp, ih, pairUp_append_of_none H hl]
    | some b => rw [carryUp, ih, pairUp_append_of_some H hl]

theorem finish_counter (l : List α) : finish H (counter H l) = root H l := by
  induction l using counter.induct H with
  | case1 => rw [counter_nil, root_nil, finish]
  | case2 a l ih =>
    rw [counter_of_ne_nil H (by simp)]
    cases hl : leftover (a :: l) with
    | none =>
      have hpairs : pairUp H (a :: l) = pairs H (a :: l) := by
        simp [pairUp_eq, hl]
      have hlen : 1 < (a :: l).length := by
        have hne := length_pos_iff.2 (pairs_of_leftover_none H (by simp) hl)
        rw [length_pairs] at hne
        omega
      rw [finish, ih, root_pairUp H hlen, hpairs]
    | some b =>
      have hpairs : pairUp H (a :: l) = pairs H (a :: l) ++ [H b b] := by
        simp [pairUp_eq, hl]
      cases l with
      | nil =>
        obtain rfl : a = b := by simpa [leftover] using hl
        simp [pairs, finish]
      | cons a' l =>
        have hne : pairs H (a :: a' :: l) ≠ [] := by simp [pairs]
        rw [root_pairUp H (by simp), hpairs, ← carryUp_counter, counter_of_ne_nil H hne, finish]
        simp

def PairsDiffer : List α → Prop
  | [] => True
  | [_] => True
  | a :: b :: l => a ≠ b ∧ PairsDiffer l

def SiblingsDiffer (l : List α) : Prop := ∀ level, PairsDiffer ((pairs H)^[level] l)

def pushClash [DecidableEq α] (h : α) : List (Option α) → Bool
  | [] => false
  | none :: _ => false
  | some a :: r => a == h || pushClash (H a h) r

theorem pairsDiffer_append (l : List α) (h : α) :
    PairsDiffer (l ++ [h]) ↔ PairsDiffer l ∧ ∀ a ∈ leftover l, a ≠ h := by
  induction l using leftover.induct with
  | case1 => simp [PairsDiffer, leftover]
  | case2 a => simp [PairsDiffer, leftover]
  | case3 a b l ih => simp only [cons_append, PairsDiffer, leftover, ih, and_assoc]

theorem siblingsDiffer_iff (l : List α) :
    SiblingsDiffer H l ↔ PairsDiffer l ∧ SiblingsDiffer H (pairs H l) := by
  constructor
  · intro h
    exact ⟨h 0, fun level => h (level + 1)⟩
  · rintro ⟨hzero, hsucc⟩ level
    cases level with
    | zero => exact hzero
    | succ level => exact hsucc level

theorem siblingsDiffer_nil : SiblingsDiffer H ([] : List α) := by
  intro level
  rw [Function.iterate_fixed (by rfl) level]
  trivial

theorem siblingsDiffer_append [DecidableEq α] (l : List α) (h : α) :
    SiblingsDiffer H (l ++ [h]) ↔
      SiblingsDiffer H l ∧ pushClash H h (counter H l) = false := by
  induction l using counter.induct H generalizing h with
  | case1 =>
    rw [siblingsDiffer_iff, counter_nil]
    simp [PairsDiffer, pairs, siblingsDiffer_nil, pushClash]
  | case2 a l ih =>
    rw [siblingsDiffer_iff, siblingsDiffer_iff H (a :: l), pairsDiffer_append, pairs_append,
      counter_of_ne_nil H (cons_ne_nil a l)]
    cases hl : leftover (a :: l) with
    | none => simp [pushClash]
    | some b =>
      simp only [Option.toList_some, map_cons, map_nil, ih, pushClash,
        Option.mem_some_iff, forall_eq', Bool.or_eq_false_iff, beq_eq_false_iff_ne]
      tauto

def sibling (i : ℕ) : ℕ := if i % 2 = 1 then i - 1 else i + 1

def branch : ℕ → List α → ℕ → List α
  | 0, _, _ => []
  | height + 1, l, i => (l[sibling i]?).toList ++ branch height (pairUp H l) (i / 2)

def foldUp (a : α) (i : ℕ) : List α → α
  | [] => a
  | b :: rest => foldUp (if i % 2 = 1 then H b a else H a b) (i / 2) rest

theorem foldUp_append (a : α) (i : ℕ) (l : List α) (b : α) :
    foldUp H a i (l ++ [b]) = if i / 2 ^ l.length % 2 = 1 then H b (foldUp H a i l)
      else H (foldUp H a i l) b := by
  induction l generalizing a i with
  | nil =>
    rw [List.nil_append, foldUp, foldUp, List.length_nil, pow_zero, Nat.div_one]
    rfl
  | cons c l ih =>
    rw [List.cons_append, foldUp, ih, Nat.div_div_eq_div_mul, List.length_cons, pow_succ', foldUp]

variable {i : ℕ} {l : List α}

theorem getElem?_pairUp {a b : α} (ha : l[2 * i]? = some a)
    (hb : l[2 * i + 1]? = some b) : (pairUp H l)[i]? = some (H a b) := by
  induction l using pairUp.induct generalizing i with
  | case1 => simp at ha
  | case2 x =>
    obtain ⟨hlt, -⟩ := List.getElem?_eq_some_iff.1 hb
    simp at hlt
  | case3 x y l ih =>
    cases i with
    | zero =>
      obtain rfl : x = a := by simpa using ha
      obtain rfl : y = b := by simpa using hb
      rfl
    | succ i => exact ih ha hb

variable {H}

theorem root_eq_foldUp {height : ℕ} {a : α} (hlength : l.length = 2 ^ height)
    (ha : l[i]? = some a) :
    root H l = some (foldUp H a i (branch H height l i)) ∧
      (branch H height l i).length = height := by
  induction height generalizing l i a with
  | zero =>
    obtain ⟨b, rfl⟩ := List.length_eq_one_iff.1 hlength
    obtain ⟨hi, hget⟩ := List.getElem?_eq_some_iff.1 ha
    obtain rfl : i = 0 := by simpa using hi
    obtain rfl : b = a := hget
    exact ⟨root_singleton H b, rfl⟩
  | succ height ih =>
    have hpow : 2 ^ (height + 1) = 2 * 2 ^ height := by ring
    have hpos : 0 < 2 ^ height := Nat.two_pow_pos height
    obtain ⟨hi, -⟩ := List.getElem?_eq_some_iff.1 ha
    have hsibling : sibling i < l.length := by
      unfold sibling
      split_ifs <;> omega
    obtain ⟨b, hb⟩ : ∃ b, l[sibling i]? = some b := ⟨_, List.getElem?_eq_getElem hsibling⟩
    have hpair : (pairUp H l)[i / 2]? = some (if i % 2 = 1 then H b a else H a b) := by
      split_ifs with hodd
      · rw [sibling, if_pos hodd] at hb
        refine getElem?_pairUp H ?_ ?_
        · rw [show 2 * (i / 2) = i - 1 by omega]
          exact hb
        · rw [show 2 * (i / 2) + 1 = i by omega]
          exact ha
      · rw [sibling, if_neg hodd] at hb
        refine getElem?_pairUp H ?_ ?_
        · rw [show 2 * (i / 2) = i by omega]
          exact ha
        · rw [show 2 * (i / 2) + 1 = i + 1 by omega]
          exact hb
    obtain ⟨hroot, hbranch⟩ := ih (by rw [length_pairUp]; omega) hpair
    rw [root_pairUp H (by omega), hroot, branch, hb]
    exact ⟨rfl, by simp [hbranch]⟩

end MerkleTree

end Foundation
