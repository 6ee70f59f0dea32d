import Coinyecoin.Foundation.Ancestry
import Coinyecoin.Mempool.Pool

/-!
# Walking the links of the pool

The two traversals of the pool follow `mapLinks`. If every entry has its links
and these point at entries, `CalculateMemPoolAncestors` finds all that the
parents lead to, unless a limit stops it, and `CalculateDescendants` all that
leads to the entry.
-/

namespace Coinyecoin

open Foundation Relation Finset

namespace CTxMemPool

variable {tx : CTransaction}

variable {c p : uint256}

section

variable (pool : CTxMemPool)

def parentsOf (x : uint256) : SetEntries := ((pool.mapLinks.lookup x).getD .empty).parents

def childrenOf (x : uint256) : SetEntries := ((pool.mapLinks.lookup x).getD .empty).children

def Linked (c p : uint256) : Prop := p ∈ pool.parentsOf c

structure ParentsLinked : Prop where
  mem_links : ∀ x, x ∈ pool.mapLinks ↔ x ∈ pool.mapTx
  parent_mem : ∀ c p, pool.Linked c p → p ∈ pool.mapTx

structure LinksAgree : Prop extends ParentsLinked pool where
  child_iff : ∀ c p, c ∈ pool.childrenOf p ↔ pool.Linked c p

variable {pool}

theorem Linked.mem_links (h : pool.Linked c p) : c ∈ pool.mapLinks := by
  by_contra hc
  rw [Linked, parentsOf, Finmap.lookup_eq_none.2 hc] at h
  exact absurd h (notMem_empty p)

variable {pool' : CTxMemPool} {g : uint256 → TxLinks → TxLinks}

theorem parentsOf_map (hmap : ∀ x, pool'.mapLinks.lookup x = (pool.mapLinks.lookup x).map (g x))
    (hg : ∀ x links, (g x links).parents = links.parents) : pool'.parentsOf = pool.parentsOf := by
  funext x
  rw [parentsOf, parentsOf, hmap x]
  cases pool.mapLinks.lookup x with
  | none => rfl
  | some links => exact hg x links

theorem linked_map (hparents : pool'.parentsOf = pool.parentsOf) : pool'.Linked = pool.Linked := by
  funext c p
  rw [Linked, Linked, hparents]

theorem mem_links_map
    (hmap : ∀ x, pool'.mapLinks.lookup x = (pool.mapLinks.lookup x).map (g x)) (x : uint256) :
    x ∈ pool'.mapLinks ↔ x ∈ pool.mapLinks := by
  rw [← Finmap.lookup_isSome, ← Finmap.lookup_isSome, hmap x, Option.isSome_map]

theorem getLinks_eq {x : uint256} (hx : x ∈ pool.mapTx) (hlinks : x ∈ pool.mapLinks) :
    pool.getLinks x = .ok ((pool.mapLinks.lookup x).getD .empty) := by
  obtain ⟨links, hlookup⟩ := Option.isSome_iff_exists.1 (Finmap.lookup_isSome.2 hlinks)
  simp [getLinks, hx, hlookup]

namespace ParentsLinked

variable {x y : uint256}

section

variable (h : pool.ParentsLinked)
include h

theorem getMemPoolParents_eq (hx : x ∈ pool.mapTx) :
    pool.getMemPoolParents x = .ok (pool.parentsOf x) := by
  rw [getMemPoolParents, getLinks_eq hx ((h.mem_links x).2 hx)]
  rfl

theorem getMemPoolChildren_eq (hx : x ∈ pool.mapTx) :
    pool.getMemPoolChildren x = .ok (pool.childrenOf x) := by
  rw [getMemPoolChildren, getLinks_eq hx ((h.mem_links x).2 hx)]
  rfl

theorem parentsOf_subset (x : uint256) : pool.parentsOf x ⊆ pool.mapTx.keys :=
  fun p hp => Finmap.mem_keys.2 (h.parent_mem x p hp)

theorem child_mem (hcp : pool.Linked c p) : c ∈ pool.mapTx :=
  (h.mem_links c).1 hcp.mem_links

theorem mem_of_reach (hx : x ∈ pool.mapTx)
    (hxy : ReflTransGen pool.Linked x y) : y ∈ pool.mapTx := by
  rcases ReflTransGen.cases_tail hxy with heq | ⟨c, -, hc⟩
  · exact heq ▸ hx
  · exact h.parent_mem c y hc

theorem mem_of_reach_left (hy : y ∈ pool.mapTx)
    (hxy : ReflTransGen pool.Linked x y) : x ∈ pool.mapTx := by
  rcases ReflTransGen.cases_head hxy with heq | ⟨p, hp, -⟩
  · exact heq.symm ▸ hy
  · exact h.child_mem hp

end

end ParentsLinked

variable {x : uint256} {entry : CTxMemPoolEntry}

theorem deref_eq (hx : pool.mapTx.lookup x = some entry) : pool.deref x = .ok entry := by
  simp [deref, hx]

theorem mem_of_lookup (hx : pool.mapTx.lookup x = some entry) : x ∈ pool.mapTx :=
  Finmap.mem_of_lookup_eq_some hx

theorem exists_lookup (hx : x ∈ pool.mapTx) : ∃ entry, pool.mapTx.lookup x = some entry :=
  Option.isSome_iff_exists.1 (Finmap.lookup_isSome.2 hx)

end

section

variable {pool : CTxMemPool}

theorem reachedFrom_childrenOf (h : pool.LinksAgree) {x y : uint256} :
    ReachedFrom (fun a b => b ∈ pool.childrenOf a) {x} y ↔ ReflTransGen pool.Linked y x := by
  have hedge : (fun a b => b ∈ pool.childrenOf a) = Function.swap pool.Linked := by
    funext a b
    exact propext (h.child_iff b a)
  simp only [ReachedFrom, mem_singleton, exists_eq_left, hedge, reflTransGen_swap]

theorem calculateDescendants_spec (h : pool.LinksAgree) {x : uint256} (hx : x ∈ pool.mapTx)
    (setDescendants : SetEntries)
    (hclosed : ∀ c p, pool.Linked c p → p ∈ setDescendants → c ∈ setDescendants) :
    ∃ S, pool.calculateDescendants x setDescendants = .ok S ∧
      ∀ y, y ∈ S ↔ y ∈ setDescendants ∨ ReflTransGen pool.Linked y x := by
  have hvisit : ∀ a ∈ pool.mapTx.keys, ∀ stage seen : SetEntries,
      Ends (fun _ : Fault => False) (fun after => after.2 = insert a seen ∧
        after.1 = stage ∪ pool.childrenOf a \ insert a seen)
        (pool.visitDescendant a stage seen) := by
    intro a ha stage seen
    rw [visitDescendant, h.getMemPoolChildren_eq (Finmap.mem_keys.1 ha), ok_bind]
    exact ⟨rfl, rfl⟩
  have hstage : (if x ∈ setDescendants then ∅ else {x}) ⊆ pool.mapTx.keys \ setDescendants := by
    split_ifs with hseen
    · exact empty_subset _
    · simpa [hseen] using Finmap.mem_keys.2 hx
  obtain ⟨S, hrun, hS⟩ := (worklist_closure byHash _ pool.mapTx.keys pool.childrenOf id
    (fun a _ c hc => Finmap.mem_keys.2 (h.child_mem ((h.child_iff c a).1 hc))) hvisit le_rfl
    hstage fun p hp c hc => hclosed c p ((h.child_iff c p).1 hc) hp).returns
  refine ⟨S, hrun, fun y => (hS y).trans ?_⟩
  split_ifs with hseen
  · -- what leads to an entry that was seen was seen as well
    have hold : ReflTransGen pool.Linked y x → y ∈ setDescendants := fun hyx =>
      hyx.head_induction_on hseen fun hcp _ ih => hclosed _ _ hcp ih
    simpa [ReachedFrom] using hold
  · exact or_congr Iff.rfl (reachedFrom_childrenOf h)

theorem calculateDescendants_empty (h : pool.LinksAgree) {x : uint256} (hx : x ∈ pool.mapTx) :
    ∃ S, pool.calculateDescendants x ∅ = .ok S ∧ ∀ y, y ∈ S ↔ ReflTransGen pool.Linked y x := by
  obtain ⟨S, hrun, hS⟩ := calculateDescendants_spec h hx ∅ fun _ p _ hp =>
    absurd hp (notMem_empty p)
  exact ⟨S, hrun, fun y => (hS y).trans (or_iff_right (notMem_empty y))⟩

theorem mem_erase_descendants (hacyclic : Acyclic pool.Linked) {x : uint256} {S : SetEntries}
    (hS : ∀ y, y ∈ S ↔ ReflTransGen pool.Linked y x) (y : uint256) :
    y ∈ S.erase x ↔ TransGen pool.Linked y x := by
  rw [mem_erase, hS, reflTransGen_iff_eq_or_transGen]
  constructor
  · rintro ⟨hne, heq | hlt⟩
    · exact absurd heq.symm hne
    · exact hlt
  · intro hlt
    refine ⟨?_, .inr hlt⟩
    rintro rfl
    exact hacyclic y hlt

variable {env : PoolEnv}

/-- The search may stop at a limit, unless there is none. -/
def Exceeds (limits : AncestorLimits) (stop : AncestorStop) : Prop :=
  limits ≠ nNoLimit ∧ ∃ found errString, stop = .limit found errString

theorem rejectIf_ends {limits : AncestorLimits} {value limit : UInt64}
    (hlimit : limits = nNoLimit → limit = 0xffffffffffffffff) {found : SetEntries}
    {errString : StdString} :
    Ends (Exceeds limits) (fun _ => True)
      (rejectIf (value > limit) (.error (.limit found errString))) := by
  by_cases hgt : value > limit
  · rw [rejectIf, if_pos (decide_eq_true hgt)]
    refine ⟨fun hno => ?_, found, errString, rfl⟩
    rw [hlimit hno] at hgt
    exact absurd (UInt64.lt_iff_toNat_lt.1 hgt) (by have := value.toNat_lt; simp; omega)
  · rw [rejectIf, if_neg (by simpa using hgt)]
    exact trivial

theorem visitAncestor_ends (h : pool.ParentsLinked) {entry : CTxMemPoolEntry}
    {limits : AncestorLimits} {a : uint256} (ha : a ∈ pool.mapTx) {stage : SetEntries}
    {found : SetEntries × UInt64} :
    Ends (Exceeds limits) (fun after => after.2.1 = insert a found.1 ∧
        after.1 = stage ∪ pool.parentsOf a \ insert a found.1)
      (pool.visitAncestor env entry limits a stage found) := by
  obtain ⟨ancestor, hancestor⟩ := exists_lookup ha
  rw [visitAncestor, deref_eq hancestor, h.getMemPoolParents_eq ha]
  refine (rejectIf_ends (fun hno => hno ▸ rfl)).bind fun _ _ =>
    (rejectIf_ends (fun hno => hno ▸ rfl)).bind fun _ _ =>
    (rejectIf_ends (fun hno => hno ▸ rfl)).bind fun _ _ => ?_
  have hloop : Ends (Exceeds limits) (fun staged => staged = stage ∪ pool.parentsOf a \
      insert a found.1) (forEach byHash (pool.parentsOf a) (fun parentHashes phash => do
        let parentHashes :=
          if phash ∈ insert a found.1 then parentHashes else insert phash parentHashes
        rejectIf (UInt64.ofNat (parentHashes.card + (insert a found.1).card + 1) >
            limits.limitAncestorCount)
          (.error (.limit (insert a found.1)
            (limitMessage (str "too many unconfirmed ancestors") limits.limitAncestorCount)))
        return parentHashes) stage) := by
    refine forEach_ends byHash (fun done staged => staged = stage ∪ done \ insert a found.1)
      (fun done p staged _ _ _ hstaged => ?_) (by simp)
    refine (rejectIf_ends (fun hno => hno ▸ rfl)).bind fun _ _ => ?_
    change _ = _
    rw [hstaged]
    split_ifs with hp
    · rw [insert_sdiff_of_mem _ hp]
    · rw [insert_sdiff_of_notMem _ hp, union_insert]
  exact hloop.bind fun staged hstaged => ⟨rfl, hstaged⟩

def inputParents (pool : CTxMemPool) (tx : CTransaction) : SetEntries :=
  (tx.vin.map fun txin => txin.prevout.hash).toFinset.filter (· ∈ pool.mapTx)

theorem mem_inputParents :
    p ∈ pool.inputParents tx ↔ (∃ txin ∈ tx.vin, txin.prevout.hash = p) ∧ p ∈ pool.mapTx := by
  simp [inputParents]

theorem searchParents_ends {limits : AncestorLimits} :
    Ends (Exceeds limits) (fun found => found = pool.inputParents tx)
      (pool.searchParents tx limits.limitAncestorCount) := by
  have hrun : ∀ (vin : List CTxIn) (start : SetEntries), Ends (Exceeds limits)
      (fun found => found = start ∪ (vin.map fun txin => txin.prevout.hash).toFinset.filter
        (· ∈ pool.mapTx))
      (vin.foldlM (fun (parentHashes : SetEntries) txin =>
        if txin.prevout.hash ∈ pool.mapTx then do
          let parentHashes := insert txin.prevout.hash parentHashes
          rejectIf (UInt64.ofNat (parentHashes.card + 1) > limits.limitAncestorCount)
            (.error (.limit ∅ (limitMessage (str "too many unconfirmed parents")
              limits.limitAncestorCount)))
          return parentHashes
        else return parentHashes) start) := by
    intro vin
    induction vin with
    | nil => exact fun start => by simp [Ends, pure, Except.pure]
    | cons txin vin ih =>
      intro start
      rw [List.foldlM_cons]
      by_cases hmem : txin.prevout.hash ∈ pool.mapTx
      · rw [if_pos hmem]
        refine Ends.bind ((rejectIf_ends (fun hno => hno ▸ rfl)).bind fun _ _ =>
          (rfl : insert txin.prevout.hash start = _)) fun next hnext => ?_
        subst hnext
        refine (ih _).imp fun found hfound => ?_
        simp [hfound, filter_insert, hmem]
      · rw [if_neg hmem]
        refine (ih start).imp fun found hfound => ?_
        simp [hfound, filter_insert, hmem]
  exact (hrun tx.vin ∅).imp fun found hfound => by rw [hfound, empty_union]; rfl

def ancestorStart (env : PoolEnv) (pool : CTxMemPool) (entry : CTxMemPoolEntry) :
    Bool → SetEntries
  | true => pool.inputParents entry.tx
  | false => pool.parentsOf (entry.tx.getHash env.hash)

section

variable (h : pool.ParentsLinked) (entry : CTxMemPoolEntry) (limits : AncestorLimits)
  (fSearchForParents : Bool)
  (hmem : fSearchForParents = false → entry.tx.getHash env.hash ∈ pool.mapTx)
include h entry limits fSearchForParents hmem

theorem searchAncestors_ends :
    Ends (Exceeds limits) (fun found => ∀ y, y ∈ found ↔
        ReachedFrom pool.Linked (ancestorStart env pool entry fSearchForParents) y)
      (pool.searchAncestors env entry limits fSearchForParents) := by
  have hstart : Ends (Exceeds limits)
      (fun start => start = ancestorStart env pool entry fSearchForParents)
      (pool.firstParents env entry limits fSearchForParents) := by
    cases fSearchForParents with
    | true => exact searchParents_ends
    | false =>
      rw [firstParents, if_neg (by simp), h.getMemPoolParents_eq (hmem rfl)]
      exact rfl
  have hsub : ancestorStart env pool entry fSearchForParents ⊆ pool.mapTx.keys := by
    cases fSearchForParents with
    | true => exact fun p hp => Finmap.mem_keys.2 (mem_inputParents.1 hp).2
    | false => exact h.parentsOf_subset _
  refine hstart.bind fun start hstart => ?_
  subst hstart
  refine (worklist_closure byHash _ pool.mapTx.keys pool.parentsOf Prod.fst
    (fun a _ => h.parentsOf_subset a)
    (fun a ha stage found => visitAncestor_ends h (Finmap.mem_keys.1 ha))
    le_rfl (by simpa using hsub) (by simp)).bind fun found hfound y => ?_
  exact (hfound y).trans (or_iff_right (notMem_empty y))

theorem calculateMemPoolAncestors_spec :
    ∃ found errString,
      pool.calculateMemPoolAncestors env entry limits fSearchForParents = .ok (found, errString) ∧
      (errString = none → ∀ y, y ∈ found ↔
        ReachedFrom pool.Linked (ancestorStart env pool entry fSearchForParents) y) ∧
      (limits = nNoLimit → errString = none) := by
  have hends := searchAncestors_ends h entry limits fSearchForParents hmem
  rw [calculateMemPoolAncestors]
  cases hrun : pool.searchAncestors env entry limits fSearchForParents with
  | ok found =>
    rw [hrun] at hends
    exact ⟨found, none, rfl, fun _ => hends, fun _ => rfl⟩
  | error stop =>
    rw [hrun] at hends
    obtain ⟨hlimits, found, errString, rfl⟩ := hends
    exact ⟨found, some errString, rfl, nofun, fun hno => absurd hno hlimits⟩

end

theorem calculateMemPoolAncestors_noLimit (h : pool.ParentsLinked) {x : uint256}
    {entry : CTxMemPoolEntry} (hx : pool.mapTx.lookup x = some entry)
    (hhash : entry.tx.getHash env.hash = x) :
    ∃ found, pool.calculateMemPoolAncestors env entry nNoLimit false = .ok (found, none) ∧
      ∀ y, y ∈ found ↔ TransGen pool.Linked x y := by
  obtain ⟨found, errString, hrun, hfound, hnone⟩ := calculateMemPoolAncestors_spec h entry
    nNoLimit false fun _ => hhash ▸ mem_of_lookup hx
  obtain rfl := hnone rfl
  refine ⟨found, hrun, fun y => (hfound rfl y).trans ?_⟩
  rw [ancestorStart, hhash, TransGen.head'_iff]
  rfl

end

end CTxMemPool

end Coinyecoin
