import Coinyecoin.Consensus.Merkle
import Coinyecoin.Foundation.MerkleOpening
import Coinyecoin.Primitives.Serialize

/-!
# Inclusion proofs

`CPartialMerkleTree` of `merkleblock.cpp`, as it is read off bytes and as
`ExtractMatches` walks through it. Reads of the two vectors are checked ones, so
that a read outside would be a fault.

The height of the tree comes from the number of transactions the proof claims,
which is compared with nothing. The walk is an `Opening` of that height, so what
is proved below is sound unless the proof claims a lower tree than the block
has. Then inner nodes of the block are taken for its transactions.
-/

namespace Coinyecoin

open Foundation MerkleTree List

variable {height : ℕ}

structure CPartialMerkleTree where
  nTransactions : UInt32
  vBits : List Bool
  vHash : List uint256
  fBad : Bool
deriving DecidableEq, Repr

def unpackBits (vBytes : Bytes) : List Bool :=
  vBytes.flatMap fun byte => (List.range 8).map byte.toNat.testBit

def readPartialMerkleTree : Reader Fault CPartialMerkleTree := do
  let nTransactions ← readUInt32
  let vHash ← readVector readUint256
  let vBytes ← readBytes
  pure ⟨nTransactions, unpackBits vBytes, vHash, false⟩

namespace CPartialMerkleTree

section

variable (hashPair : uint256 → uint256 → uint256) (T : CPartialMerkleTree)

/-- The number of nodes at a height, in 32 bits. The shift of the `int` one is defined up to 30
places. -/
def calcTreeWidth (height : ℕ) : Except Fault ℕ :=
  if height < 31 then .ok ((T.nTransactions.toNat + 2 ^ height - 1) % 2 ^ 32 / 2 ^ height)
  else .error .shiftTooWide

/-- The loop for the height. It has ended or shifted too far within 32 rounds. -/
def heightFrom : ℕ → ℕ → Except Fault ℕ
  | 0, _ => .error .shiftTooWide
  | rounds + 1, nHeight => do
    let width ← T.calcTreeWidth nHeight
    if width > 1 then heightFrom rounds (nHeight + 1) else .ok nHeight

def treeHeight : Except Fault ℕ := T.heightFrom 32 0

/-- What the walk changes. Its counters stay far below the 32 bits they have. -/
structure Extraction where
  nBitsUsed : ℕ
  nHashUsed : ℕ
  vMatch : List uint256
  vnIndex : List ℕ
  fBad : Bool
deriving DecidableEq, Repr

def takeHash (isMatch : Bool) (pos : ℕ) (s : Extraction) : Except Fault (uint256 × Extraction) :=
  if s.nHashUsed ≥ T.vHash.length then .ok (0, { s with fBad := true })
  else do
    let hash ← vectorAt T.vHash s.nHashUsed
    let s := { s with nHashUsed := s.nHashUsed + 1 }
    if isMatch then
      .ok (hash, { s with vMatch := s.vMatch ++ [hash], vnIndex := s.vnIndex ++ [pos] })
    else .ok (hash, s)

def traverseAndExtract : ℕ → ℕ → Extraction → Except Fault (uint256 × Extraction)
  | height, pos, s =>
    if s.nBitsUsed ≥ T.vBits.length then .ok (0, { s with fBad := true })
    else do
      let fParentOfMatch ← vectorAt T.vBits s.nBitsUsed
      let s := { s with nBitsUsed := s.nBitsUsed + 1 }
      match height with
      | 0 => T.takeHash fParentOfMatch pos s
      | height + 1 =>
        if !fParentOfMatch then T.takeHash false pos s
        else do
          let (left, s) ← traverseAndExtract height (pos * 2) s
          let width ← T.calcTreeWidth height
          if pos * 2 + 1 < width then do
            let (right, s) ← traverseAndExtract height (pos * 2 + 1) s
            .ok (hashPair left right, { s with fBad := s.fBad || right == left })
          else .ok (hashPair left left, s)

structure Matches where
  root : uint256
  vMatch : List uint256
  vnIndex : List ℕ
deriving DecidableEq, Repr

/-- `ExtractMatches` with empty vectors. Whatever was extracted before a failure stays in them. -/
def extractMatches : Except Fault Matches :=
  if T.nTransactions = 0 then .ok ⟨0, [], []⟩
  else if T.nTransactions.toNat > MAX_BLOCK_BASE_SIZE / 60 then .ok ⟨0, [], []⟩
  else if T.vHash.length > T.nTransactions.toNat then .ok ⟨0, [], []⟩
  else if T.vBits.length < T.vHash.length then .ok ⟨0, [], []⟩
  else do
    let nHeight ← T.treeHeight
    let (hashMerkleRoot, s) ← T.traverseAndExtract hashPair nHeight 0 ⟨0, 0, [], [], T.fBad⟩
    let root :=
      if s.fBad then 0
      else if (s.nBitsUsed + 7) / 8 ≠ (T.vBits.length + 7) / 8 then 0
      else if s.nHashUsed ≠ T.vHash.length then 0
      else hashMerkleRoot
    .ok ⟨root, s.vMatch, s.vnIndex⟩

/-- Whether a leaf below a node is flagged, and the flags that are left. Only the flags and the
number of transactions matter, not the hashes. -/
def flagsBelow (nTransactions : ℕ) : ℕ → ℕ → List Bool → Bool × List Bool
  | _, _, [] => (false, [])
  | 0, _, fMatch :: bits => (fMatch, bits)
  | _ + 1, _, false :: bits => (false, bits)
  | height + 1, pos, true :: bits =>
    let left := flagsBelow nTransactions height (pos * 2) bits
    if pos * 2 + 1 < (nTransactions + 2 ^ height - 1) / 2 ^ height then
      let right := flagsBelow nTransactions height (pos * 2 + 1) left.2
      (left.1 || right.1, right.2)
    else left

def flagsLeaf : Bool :=
  (flagsBelow T.nTransactions.toNat (Nat.clog 2 T.nTransactions.toNat) 0 T.vBits).1

def Matches.Sound (txids : List uint256) (m : Matches) : Prop :=
  List.Forall₂ (fun hash index => txids[index]? = some hash) m.vMatch m.vnIndex

end

section

variable {T : CPartialMerkleTree}

theorem calcTreeWidth_of_lt (hcount : T.nTransactions.toNat ≤ 2 ^ 31)
    (hheight : height < 31) : T.calcTreeWidth height =
      .ok ((T.nTransactions.toNat + 2 ^ height - 1) / 2 ^ height) := by
  have hpow : 2 ^ height < 2 ^ 31 := Nat.pow_lt_pow_right (by decide) hheight
  rw [calcTreeWidth, if_pos hheight, Nat.mod_eq_of_lt (by omega)]

theorem one_lt_width_iff (n height : ℕ) :
    1 < (n + 2 ^ height - 1) / 2 ^ height ↔ 2 ^ height < n := by
  have hpow : 0 < 2 ^ height := Nat.two_pow_pos height
  rw [Nat.lt_iff_add_one_le, Nat.le_div_iff_mul_le hpow]
  omega

theorem heightFrom_eq (hcount : T.nTransactions.toNat ≤ 2 ^ 31)
    (hlast : Nat.clog 2 T.nTransactions.toNat < 31) {rounds : ℕ}
    (hle : height ≤ Nat.clog 2 T.nTransactions.toNat)
    (hrounds : Nat.clog 2 T.nTransactions.toNat < height + rounds) :
    T.heightFrom rounds height = .ok (Nat.clog 2 T.nTransactions.toNat) := by
  induction rounds generalizing height with
  | zero => omega
  | succ rounds ih =>
    rw [heightFrom, calcTreeWidth_of_lt hcount (by omega), ok_bind]
    by_cases hmore : 2 ^ height < T.nTransactions.toNat
    · rw [if_pos ((one_lt_width_iff _ _).2 hmore)]
      have hlt := (Nat.lt_clog_iff_pow_lt one_lt_two).2 hmore
      exact ih hlt (by omega)
    · rw [if_neg (fun h => hmore ((one_lt_width_iff _ _).1 h))]
      have hge := Nat.clog_le_of_le_pow (not_lt.1 hmore)
      rw [le_antisymm hle hge]

theorem treeHeight_eq (hcount : T.nTransactions.toNat ≤ MAX_BLOCK_BASE_SIZE / 60) :
    T.treeHeight = .ok (Nat.clog 2 T.nTransactions.toNat) ∧
      Nat.clog 2 T.nTransactions.toNat ≤ 15 := by
  have hlimit : MAX_BLOCK_BASE_SIZE / 60 ≤ 2 ^ 15 := by decide
  have hfew := Nat.clog_le_of_le_pow (hcount.trans hlimit)
  exact ⟨heightFrom_eq (hcount.trans (hlimit.trans (by decide))) (by omega) (Nat.zero_le _)
    (by omega), hfew⟩

end

section

variable {hashPair : uint256 → uint256 → uint256} {T : CPartialMerkleTree}

/-- From `s` the walk returned `r` for a subtree: unless it failed, it went through an opening of
the subtree and collected what that shows. -/
def Opened (hashPair : uint256 → uint256 → uint256) (height pos : ℕ) (s : Extraction)
    (r : uint256 × Extraction) : Prop :=
  r.2.fBad = false → s.fBad = false ∧ ∃ o : Opening uint256 height,
    o.value hashPair = r.1 ∧ o.ChildrenDiffer hashPair ∧
    r.2.vMatch = s.vMatch ++ (o.shown pos).map Prod.fst ∧
    r.2.vnIndex = s.vnIndex ++ (o.shown pos).map Prod.snd

/-- The walk also went through the flags below the node, and collected something unless it failed
or no leaf is flagged. -/
structure Walked (hashPair : uint256 → uint256 → uint256) (T : CPartialMerkleTree)
    (height pos : ℕ) (s : Extraction) (r : uint256 × Extraction) : Prop where
  opened : Opened hashPair height pos s r
  flags : (flagsBelow T.nTransactions.toNat height pos (T.vBits.drop s.nBitsUsed)).2 =
    T.vBits.drop r.2.nBitsUsed
  unflagged : (flagsBelow T.nTransactions.toNat height pos (T.vBits.drop s.nBitsUsed)).1 = false →
    r.2.vMatch = s.vMatch ∧ r.2.vnIndex = s.vnIndex
  flagged : (flagsBelow T.nTransactions.toNat height pos (T.vBits.drop s.nBitsUsed)).1 = true →
    r.2.fBad = false → s.vMatch.length < r.2.vMatch.length

theorem Opened.length_le {pos : ℕ} {s : Extraction} {r : uint256 × Extraction}
    (h : Opened hashPair height pos s r) (hgood : r.2.fBad = false) :
    s.vMatch.length ≤ r.2.vMatch.length := by
  obtain ⟨-, o, -, -, hmatch, -⟩ := h hgood
  rw [hmatch, length_append]
  exact Nat.le_add_right _ _

theorem takeHash_hidden (pos : ℕ) (s : Extraction) :
    ∃ r, T.takeHash false pos s = .ok r ∧ Opened hashPair height pos s r ∧
      r.2.nBitsUsed = s.nBitsUsed ∧ r.2.vMatch = s.vMatch ∧ r.2.vnIndex = s.vnIndex := by
  by_cases hend : s.nHashUsed ≥ T.vHash.length
  · exact ⟨_, if_pos hend, (fun h => nomatch h), rfl, rfl, rfl⟩
  · have hread := vectorAt_eq_ok.2 (getElem?_eq_getElem (not_le.1 hend))
    rw [takeHash, if_neg hend, hread, ok_bind]
    exact ⟨_, rfl, fun h => ⟨h, .hidden T.vHash[s.nHashUsed], by simp⟩, rfl, rfl, rfl⟩

theorem takeHash_leaf {pos : ℕ} (s : Extraction) :
    ∃ r, T.takeHash true pos s = .ok r ∧ Opened hashPair 0 pos s r ∧
      r.2.nBitsUsed = s.nBitsUsed ∧
      (r.2.fBad = false → s.vMatch.length < r.2.vMatch.length) := by
  by_cases hend : s.nHashUsed ≥ T.vHash.length
  · exact ⟨_, if_pos hend, (fun h => nomatch h), rfl, fun h => nomatch h⟩
  · have hread := vectorAt_eq_ok.2 (getElem?_eq_getElem (not_le.1 hend))
    rw [takeHash, if_neg hend, hread, ok_bind]
    exact ⟨_, rfl, fun h => ⟨h, .leaf T.vHash[s.nHashUsed], by simp⟩, rfl, fun _ => by simp⟩

/-- Past the last flag. -/
theorem walked_end {pos : ℕ} {s : Extraction} (hend : s.nBitsUsed ≥ T.vBits.length) :
    Walked hashPair T height pos s (0, { s with fBad := true }) := by
  have hdrop := drop_eq_nil_of_le hend
  have hflags : flagsBelow T.nTransactions.toNat height pos [] = (false, []) := by
    cases height <;> rfl
  refine ⟨(fun h => nomatch h), ?_, (fun _ => ⟨rfl, rfl⟩), fun _ h => nomatch h⟩
  rw [hdrop, hflags]

theorem traverseAndExtract_walked (hcount : T.nTransactions.toNat ≤ 2 ^ 31)
    (hheight : height ≤ 31) (pos : ℕ) (s : Extraction) :
    ∃ r, T.traverseAndExtract hashPair height pos s = .ok r ∧ Walked hashPair T height pos s r := by
  induction height generalizing pos s with
  | zero =>
    rw [traverseAndExtract]
    by_cases hend : s.nBitsUsed ≥ T.vBits.length
    · exact ⟨_, if_pos hend, walked_end hend⟩
    have hlt := not_le.1 hend
    have hdrop := drop_eq_getElem_cons hlt
    rw [if_neg hend, vectorAt_eq_ok.2 (getElem?_eq_getElem hlt), ok_bind]
    dsimp only
    cases hflag : T.vBits[s.nBitsUsed] with
    | false =>
      obtain ⟨r, hr, hopened, hused, hmatch, hindex⟩ :=
        takeHash_hidden pos { s with nBitsUsed := s.nBitsUsed + 1 }
      rw [hflag] at hdrop
      refine ⟨r, hr, hopened, ?_, fun _ => ⟨hmatch, hindex⟩, ?_⟩ <;> rw [hdrop, flagsBelow]
      · rw [hused]
      · exact fun h => nomatch h
    | true =>
      obtain ⟨r, hr, hopened, hused, hmore⟩ :=
        takeHash_leaf { s with nBitsUsed := s.nBitsUsed + 1 }
      rw [hflag] at hdrop
      refine ⟨r, hr, hopened, ?_, ?_, fun _ => hmore⟩ <;> rw [hdrop, flagsBelow]
      · rw [hused]
      · exact fun h => nomatch h
  | succ height ih =>
    rw [traverseAndExtract]
    by_cases hend : s.nBitsUsed ≥ T.vBits.length
    · exact ⟨_, if_pos hend, walked_end hend⟩
    have hlt := not_le.1 hend
    have hdrop := drop_eq_getElem_cons hlt
    rw [if_neg hend, vectorAt_eq_ok.2 (getElem?_eq_getElem hlt), ok_bind]
    dsimp only
    cases hflag : T.vBits[s.nBitsUsed] with
    | false =>
      obtain ⟨r, hr, hopened, hused, hmatch, hindex⟩ :=
        takeHash_hidden pos { s with nBitsUsed := s.nBitsUsed + 1 }
      rw [hflag] at hdrop
      refine ⟨r, hr, hopened, ?_, fun _ => ⟨hmatch, hindex⟩, ?_⟩ <;> rw [hdrop, flagsBelow]
      · rw [hused]
      · exact fun h => nomatch h
    | true =>
      rw [hflag] at hdrop
      obtain ⟨⟨left, s₁⟩, hleft, hwalked⟩ :=
        ih (by omega) (pos * 2) { s with nBitsUsed := s.nBitsUsed + 1 }
      rw [if_neg (by decide), hleft, ok_bind]
      dsimp only
      rw [calcTreeWidth_of_lt hcount (by omega), ok_bind]
      have hflags := hwalked.flags
      split_ifs with hright
      · obtain ⟨⟨right, s₂⟩, hrun, hwalked₂⟩ := ih (by omega) (pos * 2 + 1) s₁
        rw [hrun, ok_bind]
        have hbelow : flagsBelow T.nTransactions.toNat (height + 1) pos
            (T.vBits.drop s.nBitsUsed) =
            ((flagsBelow T.nTransactions.toNat height (pos * 2)
                (T.vBits.drop (s.nBitsUsed + 1))).1 ||
              (flagsBelow T.nTransactions.toNat height (pos * 2 + 1)
                (T.vBits.drop s₁.nBitsUsed)).1,
              T.vBits.drop s₂.nBitsUsed) := by
          rw [hdrop, flagsBelow]
          dsimp only at hflags ⊢
          rw [if_pos hright, hflags, hwalked₂.flags]
        refine ⟨_, rfl, fun hgood => ?_, by rw [hbelow], ?_, ?_⟩
        · obtain ⟨hgood₂, hne⟩ : s₂.fBad = false ∧ right ≠ left := by simpa using hgood
          obtain ⟨hgood₁, ro, rfl, hdiffer₂, hmatch₂, hindex₂⟩ := hwalked₂.opened hgood₂
          obtain ⟨hstart, lo, rfl, hdiffer₁, hmatch₁, hindex₁⟩ := hwalked.opened hgood₁
          dsimp only at hmatch₁ hmatch₂ hindex₁ hindex₂
          refine ⟨hstart, .pair lo ro, by simp, by simp [hne, hdiffer₁, hdiffer₂], ?_, ?_⟩
          · simp [hmatch₂, hmatch₁]
          · simp [hindex₂, hindex₁]
        · rw [hbelow, Bool.or_eq_false_iff]
          rintro ⟨hl, hr⟩
          obtain ⟨hmatch₁, hindex₁⟩ := hwalked.unflagged hl
          obtain ⟨hmatch₂, hindex₂⟩ := hwalked₂.unflagged hr
          exact ⟨hmatch₂.trans hmatch₁, hindex₂.trans hindex₁⟩
        · rw [hbelow, Bool.or_eq_true]
          intro hor hgood
          have hgood₂ : s₂.fBad = false := (Bool.or_eq_false_iff.1 hgood).1
          have hgood₁ := (hwalked₂.opened hgood₂).1
          rcases hor with hl | hr
          · exact (hwalked.flagged hl hgood₁).trans_le (hwalked₂.opened.length_le hgood₂)
          · exact (hwalked.opened.length_le hgood₁).trans_lt (hwalked₂.flagged hr hgood₂)
      · have hbelow : flagsBelow T.nTransactions.toNat (height + 1) pos
            (T.vBits.drop s.nBitsUsed) = flagsBelow T.nTransactions.toNat height (pos * 2)
              (T.vBits.drop (s.nBitsUsed + 1)) := by
          rw [hdrop, flagsBelow]
          exact if_neg hright
        refine ⟨_, rfl, fun hgood => ?_, by rw [hbelow]; exact hflags, ?_, ?_⟩
        · obtain ⟨hstart, lo, rfl, hdiffer, hmatch, hindex⟩ := hwalked.opened hgood
          exact ⟨hstart, .single lo, by simp, by simpa using hdiffer, by simpa using hmatch,
            by simpa using hindex⟩
        · rw [hbelow]
          exact hwalked.unflagged
        · rw [hbelow]
          exact hwalked.flagged

theorem extractMatches_eq_ok {hashPair : uint256 → uint256 → uint256} {T : CPartialMerkleTree} :
    ∃ m, T.extractMatches hashPair = .ok m ∧
      (T.flagsLeaf = false → m.vMatch = [] ∧ m.vnIndex = []) ∧ (m.root = 0 ∨
        (T.flagsLeaf = true → m.vMatch ≠ []) ∧
        ∃ o : Opening uint256 (Nat.clog 2 T.nTransactions.toNat),
          o.value hashPair = m.root ∧ o.ChildrenDiffer hashPair ∧
          m.vMatch = (o.shown 0).map Prod.fst ∧ m.vnIndex = (o.shown 0).map Prod.snd) := by
  rw [extractMatches]
  split_ifs with hzero hmany hhashes hbits
  · exact ⟨_, rfl, fun _ => ⟨rfl, rfl⟩, .inl rfl⟩
  · exact ⟨_, rfl, fun _ => ⟨rfl, rfl⟩, .inl rfl⟩
  · exact ⟨_, rfl, fun _ => ⟨rfl, rfl⟩, .inl rfl⟩
  · exact ⟨_, rfl, fun _ => ⟨rfl, rfl⟩, .inl rfl⟩
  obtain ⟨hheight, hlow⟩ := treeHeight_eq (not_lt.1 hmany)
  have hcount : T.nTransactions.toNat ≤ 2 ^ 31 := (not_lt.1 hmany).trans (by decide)
  obtain ⟨⟨value, s⟩, hwalk, hopened, -, hnone, hsome⟩ := @traverseAndExtract_walked _ hashPair T
    hcount (hlow.trans (by decide)) 0 ⟨0, 0, [], [], T.fBad⟩
  rw [hheight, ok_bind, hwalk, ok_bind]
  refine ⟨_, rfl, hnone, ?_⟩
  dsimp only
  split_ifs with hbad
  · exact .inl rfl
  · exact .inl rfl
  · exact .inl rfl
  · have hgood : s.fBad = false := by simpa using hbad
    obtain ⟨-, o, hvalue, hdiffer, hmatch, hindex⟩ := hopened hgood
    refine .inr ⟨fun hflag => ?_, o, hvalue, hdiffer, hmatch, hindex⟩
    exact ne_nil_of_length_pos (hsome hflag hgood)

end

theorem sound_iff_shown {o : Opening uint256 height} {m : Matches}
    (hmatch : m.vMatch = (o.shown 0).map Prod.fst)
    (hindex : m.vnIndex = (o.shown 0).map Prod.snd) (txids : List uint256) :
    m.Sound txids ↔ ∀ p ∈ o.shown 0, txids[p.2]? = some p.1 := by
  rw [Matches.Sound, hmatch, hindex, forall₂_map_left_iff, forall₂_map_right_iff, forall₂_same]

theorem sound_iff_of_root {hashPair : uint256 → uint256 → uint256}
    {getHash : CTransaction → uint256} {block : CBlock} {T : CPartialMerkleTree} {m : Matches}
    (hbind : Binds hashPair (block.vtx.map getHash)) (hm : T.extractMatches hashPair = .ok m)
    (hroot : m.root = (Merkle.blockMerkleRoot hashPair getHash block).1) (hnull : m.root ≠ 0) :
    m.Sound (block.vtx.map getHash) ↔ T.flagsLeaf = false ∨
      Nat.clog 2 block.vtx.length ≤ Nat.clog 2 T.nTransactions.toNat := by
  obtain ⟨m', hm', hnone, hopened⟩ := extractMatches_eq_ok
  obtain rfl : m = m' := Except.ok.inj (hm.symm.trans hm')
  obtain ⟨hsome, o, hvalue, hdiffer, hmatch, hindex⟩ := hopened.resolve_left hnull
  have hflags : T.flagsLeaf = false ↔ m.vMatch = [] :=
    ⟨fun h => (hnone h).1, fun h => Bool.eq_false_iff.2 fun htrue => hsome htrue h⟩
  have hne : block.vtx.map getHash ≠ [] := by
    intro hnil
    rw [Merkle.blockMerkleRoot, hnil] at hroot
    exact hnull hroot
  have htop : root hashPair (block.vtx.map getHash) = some (o.value hashPair) := by
    rw [← Merkle.computeMerkleRoot_root hne, hvalue, hroot, Merkle.blockMerkleRoot]
  have hshown := Opening.shown_iff_of_root hbind o hdiffer htop
  rw [length_map] at hshown
  rw [sound_iff_shown hmatch hindex, hshown, hflags, hmatch, map_eq_nil_iff]

/-- A proof that fails for a byte of flags too many leaves the hash it extracted. -/
theorem extractMatches_null (hashPair : uint256 → uint256 → uint256) (hash : uint256) :
    (⟨1, unpackBits [1, 0], [hash], false⟩ : CPartialMerkleTree).extractMatches hashPair =
      .ok ⟨0, [hash], [0]⟩ := by
  have hheight : treeHeight ⟨1, unpackBits [1, 0], [hash], false⟩ = .ok 0 := by
    simp [treeHeight, heightFrom, calcTreeWidth]
  have hbits : unpackBits [1, 0] = true :: replicate 15 false := by decide
  rw [extractMatches, hheight, hbits]
  simp [traverseAndExtract.eq_1 _ _ 0, takeHash, vectorAt, MAX_BLOCK_BASE_SIZE]

/-- `ExtractMatches` always returns. If it returns the merkle root of a block and that is not null,
then the hashes it extracted are those of the block's transactions at the extracted indices exactly
if no leaf is flagged or the tree over the claimed number of transactions is not lower than the
block's. A null root is also what a failure returns: there it is enough that no leaf is flagged, and
it does not hold of all proofs. -/
theorem extractMatches_sound_iff (hashPair : uint256 → uint256 → uint256)
    (getHash : CTransaction → uint256) (block : CBlock) (T : CPartialMerkleTree)
    (hbind : Binds hashPair (block.vtx.map getHash)) :
    (∃ m, T.extractMatches hashPair = .ok m ∧
      (m.root = (Merkle.blockMerkleRoot hashPair getHash block).1 →
        ((Merkle.blockMerkleRoot hashPair getHash block).1 ≠ 0 →
          (m.Sound (block.vtx.map getHash) ↔ T.flagsLeaf = false ∨
            Nat.clog 2 block.vtx.length ≤ Nat.clog 2 T.nTransactions.toNat)) ∧
        (T.flagsLeaf = false → m.Sound (block.vtx.map getHash)))) ∧
    ((Merkle.blockMerkleRoot hashPair getHash block).1 = 0 →
      ∃ (T' : CPartialMerkleTree) (m' : Matches), T'.extractMatches hashPair = .ok m' ∧
        m'.root = (Merkle.blockMerkleRoot hashPair getHash block).1 ∧
        ¬ m'.Sound (block.vtx.map getHash)) := by
  constructor
  · obtain ⟨m, hm, hnone, -⟩ := @extractMatches_eq_ok hashPair T
    refine ⟨m, hm, fun hroot => ⟨fun hnull => ?_, fun hflags => ?_⟩⟩
    · exact sound_iff_of_root hbind hm hroot (hroot ▸ hnull)
    · obtain ⟨hmatch, hindex⟩ := hnone hflags
      rw [Matches.Sound, hmatch, hindex]
      exact .nil
  · intro hnull
    obtain ⟨hash, hother⟩ : ∃ hash, (block.vtx.map getHash)[0]? ≠ some hash := by
      by_contra hall
      simp only [ne_eq, not_exists, not_not] at hall
      have hsame : some (0 : uint256) = some 1 := (hall 0).symm.trans (hall 1)
      exact absurd hsame (by decide)
    refine ⟨_, _, extractMatches_null hashPair hash, hnull.symm, fun hsound => ?_⟩
    exact hother (forall₂_cons.1 hsound).1

def treePairs : List (uint256 × uint256) := [(1, 2), (3, 4), (12, 34)]

/-- A pair hash that tells the pairs of a tree over `[1, 2, 3, 4]` from all others. -/
def treeHash (a b : uint256) : uint256 :=
  if (a, b) = (1, 2) then 12
  else if (a, b) = (3, 4) then 34
  else if (a, b) = (12, 34) then 1234
  else 99

def lockTimeHash (tx : CTransaction) : uint256 := BitVec.ofNat 256 tx.nLockTime.toNat

def fourTransactions : CBlock where
  header := ⟨1, 0, 1234, 0, 0, 0⟩
  vtx := [⟨1, [], [], 1⟩, ⟨1, [], [], 2⟩, ⟨1, [], [], 3⟩, ⟨1, [], [], 4⟩]

theorem mem_hashed_four {p : uint256 × uint256} (hp : p ∈ hashed treeHash [1, 2, 3, 4]) :
    p ∈ treePairs := by
  obtain ⟨level, hbelow, hmem⟩ := hp
  match level, hbelow, hmem with
  | 0, _, hmem => exact mem_of_mem_take (i := 2) hmem
  | 1, _, hmem => exact mem_of_mem_drop (i := 2) hmem
  | level + 2, hbelow, _ => exact absurd (hbelow 2 (by omega)) (by decide)

theorem treeHash_of_not_mem {q : uint256 × uint256} (hq : q ∉ treePairs) :
    Function.uncurry treeHash q = 99 := by
  simp only [treePairs, mem_cons, not_mem_nil, or_false, not_or] at hq
  obtain ⟨hfirst, hsecond, hthird⟩ := hq
  exact (if_neg hfirst).trans ((if_neg hsecond).trans (if_neg hthird))

theorem binds_four : Binds treeHash (fourTransactions.vtx.map lockTimeHash) where
  inj := by
    intro p hp q heq
    have hinj : ∀ p ∈ treePairs, ∀ q ∈ treePairs,
        Function.uncurry treeHash q = Function.uncurry treeHash p → q = p := by
      simp [treePairs, treeHash]
    have hother : ∀ p ∈ treePairs, Function.uncurry treeHash p ≠ 99 := by
      simp [treePairs, treeHash]
    by_cases hq : q ∈ treePairs
    · exact hinj p (mem_hashed_four hp) q hq heq
    · rw [treeHash_of_not_mem hq] at heq
      exact absurd heq.symm (hother p (mem_hashed_four hp))
  not_leaf := by
    intro leaf hleaf q heq
    have hapart : ∀ p ∈ treePairs,
        Function.uncurry treeHash p ∉ fourTransactions.vtx.map lockTimeHash := by
      simp [treePairs, treeHash, fourTransactions, lockTimeHash]
    have hother : (99 : uint256) ∉ fourTransactions.vtx.map lockTimeHash := by decide
    rw [← heq] at hleaf
    by_cases hq : q ∈ treePairs
    · exact hapart q hq hleaf
    · rw [treeHash_of_not_mem hq] at hleaf
      exact hother hleaf

def honestProof : CPartialMerkleTree :=
  ⟨4, [true, true, false, true, false, false, false, false], [1, 2, 34], false⟩

theorem extractMatches_sound_iff_honest :
    honestProof.extractMatches treeHash = .ok ⟨1234, [2], [1]⟩ ∧
      Matches.Sound (fourTransactions.vtx.map lockTimeHash) ⟨1234, [2], [1]⟩ := by
  have hrun : honestProof.extractMatches treeHash = .ok ⟨1234, [2], [1]⟩ := by decide +kernel
  obtain ⟨⟨m, hm, hiff⟩, -⟩ :=
    extractMatches_sound_iff treeHash lockTimeHash fourTransactions honestProof binds_four
  obtain rfl : (⟨1234, [2], [1]⟩ : Matches) = m := Except.ok.inj (hrun.symm.trans hm)
  exact ⟨hrun, ((hiff (by decide +kernel)).1 (by decide +kernel)).2 (.inr (by decide))⟩

/-- Two transactions are claimed for a block of four. The inner node over the first two is
extracted as the first transaction. -/
theorem inner_node_extracted :
    Binds treeHash (fourTransactions.vtx.map lockTimeHash) ∧
      ∃ T, readPartialMerkleTree
          (writeUInt32 2 ++ writeVector writeUint256 [12, 34] ++ writeBytes [3]) = .ok (T, []) ∧
        T.extractMatches treeHash = .ok ⟨1234, [12], [0]⟩ ∧
        (Merkle.blockMerkleRoot treeHash lockTimeHash fourTransactions).1 = 1234 ∧
        ¬ Matches.Sound (fourTransactions.vtx.map lockTimeHash) ⟨1234, [12], [0]⟩ := by
  refine ⟨binds_four, ⟨2, [true, true, false, false, false, false, false, false], [12, 34], false⟩,
    by decide +kernel, by decide +kernel, by decide +kernel, ?_⟩
  intro hsound
  have hfirst := (forall₂_cons.1 hsound).1
  exact absurd hfirst (by decide)

end CPartialMerkleTree

end Coinyecoin
