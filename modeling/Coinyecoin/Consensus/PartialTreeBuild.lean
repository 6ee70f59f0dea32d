import Coinyecoin.Consensus.PartialMerkleTree

/-!
# Building inclusion proofs

`TraverseAndBuild` walks down the tree over the transactions of a block. It stores a
flag for every node it comes to and the hash of every node it does not go below.
`TraverseAndExtract` takes the same way through what was stored, also after the flags
have been packed into bytes.
-/

namespace Coinyecoin

open Foundation MerkleTree List Nat

variable {l : List Bool} {n : ℕ}

def packByte : List Bool → ℕ
  | [] => 0
  | b :: l => b.toNat + 2 * packByte l

def packBits : ℕ → List Bool → Bytes
  | 0, _ => []
  | n + 1, vBits => UInt8.ofNat (packByte (vBits.take 8)) :: packBits n (vBits.drop 8)

def writePartialMerkleTree (T : CPartialMerkleTree) : Bytes :=
  writeUInt32 T.nTransactions ++ (writeVector writeUint256 T.vHash ++
    writeBytes (packBits ((T.vBits.length + 7) / 8) T.vBits))

/-- The matched hashes with their indices, which start at the first argument. -/
def selected : ℕ → List (uint256 × Bool) → List (uint256 × ℕ)
  | _, [] => []
  | i, (hash, isMatch) :: rest =>
    if isMatch then (hash, i) :: selected (i + 1) rest else selected (i + 1) rest

namespace CPartialMerkleTree

section

variable (hashPair : uint256 → uint256 → uint256) (T : CPartialMerkleTree)
  (vTxid : List uint256) (vMatch : List Bool)

def calcHash : ℕ → ℕ → Except Fault uint256
  | 0, pos => vectorAt vTxid pos
  | height + 1, pos => do
    let left ← calcHash height (pos * 2)
    let width ← T.calcTreeWidth height
    if pos * 2 + 1 < width then do
      let right ← calcHash height (pos * 2 + 1)
      return hashPair left right
    else return hashPair left left

/-- The loop for `fParentOfMatch` at the transaction `p`, with the rounds that are left. -/
def parentOfMatch : ℕ → ℕ → Except Fault Bool
  | 0, _ => .ok false
  | rounds + 1, p =>
    if p < T.nTransactions.toNat then do
      let isMatch ← vectorAt vMatch p
      let rest ← parentOfMatch rounds (p + 1)
      return isMatch || rest
    else .ok false

/-- What the call for a node appends to `vBits` and `vHash`. -/
def traverseAndBuild : ℕ → ℕ → Except Fault (List Bool × List uint256)
  | height, pos => do
    let fParentOfMatch ← T.parentOfMatch vMatch (2 ^ height) (pos * 2 ^ height)
    match height with
    | 0 => do
      let hash ← T.calcHash hashPair vTxid 0 pos
      return ([fParentOfMatch], [hash])
    | height + 1 =>
      if !fParentOfMatch then do
        let hash ← T.calcHash hashPair vTxid (height + 1) pos
        return ([fParentOfMatch], [hash])
      else do
        let left ← traverseAndBuild height (pos * 2)
        let width ← T.calcTreeWidth height
        if pos * 2 + 1 < width then do
          let right ← traverseAndBuild height (pos * 2 + 1)
          return (fParentOfMatch :: (left.1 ++ right.1), left.2 ++ right.2)
        else return (fParentOfMatch :: left.1, left.2)

/-- The constructor from the hashes of a block and the flags that select some of them. -/
def ofTxids : Except Fault CPartialMerkleTree := do
  let T : CPartialMerkleTree := ⟨UInt32.ofNat vTxid.length, [], [], false⟩
  let nHeight ← T.treeHeight
  let built ← T.traverseAndBuild hashPair vTxid vMatch nHeight 0
  return { T with vBits := built.1, vHash := built.2 }

end

theorem map_testBit_packByte (h : l.length ≤ n) :
    (List.range n).map (packByte l).testBit = l ++ List.replicate (n - l.length) false := by
  induction l generalizing n with
  | nil =>
    have hzero : (packByte []).testBit = fun _ => false := funext zero_testBit
    rw [hzero, map_const', length_range]
    rfl
  | cons b l ih =>
    obtain ⟨n, rfl⟩ : ∃ k, n = k + 1 := ⟨n - 1, by simp at h; omega⟩
    have hfirst : (packByte (b :: l)).testBit 0 = b := by
      cases b <;> simp [packByte, testBit_zero]
    have hrest : ∀ i, (packByte (b :: l)).testBit (i + 1) = (packByte l).testBit i := fun i => by
      have hb := b.toNat_le
      rw [packByte, testBit_succ]
      congr 1
      omega
    rw [range_succ_eq_map, map_cons, map_map, hfirst, length_cons,
      Nat.add_sub_add_right, cons_append, ← ih (Nat.le_of_succ_le_succ h)]
    congr 1
    exact map_congr_left fun i _ => hrest i

theorem packByte_lt : packByte l < 2 ^ l.length := by
  induction l with
  | nil => decide
  | cons b l ih =>
    have hb := b.toNat_le
    rw [packByte, length_cons, pow_succ]
    omega

theorem unpackBits_packBits {vBits : List Bool} (h : vBits.length ≤ 8 * n) :
    unpackBits (packBits n vBits) = vBits ++ List.replicate (8 * n - vBits.length) false := by
  induction n generalizing vBits with
  | zero =>
    obtain rfl := length_eq_zero_iff.1 (le_zero.1 h)
    rfl
  | succ n ih =>
    have hlen : (vBits.take 8).length ≤ 8 := length_take_le 8 vBits
    have hbyte : (UInt8.ofNat (packByte (vBits.take 8))).toNat = packByte (vBits.take 8) := by
      rw [UInt8.toNat_ofNat']
      exact mod_eq_of_lt
        (packByte_lt.trans_le (Nat.pow_le_pow_right (by decide) hlen))
    have hdrop : (vBits.drop 8).length ≤ 8 * n := by
      rw [length_drop]
      omega
    have hcons : unpackBits (packBits (n + 1) vBits) = (List.range 8).map
        (packByte (vBits.take 8)).testBit ++ unpackBits (packBits n (vBits.drop 8)) := by
      rw [packBits, unpackBits, flatMap_cons, hbyte]
      rfl
    rw [hcons, map_testBit_packByte hlen, ih hdrop, length_drop, length_take]
    by_cases hshort : vBits.length < 8
    · rw [take_of_length_le hshort.le, drop_of_length_le hshort.le, nil_append,
        append_assoc, replicate_append_replicate]
      congr 2
      omega
    · rw [show 8 - min 8 vBits.length = 0 by omega, replicate_zero, append_nil,
        ← append_assoc, take_append_drop]
      congr 2
      omega

section

theorem selected_append (i : ℕ) (l m : List (uint256 × Bool)) :
    selected i (l ++ m) = selected i l ++ selected (i + l.length) m := by
  induction l generalizing i with
  | nil => rfl
  | cons p l ih =>
    obtain ⟨hash, isMatch⟩ := p
    have hnext : i + 1 + l.length = i + ((hash, isMatch) :: l).length := by
      rw [length_cons]
      omega
    rw [cons_append, selected, selected, ih, hnext]
    split_ifs
    · rfl
    · rfl

theorem selected_eq_nil {l : List (uint256 × Bool)} (h : l.any (·.2) = false) (i : ℕ) :
    selected i l = [] := by
  induction l generalizing i with
  | nil => rfl
  | cons p l ih =>
    obtain ⟨hp, hl⟩ := Bool.or_eq_false_iff.1 ((any_cons).symm.trans h)
    rw [selected, if_neg (by rw [hp]; decide), ih hl]

def leavesBelow (pairs : List (uint256 × Bool)) (height pos : ℕ) : List (uint256 × Bool) :=
  (pairs.drop (pos * 2 ^ height)).take (2 ^ height)

variable {pairs : List (uint256 × Bool)}

variable (height pos : ℕ)

theorem leavesBelow_succ : leavesBelow pairs (height + 1) pos =
    leavesBelow pairs height (pos * 2) ++ leavesBelow pairs height (pos * 2 + 1) := by
  have hstart : pos * 2 ^ (height + 1) = pos * 2 * 2 ^ height := by ring
  have hright : (pos * 2 + 1) * 2 ^ height = pos * 2 * 2 ^ height + 2 ^ height := by ring
  rw [leavesBelow, leavesBelow, leavesBelow, hstart, hright, pow_succ, mul_two, take_add, drop_drop]

theorem selected_succ :
    selected (pos * 2 ^ (height + 1)) (leavesBelow pairs (height + 1) pos) =
      selected (pos * 2 * 2 ^ height) (leavesBelow pairs height (pos * 2)) ++
        selected ((pos * 2 + 1) * 2 ^ height) (leavesBelow pairs height (pos * 2 + 1)) := by
  have hstart : pos * 2 ^ (height + 1) = pos * 2 * 2 ^ height := by ring
  have hright : (pos * 2 + 1) * 2 ^ height = pos * 2 * 2 ^ height + 2 ^ height := by ring
  rw [leavesBelow_succ, selected_append, hstart]
  by_cases hfull : pairs.length ≤ pos * 2 * 2 ^ height + 2 ^ height
  · have hempty : leavesBelow pairs height (pos * 2 + 1) = [] := by
      rw [leavesBelow, hright, drop_of_length_le hfull, take_nil]
    rw [hempty]
    rfl
  · have hlen : (leavesBelow pairs height (pos * 2)).length = 2 ^ height := by
      rw [leavesBelow, length_take, length_drop]
      omega
    rw [hlen, hright]

theorem parentOfMatch_eq {T : CPartialMerkleTree} (hT : T.nTransactions.toNat = pairs.length)
    (rounds p : ℕ) : T.parentOfMatch (pairs.map Prod.snd) rounds p =
      .ok (((pairs.drop p).take rounds).any (·.2)) := by
  induction rounds generalizing p with
  | zero => rfl
  | succ rounds ih =>
    rw [parentOfMatch, hT]
    split_ifs with hp
    · have hread : vectorAt (pairs.map Prod.snd) p = .ok pairs[p].2 :=
        vectorAt_eq_ok.2 (by rw [getElem?_map, getElem?_eq_getElem hp]; rfl)
      rw [hread, ok_bind, ih, ok_bind, drop_eq_getElem_cons hp, take_succ_cons, any_cons]
      rfl
    · rw [drop_of_length_le (not_lt.1 hp), take_nil]
      rfl

end

section

variable {hashPair : uint256 → uint256 → uint256} {T : CPartialMerkleTree} {vTxid : List uint256}
  (hT : T.nTransactions.toNat = vTxid.length) (hcount : vTxid.length ≤ 2 ^ 31)

include hT hcount

theorem exists_calcTreeWidth (hashPair : uint256 → uint256 → uint256) {height : ℕ}
    (hheight : height < 31) : ∃ width, T.calcTreeWidth height = .ok width ∧
      ∀ pos, pos < width ↔ pos < (levelUp hashPair height vTxid).length := by
  refine ⟨_, calcTreeWidth_of_lt (hT ▸ hcount) hheight, fun pos => ?_⟩
  have hpow : 0 < 2 ^ height := Nat.two_pow_pos height
  rw [lt_length_levelUp, hT, lt_iff_add_one_le, le_div_iff_mul_le hpow, succ_mul]
  omega

theorem calcHash_eq {height pos : ℕ} {v : uint256} (hheight : height ≤ 31)
    (hv : (levelUp hashPair height vTxid)[pos]? = some v) :
    T.calcHash hashPair vTxid height pos = .ok v := by
  induction height generalizing pos v with
  | zero => exact vectorAt_eq_ok.2 hv
  | succ height ih =>
    obtain ⟨a, ha, -, rfl⟩ := getElem?_levelUp_succ hv
    obtain ⟨width, hwidth, hlt⟩ := exists_calcTreeWidth hT hcount hashPair hheight
    rw [mul_comm 2 pos] at ha ⊢
    rw [calcHash, ih (by omega) ha, ok_bind, hwidth, ok_bind]
    split_ifs with hright
    · have hb := getElem?_eq_getElem ((hlt _).1 hright)
      rw [ih (by omega) hb, ok_bind, hb]
      rfl
    · rw [getElem?_eq_none (not_lt.1 (mt (hlt _).2 hright))]
      rfl

end

section

theorem of_drop_eq_cons {α : Type} {l rest : List α} {a : α} (h : l.drop n = a :: rest) :
    ¬ n ≥ l.length ∧ vectorAt l n = .ok a ∧ l.drop (n + 1) = rest := by
  have hget : l[n]? = some a := by rw [← head?_drop, h, head?_cons]
  refine ⟨not_le.2 (List.getElem?_eq_some_iff.1 hget).1, vectorAt_eq_ok.2 hget, ?_⟩
  rw [← tail_drop, h, tail_cons]

/-- The walk after a subtree for which `bits` and `hashes` were used and `shown` was found. -/
def Extraction.after (s : Extraction) (bits : List Bool) (hashes : List uint256)
    (shown : List (uint256 × ℕ)) : Extraction :=
  { s with
    nBitsUsed := s.nBitsUsed + bits.length
    nHashUsed := s.nHashUsed + hashes.length
    vMatch := s.vMatch ++ shown.map Prod.fst
    vnIndex := s.vnIndex ++ shown.map Prod.snd }

theorem Extraction.after_after (s : Extraction) (bits bits' : List Bool)
    (hashes hashes' : List uint256) (shown shown' : List (uint256 × ℕ)) :
    (s.after bits hashes shown).after bits' hashes' shown' =
      s.after (bits ++ bits') (hashes ++ hashes') (shown ++ shown') := by
  simp [after, add_assoc]

variable {hashPair : uint256 → uint256 → uint256} {pairs : List (uint256 × Bool)}
  {height pos : ℕ} {v : uint256}

/-- What is stored for a node leads a walk to the value of the node and to the matches below. -/
structure Stored (hashPair : uint256 → uint256 → uint256) (pairs : List (uint256 × Bool))
    (height pos : ℕ) (v : uint256) (bits : List Bool) (hashes : List uint256) : Prop where
  hashes_le : hashes.length ≤ (leavesBelow pairs height pos).length
  bits_ge : hashes.length ≤ bits.length
  bits_lt : bits.length < 2 ^ (height + 1)
  extract : ∀ (T : CPartialMerkleTree) (s : Extraction) (moreBits : List Bool)
    (moreHashes : List uint256), T.nTransactions.toNat = pairs.length →
    T.vBits.drop s.nBitsUsed = bits ++ moreBits → T.vHash.drop s.nHashUsed = hashes ++ moreHashes →
    T.traverseAndExtract hashPair height pos s =
      .ok (v, s.after bits hashes (selected (pos * 2 ^ height) (leavesBelow pairs height pos)))

theorem takeHash_eq {T : CPartialMerkleTree} {s : Extraction} {moreHashes : List uint256}
    (h : T.vHash.drop s.nHashUsed = v :: moreHashes) (isMatch : Bool) (pos : ℕ) :
    T.takeHash isMatch pos s = .ok (v, s.after [] [v] (if isMatch then [(v, pos)] else [])) := by
  obtain ⟨hend, hread, -⟩ := of_drop_eq_cons h
  rw [takeHash, if_neg hend, hread, ok_bind]
  cases isMatch with
  | false => simp [Extraction.after]
  | true => simp [Extraction.after]

theorem stored_hash (hpos : pos * 2 ^ height < pairs.length) {isMatch : Bool}
    (hleaf : height = 0 ∨ isMatch = false)
    (hshown : selected (pos * 2 ^ height) (leavesBelow pairs height pos) =
      if isMatch then [(v, pos)] else []) :
    Stored hashPair pairs height pos v [isMatch] [v] where
  hashes_le := by
    have hpow := Nat.two_pow_pos height
    rw [leavesBelow, length_take, length_drop, length_singleton]
    omega
  bits_ge := le_refl _
  bits_lt := Nat.one_lt_two_pow (Nat.succ_ne_zero height)
  extract := by
    intro T s moreBits moreHashes _ hbits hhashes
    obtain ⟨hend, hread, -⟩ := of_drop_eq_cons hbits
    have htake := takeHash_eq (T := T) (s := { s with nBitsUsed := s.nBitsUsed + 1 }) hhashes
    rw [traverseAndExtract, if_neg hend, hread, ok_bind, hshown]
    cases height with
    | zero => exact htake isMatch pos
    | succ height =>
      obtain rfl := hleaf.resolve_left (Nat.succ_ne_zero height)
      exact htake false pos

variable {T : CPartialMerkleTree} (hT : T.nTransactions.toNat = pairs.length)
  (hcount : pairs.length ≤ 2 ^ 31)

theorem Stored.single {left : List Bool × List uint256} {a : uint256} (hheight : height < 31)
    (hcount : pairs.length ≤ 2 ^ 31)
    (hright : ¬ pos * 2 + 1 < (levelUp hashPair height (pairs.map Prod.fst)).length)
    (h : Stored hashPair pairs height (pos * 2) a left.1 left.2) :
    Stored hashPair pairs (height + 1) pos (hashPair a a) (true :: left.1) left.2 := by
  have hempty : leavesBelow pairs height (pos * 2 + 1) = [] := by
    rw [lt_length_levelUp, length_map, not_lt] at hright
    rw [leavesBelow, drop_of_length_le hright, take_nil]
  refine ⟨?_, h.bits_ge.trans (Nat.le_succ _), ?_,
    fun T s moreBits moreHashes hT hbits hhashes => ?_⟩
  · rw [leavesBelow_succ, hempty, append_nil]
    exact h.hashes_le
  · have := h.bits_lt
    rw [length_cons, pow_succ]
    omega
  · obtain ⟨hend, hread, hrest⟩ := of_drop_eq_cons hbits
    obtain ⟨width, hwidth, hlt⟩ := exists_calcTreeWidth
      (show T.nTransactions.toNat = (pairs.map Prod.fst).length by rw [hT, length_map])
      (by rwa [length_map]) hashPair hheight
    rw [traverseAndExtract, if_neg hend, hread, ok_bind]
    dsimp only
    rw [if_neg (by decide), h.extract T { s with nBitsUsed := s.nBitsUsed + 1 } moreBits moreHashes
      hT hrest hhashes, ok_bind]
    dsimp only
    rw [hwidth, ok_bind, if_neg (mt (hlt _).1 hright), selected_succ, hempty]
    simp [Extraction.after, selected, add_assoc, add_comm 1]

theorem Stored.pair {left right : List Bool × List uint256} {a b : uint256} (hheight : height < 31)
    (hcount : pairs.length ≤ 2 ^ 31)
    (hright : pos * 2 + 1 < (levelUp hashPair height (pairs.map Prod.fst)).length) (hne : b ≠ a)
    (h : Stored hashPair pairs height (pos * 2) a left.1 left.2)
    (h' : Stored hashPair pairs height (pos * 2 + 1) b right.1 right.2) :
    Stored hashPair pairs (height + 1) pos (hashPair a b) (true :: (left.1 ++ right.1))
      (left.2 ++ right.2) := by
  refine ⟨?_, ?_, ?_, fun T s moreBits moreHashes hT hbits hhashes => ?_⟩
  · rw [leavesBelow_succ, length_append, length_append]
    exact Nat.add_le_add h.hashes_le h'.hashes_le
  · rw [length_cons, length_append, length_append]
    exact (Nat.add_le_add h.bits_ge h'.bits_ge).trans (Nat.le_succ _)
  · have := h.bits_lt
    have := h'.bits_lt
    rw [length_cons, length_append, pow_succ]
    omega
  · rw [cons_append, append_assoc] at hbits
    rw [append_assoc] at hhashes
    obtain ⟨hend, hread, hrest⟩ := of_drop_eq_cons hbits
    obtain ⟨width, hwidth, hlt⟩ := exists_calcTreeWidth
      (show T.nTransactions.toNat = (pairs.map Prod.fst).length by rw [hT, length_map])
      (by rwa [length_map]) hashPair hheight
    have hleft := h.extract T { s with nBitsUsed := s.nBitsUsed + 1 } _ _ hT hrest hhashes
    have hbits' : T.vBits.drop (s.nBitsUsed + 1 + left.1.length) = right.1 ++ moreBits := by
      rw [← drop_drop, hrest, drop_left]
    have hhashes' : T.vHash.drop (s.nHashUsed + left.2.length) = right.2 ++ moreHashes := by
      rw [← drop_drop, hhashes, drop_left]
    have hwalk := h'.extract T (Extraction.after { s with nBitsUsed := s.nBitsUsed + 1 } left.1
      left.2 (selected (pos * 2 * 2 ^ height) (leavesBelow pairs height (pos * 2)))) _ _ hT hbits'
      hhashes'
    rw [traverseAndExtract, if_neg hend, hread, ok_bind]
    dsimp only
    rw [if_neg (by decide), hleft, ok_bind]
    dsimp only
    rw [hwidth, ok_bind, if_pos ((hlt _).2 hright), hwalk, ok_bind, selected_succ,
      Extraction.after_after]
    simp [Extraction.after, hne, add_assoc, add_comm 1]

include hT hcount

theorem traverseAndBuild_stored {depth : ℕ} (hdepth : depth ≤ 31)
    (hnodup : ∀ level ≤ depth, (levelUp hashPair level (pairs.map Prod.fst)).Nodup)
    (hheight : height ≤ depth) (hv : (levelUp hashPair height (pairs.map Prod.fst))[pos]? = some v) :
    ∃ built, T.traverseAndBuild hashPair (pairs.map Prod.fst) (pairs.map Prod.snd) height pos =
      .ok built ∧ Stored hashPair pairs height pos v built.1 built.2 := by
  have hT' : T.nTransactions.toNat = (pairs.map Prod.fst).length := by rw [hT, length_map]
  have hcount' : (pairs.map Prod.fst).length ≤ 2 ^ 31 := by rwa [length_map]
  induction height generalizing pos v with
  | zero =>
    have hpos : pos < pairs.length := by
      simpa [levelUp_zero] using (List.getElem?_eq_some_iff.1 hv).1
    have hleaf : leavesBelow pairs 0 pos = [(v, pairs[pos].2)] := by
      have hfst : pairs[pos].1 = v := by simpa [levelUp_zero, hpos] using hv
      rw [leavesBelow, pow_zero, mul_one, drop_eq_getElem_cons hpos, ← hfst]
      rfl
    have hmatch : T.parentOfMatch (pairs.map Prod.snd) (2 ^ 0) (pos * 2 ^ 0) =
        .ok pairs[pos].2 := by
      have hany : (leavesBelow pairs 0 pos).any (·.2) = pairs[pos].2 := by simp [hleaf]
      rw [parentOfMatch_eq hT]
      exact congrArg Except.ok hany
    rw [traverseAndBuild, hmatch, ok_bind]
    dsimp only
    rw [calcHash_eq hT' hcount' (zero_le _) hv, ok_bind]
    refine ⟨_, rfl, stored_hash (by simpa using hpos) (.inl rfl) ?_⟩
    rw [hleaf, pow_zero, mul_one, selected, selected]
  | succ height ih =>
    have hpos : pos * 2 ^ (height + 1) < pairs.length := by
      simpa using (lt_length_levelUp hashPair _ _ _).1 (List.getElem?_eq_some_iff.1 hv).1
    rw [traverseAndBuild, parentOfMatch_eq hT, ok_bind]
    dsimp only
    cases hany : ((pairs.drop (pos * 2 ^ (height + 1))).take (2 ^ (height + 1))).any (·.2) with
    | false =>
      rw [if_pos (by decide), calcHash_eq hT' hcount' (by omega) hv, ok_bind]
      exact ⟨_, rfl, stored_hash hpos (.inr rfl) (selected_eq_nil hany _)⟩
    | true =>
      obtain ⟨a, ha, -, rfl⟩ := getElem?_levelUp_succ hv
      obtain ⟨width, hwidth, hlt⟩ := exists_calcTreeWidth hT' hcount' hashPair
        (show height < 31 by omega)
      rw [mul_comm 2 pos] at ha ⊢
      obtain ⟨left, hleft, hstored⟩ := ih (by omega) ha
      rw [if_neg (by decide), hleft, ok_bind, hwidth, ok_bind]
      split_ifs with hright
      · have hlast := (hlt _).1 hright
        have hb := getElem?_eq_getElem hlast
        obtain ⟨right, hbuilt, hstored'⟩ := ih (by omega) hb
        have hne : (levelUp hashPair height (pairs.map Prod.fst))[pos * 2 + 1] ≠ a := by
          intro heq
          have hsame := (getElem?_inj hlast (hnodup height (by omega))).1
            (hb.trans (heq ▸ ha.symm))
          omega
        rw [hbuilt, ok_bind, hb]
        exact ⟨_, rfl, hstored.pair (by omega) hcount hlast hne hstored'⟩
      · rw [getElem?_eq_none (not_lt.1 (mt (hlt _).2 hright))]
        exact ⟨_, rfl, hstored.single (by omega) hcount (mt (hlt _).2 hright)⟩

end

section

theorem length_packBits (n : ℕ) (vBits : List Bool) : (packBits n vBits).length = n := by
  induction n generalizing vBits with
  | zero => rfl
  | succ n ih => rw [packBits, length_cons, ih]

theorem readPartialMerkleTree_write {T : CPartialMerkleTree} (hhashes : T.vHash.length ≤ MAX_SIZE)
    (hbits : (T.vBits.length + 7) / 8 ≤ MAX_SIZE) :
    Reads readPartialMerkleTree (writePartialMerkleTree T) ⟨T.nTransactions, T.vBits ++
      List.replicate (8 * ((T.vBits.length + 7) / 8) - T.vBits.length) false, T.vHash, false⟩ := by
  have hvector := readVector_reads hhashes fun hash _ => readUint256_write hash
  rw [map_id'] at hvector
  rw [← unpackBits_packBits (show T.vBits.length ≤ 8 * ((T.vBits.length + 7) / 8) by omega)]
  exact (readUInt32_write _).bind (hvector.bind
    ((readBytes_reads ((length_packBits _ _).trans_le hbits)).map _))

variable {hashPair : uint256 → uint256 → uint256} {pairs : List (uint256 × Bool)}

theorem extractMatches_of_stored {T : CPartialMerkleTree} {v : uint256} {bits padding : List Bool}
    (hT : T.nTransactions.toNat = pairs.length) (hgood : T.fBad = false)
    (hone : 1 ≤ pairs.length) (hmany : pairs.length ≤ MAX_BLOCK_BASE_SIZE / 60)
    (hbits : T.vBits = bits ++ padding)
    (hpadding : (bits.length + 7) / 8 = (bits.length + padding.length + 7) / 8)
    (h : Stored hashPair pairs (Nat.clog 2 pairs.length) 0 v bits T.vHash) :
    T.extractMatches hashPair =
      .ok ⟨v, (selected 0 pairs).map Prod.fst, (selected 0 pairs).map Prod.snd⟩ := by
  have hwhole : leavesBelow pairs (Nat.clog 2 pairs.length) 0 = pairs := by
    rw [leavesBelow, zero_mul, drop_zero]
    exact take_of_length_le (le_pow_clog one_lt_two _)
  have hfew := h.hashes_le
  have hflags := h.bits_ge
  have hwalk := h.extract T ⟨0, 0, [], [], T.fBad⟩ padding [] hT hbits (append_nil _).symm
  rw [hwhole] at hfew hwalk
  have hlength : T.vBits.length = bits.length + padding.length := by rw [hbits, length_append]
  have hzero : T.nTransactions ≠ 0 := fun hzero => by
    rw [hzero] at hT
    exact absurd hT (Nat.ne_of_lt hone)
  rw [extractMatches, if_neg hzero, if_neg (by omega), if_neg (by omega), if_neg (by omega),
    (treeHeight_eq (hT ▸ hmany)).1, ok_bind, hT, hwalk, ok_bind]
  simp [Extraction.after, hgood, hlength, hpadding]

theorem exists_ofTxids (hone : 1 ≤ pairs.length) (hmany : pairs.length ≤ MAX_BLOCK_BASE_SIZE / 60)
    (hdistinct : (pairs.map Prod.fst).Nodup)
    (hinj : (hashed hashPair (pairs.map Prod.fst)).InjOn (Function.uncurry hashPair)) :
    ∃ T merkleRoot, ofTxids hashPair (pairs.map Prod.fst) (pairs.map Prod.snd) = .ok T ∧
      root hashPair (pairs.map Prod.fst) = some merkleRoot ∧
      T.nTransactions.toNat = pairs.length ∧ T.fBad = false ∧
      Stored hashPair pairs (Nat.clog 2 pairs.length) 0 merkleRoot T.vBits T.vHash ∧
      Nat.clog 2 pairs.length ≤ 15 := by
  have hlimit : MAX_BLOCK_BASE_SIZE / 60 ≤ 2 ^ 15 := by decide
  have hlength : (pairs.map Prod.fst).length = pairs.length := length_map _
  have hcount : (UInt32.ofNat (pairs.map Prod.fst).length).toNat = pairs.length := by
    rw [UInt32.toNat_ofNat', hlength]
    exact mod_eq_of_lt (show pairs.length < 2 ^ 32 by omega)
  obtain ⟨depth, top, hbelow, htop, hroot⟩ :=
    exists_top hashPair (length_pos_iff.1 (hlength.symm ▸ hone))
  obtain rfl : depth = Nat.clog 2 pairs.length := hlength ▸ eq_clog_of_top hashPair hbelow htop
  obtain ⟨hheight, hlow⟩ := @treeHeight_eq ⟨UInt32.ofNat (pairs.map Prod.fst).length, [], [], false⟩
    (hcount.trans_le hmany)
  rw [hcount] at hheight hlow
  obtain ⟨built, hbuilt, hstored⟩ := @traverseAndBuild_stored hashPair pairs _ 0 top
    ⟨UInt32.ofNat (pairs.map Prod.fst).length, [], [], false⟩ hcount (by omega) _
    (show Nat.clog 2 pairs.length ≤ 31 by omega)
    (fun level hlevel => nodup_levelUp hdistinct hinj (hbelow.mono hashPair hlevel)) le_rfl
    (by rw [htop]; rfl)
  refine ⟨⟨UInt32.ofNat (pairs.map Prod.fst).length, built.1, built.2, false⟩, top, ?_, hroot, hcount,
    rfl, hstored, hlow⟩
  rw [ofTxids]
  dsimp only
  rw [hheight, ok_bind, hbuilt]
  rfl

/-- A proof that was built for the transactions of a block, as it is and after it was written and
read, is extracted to the Merkle root and to exactly the matched hashes with their indices. -/
theorem extractMatches_ofTxids {vTxid : List uint256} {vMatch : List Bool}
    (hone : 1 ≤ vTxid.length) (hmany : vTxid.length ≤ MAX_BLOCK_BASE_SIZE / 60)
    (hdistinct : vTxid.Nodup) (hmatch : vMatch.length = vTxid.length)
    (hinj : (hashed hashPair vTxid).InjOn (Function.uncurry hashPair)) :
    ∃ T T' merkleRoot, ofTxids hashPair vTxid vMatch = .ok T ∧
      readPartialMerkleTree (writePartialMerkleTree T) = .ok (T', []) ∧
      root hashPair vTxid = some merkleRoot ∧
      ∀ P, P = T ∨ P = T' → P.extractMatches hashPair = .ok ⟨merkleRoot,
        (selected 0 (vTxid.zip vMatch)).map Prod.fst,
        (selected 0 (vTxid.zip vMatch)).map Prod.snd⟩ := by
  have hfst : (vTxid.zip vMatch).map Prod.fst = vTxid := map_fst_zip hmatch.ge
  have hsnd : (vTxid.zip vMatch).map Prod.snd = vMatch := map_snd_zip hmatch.le
  generalize vTxid.zip vMatch = pairs at hfst hsnd ⊢
  subst hfst hsnd
  rw [length_map] at hone hmany
  obtain ⟨T, merkleRoot, hmade, hroot, hcount, hgood, hstored, hlow⟩ :=
    exists_ofTxids hone hmany hdistinct hinj
  have hbits : T.vBits.length < 2 ^ 16 :=
    hstored.bits_lt.trans_le (Nat.pow_le_pow_right (by decide) (by omega))
  have hhashes := hstored.bits_ge
  have hread := readPartialMerkleTree_write (T := T) (show _ ≤ 0x02000000 by omega)
    (show _ ≤ 0x02000000 by omega) []
  rw [append_nil] at hread
  refine ⟨T, _, merkleRoot, hmade, hread, hroot, ?_⟩
  rintro P (rfl | rfl)
  · exact extractMatches_of_stored hcount hgood hone hmany (append_nil _).symm rfl hstored
  · refine extractMatches_of_stored hcount rfl hone hmany rfl ?_ hstored
    rw [length_replicate]
    omega

theorem extractMatches_ofTxids_four :
    ∃ T T' merkleRoot, ofTxids treeHash (fourTransactions.vtx.map lockTimeHash)
        [false, true, false, false] = .ok T ∧
      readPartialMerkleTree (writePartialMerkleTree T) = .ok (T', []) ∧
      root treeHash (fourTransactions.vtx.map lockTimeHash) = some merkleRoot ∧
      ∀ P, P = T ∨ P = T' → P.extractMatches treeHash = .ok ⟨merkleRoot, [2], [1]⟩ :=
  extractMatches_ofTxids (by decide) (by decide) (by decide) rfl
    fun _ _ _ hq heq => binds_four.inj _ hq _ heq

end

end CPartialMerkleTree

end Coinyecoin
