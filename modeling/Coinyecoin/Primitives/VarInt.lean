import Coinyecoin.Foundation.ByteMasks
import Coinyecoin.Primitives.Serialize

/-!
# Variable-length integers

`WriteVarInt` and `ReadVarInt` of `serialize.h`: digits to the base 128, highest
first, with one subtracted from all but the last. The reader takes any number
of bytes, and drops what does not fit the type.
-/

namespace Coinyecoin

open Foundation

/-- An entry of `tmp`; `len` says that it is not the first one. -/
def varIntDigit (len : Bool) (n : ℕ) : UInt8 :=
  UInt8.ofNat (n &&& 0x7f) ||| (if len then 0x80 else 0x00)

/-- The digits that `WriteVarInt` collects in `tmp`, lowest first. The first argument is the
number of entries of `tmp` that are left. -/
def varIntDigits : ℕ → Bool → ℕ → Except Fault Bytes
  | 0, _, _ => .error .indexOutOfRange
  | slots + 1, len, n =>
    if n ≤ 0x7f then .ok [varIntDigit len n]
    else do
      let rest ← varIntDigits slots true (n >>> 7 - 1)
      .ok (varIntDigit len n :: rest)

def writeVarInt (width n : ℕ) : Except Fault Bytes := do
  let tmp ← varIntDigits ((width + 6) / 7) false n
  .ok tmp.reverse

/-- The loop of `ReadVarInt`, with the number read so far. -/
def readVarIntLoop (width : ℕ) : ℕ → Bytes → Except Fault (ℕ × Bytes)
  | _, [] => .error (.thrown "CDataStream::read(): end of data")
  | n, chData :: s =>
    let n := (n <<< 7 ||| (chData &&& 0x7f).toNat) % 2 ^ width
    if chData &&& 0x80 ≠ 0 then readVarIntLoop width ((n + 1) % 2 ^ width) s else .ok (n, s)

def readVarInt (width : ℕ) : Reader Fault ℕ := readVarIntLoop width 0

/-- One more than the number with the digits `l`, lowest first; zero if there are none. -/
def digitsNat : Bytes → ℕ
  | [] => 0
  | b :: l => b.toNat % 128 + 128 * digitsNat l + 1

/-- The number that the bytes encode, by the comment above the code. -/
def varIntValue (bytes : Bytes) : ℕ := digitsNat bytes.reverse - 1

/-- The digits `b :: l` of `n`, lowest first: the highest bit says that another one follows, and
one does after each but the lowest, which has the bit if `len` says so. -/
structure Digits (len : Bool) (n : ℕ) (b : UInt8) (l : Bytes) : Prop where
  first : 128 ≤ b.toNat ↔ len = true
  more : ∀ c ∈ l, 128 ≤ c.toNat
  value : b.toNat % 128 + 128 * digitsNat l = n

theorem varIntDigit_eq_iff {n : ℕ} {len : Bool} {b : UInt8} :
    varIntDigit len n = b ↔ n % 128 = b.toNat % 128 ∧ (128 ≤ b.toNat ↔ len = true) := by
  have hmask : n &&& 0x7f = n % 128 := Nat.and_two_pow_sub_one_eq_mod n 7
  have hlow : (UInt8.ofNat (n % 128)).toNat = n % 128 := by
    rw [UInt8.toNat_ofNat']
    omega
  have hlt := b.toNat_lt
  rw [varIntDigit, hmask, ← UInt8.toNat_inj]
  cases len with
  | false =>
    rw [if_neg Bool.false_ne_true, UInt8.or_zero, hlow, iff_false_right Bool.false_ne_true]
    omega
  | true =>
    rw [if_pos rfl, toNat_or_80 (by omega), hlow, iff_true_right rfl]
    omega

section

variable {len : Bool} {n slots width : ℕ} {b : UInt8} {l s r : Bytes}

theorem exists_base128 (len : Bool) (hn : n < 128 ^ (slots + 1)) :
    ∃ b l, Digits len n b l ∧ l.length ≤ slots := by
  induction slots generalizing n len with
  | zero =>
    obtain ⟨hlow, hfirst⟩ := varIntDigit_eq_iff.1 (rfl : varIntDigit len n = _)
    exact ⟨_, [], ⟨hfirst, by simp, by rw [digitsNat]; omega⟩, le_rfl⟩
  | succ slots ih =>
    obtain ⟨hlow, hfirst⟩ := varIntDigit_eq_iff.1 (rfl : varIntDigit len n = _)
    by_cases hsmall : n < 128
    · exact ⟨_, [], ⟨hfirst, by simp, by rw [digitsNat]; omega⟩, Nat.zero_le _⟩
    · rw [pow_succ] at hn
      obtain ⟨c, l, h, hslots⟩ := ih true (n := n / 128 - 1) (by omega)
      refine ⟨_, c :: l, ⟨hfirst, ?_, ?_⟩, Nat.succ_le_succ hslots⟩
      · exact List.forall_mem_cons.2 ⟨h.first.2 rfl, h.more⟩
      · rw [digitsNat, h.value]
        omega

theorem Digits.written (h : Digits len n b l) (hslots : l.length ≤ slots) :
    varIntDigits (slots + 1) len n = .ok (b :: l) := by
  induction l generalizing len n slots b with
  | nil =>
    have hvalue := h.value
    rw [digitsNat] at hvalue
    rw [varIntDigits, if_pos (by omega), varIntDigit_eq_iff.2 ⟨by omega, h.first⟩]
  | cons c l ih =>
    have hvalue := h.value
    obtain ⟨hc, hl⟩ := List.forall_mem_cons.1 h.more
    rw [digitsNat] at hvalue
    obtain ⟨slots, rfl⟩ := Nat.exists_eq_add_one.2 ((Nat.succ_pos _).trans_le hslots)
    have hrest : Digits true (n >>> 7 - 1) c l := ⟨iff_of_true hc rfl, hl, by omega⟩
    rw [varIntDigits, if_neg (by omega), ih hrest (Nat.le_of_succ_le_succ hslots), ok_bind,
      varIntDigit_eq_iff.2 ⟨by omega, h.first⟩]

theorem readVarIntLoop_cons (p : Bytes) (chData : UInt8) (s : Bytes) :
    readVarIntLoop width (digitsNat p % 2 ^ width) (chData :: s) =
      if 128 ≤ chData.toNat then readVarIntLoop width (digitsNat (chData :: p) % 2 ^ width) s
      else .ok ((digitsNat (chData :: p) - 1) % 2 ^ width, s) := by
  have hn : ((digitsNat p % 2 ^ width) <<< 7 ||| (chData &&& 0x7f).toNat) % 2 ^ width =
      (digitsNat (chData :: p) - 1) % 2 ^ width := by
    rw [toNat_and_7f, ← Nat.shiftLeft_add_eq_or_of_lt (Nat.mod_lt _ (by decide)),
      Nat.shiftLeft_eq, digitsNat, Nat.add_sub_cancel, Nat.add_mod, Nat.mod_mul_mod,
      ← Nat.add_mod, add_comm, mul_comm]
  have hnext : ((digitsNat (chData :: p) - 1) % 2 ^ width + 1) % 2 ^ width =
      digitsNat (chData :: p) % 2 ^ width := by
    rw [Nat.mod_add_mod, digitsNat, Nat.add_sub_cancel]
  rw [readVarIntLoop, hn, hnext]
  exact if_congr and_80_ne_zero rfl rfl

theorem readVarIntLoop_append {p : Bytes} (hl : ∀ c ∈ l, 128 ≤ c.toNat) (hb : b.toNat < 128) :
    readVarIntLoop width (digitsNat p % 2 ^ width) (l ++ b :: r) =
      .ok ((digitsNat (b :: (l.reverse ++ p)) - 1) % 2 ^ width, r) := by
  induction l generalizing p with
  | nil => exact (readVarIntLoop_cons p b r).trans (if_neg (Nat.not_le.2 hb))
  | cons c l ih =>
    obtain ⟨hc, hl⟩ := List.forall_mem_cons.1 hl
    rw [List.cons_append, readVarIntLoop_cons, if_pos hc, ih hl, List.reverse_cons,
      List.append_assoc]
    rfl

theorem readVarIntLoop_eq_ok {m : ℕ} (h : readVarIntLoop width m s = .ok (n, r)) :
    ∃ l b, s = l ++ b :: r ∧ (∀ c ∈ l, 128 ≤ c.toNat) ∧ b.toNat < 128 := by
  induction s generalizing m with
  | nil => cases h
  | cons chData s ih =>
    rw [readVarIntLoop] at h
    simp only [and_80_ne_zero] at h
    split_ifs at h with hmore
    · obtain ⟨l, b, rfl, hl, hb⟩ := ih h
      exact ⟨chData :: l, b, rfl, List.forall_mem_cons.2 ⟨hmore, hl⟩, hb⟩
    · cases h
      exact ⟨[], chData, rfl, by simp, Nat.lt_of_not_le hmore⟩

theorem Digits.read (h : Digits false n b l) (r : Bytes) :
    readVarInt width ((b :: l).reverse ++ r) = .ok (n % 2 ^ width, r) := by
  have hb : b.toNat < 128 := Nat.lt_of_not_le fun hle => Bool.false_ne_true (h.first.1 hle)
  have hl : ∀ c ∈ l.reverse, 128 ≤ c.toNat := fun c hc => h.more c (List.mem_reverse.1 hc)
  have hloop := @readVarIntLoop_append width b _ r [] hl hb
  rw [List.reverse_reverse, List.append_nil, digitsNat, digitsNat, Nat.add_sub_cancel, h.value,
    Nat.zero_mod] at hloop
  rw [List.reverse_cons, List.append_assoc]
  exact hloop

theorem writeVarInt_eq_ok (hwidth : 0 < width) (hn : n < 2 ^ width) :
    ∃ b l, Digits false n b l ∧ writeVarInt width n = .ok (b :: l).reverse := by
  obtain ⟨slots, hslots⟩ : ∃ slots, (width + 6) / 7 = slots + 1 :=
    Nat.exists_eq_add_one.2 (by omega)
  have hroom : n < 128 ^ (slots + 1) := by
    rw [show 128 = 2 ^ 7 from rfl, ← pow_mul]
    exact hn.trans_le (Nat.pow_le_pow_right (by decide) (by omega))
  obtain ⟨b, l, h, hle⟩ := exists_base128 false hroom
  exact ⟨b, l, h, by rw [writeVarInt, hslots, h.written hle]; rfl⟩

/-- Every number of the type is written into its buffer and read back. A string that is read is
the one written for its number exactly if the number it encodes is one of the type: the reader
does not refuse one that is too long. -/
theorem writeVarInt_readVarInt (hwidth : 0 < width) :
    (∀ n, n < 2 ^ width → ∃ bytes, writeVarInt width n = .ok bytes ∧
      Reads (readVarInt width) bytes n) ∧
    ∀ bytes n, readVarInt width bytes = .ok (n, []) →
      (writeVarInt width n = .ok bytes ↔ varIntValue bytes < 2 ^ width) := by
  constructor
  · intro n hn
    obtain ⟨b, l, h, hwrite⟩ := writeVarInt_eq_ok hwidth hn
    refine ⟨_, hwrite, fun rest => ?_⟩
    rw [h.read, Nat.mod_eq_of_lt hn]
  · intro bytes n hread
    obtain ⟨l, b, rfl, hl, hb⟩ := readVarIntLoop_eq_ok hread
    obtain ⟨m, hm⟩ : ∃ m, Digits false m b l.reverse :=
      ⟨_, iff_of_false (Nat.not_le.2 hb) Bool.false_ne_true,
        fun c hc => hl c (List.mem_reverse.1 hc), rfl⟩
    have hbytes : l ++ [b] = (b :: l.reverse).reverse := by simp
    have hn := @Digits.read m width b _ hm []
    rw [List.append_nil, ← hbytes, hread, Except.ok.injEq, Prod.mk.injEq] at hn
    have hlt : n < 2 ^ width := hn.1 ▸ Nat.mod_lt m (Nat.two_pow_pos width)
    obtain ⟨c, k, hk, hwrite⟩ := writeVarInt_eq_ok hwidth hlt
    rw [hwrite, hbytes, Except.ok.injEq, List.reverse_inj, varIntValue, List.reverse_reverse,
      digitsNat, Nat.add_sub_cancel, hm.value]
    constructor
    · intro heq
      cases heq
      rwa [← hm.value, hk.value]
    · intro hfits
      rw [Nat.mod_eq_of_lt hfits] at hn
      obtain rfl := hn.1
      -- with entries for the longer of the two, both are the digits that are written
      exact Except.ok.inj ((hk.written (le_max_left k.length l.reverse.length)).symm.trans
        (hm.written (le_max_right _ _)))

end

theorem writeVarInt_readVarInt_twoBytes : 0 < 8 ∧ (writeVarInt 8 200 = .ok [0x80, 0x48] ↔
    varIntValue [0x80, 0x48] < 2 ^ 8) :=
  ⟨by decide, (writeVarInt_readVarInt (by decide)).2 [0x80, 0x48] 200 rfl⟩

/-- One byte too many for eight bits: the highest digit is lost. -/
theorem readVarInt_overlong : readVarInt 8 [0x82, 0x00] = .ok (128, []) ∧
    writeVarInt 8 128 = .ok [0x80, 0x00] := by
  decide

end Coinyecoin
