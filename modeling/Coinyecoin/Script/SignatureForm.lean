import Coinyecoin.Foundation.ByteMasks
import Coinyecoin.Script.Interpreter
import Mathlib.Data.List.Basic
import Mathlib.Tactic.Linarith
import Mathlib.Tactic.Positivity

/-!
# The form of a signature

`IsValidSignatureEncoding` reads lengths off the signature and uses them as
offsets into it. It stays inside, and what it accepts are the two integers and
the hash type that the comment above it describes.
-/

namespace Coinyecoin

open Foundation List

namespace Script

variable {sig : Bytes}

section

/-- The number with the given bytes, highest first, in two's complement. -/
def beInt (bytes : Bytes) : ℤ :=
  leNat bytes.reverse - if 128 ≤ (bytes.headD 0).toNat then 256 ^ bytes.length else 0

/-- The bytes are those of a number that is not negative, and without the first one, if there are
more, they would be those of another. -/
structure IsUnsignedInteger (bytes : Bytes) : Prop where
  ne_nil : bytes ≠ []
  nonneg : 0 ≤ beInt bytes
  minimal : bytes.tail ≠ [] → beInt bytes.tail ≠ beInt bytes

variable {a : UInt8} {l : Bytes}

theorem leNat_reverse_lt : leNat l.reverse < 256 ^ l.length :=
  (leNat_lt l.reverse).trans_eq (by rw [length_reverse])

theorem beInt_cons : beInt (a :: l) = leNat l.reverse + 256 ^ l.length * (a.toNat : ℤ) -
    if 128 ≤ a.toNat then 256 ^ l.length * 256 else 0 := by
  rw [beInt, reverse_cons, leNat_concat, length_reverse, headD_cons, length_cons, pow_succ]
  push_cast
  rfl

theorem beInt_cons_nonneg : 0 ≤ beInt (a :: l) ↔ a.toNat < 128 := by
  have hlt := leNat_reverse_lt (l := l)
  have ha := a.toNat_lt
  rw [beInt_cons]
  split_ifs with hhigh
  · have hle : 256 ^ l.length * a.toNat ≤ 256 ^ l.length * 255 := Nat.mul_le_mul_left _ (by omega)
    have hneg : leNat l.reverse + 256 ^ l.length * a.toNat < 256 ^ l.length * 256 := by omega
    zify at hneg
    exact iff_of_false (by omega) (by omega)
  · rw [sub_zero]
    exact iff_of_true (by positivity) (by omega)

theorem isUnsignedInteger_cons : IsUnsignedInteger (a :: l) ↔
    a.toNat < 128 ∧ (l ≠ [] → a = 0 → 128 ≤ (l.headD 0).toNat) := by
  have hpos : (0 : ℤ) < 256 ^ l.length := by positivity
  have hsame : a.toNat < 128 → (beInt l = beInt (a :: l) ↔ a = 0 ∧ (l.headD 0).toNat < 128) := by
    intro ha
    rw [beInt_cons, beInt, if_neg (Nat.not_le.2 ha), ← UInt8.toNat_inj]
    split_ifs with hhigh
    · refine iff_of_false (fun h => ?_) (by omega)
      nlinarith [Int.natCast_nonneg a.toNat]
    · constructor
      · intro h
        have hzero : (256 : ℤ) ^ l.length * a.toNat = 0 := by linarith
        exact ⟨Int.natCast_eq_zero.1 ((mul_eq_zero.1 hzero).resolve_left hpos.ne'), by omega⟩
      · rintro ⟨h, -⟩
        simp [h]
  constructor
  · intro h
    have ha := beInt_cons_nonneg.1 h.nonneg
    refine ⟨ha, fun hl hzero => Nat.le_of_not_lt fun hlow => ?_⟩
    exact h.minimal hl ((hsame ha).2 ⟨hzero, hlow⟩)
  · rintro ⟨ha, hzero⟩
    refine ⟨cons_ne_nil a l, beInt_cons_nonneg.2 ha, fun hl h => ?_⟩
    obtain ⟨h0, hlow⟩ := (hsame ha).1 h
    exact absurd (hzero hl h0) (Nat.not_le.2 hlow)

end

/-- The form of a signature: `0x30 len 0x02 lenR R 0x02 lenS S hashtype`. -/
structure SignatureParts (sig : Bytes) (len lenR lenS hashtype : UInt8) (R S : Bytes) : Prop where
  form : sig = 0x30 :: len :: 0x02 :: lenR :: (R ++ 0x02 :: lenS :: (S ++ [hashtype]))
  length : 9 ≤ sig.length ∧ sig.length ≤ 73
  len_eq : len.toNat = sig.length - 3
  lenR_eq : lenR.toNat = R.length
  lenS_eq : lenS.toNat = S.length
  integerR : IsUnsignedInteger R
  integerS : IsUnsignedInteger S

def IsSignature (sig : Bytes) : Prop :=
  ∃ len lenR lenS hashtype R S, SignatureParts sig len lenR lenS hashtype R S

theorem vectorAt_append {pre l : Bytes} (k : ℕ) :
    vectorAt (pre ++ l) (pre.length + k) = vectorAt l k := by
  rw [vectorAt, vectorAt, getElem?_append_right (Nat.le_add_right _ _), Nat.add_sub_cancel_left]

theorem isValidInteger_eq (pre I rest : Bytes) (tag len : UInt8) :
    ∃ b, isValidInteger (pre ++ tag :: len :: (I ++ rest)) pre.length I.length = .ok b ∧
      (b = true ↔ tag = 0x02 ∧ IsUnsignedInteger I) := by
  have htag : vectorAt (pre ++ tag :: len :: (I ++ rest)) pre.length = .ok tag :=
    vectorAt_append 0
  rw [isValidInteger, vectorAt_append, vectorAt_append, htag, ok_bind]
  split_ifs with hbad hempty
  · exact ⟨false, rfl, iff_of_false Bool.false_ne_true fun h => hbad h.1⟩
  · refine ⟨false, rfl, iff_of_false Bool.false_ne_true fun h => h.2.ne_nil ?_⟩
    exact length_eq_zero_iff.1 hempty
  · obtain ⟨a, l, rfl⟩ := exists_cons_of_length_pos (Nat.pos_of_ne_zero hempty)
    have hfirst : vectorAt (tag :: len :: (a :: l ++ rest)) 2 = .ok a := rfl
    rw [hfirst, ok_bind, and_iff_right (not_not.1 hbad), isUnsignedInteger_cons]
    simp only [and_80_ne_zero]
    split_ifs with hneg hzero
    · exact ⟨false, rfl, iff_of_false Bool.false_ne_true fun h => absurd h.1 (Nat.not_lt.2 hneg)⟩
    · obtain ⟨b, m, rfl⟩ := exists_cons_of_length_pos (Nat.lt_of_succ_lt_succ hzero.1)
      have hsecond : vectorAt (tag :: len :: (a :: b :: m ++ rest)) 3 = .ok b := rfl
      refine ⟨_, by rw [hsecond]; rfl, ?_⟩
      simp [hzero.2]
    · refine ⟨true, rfl, iff_of_true rfl ⟨Nat.lt_of_not_le hneg, fun hl ha => ?_⟩⟩
      exact absurd ⟨Nat.succ_lt_succ (length_pos_iff.2 hl), ha⟩ hzero

section

variable {s₀ s₁ s₂ s₃ t s₄ hashtype : UInt8} {R S : Bytes}

theorem isValidIntegers_eq
    (hsig : sig = s₀ :: s₁ :: s₂ :: s₃ :: (R ++ t :: s₄ :: (S ++ [hashtype]))) :
    ∃ b, (do
      let validR ← isValidInteger sig 2 R.length
      if !validR then .ok false else isValidInteger sig (R.length + 4) S.length) =
        Except.ok (ε := Fault) b ∧
      (b = true ↔ (s₂ = 0x02 ∧ IsUnsignedInteger R) ∧ t = 0x02 ∧ IsUnsignedInteger S) := by
  obtain ⟨validR, hR, hvalidR⟩ :=
    isValidInteger_eq [s₀, s₁] R (t :: s₄ :: (S ++ [hashtype])) s₂ s₃
  obtain ⟨validS, hS, hvalidS⟩ :=
    isValidInteger_eq (s₀ :: s₁ :: s₂ :: s₃ :: R) S [hashtype] t s₄
  have hR' : isValidInteger sig 2 R.length = .ok validR := by
    rw [hsig]
    exact hR
  have hS' : isValidInteger sig (R.length + 4) S.length = .ok validS := by
    rw [hsig]
    exact hS
  rw [hR', hS', ok_bind, ← hvalidR, ← hvalidS]
  cases validR with
  | false => exact ⟨false, rfl, by simp⟩
  | true => exact ⟨validS, rfl, by simp⟩

theorem vectorAt_lenS (hsig : sig = s₀ :: s₁ :: s₂ :: s₃ :: (R ++ t :: s₄ :: S)) :
    vectorAt sig (5 + R.length) = .ok s₄ := by
  rw [hsig, Nat.add_comm]
  exact vectorAt_append 1

end

theorem SignatureParts.accepted {sig R S : Bytes} {len lenR lenS hashtype : UInt8}
    (h : SignatureParts sig len lenR lenS hashtype R S) :
    isValidSignatureEncoding sig = .ok true := by
  have hlen : sig.length = R.length + S.length + 7 := by
    rw [h.form]
    simp
    omega
  have h0 : vectorAt sig 0 = .ok 0x30 := by rw [h.form]; rfl
  have h1 : vectorAt sig 1 = .ok len := by rw [h.form]; rfl
  have h3 : vectorAt sig 3 = .ok lenR := by rw [h.form]; rfl
  obtain ⟨b, hb, hvalid⟩ := isValidIntegers_eq h.form
  rw [hvalid.2 ⟨⟨rfl, h.integerR⟩, rfl, h.integerS⟩] at hb
  have hlength := h.length
  rw [isValidSignatureEncoding, if_neg (by omega), if_neg (by omega), h0, ok_bind,
    if_neg (by simp), h1, ok_bind, if_neg (not_not.2 h.len_eq), h3, ok_bind, h.lenR_eq,
    if_neg (by omega), vectorAt_lenS h.form, ok_bind, h.lenS_eq, if_neg (by omega), hb]

theorem exists_split {l : Bytes} {n : ℕ} (h : n + 2 ≤ l.length) :
    ∃ R t s₄ m, l = R ++ t :: s₄ :: m ∧ R.length = n := by
  have hdrop : 2 ≤ (l.drop n).length := by
    rw [length_drop]
    omega
  rcases hrest : l.drop n with _ | ⟨t, _ | ⟨s₄, m⟩⟩
  · simp [hrest] at hdrop
  · simp [hrest] at hdrop
  · exact ⟨l.take n, t, s₄, m, by rw [← hrest, take_append_drop],
      length_take_of_le (by omega)⟩

theorem isValidSignatureEncoding_cases :
    ∃ b, isValidSignatureEncoding sig = .ok b ∧ (b = true → IsSignature sig) := by
  have hfalse : ∃ b, (.ok false : Except Fault Bool) = .ok b ∧ (b = true → IsSignature sig) :=
    ⟨false, rfl, by simp⟩
  rw [isValidSignatureEncoding]
  split_ifs with hshort hlong
  · exact hfalse
  · exact hfalse
  · obtain _ | ⟨s₀, _ | ⟨s₁, _ | ⟨s₂, _ | ⟨s₃, rest⟩⟩⟩⟩ := sig
    · simp at hshort
    · simp at hshort
    · simp at hshort
    · simp at hshort
    · have h0 : vectorAt (s₀ :: s₁ :: s₂ :: s₃ :: rest) 0 = .ok s₀ := rfl
      have h1 : vectorAt (s₀ :: s₁ :: s₂ :: s₃ :: rest) 1 = .ok s₁ := rfl
      have h3 : vectorAt (s₀ :: s₁ :: s₂ :: s₃ :: rest) 3 = .ok s₃ := rfl
      rw [h0, h1, h3]
      simp only [ok_bind]
      split_ifs with hcompound htotal hlenR
      · exact hfalse
      · exact hfalse
      · exact hfalse
      · rw [length_cons, length_cons, length_cons, length_cons] at *
        obtain ⟨R, t, s₄, m, rfl, hR⟩ := exists_split (l := rest) (n := s₃.toNat) (by omega)
        rw [← hR, vectorAt_lenS rfl, ok_bind]
        split_ifs with hlenS
        · exact hfalse
        · rw [length_append, length_cons, length_cons] at *
          obtain rfl | ⟨S, hashtype, rfl⟩ := m.eq_nil_or_concat'
          · simp at hlenS
            omega
          · rw [length_append, length_singleton] at *
            have hS : s₄.toNat = S.length := by omega
            obtain ⟨b, hb, hvalid⟩ := isValidIntegers_eq (rfl :
              s₀ :: s₁ :: s₂ :: s₃ :: (R ++ t :: s₄ :: (S ++ [hashtype])) = _)
            rw [hS, hb]
            refine ⟨b, rfl, fun htrue => ?_⟩
            obtain ⟨⟨rfl, hintR⟩, rfl, hintS⟩ := hvalid.1 htrue
            obtain rfl := not_not.1 hcompound
            refine ⟨s₁, s₃, s₄, hashtype, R, S, rfl, ?_, ?_, hR.symm, hS, hintR, hintS⟩
            · simp
              omega
            · simp
              omega

/-- The code never reads past the end, and accepts exactly the signatures of the form. -/
theorem isValidSignatureEncoding_iff (sig : Bytes) :
    ∃ b, isValidSignatureEncoding sig = .ok b ∧ (b = true ↔ IsSignature sig) := by
  obtain ⟨b, hb, hform⟩ := isValidSignatureEncoding_cases
  refine ⟨b, hb, hform, ?_⟩
  rintro ⟨len, lenR, lenS, hashtype, R, S, h⟩
  exact Except.ok.inj (hb.symm.trans h.accepted)

end Script

end Coinyecoin
