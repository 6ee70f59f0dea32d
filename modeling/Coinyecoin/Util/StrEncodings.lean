import Coinyecoin.Foundation.ByteStream
import Mathlib.Data.Nat.Digits.Lemmas

/-!
# Hexadecimal strings

`HexStr`, `ParseHex`, `strtoul` in base 16 and the formats `%x` and `%08x`. A
`std::string` is its bytes. `ParseHex` skips blanks, takes both cases and stops at
the first character that is no digit; `strtoul` also takes a sign and a `0x`.
-/

namespace Coinyecoin

open Foundation List

variable {d : ℕ} {ds : List ℕ}

/-- A `std::string`: its bytes, of which none is special. -/
abbrev StdString := List UInt8

def str (s : String) : StdString := s.toList.map Char.toUInt8

/-- The lower-case digit of a number below 16. -/
def hexmap (n : ℕ) : UInt8 :=
  if n < 10 then UInt8.ofNat (48 + n) else UInt8.ofNat (87 + n)

/-- `HexDigit`: the value of a digit of either case, `none` for `-1`. -/
def hexDigit (c : UInt8) : Option ℕ :=
  if 48 ≤ c.toNat ∧ c.toNat ≤ 57 then some (c.toNat - 48)
  else if 65 ≤ c.toNat ∧ c.toNat ≤ 70 then some (c.toNat - 55)
  else if 97 ≤ c.toNat ∧ c.toNat ≤ 102 then some (c.toNat - 87)
  else none

/-- `isspace` in the C locale. -/
def isSpace (c : UInt8) : Bool := c.toNat = 32 || (9 ≤ c.toNat && c.toNat ≤ 13)

theorem hexDigit_hexmap : ∀ {n : ℕ}, n < 16 → hexDigit (hexmap n) = some n := by
  decide

theorem isSpace_hexmap : ∀ {n : ℕ}, n < 16 → isSpace (hexmap n) = false := by
  decide

def IsLowerHex (c : UInt8) : Prop := ∃ n < 16, c = hexmap n

instance : DecidablePred IsLowerHex := fun c =>
  decidable_of_iff (∃ n, n < 16 ∧ c = hexmap n) Iff.rfl

/-- `HexStr` without spaces. -/
def hexStr (bytes : Bytes) : StdString :=
  bytes.flatMap fun val => [hexmap (val.toNat / 16), hexmap (val.toNat % 16)]

/-- The last character is followed by the terminating zero, which is no digit. -/
def parseHex : StdString → Bytes
  | [] => []
  | [_] => []
  | c :: d :: s =>
    if isSpace c then parseHex (d :: s)
    else
      match hexDigit c, hexDigit d with
      | some hi, some lo => UInt8.ofNat (16 * hi + lo) :: parseHex s
      | _, _ => []

theorem parseHex_cons {hi lo : ℕ} (hhi : hi < 16) (hlo : lo < 16) (s : StdString) :
    parseHex (hexmap hi :: hexmap lo :: s) = UInt8.ofNat (16 * hi + lo) :: parseHex s := by
  rw [parseHex, if_neg (by simp [isSpace_hexmap hhi]), hexDigit_hexmap hhi, hexDigit_hexmap hlo]

theorem parseHex_hexStr (bytes : Bytes) : parseHex (hexStr bytes) = bytes := by
  induction bytes with
  | nil => rfl
  | cons val bytes ih =>
    have hval : val.toNat < 256 := val.toNat_lt
    have hbyte : 16 * (val.toNat / 16) + val.toNat % 16 = val.toNat := by omega
    change parseHex (hexmap _ :: hexmap _ :: hexStr bytes) = val :: bytes
    rw [parseHex_cons (by omega) (by omega), hbyte, ih, UInt8.ofNat_toNat]

/-- The number read off the digits at the front, continuing from `n`. -/
def readDigits : ℕ → StdString → ℕ
  | n, [] => n
  | n, c :: s =>
    match hexDigit c with
    | some d => readDigits (16 * n + d) s
    | none => n

/-- Skips a `0x` that is followed by a digit. -/
def skipBase : StdString → StdString
  | zero :: x :: c :: s =>
    if zero = 48 ∧ (x = 120 ∨ x = 88) ∧ (hexDigit c).isSome then c :: s
    else zero :: x :: c :: s
  | s => s

def ULONG_MAX : ℕ := 2 ^ 64 - 1

/-- `strtoul(s, NULL, 16)`: blanks, a sign, `0x`, digits. A number out of range is
`ULONG_MAX`; a minus sign negates in the return type. -/
def strtoul (s : StdString) : ℕ :=
  let s := s.dropWhile isSpace
  let minus := s.head? = some 45
  let s := if s.head? = some 45 ∨ s.head? = some 43 then s.tail else s
  let n := readDigits 0 (skipBase s)
  if n > ULONG_MAX then ULONG_MAX
  else if minus then (2 ^ 64 - n) % 2 ^ 64
  else n

def hexFixed : ℕ → ℕ → StdString
  | 0, _ => []
  | width + 1, n => hexFixed width (n / 16) ++ [hexmap (n % 16)]

def format08x (n : UInt32) : StdString := hexFixed 8 n.toNat

def formatX (n : UInt32) : StdString :=
  match (hexFixed 8 n.toNat).dropWhile (· == 48) with
  | [] => [48]
  | digits => digits

section

def IsHex (c : UInt8) : Prop := (hexDigit c).isSome = true

instance : DecidablePred IsHex := fun c =>
  inferInstanceAs (Decidable ((hexDigit c).isSome = true))

variable {c : UInt8}

theorem IsLowerHex.isHex (h : IsLowerHex c) : IsHex c := by
  obtain ⟨n, hn, rfl⟩ := h
  rw [IsHex, hexDigit_hexmap hn, Option.isSome_some]

theorem IsHex.toNat (h : IsHex c) :
    48 ≤ c.toNat ∧ c.toNat ≤ 57 ∨ 65 ≤ c.toNat ∧ c.toNat ≤ 70 ∨
      97 ≤ c.toNat ∧ c.toNat ≤ 102 := by
  unfold IsHex hexDigit at h
  split_ifs at h <;> simp_all

theorem IsHex.not_isSpace (h : IsHex c) : isSpace c = false := by
  have hcode := h.toNat
  simp only [isSpace, Bool.or_eq_false_iff, Bool.and_eq_false_iff, decide_eq_false_iff_not]
  omega

theorem IsHex.ne (h : IsHex c) : c ≠ 45 ∧ c ≠ 43 ∧ c ≠ 120 ∧ c ≠ 88 := by
  have hcode := h.toNat
  refine ⟨?_, ?_, ?_, ?_⟩ <;> rintro rfl <;> revert hcode <;> decide

theorem hexDigit_lt (h : hexDigit c = some d) : d < 16 := by
  unfold hexDigit at h
  split_ifs at h <;> cases h <;> omega

theorem readDigits_lt (n : ℕ) (s : StdString) : readDigits n s < (n + 1) * 16 ^ s.length := by
  induction s generalizing n with
  | nil => simp [readDigits]
  | cons c s ih =>
    rw [readDigits, length_cons, pow_succ']
    split
    · rename_i d hd
      have hlt := hexDigit_lt hd
      calc readDigits (16 * n + d) s
          < (16 * n + d + 1) * 16 ^ s.length := ih _
        _ ≤ (n + 1) * 16 * 16 ^ s.length := Nat.mul_le_mul_right _ (by omega)
        _ = (n + 1) * (16 * 16 ^ s.length) := Nat.mul_assoc _ _ _
    · exact Nat.lt_of_lt_of_le (Nat.lt_succ_self n)
        (Nat.le_mul_of_pos_right _ (by positivity))

variable {s : StdString}

theorem skipBase_of_isHex (hs : ∀ c ∈ s, IsHex c) : skipBase s = s := by
  match s with
  | [] | [_] | [_, _] => rfl
  | _ :: x :: _ :: s =>
    obtain ⟨-, -, hx, hX⟩ := (hs x (by simp)).ne
    simp [skipBase, hx, hX]

theorem strtoul_of_isHex (hs : ∀ c ∈ s, IsHex c) (hlen : s.length ≤ 16) :
    strtoul s = readDigits 0 s := by
  have hspace : s.dropWhile isSpace = s := by
    match s with
    | [] => rfl
    | c :: s => simp [(hs c mem_cons_self).not_isSpace]
  have hsign : s.head? ≠ some 45 ∧ s.head? ≠ some 43 := by
    match s with
    | [] => simp
    | c :: s =>
      obtain ⟨hminus, hplus, -⟩ := (hs c mem_cons_self).ne
      simpa using And.intro hminus hplus
  have hle : ¬ readDigits 0 s > ULONG_MAX := by
    have hlt := readDigits_lt 0 s
    have hpow : 16 ^ s.length ≤ 16 ^ 16 := Nat.pow_le_pow_right (by decide) hlen
    unfold ULONG_MAX
    omega
  simp only [strtoul, hspace, hsign.1, hsign.2, or_self, if_false, skipBase_of_isHex hs, hle]

theorem length_parseHex_le (s : StdString) : 2 * (parseHex s).length ≤ s.length := by
  fun_induction parseHex s with
  | case1 => exact le_rfl
  | case2 => exact Nat.zero_le _
  | case3 c d s _ ih =>
    rw [length_cons]
    omega
  | case4 c d s _ hi lo _ _ ih =>
    simp only [length_cons]
    omega
  | case5 => exact Nat.zero_le _

theorem length_parseHex {s : StdString} (hs : ∀ c ∈ s, IsHex c) (heven : s.length % 2 = 0) :
    2 * (parseHex s).length = s.length := by
  match s with
  | [] => rfl
  | [_] => exact absurd heven (by simp)
  | c :: d :: s =>
    simp only [forall_mem_cons] at hs
    obtain ⟨hc, hd, hs⟩ := hs
    simp only [length_cons] at heven
    have hrest := length_parseHex hs (by omega)
    obtain ⟨hi, hhi⟩ := Option.isSome_iff_exists.1 hc
    obtain ⟨lo, hlo⟩ := Option.isSome_iff_exists.1 hd
    rw [parseHex, if_neg (by simp [hc.not_isSpace]), hhi, hlo]
    simp only [length_cons]
    omega

end

section

theorem exists_digits {s : StdString} (hs : ∀ c ∈ s, IsLowerHex c) :
    ∃ ds : List ℕ, (∀ d ∈ ds, d < 16) ∧ s = ds.map hexmap := by
  induction s with
  | nil => exact ⟨[], by simp, rfl⟩
  | cons c s ih =>
    obtain ⟨d, hd, rfl⟩ := hs c mem_cons_self
    obtain ⟨ds, hds, rfl⟩ := ih fun c hc => hs c (mem_cons_of_mem _ hc)
    exact ⟨d :: ds, forall_mem_cons.2 ⟨hd, hds⟩, rfl⟩

theorem readDigits_map (hds : ∀ d ∈ ds, d < 16) (n : ℕ) :
    readDigits n (ds.map hexmap) = ds.foldl (fun n d => d + 16 * n) n := by
  induction ds generalizing n with
  | nil => rfl
  | cons d ds ih =>
    rw [map_cons, readDigits, hexDigit_hexmap (hds d mem_cons_self)]
    rw [foldl_cons, Nat.add_comm d]
    exact ih (fun d hd => hds d (mem_cons_of_mem _ hd)) _

theorem readDigits_eq_ofDigits (hds : ∀ d ∈ ds, d < 16) :
    readDigits 0 (ds.map hexmap) = Nat.ofDigits 16 ds.reverse := by
  rw [readDigits_map hds, Nat.ofDigits_eq_foldr, foldl_eq_foldr_reverse]
  rfl

theorem eq_of_readDigits_eq {s t : StdString} (hs : ∀ c ∈ s, IsLowerHex c)
    (ht : ∀ c ∈ t, IsLowerHex c) (hlen : s.length = t.length)
    (h : readDigits 0 s = readDigits 0 t) : s = t := by
  obtain ⟨ds, hds, rfl⟩ := exists_digits hs
  obtain ⟨es, hes, rfl⟩ := exists_digits ht
  rw [readDigits_eq_ofDigits hds, readDigits_eq_ofDigits hes] at h
  have hrev : ds.reverse = es.reverse :=
    Nat.ofDigits_inj_of_len_eq (by decide) (by simpa using hlen)
      (fun d hd => hds d (mem_reverse.1 hd)) (fun e he => hes e (mem_reverse.1 he)) h
  rw [reverse_inj.1 hrev]

theorem eq_of_parseHex_eq {ds es : List ℕ} (hds : ∀ d ∈ ds, d < 16) (hes : ∀ e ∈ es, e < 16)
    (hlen : ds.length = es.length) (heven : ds.length % 2 = 0)
    (h : parseHex (ds.map hexmap) = parseHex (es.map hexmap)) : ds = es := by
  match ds, es with
  | [], [] => rfl
  | [d], _ => exact absurd heven (by simp)
  | d :: d' :: ds, e :: e' :: es =>
    simp only [forall_mem_cons] at hds hes
    obtain ⟨hd, hd', hds⟩ := hds
    obtain ⟨he, he', hes⟩ := hes
    simp only [map_cons] at h
    rw [parseHex_cons hd hd', parseHex_cons he he', List.cons.injEq] at h
    have hbyte : 16 * d + d' = 16 * e + e' := by
      have hval := congrArg UInt8.toNat h.1
      simp only [UInt8.toNat_ofNat'] at hval
      omega
    simp only [length_cons] at hlen heven
    have hrest := eq_of_parseHex_eq hds hes (by omega) (by omega) h.2
    have hhi : d = e := by omega
    have hlo : d' = e' := by omega
    rw [hhi, hlo, hrest]

theorem isLowerHex_hexFixed {width n : ℕ} : ∀ c ∈ hexFixed width n, IsLowerHex c := by
  induction width generalizing n with
  | zero => exact fun _ h => nomatch h
  | succ width ih =>
    intro c hc
    rw [hexFixed, mem_append, mem_singleton] at hc
    rcases hc with hc | hc
    · exact ih c hc
    · exact ⟨n % 16, Nat.mod_lt n (by decide), hc⟩

theorem readDigits_append {s : StdString} (hs : ∀ c ∈ s, IsLowerHex c) (hd : d < 16) :
    readDigits 0 (s ++ [hexmap d]) = d + 16 * readDigits 0 s := by
  obtain ⟨ds, hds, rfl⟩ := exists_digits hs
  have happ : ds.map hexmap ++ [hexmap d] = (ds ++ [d]).map hexmap := by simp
  have hall : ∀ e ∈ ds ++ [d], e < 16 := by
    simpa [or_imp, forall_and] using And.intro hds hd
  rw [happ, readDigits_map hall, readDigits_map hds, foldl_append]
  rfl

theorem readDigits_hexFixed (width n : ℕ) : readDigits 0 (hexFixed width n) = n % 16 ^ width := by
  induction width generalizing n with
  | zero => simp [hexFixed, readDigits, Nat.mod_one]
  | succ width ih =>
    rw [hexFixed, readDigits_append isLowerHex_hexFixed (Nat.mod_lt n (by decide)), ih,
      pow_succ', Nat.mod_mul]

variable (n : UInt32)

theorem readDigits_format08x : readDigits 0 (format08x n) = n.toNat := by
  rw [format08x, readDigits_hexFixed]
  exact Nat.mod_eq_of_lt n.toNat_lt

theorem readDigits_dropWhile (s : StdString) :
    readDigits 0 (s.dropWhile (· == 48)) = readDigits 0 s := by
  induction s with
  | nil => rfl
  | cons c s ih =>
    by_cases hc : c = 48
    · subst hc
      simpa [readDigits, hexDigit] using ih
    · simp [hc]

theorem readDigits_formatX : readDigits 0 (formatX n) = n.toNat := by
  have hdrop : readDigits 0 ((hexFixed 8 n.toNat).dropWhile (· == 48)) = n.toNat := by
    rw [readDigits_dropWhile, ← format08x, readDigits_format08x]
  unfold formatX
  split
  · rename_i hnil
    rw [hnil] at hdrop
    exact hdrop
  · exact hdrop

theorem formatX_injective : Function.Injective formatX := by
  intro n m h
  apply UInt32.toNat_inj.1
  rw [← readDigits_formatX, ← readDigits_formatX, h]

theorem parseHex_format08x : parseHex (format08x n) = (leBytes 4 n.toNat).reverse := by
  have hstr : format08x n = hexStr (leBytes 4 n.toNat).reverse := by
    have hn := n.toNat_lt
    simp only [format08x, hexFixed, hexStr, leBytes, reverse_cons, reverse_nil,
      nil_append, cons_append, flatMap_cons, flatMap_nil,
      UInt8.toNat_ofNat', append_nil]
    simp only [List.cons.injEq, and_true]
    refine ⟨?_, ?_, ?_, ?_, ?_, ?_, ?_, ?_⟩ <;> congr 1 <;> omega
  rw [hstr, parseHex_hexStr]

end

end Coinyecoin
