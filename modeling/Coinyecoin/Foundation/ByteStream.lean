import Coinyecoin.Foundation.Computation
import Mathlib.Algebra.Order.Group.Nat

/-!
# Byte streams

Numbers as little-endian bytes, and readers that take a value off the front of
a byte string or fail. `Reads r bytes a` says that `r` reads `a` off `bytes`,
whatever follows them, and `Inverts r bytes a` that it reads nothing but `a`, or
fails. Both pass through sequencing, so that a reader of a record is checked field
by field. `Refuses r bytes` says that `r` fails on whatever starts with `bytes`.
-/

namespace Foundation

open List

abbrev Bytes := List UInt8

section

/-- The lowest `width` bytes of `n`, lowest first. -/
def leBytes : ℕ → ℕ → Bytes
  | 0, _ => []
  | width + 1, n => UInt8.ofNat (n % 256) :: leBytes width (n / 256)

/-- The number with the given bytes, lowest first. -/
def leNat : Bytes → ℕ
  | [] => 0
  | b :: bytes => b.toNat + 256 * leNat bytes

variable (width n : ℕ)

@[simp] theorem length_leBytes : (leBytes width n).length = width := by
  induction width generalizing n with
  | zero => rfl
  | succ width ih => simp [leBytes, ih]

theorem leNat_leBytes_mod : leNat (leBytes width n) = n % 256 ^ width := by
  induction width generalizing n with
  | zero => simp [leBytes, leNat, Nat.mod_one]
  | succ width ih =>
    have hbyte : (UInt8.ofNat (n % 256)).toNat = n % 256 := by simp
    rw [leBytes, leNat, hbyte, ih, pow_succ', Nat.mod_mul]

theorem leNat_leBytes {width n : ℕ} (hn : n < 256 ^ width) : leNat (leBytes width n) = n := by
  rw [leNat_leBytes_mod, Nat.mod_eq_of_lt hn]

end

section

variable {E α β : Type}

abbrev Reader (E α : Type) := StateT Bytes (Except E) α

namespace Reader

def take (e : E) (n : ℕ) : Reader E Bytes := fun s =>
  if n ≤ s.length then .ok (s.take n, s.drop n) else .error e

def fail (e : E) : Reader E α := fun _ => .error e

def replicate (r : Reader E α) : ℕ → Reader E (List α)
  | 0 => pure []
  | n + 1 => do
    let a ← r
    let l ← replicate r n
    return a :: l

end Reader

/-- Off a string that starts with `bytes`, `r` reads `a` and leaves the rest. -/
def Reads (r : Reader E α) (bytes : Bytes) (a : α) : Prop :=
  ∀ rest, r (bytes ++ rest) = .ok (a, rest)

namespace Reads

theorem pure_nil (a : α) : Reads (pure a : Reader E α) [] a := fun _ => rfl

variable {a : α} {r : Reader E α} {bytes : Bytes}

theorem bind {f : α → Reader E β} {first second : Bytes} {b : β}
    (hr : Reads r first a) (hf : Reads (f a) second b) : Reads (r >>= f) (first ++ second) b := by
  intro rest
  rw [append_assoc]
  exact bind_eq_ok.2 ⟨(a, second ++ rest), hr _, hf rest⟩

theorem map (f : α → β) (hr : Reads r bytes a) : Reads (do let x ← r; return f x) bytes (f a) := by
  have h := hr.bind (f := fun x => pure (f x)) (pure_nil (f a))
  rwa [append_nil] at h

theorem guard {bad : α → Prop} [DecidablePred bad] {e : E} (hr : Reads r bytes a) (ha : ¬ bad a) :
    Reads (do let x ← r; if bad x then Reader.fail e else return x) bytes a := by
  have htest : Reads (if bad a then Reader.fail e else return a) [] a := by
    rw [if_neg ha]
    exact pure_nil a
  have h := hr.bind (f := fun x => if bad x then Reader.fail e else return x) htest
  rwa [append_nil] at h

theorem take (e : E) {n : ℕ} (hlen : bytes.length = n) : Reads (Reader.take e n) bytes bytes := by
  intro rest
  have hle : n ≤ (bytes ++ rest).length := by simp [hlen]
  rw [Reader.take, if_pos hle, ← hlen, take_left, drop_left]

end Reads

/-- Off a string that starts with `bytes`, `r` reads `a` and leaves the rest, or
fails. -/
def Inverts (r : Reader E α) (bytes : Bytes) (a : α) : Prop :=
  ∀ rest out, r (bytes ++ rest) = .ok out → out = (a, rest)

theorem Reads.inverts {r : Reader E α} {bytes : Bytes} {a : α} (h : Reads r bytes a) :
    Inverts r bytes a :=
  fun rest _ hout => (Except.ok.inj ((h rest).symm.trans hout)).symm

namespace Inverts

theorem pure_nil (a : α) : Inverts (pure a : Reader E α) [] a := (Reads.pure_nil a).inverts

theorem fail (e : E) (bytes : Bytes) (a : α) : Inverts (Reader.fail e) bytes a :=
  fun _ _ h => nomatch h

variable {a : α} {bytes : Bytes} {r : Reader E α} {f : α → Reader E β}

theorem strip {bytes rest : Bytes}
    {out : β × Bytes} (hr : Inverts r bytes a) (h : (r >>= f) (bytes ++ rest) = .ok out) :
    f a rest = .ok out := by
  obtain ⟨mid, hmid, hout⟩ := bind_eq_ok.1 h
  obtain rfl := hr _ _ hmid
  exact hout

theorem bind {first second : Bytes} {b : β} (hr : Inverts r first a) (hf : Inverts (f a) second b) :
    Inverts (r >>= f) (first ++ second) b := by
  intro rest out h
  rw [append_assoc] at h
  exact hf rest out (hr.strip h)

theorem map (f : α → β) (hr : Inverts r bytes a) :
    Inverts (do let x ← r; return f x) bytes (f a) := by
  have h := hr.bind (f := fun x => pure (f x)) (pure_nil (f a))
  rwa [append_nil] at h

theorem guard {a b : α} {bad : α → Prop} [DecidablePred bad]
    {e : E} (hr : Inverts r bytes a) (hb : bad a ∨ a = b) :
    Inverts (do let x ← r; if bad x then Reader.fail e else return x) bytes b := by
  have htest : Inverts (if bad a then Reader.fail e else return a) [] b := by
    split_ifs with hbad
    · exact Inverts.fail e [] b
    · obtain rfl := hb.resolve_left hbad
      exact pure_nil a
  have h := hr.bind (f := fun x => if bad x then Reader.fail e else return x) htest
  rwa [append_nil] at h

end Inverts

/-- `r` reads nothing but `a`, and reads it if `p` holds. -/
structure ReadsIf (p : Prop) (r : Reader E α) (bytes : Bytes) (a : α) : Prop where
  reads : p → Reads r bytes a
  inverts : Inverts r bytes a

section

variable {p : Prop} {r : Reader E α} {bytes : Bytes} {a : α}

theorem Reads.readsIf (h : Reads r bytes a) : ReadsIf p r bytes a := ⟨fun _ => h, h.inverts⟩

namespace ReadsIf

theorem bind {f : α → Reader E β} {first second : Bytes} {b : β} (hr : ReadsIf p r first a)
    (hf : ReadsIf p (f a) second b) : ReadsIf p (r >>= f) (first ++ second) b :=
  ⟨fun h => (hr.reads h).bind (hf.reads h), hr.inverts.bind hf.inverts⟩

theorem map (f : α → β) (hr : ReadsIf p r bytes a) :
    ReadsIf p (do let x ← r; return f x) bytes (f a) :=
  ⟨fun h => (hr.reads h).map f, hr.inverts.map f⟩

theorem replicate {r : Reader E β} {write : α → Bytes} {f : α → β} {l : List α}
    (hr : ∀ a ∈ l, ReadsIf p r (write a) (f a)) :
    ReadsIf p (Reader.replicate r l.length) (l.flatMap write) (l.map f) := by
  induction l with
  | nil => exact (Reads.pure_nil []).readsIf
  | cons a l ih =>
    rw [flatMap_cons]
    exact (hr a mem_cons_self).bind
      ((ih fun b hb => hr b (mem_cons_of_mem a hb)).map fun l => f a :: l)

end ReadsIf

end

/-- Off a string that starts with `bytes`, `r` fails. -/
def Refuses (r : Reader E α) (bytes : Bytes) : Prop :=
  ∀ rest out, r (bytes ++ rest) ≠ .ok out

namespace Refuses

variable {r : Reader E α} {bytes : Bytes}

theorem append {first : Bytes} (hr : Refuses r first) (second : Bytes) :
    Refuses r (first ++ second) := by
  intro rest out h
  rw [append_assoc] at h
  exact hr _ _ h

theorem bind (hr : Refuses r bytes) (f : α → Reader E β) : Refuses (r >>= f) bytes := by
  intro rest out h
  obtain ⟨mid, hmid, -⟩ := bind_eq_ok.1 h
  exact hr _ _ hmid

theorem bind_right {f : α → Reader E β} {first second : Bytes} {a : α}
    (hr : Inverts r first a) (hf : Refuses (f a) second) :
    Refuses (r >>= f) (first ++ second) := by
  intro rest out h
  rw [append_assoc] at h
  exact hf rest out (hr.strip h)

theorem of_inverts {a b : α} (ha : Inverts r bytes a)
    (hb : Inverts r bytes b) (hne : a ≠ b) : Refuses r bytes :=
  fun rest out h => hne (Prod.mk.inj ((ha rest out h).symm.trans (hb rest out h))).1

end Refuses

end

end Foundation
