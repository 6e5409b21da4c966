import Mathlib.Data.Int.ModEq
import Mathlib.Tactic.Ring
import Mathlib.Tactic.NormNum

/-!
# Unsigned words, `int`, and the conversions between them

The value of an unsigned word of `bits` bits is a natural number below `2 ^ bits`; its sums and
differences wrap around.  A signed `int` has 32 bits, and a word is narrowed to it by keeping the
residue modulo `2 ^ 32` that lies in the signed range.  A word type of this file is at least as wide
as `int`, so narrowing only depends on the exact integer that the word arithmetic stands for:

* `SizeT.narrow_sub_sub`, `SizeT.narrow_sub_add_sub` — differences of words, narrowed, are the exact
  differences narrowed;
* `narrow_eq` — narrowing keeps what fits;
* `shortBytes_eq`, `shortBytes_shortOfBytes` — the bytes of an `unsigned short` in either byte order.
-/

namespace LinkManagement.MachineInt

/-- The largest `int`. -/
def intMax : ℕ := 2 ^ 31 - 1

/-- Narrowing an integer to a 32-bit `int`. -/
def narrow (i : ℤ) : ℤ := Int.bmod i (2 ^ 32)

/-- Narrowing an integer to a 16-bit `short`. -/
def narrowShort (i : ℤ) : ℤ := Int.bmod i (2 ^ 16)

theorem narrow_eq {i : ℤ} (hlo : -(2 ^ 31) ≤ i) (hhi : i < 2 ^ 31) : narrow i = i := by
  unfold narrow
  apply Int.bmod_eq_of_le <;> omega

theorem narrowShort_eq {i : ℤ} (hlo : -(2 ^ 15) ≤ i) (hhi : i < 2 ^ 15) : narrowShort i = i := by
  unfold narrowShort
  apply Int.bmod_eq_of_le <;> omega

theorem narrowShort_eq_sub {i : ℤ} (hlo : 2 ^ 15 ≤ i) (hhi : i < 2 ^ 16) :
    narrowShort i = i - 2 ^ 16 := by
  rw [narrowShort, ← Int.sub_bmod_right i (2 ^ 16)]
  apply Int.bmod_eq_of_le <;> push_cast <;> omega

/-- An unsigned word type that is at least as wide as `int`. -/
structure SizeT where
  bits : ℕ
  int_le : 32 ≤ bits

namespace SizeT

variable (z : SizeT)

def modulus : ℕ := 2 ^ z.bits

def add (a b : ℕ) : ℕ := (a + b) % z.modulus

def sub (a b : ℕ) : ℕ := (a + (z.modulus - b % z.modulus)) % z.modulus

/-- The word an `int` is converted to. -/
def ofInt (i : ℤ) : ℕ := (i % (z.modulus : ℤ)).toNat

theorem int_dvd_modulus : 2 ^ 32 ∣ z.modulus := pow_dvd_pow 2 z.int_le

theorem int_le_modulus : 2 ^ 32 ≤ z.modulus := Nat.pow_le_pow_right (by decide) z.int_le

theorem add_eq {a b : ℕ} (h : a + b < 2 ^ 32) : z.add a b = a + b :=
  Nat.mod_eq_of_lt (lt_of_lt_of_le h z.int_le_modulus)

theorem sub_eq {a b : ℕ} (hba : b ≤ a) (ha : a < 2 ^ 32) : z.sub a b = a - b := by
  have hm := z.int_le_modulus
  rw [sub, Nat.mod_eq_of_lt (show b < z.modulus by omega),
    show a + (z.modulus - b) = a - b + z.modulus by omega, Nat.add_mod_right,
    Nat.mod_eq_of_lt (by omega)]

theorem ofInt_natCast {n : ℕ} (h : n < 2 ^ 32) : z.ofInt (n : ℤ) = n := by
  have hm := z.int_le_modulus
  rw [ofInt, ← Int.natCast_mod, Int.toNat_natCast, Nat.mod_eq_of_lt (by omega)]

/-- The word that `ofInt` gives determines an `int` in the range `0 .. intMax` among those of the
signed range. -/
theorem ofInt_eq_iff {i : ℤ} {n : ℕ} (hlo : -(2 ^ 31) ≤ i) (hhi : i < 2 ^ 31) (hn : n < 2 ^ 31) :
    z.ofInt i = n ↔ i = n := by
  have hm := z.int_le_modulus
  constructor
  · intro h
    rcases lt_or_ge i 0 with hneg | hpos
    · exfalso
      have he : i % (z.modulus : ℤ) = i + z.modulus := by
        rw [← Int.add_emod_right, Int.emod_eq_of_lt (by omega) (by omega)]
      rw [ofInt, he] at h
      omega
    · rw [ofInt, Int.emod_eq_of_lt hpos (by omega)] at h
      omega
  · rintro rfl
    exact z.ofInt_natCast (by omega)

/-- Narrowing an integer that is too large for an `int` and not too large for its word gives a negative
one, so the conversion back does not reach a small `n` by accident. -/
theorem ofInt_narrow_eq_iff {i : ℤ} {n : ℕ} (hlo : -(2 ^ 31) ≤ i) (hhi : i < 2 ^ 32)
    (hn : n < 2 ^ 31) : z.ofInt (narrow i) = n ↔ i = n := by
  rcases lt_or_ge i (2 ^ 31) with hlt | hge
  · rw [narrow_eq hlo hlt, z.ofInt_eq_iff hlo hlt hn]
  · have hwrap : narrow i = i - 2 ^ 32 := by
      rw [narrow, ← Int.sub_bmod_right i (2 ^ 32)]
      apply Int.bmod_eq_of_le <;> push_cast <;> omega
    rw [hwrap, z.ofInt_eq_iff (by omega) (by omega) hn]
    omega

/-! ### Narrowing word arithmetic -/

theorem natCast_add_modEq (a b : ℕ) : ((z.add a b : ℕ) : ℤ) ≡ (a : ℤ) + b [ZMOD 2 ^ 32] := by
  have hd : ((2 ^ 32 : ℕ) : ℤ) ∣ (z.modulus : ℤ) := Int.natCast_dvd_natCast.mpr z.int_dvd_modulus
  rw [add, Int.natCast_mod]
  push_cast
  exact (Int.mod_modEq _ _).of_dvd (by simpa using hd)

theorem natCast_sub_modEq (a b : ℕ) : ((z.sub a b : ℕ) : ℤ) ≡ (a : ℤ) - b [ZMOD 2 ^ 32] := by
  have hd : ((2 ^ 32 : ℕ) : ℤ) ∣ (z.modulus : ℤ) := Int.natCast_dvd_natCast.mpr z.int_dvd_modulus
  have hlt : b % z.modulus ≤ z.modulus :=
    (Nat.mod_lt _ (lt_of_lt_of_le (by decide) z.int_le_modulus)).le
  have hword : ((z.sub a b : ℕ) : ℤ) ≡ (a : ℤ) - b [ZMOD z.modulus] := by
    rw [sub, Int.natCast_mod]
    refine (Int.mod_modEq _ _).trans ?_
    rw [Nat.cast_add, Nat.cast_sub hlt, Int.natCast_mod]
    have hself : (z.modulus : ℤ) ≡ 0 [ZMOD z.modulus] := Int.modEq_zero_iff_dvd.mpr dvd_rfl
    simpa [sub_eq_add_neg] using
      Int.ModEq.rfl.add (hself.sub (Int.mod_modEq (b : ℤ) z.modulus))
  exact hword.of_dvd (by simpa using hd)

theorem narrow_congr {i j : ℤ} (h : i ≡ j [ZMOD 2 ^ 32]) : narrow i = narrow j := by
  unfold narrow
  rw [Int.bmod_def, Int.bmod_def]
  have he : i % ((2 ^ 32 : ℕ) : ℤ) = j % ((2 ^ 32 : ℕ) : ℤ) := by simpa [Int.ModEq] using h
  rw [he]

theorem narrow_sub_sub (a b c : ℕ) :
    narrow (z.sub a (z.sub b c)) = narrow ((a : ℤ) - (b - c)) :=
  narrow_congr ((z.natCast_sub_modEq _ _).trans (Int.ModEq.rfl.sub (z.natCast_sub_modEq b c)))

theorem narrow_sub_add_sub (a b c d : ℕ) :
    narrow (z.sub a (z.sub (z.add b c) d)) = narrow ((a : ℤ) - (b + c - d)) :=
  narrow_congr ((z.natCast_sub_modEq _ _).trans (Int.ModEq.rfl.sub
    ((z.natCast_sub_modEq _ _).trans ((z.natCast_add_modEq b c).sub Int.ModEq.rfl))))

end SizeT

/-! ### The bytes of an `unsigned short` in memory -/

inductive ByteOrder where
  | little
  | big
  deriving DecidableEq

/-- The two bytes of an `unsigned short`, in the order they have in memory. -/
def shortBytes (o : ByteOrder) (n : ℕ) : List UInt8 :=
  match o with
  | .little => [UInt8.ofNat n, UInt8.ofNat (n / 256)]
  | .big => [UInt8.ofNat (n / 256), UInt8.ofNat n]

/-- The `unsigned short` that two bytes of memory stand for. -/
def shortOfBytes (o : ByteOrder) (a b : UInt8) : ℕ :=
  match o with
  | .little => a.toNat + 256 * b.toNat
  | .big => 256 * a.toNat + b.toNat

@[simp] theorem length_shortBytes (o : ByteOrder) (n : ℕ) : (shortBytes o n).length = 2 := by
  cases o <;> rfl

theorem shortBytes_eq (o : ByteOrder) {n : ℕ} (hn : n < 65536) :
    ∃ a b, shortBytes o n = [a, b] ∧ shortOfBytes o a b = n := by
  cases o with
  | little =>
    refine ⟨_, _, rfl, ?_⟩
    simp only [shortOfBytes, UInt8.toNat_ofNat']
    omega
  | big =>
    refine ⟨_, _, rfl, ?_⟩
    simp only [shortOfBytes, UInt8.toNat_ofNat']
    omega

theorem shortBytes_shortOfBytes (o : ByteOrder) (a b : UInt8) :
    shortBytes o (shortOfBytes o a b) = [a, b] := by
  have ha := a.toNat_lt
  have hb := b.toNat_lt
  cases o with
  | little =>
    have h₁ : UInt8.ofNat (a.toNat + 256 * b.toNat) = a := by
      apply UInt8.toNat_inj.mp
      rw [UInt8.toNat_ofNat']
      omega
    have h₂ : UInt8.ofNat ((a.toNat + 256 * b.toNat) / 256) = b := by
      apply UInt8.toNat_inj.mp
      rw [UInt8.toNat_ofNat']
      omega
    simp only [shortBytes, shortOfBytes, h₁, h₂]
  | big =>
    have h₁ : UInt8.ofNat ((256 * a.toNat + b.toNat) / 256) = a := by
      apply UInt8.toNat_inj.mp
      rw [UInt8.toNat_ofNat']
      omega
    have h₂ : UInt8.ofNat (256 * a.toNat + b.toNat) = b := by
      apply UInt8.toNat_inj.mp
      rw [UInt8.toNat_ofNat']
      omega
    simp only [shortBytes, shortOfBytes, h₁, h₂]

end LinkManagement.MachineInt
