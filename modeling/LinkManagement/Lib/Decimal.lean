import Mathlib.Data.Nat.Digits.Defs

/-!
# Decimal numbers in strings

The bytes of a decimal number in ASCII, and `atoi` of the C library: white space, a sign, and digits up to
the first other byte.  A number that is no `int` has no defined result.

* `atoi_decimal` — a number is read back, with white space before and anything but a digit behind it.
-/

namespace LinkManagement.Decimal

def isSpace (c : UInt8) : Bool := c == 32 || (9 ≤ c.toNat && c.toNat ≤ 13)

def isDigit (c : UInt8) : Bool := 48 ≤ c.toNat && c.toNat ≤ 57

/-- The number that the digits stand for. -/
def number (s : List UInt8) : ℕ := s.foldl (fun n c => 10 * n + (c.toNat - 48)) 0

/-- What follows a sign, and whether it is a minus. -/
def afterSign : List UInt8 → Bool × List UInt8
  | [] => (false, [])
  | c :: s => if c = 45 then (true, s) else if c = 43 then (false, s) else (false, c :: s)

def atoi (s : List UInt8) : Option ℤ :=
  let signed := afterSign (s.dropWhile isSpace)
  let n : ℤ := number (signed.2.takeWhile isDigit)
  let i := if signed.1 then -n else n
  if -(2 ^ 31) ≤ i ∧ i < 2 ^ 31 then some i else none

def digitByte (d : ℕ) : UInt8 := UInt8.ofNat (48 + d)

/-- A number in decimal notation. -/
def decimal (n : ℕ) : List UInt8 :=
  if n = 0 then [digitByte 0] else (Nat.digits 10 n).reverse.map digitByte

theorem digitByte_toNat {d : ℕ} (h : d < 10) : (digitByte d).toNat = 48 + d := by
  rw [digitByte, UInt8.toNat_ofNat']
  omega

theorem isDigit_digitByte {d : ℕ} (h : d < 10) : isDigit (digitByte d) = true := by
  rw [isDigit, digitByte_toNat h, Bool.and_eq_true, decide_eq_true_eq, decide_eq_true_eq]
  omega

theorem isDigit_of_mem_decimal {n : ℕ} : ∀ c ∈ decimal n, isDigit c = true := by
  intro c hc
  rw [decimal] at hc
  split at hc
  · rw [List.mem_singleton.mp hc]
    exact isDigit_digitByte (by decide)
  · obtain ⟨d, hd, rfl⟩ := List.mem_map.mp hc
    exact isDigit_digitByte (Nat.digits_lt_base (by decide) (List.mem_reverse.mp hd))

theorem decimal_ne_nil (n : ℕ) : decimal n ≠ [] := by
  rw [decimal]
  split
  · exact List.cons_ne_nil _ _
  · rename_i hn
    have hdigits : Nat.digits 10 n ≠ [] := Nat.digits_ne_nil_iff_ne_zero.mpr hn
    simpa using hdigits

theorem foldr_digits {ds : List ℕ} (hds : ∀ d ∈ ds, d < 10) :
    ds.foldr (fun d n => 10 * n + ((digitByte d).toNat - 48)) 0 = Nat.ofDigits 10 ds := by
  induction ds with
  | nil => rfl
  | cons d ds ih =>
    have hd := digitByte_toNat (hds d (by simp))
    rw [List.foldr_cons, ih fun e he => hds e (by simp [he]), Nat.ofDigits_cons, hd,
      Nat.add_sub_cancel_left, Nat.add_comm]

/-- **The number of its decimal notation.** -/
theorem number_decimal (n : ℕ) : number (decimal n) = n := by
  rw [number, decimal]
  split
  · rename_i hzero
    rw [hzero]
    decide
  · rw [List.foldl_map, List.foldl_reverse,
      foldr_digits fun d hd => Nat.digits_lt_base (by decide) hd, Nat.ofDigits_digits]

theorem takeWhile_append_of_head? {p : UInt8 → Bool} {s rest : List UInt8} (hs : ∀ c ∈ s, p c = true)
    (hrest : ∀ c, rest.head? = some c → p c = false) : (s ++ rest).takeWhile p = s := by
  induction s with
  | nil =>
    cases rest with
    | nil => rfl
    | cons c rest =>
      have hc := hrest c rfl
      simp [hc]
  | cons c s ih =>
    have hc := hs c (by simp)
    simp [hc, ih fun d hd => hs d (by simp [hd])]

/-- A decimal number begins with neither white space nor a sign. -/
theorem afterSign_decimal (n : ℕ) (rest : List UInt8) :
    afterSign ((decimal n ++ rest).dropWhile isSpace) = (false, decimal n ++ rest) := by
  obtain ⟨c, s, hcs⟩ := List.exists_cons_of_ne_nil (decimal_ne_nil n)
  have hdigit : isDigit c = true := isDigit_of_mem_decimal c (hcs ▸ List.mem_cons_self)
  rw [isDigit, Bool.and_eq_true, decide_eq_true_eq, decide_eq_true_eq] at hdigit
  have hspace : isSpace c = false := by
    rw [isSpace, Bool.or_eq_false_iff]
    refine ⟨beq_eq_false_iff_ne.mpr ?_, by simp; omega⟩
    rintro rfl
    simp at hdigit
  have hminus : c ≠ 45 := by
    rintro rfl
    simp at hdigit
  have hplus : c ≠ 43 := by
    rintro rfl
    simp at hdigit
  rw [hcs, List.cons_append, List.dropWhile_cons, if_neg (by simp [hspace]), afterSign,
    if_neg hminus, if_neg hplus]

/-- **A number is read back.** -/
theorem atoi_decimal {n : ℕ} (hn : n < 2 ^ 31) {spaces rest : List UInt8}
    (hspaces : ∀ c ∈ spaces, isSpace c = true) (hrest : ∀ c, rest.head? = some c → isDigit c = false) :
    atoi (spaces ++ (decimal n ++ rest)) = some (n : ℤ) := by
  have hdrop : (spaces ++ (decimal n ++ rest)).dropWhile isSpace =
      (decimal n ++ rest).dropWhile isSpace := List.dropWhile_append_of_pos hspaces
  have hdigits : (decimal n ++ rest).takeWhile isDigit = decimal n :=
    takeWhile_append_of_head? isDigit_of_mem_decimal hrest
  simp only [atoi, hdrop, afterSign_decimal, hdigits, number_decimal, Bool.false_eq_true, if_false]
  rw [if_pos (by omega)]

end LinkManagement.Decimal
