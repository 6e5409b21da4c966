import Mathlib.Data.List.Basic

/-!
# Strings and lines in arrays

A string in an array ends before the first terminator `z`; an array without one holds no string, and an
operation that looks for its end reads past the array, which is `none` here.  A line of an input ends
with the first terminator.

* `cString_append_replicate` — a text stored in a cleared array is its string, if a terminator is left;
* `compareString_append_replicate` — the comparison of that text with a string;
* `line_append_cons` — the line that a first terminator ends.
-/

namespace LinkManagement.CString

variable {α : Type*} [DecidableEq α] (z : α)

/-- The string at the start of an array. -/
def cString : List α → Option (List α)
  | [] => none
  | c :: a => if c = z then some [] else (cString a).map (c :: ·)

/-- Whether the string `s` is the one at the start of an array: the symbols are compared in order, up to
the first difference or the end of `s`. -/
def compareString : List α → List α → Option Bool
  | _, [] => none
  | [], c :: _ => some (decide (c = z))
  | b :: s, c :: a => if b = c then compareString s a else some false

variable {z}

theorem cString_eq_none {a : List α} (h : z ∉ a) : cString z a = none := by
  induction a with
  | nil => rfl
  | cons c a ih =>
    rw [List.mem_cons, not_or] at h
    rw [cString, if_neg (Ne.symm h.1), ih h.2, Option.map_none]

theorem cString_append_cons {s : List α} (hs : z ∉ s) (rest : List α) :
    cString z (s ++ z :: rest) = some s := by
  induction s with
  | nil => rw [List.nil_append, cString, if_pos rfl]
  | cons c s ih =>
    rw [List.mem_cons, not_or] at hs
    rw [List.cons_append, cString, if_neg (Ne.symm hs.1), ih hs.2, Option.map_some]

/-- **A text in a cleared array** is read back if there is room for one terminator. -/
theorem cString_append_replicate {s : List α} (hs : z ∉ s) (k : ℕ) :
    cString z (s ++ List.replicate k z) = if k = 0 then none else some s := by
  cases k with
  | zero => rw [List.replicate_zero, List.append_nil, if_pos rfl, cString_eq_none hs]
  | succ k => rw [List.replicate_succ, cString_append_cons hs, if_neg (Nat.succ_ne_zero k)]

/-- **The comparison with a text in a cleared array** tells whether the two are equal.  It stays in an
array that is longer than the string, also when the text fills it. -/
theorem compareString_append_replicate {s t : List α} (hs : z ∉ s) (ht : z ∉ t) {k : ℕ}
    (hlen : s.length < t.length + k) :
    compareString z s (t ++ List.replicate k z) = some (decide (s = t)) := by
  induction t generalizing s with
  | nil =>
    rw [List.length_nil, Nat.zero_add] at hlen
    obtain ⟨k, rfl⟩ := Nat.exists_eq_succ_of_ne_zero (Nat.ne_zero_of_lt hlen)
    rw [List.nil_append, List.replicate_succ]
    cases s with
    | nil => rw [compareString, decide_eq_true rfl, decide_eq_true rfl]
    | cons b s =>
      have hb : b ≠ z := by
        rintro rfl
        exact hs List.mem_cons_self
      rw [compareString, if_neg hb, decide_eq_false (List.cons_ne_nil b s)]
  | cons c t ih =>
    rw [List.mem_cons, not_or] at ht
    cases s with
    | nil =>
      rw [List.cons_append, compareString, decide_eq_false (Ne.symm ht.1),
        decide_eq_false (List.cons_ne_nil c t).symm]
    | cons b s =>
      rw [List.mem_cons, not_or] at hs
      rw [List.length_cons, List.length_cons] at hlen
      rw [List.cons_append, compareString, ih hs.2 ht.2 (by omega)]
      by_cases hbc : b = c
      · rw [if_pos hbc, hbc]
        simp only [List.cons.injEq, true_and]
      · rw [if_neg hbc, decide_eq_false fun h => hbc (List.cons.inj h).1]

/-! ### Lines -/

variable (z) in
/-- The line at the start of an input, with its terminator; all of the input if it has none. -/
def line : List α → List α
  | [] => []
  | c :: input => if c = z then [z] else c :: line input

theorem line_append_cons {s : List α} (hs : z ∉ s) (rest : List α) :
    line z (s ++ z :: rest) = s ++ [z] := by
  induction s with
  | nil => rw [List.nil_append, List.nil_append, line, if_pos rfl]
  | cons c s ih =>
    rw [List.mem_cons, not_or] at hs
    rw [List.cons_append, List.cons_append, line, if_neg (Ne.symm hs.1), ih hs.2]

omit [DecidableEq α] in
theorem set_append_replicate (s : List α) (c : α) (k : ℕ) :
    (s ++ List.replicate (k + 1) z).set s.length c = s ++ [c] ++ List.replicate k z := by
  rw [List.set_append_right _ _ (Nat.le_refl _), Nat.sub_self, List.replicate_succ, List.set_cons_zero,
    List.append_assoc, List.singleton_append]

end LinkManagement.CString
