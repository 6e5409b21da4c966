import Mathlib.Data.Int.Cast.Basic
import Mathlib.Data.Int.Order.Basic
import Mathlib.Data.List.Basic

/-!
# Descriptor tables

A process's table of open descriptors: a number stands for at most one open object, of any type.  A
call that opens an object gets the lowest free number, and closing a number frees it.  Numbers are
`int`s; a negative one stands for nothing.

* `lookup_free`, `free_le` — the number a call gets is free, and the lowest of those;
* `lookup_alloc`, `lookup_close` — what every number stands for afterwards.
-/

namespace LinkManagement.Descriptors

variable {α : Type*}

def lookup (t : List (Option α)) (fd : ℤ) : Option α :=
  if 0 ≤ fd then t[fd.toNat]?.join else none

/-- The lowest free number. -/
def free (t : List (Option α)) : ℕ := t.findIdx Option.isNone

/-- The table after an object is opened under the lowest free number. -/
def alloc (t : List (Option α)) (x : α) : List (Option α) :=
  if free t < t.length then t.set (free t) (some x) else t ++ [some x]

def close (t : List (Option α)) (fd : ℤ) : List (Option α) :=
  if 0 ≤ fd then t.set fd.toNat none else t

@[simp] theorem lookup_natCast (t : List (Option α)) (n : ℕ) : lookup t (n : ℤ) = t[n]?.join := by
  rw [lookup, if_pos (Int.natCast_nonneg n), Int.toNat_natCast]

theorem lookup_of_neg (t : List (Option α)) {fd : ℤ} (h : fd < 0) : lookup t fd = none := by
  rw [lookup, if_neg (by omega)]

theorem mem_of_lookup {t : List (Option α)} {fd : ℤ} {x : α} (h : lookup t fd = some x) :
    some x ∈ t := by
  rw [lookup] at h
  split at h
  · exact List.mem_of_getElem? (Option.join_eq_some_iff.mp h)
  · cases h

theorem lookup_free (t : List (Option α)) : lookup t (free t : ℤ) = none := by
  rw [lookup_natCast]
  rcases Nat.lt_or_ge (free t) t.length with hlt | hge
  · have hnone := List.findIdx_getElem (w := hlt)
    rw [Option.isNone_iff_eq_none] at hnone
    rw [List.getElem?_eq_getElem hlt]
    exact hnone
  · rw [List.getElem?_eq_none hge]
    rfl

theorem free_le {t : List (Option α)} {n : ℕ} (h : lookup t (n : ℤ) = none) : free t ≤ n := by
  by_contra hlt
  have hopen : n < t.findIdx Option.isNone := Nat.lt_of_not_le hlt
  have hlen : n < t.length := Nat.lt_of_lt_of_le hopen List.findIdx_le_length
  have hsome := List.not_of_lt_findIdx hopen
  rw [lookup_natCast, List.getElem?_eq_getElem hlen, Option.join_some] at h
  rw [h] at hsome
  cases hsome

/-- **Opening** changes what the lowest free number stands for, and no other. -/
theorem lookup_alloc (t : List (Option α)) (x : α) (fd : ℤ) :
    lookup (alloc t x) fd = if fd = free t then some x else lookup t fd := by
  rcases lt_or_ge fd 0 with hneg | hpos
  · rw [lookup_of_neg _ hneg, lookup_of_neg _ hneg, if_neg (by omega)]
  obtain ⟨n, rfl⟩ := Int.eq_ofNat_of_zero_le hpos
  rw [lookup_natCast, lookup_natCast, alloc]
  simp only [Int.natCast_inj]
  split
  · rename_i hlt
    by_cases hn : n = free t
    · subst hn
      rw [List.getElem?_set_self hlt, if_pos rfl]
      rfl
    · rw [List.getElem?_set_ne (Ne.symm hn), if_neg hn]
  · rename_i hge
    have hlen : free t = t.length := Nat.le_antisymm List.findIdx_le_length (Nat.le_of_not_lt hge)
    rw [hlen]
    rcases Nat.lt_trichotomy n t.length with hlt | rfl | hgt
    · rw [List.getElem?_append_left hlt, if_neg (by omega)]
    · rw [List.getElem?_append_right (Nat.le_refl _), Nat.sub_self, if_pos rfl]
      rfl
    · rw [if_neg (by omega), List.getElem?_eq_none (by simp; omega),
        List.getElem?_eq_none (by omega)]

/-- **Closing** frees the number, and changes no other. -/
theorem lookup_close (t : List (Option α)) (i fd : ℤ) :
    lookup (close t i) fd = if fd = i then none else lookup t fd := by
  rcases lt_or_ge fd 0 with hneg | hpos
  · rw [lookup_of_neg _ hneg, lookup_of_neg _ hneg, ite_self]
  obtain ⟨n, rfl⟩ := Int.eq_ofNat_of_zero_le hpos
  rw [close]
  split
  · obtain ⟨m, rfl⟩ := Int.eq_ofNat_of_zero_le ‹0 ≤ i›
    rw [lookup_natCast, lookup_natCast, Int.toNat_natCast]
    simp only [Int.natCast_inj]
    by_cases hn : n = m
    · subst hn
      rw [List.getElem?_set, if_pos rfl, if_pos rfl]
      split <;> rfl
    · rw [List.getElem?_set_ne (Ne.symm hn), if_neg hn]
  · rw [if_neg (by omega)]

end LinkManagement.Descriptors
