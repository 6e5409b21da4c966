import Mathlib.Data.List.Basic

/-!
# Greedy admission

Items arrive one after another at a store that gives nothing back.  An item that would bring the total
cost to the capacity `cap` is refused, and the next one has its chance.

* `admitted_append` — admission goes on from what has been admitted so far;
* `cost_lt_of_refused` — after a refusal only cheaper items are admitted.
-/

namespace LinkManagement.Admission

variable {α : Type*} (cost : α → ℕ) (cap : ℕ)

def total : List α → ℕ
  | [] => 0
  | p :: ps => cost p + total ps

/-- The items admitted in their order, when those before them cost `used`. -/
def admitted : ℕ → List α → List α
  | _, [] => []
  | used, p :: ps =>
      if used + cost p < cap then p :: admitted (used + cost p) ps else admitted used ps

/-- **Admission goes on from the items admitted so far.** -/
theorem admitted_append (used : ℕ) (ps qs : List α) :
    admitted cost cap used (ps ++ qs) = admitted cost cap used ps ++
      admitted cost cap (used + total cost (admitted cost cap used ps)) qs := by
  induction ps generalizing used with
  | nil => simp [admitted, total]
  | cons p ps ih =>
    by_cases hfits : used + cost p < cap
    · simp [admitted, hfits, total, ih, Nat.add_assoc]
    · simp [admitted, hfits, ih]

theorem fits_of_mem_admitted {used : ℕ} {ps : List α} {q : α} (hq : q ∈ admitted cost cap used ps) :
    used + cost q < cap := by
  induction ps generalizing used with
  | nil => simp [admitted] at hq
  | cons p ps ih =>
    by_cases hfits : used + cost p < cap
    · rw [admitted, if_pos hfits] at hq
      rcases List.mem_cons.mp hq with rfl | hq
      · exact hfits
      · have hlater := ih hq
        omega
    · rw [admitted, if_neg hfits] at hq
      exact ih hq

/-- **A refusal stands**: after it only cheaper items are admitted. -/
theorem cost_lt_of_refused {used : ℕ} {p : α} (hrefused : ¬ used + cost p < cap) {ps : List α} {q : α}
    (hq : q ∈ admitted cost cap used ps) : cost q < cost p := by
  have hfits := fits_of_mem_admitted cost cap hq
  omega

end LinkManagement.Admission
