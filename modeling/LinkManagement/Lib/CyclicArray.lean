import Mathlib.Data.List.Rotate
import Mathlib.Tactic.Ring

/-!
# Arrays read cyclically

An array of `m` cells, over any type, that is written in straight runs and read round the end.

* `overwrite cells i xs` — the array after `xs` is copied to the cells from `i` on;
* `window cells t n` — the `n` cells from `t` on, continuing at the front after the last cell.

The two meet in three facts: a window is its first cell and the window one further on
(`window_eq_cons`), a run written right behind a window leaves it as it was (`window_overwrite`), and
the window that includes the new run ends with it (`window_overwrite_append`).
-/

namespace LinkManagement.CyclicArray

variable {α : Type*}

/-- The array after the values `xs` are copied to the cells from `i` on. -/
def overwrite (cells : List α) (i : ℕ) (xs : List α) : List α :=
  cells.take i ++ xs ++ cells.drop (i + xs.length)

/-- The `n` cells from `t` on, read round the end of the array. -/
def window (cells : List α) (t n : ℕ) : List α := (cells.rotate t).take n

theorem mod_of_lt_two_mul {x m : ℕ} (h : x < 2 * m) : x % m = if x < m then x else x - m := by
  split
  · exact Nat.mod_eq_of_lt ‹_›
  · rw [Nat.mod_eq_sub_mod (by omega), Nat.mod_eq_of_lt (by omega)]

/-- Round the array, different steps from one cell lead to different cells. -/
theorem add_mod_eq_iff {t i j m : ℕ} (ht : t < m) (hi : i < m) (hj : j < m) :
    (t + i) % m = (t + j) % m ↔ i = j := by
  rw [mod_of_lt_two_mul (show t + i < 2 * m by omega), mod_of_lt_two_mul (show t + j < 2 * m by omega)]
  split <;> split <;> omega

/-! ### Reading after a copy -/

@[simp] theorem length_overwrite {cells xs : List α} {i : ℕ} (h : i + xs.length ≤ cells.length) :
    (overwrite cells i xs).length = cells.length := by
  simp only [overwrite, List.length_append, List.length_take, List.length_drop]
  omega

@[simp] theorem overwrite_nil (cells : List α) (i : ℕ) : overwrite cells i [] = cells := by
  rw [overwrite, List.append_nil]
  exact List.take_append_drop i cells

theorem overwrite_cons {cells xs : List α} {x : α} {i : ℕ} (hi : i < cells.length) :
    overwrite (overwrite cells i [x]) (i + 1) xs = overwrite cells i (x :: xs) := by
  have hl : (cells.take i ++ [x]).length = i + 1 := by
    rw [List.length_append, List.length_take, Nat.min_eq_left hi.le]
    rfl
  have hbefore : (overwrite cells i [x]).take (i + 1) = cells.take i ++ [x] := List.take_left' hl
  have hbehind : (overwrite cells i [x]).drop (i + 1 + xs.length) = cells.drop (i + 1 + xs.length) := by
    rw [← List.drop_drop, overwrite, List.drop_left' hl, List.drop_drop]
    rfl
  rw [overwrite, hbefore, hbehind, overwrite, List.length_cons, List.append_assoc,
    List.append_assoc, List.append_assoc, Nat.add_right_comm, Nat.add_assoc]
  rfl

theorem getElem?_overwrite_of_lt {cells xs : List α} {i j : ℕ} (hi : i ≤ cells.length)
    (hj : j < i) : (overwrite cells i xs)[j]? = cells[j]? := by
  rw [overwrite, List.append_assoc, List.getElem?_append_left (by rw [List.length_take]; omega),
    List.getElem?_take_of_lt hj]

theorem getElem?_overwrite_of_ge {cells xs : List α} {i j : ℕ} (hi : i ≤ cells.length)
    (hj : i + xs.length ≤ j) : (overwrite cells i xs)[j]? = cells[j]? := by
  have hl : (cells.take i ++ xs).length = i + xs.length := by
    rw [List.length_append, List.length_take]
    omega
  rw [overwrite, List.getElem?_append_right (by omega), hl, List.getElem?_drop]
  congr 1
  omega

theorem getElem?_overwrite_self {cells xs : List α} {i k : ℕ} (hi : i ≤ cells.length)
    (hk : k < xs.length) : (overwrite cells i xs)[i + k]? = xs[k]? := by
  have hl : (cells.take i).length = i := by
    rw [List.length_take]
    omega
  rw [overwrite, List.append_assoc, List.getElem?_append_right (by omega), hl,
    Nat.add_sub_cancel_left, List.getElem?_append_left hk]

/-! ### Windows -/

theorem length_window {cells : List α} {t n : ℕ} (h : n ≤ cells.length) :
    (window cells t n).length = n := by
  rw [window, List.length_take, List.length_rotate]
  omega

theorem getElem?_window {cells : List α} {t n i : ℕ} (hi : i < n) (hn : n ≤ cells.length) :
    (window cells t n)[i]? = cells[(t + i) % cells.length]? := by
  rw [window, List.getElem?_take_of_lt hi, List.getElem?_rotate (by omega), Nat.add_comm]

theorem ext_of_length {xs ys : List α} (hl : xs.length = ys.length)
    (h : ∀ i, i < xs.length → xs[i]? = ys[i]?) : xs = ys := by
  apply List.ext_getElem? fun i => ?_
  rcases Nat.lt_or_ge i xs.length with hi | hi
  · exact h i hi
  · rw [List.getElem?_eq_none hi, List.getElem?_eq_none (hl ▸ hi)]

theorem window_append {cells : List α} {t n k : ℕ} (h : n + k ≤ cells.length) :
    window cells t (n + k) = window cells t n ++ window cells ((t + n) % cells.length) k := by
  have hl : (window cells t n ++ window cells ((t + n) % cells.length) k).length = n + k := by
    rw [List.length_append, length_window (by omega), length_window (by omega)]
  apply ext_of_length (by rw [hl, length_window h])
  intro i hi
  rw [length_window h] at hi
  rw [getElem?_window hi h]
  rcases Nat.lt_or_ge i n with hin | hin
  · rw [List.getElem?_append_left (by rw [length_window (by omega)]; exact hin),
      getElem?_window hin (by omega)]
  · rw [List.getElem?_append_right (by rw [length_window (by omega)]; exact hin),
      length_window (by omega), getElem?_window (by omega) (by omega), Nat.mod_add_mod]
    congr 2
    omega

theorem window_eq_cons {cells : List α} {t n : ℕ} {c : α} (ht : t < cells.length)
    (hn : n + 1 ≤ cells.length) (hc : cells[t]? = some c) :
    window cells t (n + 1) = c :: window cells ((t + 1) % cells.length) n := by
  have h1 : window cells t 1 = [c] := by
    apply ext_of_length (by rw [length_window (by omega)]; rfl)
    intro i hi
    rw [length_window (by omega)] at hi
    obtain rfl : i = 0 := by omega
    rw [getElem?_window (by omega) (by omega), Nat.add_zero, Nat.mod_eq_of_lt ht, hc]
    rfl
  rw [Nat.add_comm n 1, window_append (by omega), h1]
  rfl

/-- **A run written behind a window leaves the window as it was.** -/
theorem window_overwrite {cells xs : List α} {t n h : ℕ} (ht : t < cells.length)
    (hh : h = (t + n) % cells.length) (hfit : n + xs.length ≤ cells.length)
    (hend : h + xs.length ≤ cells.length) :
    window (overwrite cells h xs) t n = window cells t n := by
  have hlo : (overwrite cells h xs).length = cells.length := length_overwrite hend
  apply ext_of_length (by rw [length_window (by omega), length_window (by omega)])
  intro i hi
  rw [length_window (by omega)] at hi
  rw [getElem?_window hi (by omega), getElem?_window hi (by omega), hlo]
  -- cell `i` of the window lies before the run or past its end, never in it
  have hne : (t + i) % cells.length < h ∨ h + xs.length ≤ (t + i) % cells.length := by
    rw [mod_of_lt_two_mul (show t + n < 2 * cells.length by omega)] at hh
    rw [mod_of_lt_two_mul (show t + i < 2 * cells.length by omega)]
    split_ifs at hh ⊢ <;> omega
  rcases hne with hlt | hge
  · exact getElem?_overwrite_of_lt (by omega) hlt
  · exact getElem?_overwrite_of_ge (by omega) hge

theorem window_overwrite_self {cells xs : List α} {h : ℕ} (hend : h + xs.length ≤ cells.length) :
    window (overwrite cells h xs) h xs.length = xs := by
  have hlo : (overwrite cells h xs).length = cells.length := length_overwrite hend
  apply ext_of_length (length_window (by omega))
  intro i hi
  rw [length_window (by omega)] at hi
  rw [getElem?_window hi (by omega), hlo, Nat.mod_eq_of_lt (by omega)]
  exact getElem?_overwrite_self (by omega) hi

/-- **Writing behind a window appends to it.** -/
theorem window_overwrite_append {cells xs : List α} {t n h : ℕ} (ht : t < cells.length)
    (hh : h = (t + n) % cells.length) (hfit : n + xs.length ≤ cells.length)
    (hend : h + xs.length ≤ cells.length) :
    window (overwrite cells h xs) t (n + xs.length) = window cells t n ++ xs := by
  have hlo : (overwrite cells h xs).length = cells.length := length_overwrite hend
  rw [window_append (by omega), hlo, ← hh, window_overwrite_self hend,
    window_overwrite ht hh hfit hend]

end LinkManagement.CyclicArray
