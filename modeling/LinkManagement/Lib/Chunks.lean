import Mathlib.Data.List.Basic

/-!
# Folds in chunks

A list is folded with `step`, or it is cut into chunks that are folded one after the other, with a
clean-up `norm` after each chunk.  When a step takes no notice of a clean-up before it and leaves
nothing to clean up (`Absorbs`), the cuts matter only where there is nothing to fold.

* `Absorbs.foldl_chunks` — all chunks together are the fold of the whole list, cleaned up once;
* `Absorbs.foldl_chunks_eq_iff` — exactly when the clean-up is not seen either;
* `foldlM_eq_some` — a fold of partial steps that are defined under an invariant.
-/

namespace LinkManagement.Chunks

variable {σ α : Type*}

/-- A step takes no notice of a clean-up before it, and leaves nothing to clean up. -/
structure Absorbs (step : σ → α → σ) (norm : σ → σ) : Prop where
  before : ∀ s a, step (norm s) a = step s a
  after : ∀ s a, norm (step s a) = step s a
  idem : ∀ s, norm (norm s) = norm s

/-- The fold of one chunk, and the clean-up after it. -/
def foldChunk (step : σ → α → σ) (norm : σ → σ) (s : σ) (chunk : List α) : σ :=
  norm (chunk.foldl step s)

variable {step : σ → α → σ} {norm : σ → σ}

theorem Absorbs.foldChunk_norm (h : Absorbs step norm) (s : σ) (chunk : List α) :
    foldChunk step norm (norm s) chunk = foldChunk step norm s chunk := by
  cases chunk with
  | nil => exact h.idem s
  | cons a as =>
    show norm (as.foldl step (step (norm s) a)) = norm (as.foldl step (step s a))
    rw [h.before]

theorem Absorbs.norm_foldl (h : Absorbs step norm) (s : σ) {as : List α} (hne : as ≠ []) :
    norm (as.foldl step s) = as.foldl step s := by
  obtain ⟨init, a, rfl⟩ := List.eq_nil_or_concat as |>.resolve_left hne
  rw [List.concat_eq_append, List.foldl_append]
  exact h.after _ a

theorem Absorbs.foldChunk_append (h : Absorbs step norm) (s : σ) (as bs : List α) :
    foldChunk step norm (foldChunk step norm s as) bs = foldChunk step norm s (as ++ bs) := by
  calc foldChunk step norm (foldChunk step norm s as) bs
      = foldChunk step norm (as.foldl step s) bs := h.foldChunk_norm _ bs
    _ = foldChunk step norm s (as ++ bs) := by rw [foldChunk, foldChunk, List.foldl_append]

/-- **All chunks are one**, if there is any. -/
theorem Absorbs.foldl_chunks (h : Absorbs step norm) (s : σ) {chunks : List (List α)}
    (hne : chunks ≠ []) :
    chunks.foldl (foldChunk step norm) s = foldChunk step norm s chunks.flatten := by
  induction chunks generalizing s with
  | nil => exact absurd rfl hne
  | cons c cs ih =>
    rw [List.foldl_cons, List.flatten_cons, ← h.foldChunk_append]
    cases cs with
    | nil =>
      rw [List.foldl_nil, List.flatten_nil]
      exact (h.idem _).symm
    | cons d ds => exact ih _ (List.cons_ne_nil d ds)

/-- **The cuts are not seen** exactly if there are none, or something is folded, or there was nothing
to clean up from the start. -/
theorem Absorbs.foldl_chunks_eq_iff (h : Absorbs step norm) (s : σ) (chunks : List (List α)) :
    chunks.foldl (foldChunk step norm) s = chunks.flatten.foldl step s ↔
      chunks = [] ∨ chunks.flatten ≠ [] ∨ norm s = s := by
  by_cases hne : chunks = []
  · rw [hne]
    exact iff_of_true rfl (.inl rfl)
  rw [h.foldl_chunks s hne, foldChunk]
  by_cases hflat : chunks.flatten = []
  · rw [hflat, List.foldl_nil]
    constructor
    · intro heq
      exact .inr (.inr heq)
    · intro hcases
      rcases hcases with hnil | hfold | heq
      · exact absurd hnil hne
      · exact absurd rfl hfold
      · exact heq
  · exact iff_of_true (h.norm_foldl s hflat) (.inr (.inl hflat))

/-- A fold of partial steps is defined, and keeps the invariant, where the steps do. -/
theorem foldlM_eq_some {f : σ → α → Option σ} {g : σ → α → σ} {I : σ → Prop} {V : α → Prop}
    (hstep : ∀ s a, I s → V a → f s a = some (g s a) ∧ I (g s a)) {as : List α}
    (hV : ∀ a ∈ as, V a) {s : σ} (hI : I s) :
    as.foldlM f s = some (as.foldl g s) ∧ I (as.foldl g s) := by
  induction as generalizing s with
  | nil => exact ⟨rfl, hI⟩
  | cons a as ih =>
    obtain ⟨hfa, hIa⟩ := hstep s a hI (hV a (by simp))
    obtain ⟨hrest, hIrest⟩ := ih (fun b hb => hV b (by simp [hb])) hIa
    refine ⟨?_, hIrest⟩
    rw [List.foldlM_cons, hfa]
    exact hrest

end LinkManagement.Chunks
