import LinkManagement.Lib.Transition

/-!
# Refinement with stuttering

A fine-grained system takes many steps for one step of the system it implements.  `vis s a` are the
abstract labels that the concrete step `a` from `s` stands for: none for a step that the abstract system
does not see, several where it sees more than one.  `trace` collects them along a run.

* `Along.refines` — if each step that meets `C` is matched by the abstract run of its labels, then a
  whole run is;
* `Along.refines_invariant` — an invariant of the abstract system, read through the relation.
-/

namespace LinkManagement.Transition

variable {σ τ ι κ : Type*} {step : σ → ι → Option σ} {step' : τ → κ → Option τ}
  {C : σ → ι → Prop} {R : σ → τ → Prop}

/-- The abstract labels of a run. -/
def trace (step : σ → ι → Option σ) (vis : σ → ι → List κ) : σ → List ι → List κ
  | _, [] => []
  | s, a :: as =>
      vis s a ++
        match step s a with
        | none => []
        | some m => trace step vis m as

theorem trace_cons_of_step {vis : σ → ι → List κ} {s m : σ} {a : ι} {as : List ι}
    (h : step s a = some m) : trace step vis s (a :: as) = vis s a ++ trace step vis m as := by
  simp only [trace, h]

/-- The abstract system matches every step that meets `C`. -/
def Matches (step : σ → ι → Option σ) (step' : τ → κ → Option τ) (C : σ → ι → Prop)
    (vis : σ → ι → List κ) (R : σ → τ → Prop) : Prop :=
  ∀ s t a s', R s t → C s a → step s a = some s' →
    ∃ t', runFrom step' t (vis s a) = some t' ∧ R s' t'

/-- **Refinement rule.**  The abstract system runs along the trace. -/
theorem Along.refines {vis : σ → ι → List κ} (hmatch : Matches step step' C vis R) {s s' : σ} {t : τ}
    {as : List ι} (hC : Along step C s as) (hR : R s t) (hrun : runFrom step s as = some s') :
    ∃ t', runFrom step' t (trace step vis s as) = some t' ∧ R s' t' := by
  induction as generalizing s t with
  | nil =>
    rw [runFrom_nil, Option.some.injEq] at hrun
    subst hrun
    exact ⟨t, rfl, hR⟩
  | cons a as ih =>
    obtain ⟨m, hm, hrest⟩ := runFrom_cons_eq_some.mp hrun
    obtain ⟨n, hn, hRmn⟩ := hmatch s t a m hR hC.1 hm
    obtain ⟨t', ht', hR'⟩ := ih (hC.2 m hm) hRmn hrest
    refine ⟨t', ?_, hR'⟩
    rw [trace_cons_of_step hm, runFrom_append, hn, Option.bind_some, ht']

/-- **Invariants carry over.**  What the abstract system keeps holds of the abstract state that a run of
the concrete one ends in. -/
theorem Along.refines_invariant {vis : σ → ι → List κ} (hmatch : Matches step step' C vis R)
    {J : τ → Prop} (hJ : ∀ t k t', J t → step' t k = some t' → J t') {s s' : σ} {t : τ} {as : List ι}
    (hC : Along step C s as) (hR : R s t) (ht : J t) (hrun : runFrom step s as = some s') :
    ∃ t', runFrom step' t (trace step vis s as) = some t' ∧ R s' t' ∧ J t' := by
  obtain ⟨t', hrun', hR'⟩ := hC.refines hmatch hR hrun
  exact ⟨t', hrun', hR', runFrom_invariant hJ ht hrun'⟩

end LinkManagement.Transition
