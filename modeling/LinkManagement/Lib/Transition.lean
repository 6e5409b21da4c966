import Mathlib.Data.List.Induction

/-!
# Runs of a partial, labelled step function

A system is a function `step : σ → ι → Option σ`.  The label carries every choice the environment
makes (which thread moves, which datagram arrives, what the memory held), so a run is a list of labels
and is computed, not only related.  `none` means that the label is not enabled or that the step has no
defined behaviour.

* `runFrom` — the state after a list of labels;
* `Along` — a condition on the state before each step and its label, met by every step of a run;
* `Along.invariant` — the invariant rule: what one step keeps, a run keeps;
* `runFrom_history` — the same for what relates a state to the labels that led to it;
* `runFrom_iff_along` — its converse side: if a step keeps an invariant exactly when it meets a condition,
  a run keeps it exactly when all its steps do;
* `Along.simulated` — forward simulation: a second system takes matching steps along the whole run.
-/

namespace LinkManagement.Transition

variable {σ τ ι κ : Type*}

/-- The state after the labels in order, `none` when one of them cannot be taken. -/
def runFrom (step : σ → ι → Option σ) : σ → List ι → Option σ
  | s, [] => some s
  | s, a :: as => (step s a).bind fun s' => runFrom step s' as

/-- Every step of the run meets `C`, a condition on the state before the step and its label. -/
def Along (step : σ → ι → Option σ) (C : σ → ι → Prop) : σ → List ι → Prop
  | _, [] => True
  | s, a :: as => C s a ∧ ∀ s', step s a = some s' → Along step C s' as

variable {step : σ → ι → Option σ} {C : σ → ι → Prop}

instance Along.decidable [∀ s a, Decidable (C s a)] :
    (s : σ) → (as : List ι) → Decidable (Along step C s as)
  | _, [] => isTrue trivial
  | s, a :: as =>
      haveI : Decidable (∀ s', step s a = some s' → Along step C s' as) :=
        match step s a with
        | none => isTrue fun _ h => nomatch h
        | some m =>
            haveI := Along.decidable m as
            decidable_of_iff (Along step C m as)
              ⟨fun h _ hm => Option.some.inj hm ▸ h, fun h => h m rfl⟩
      inferInstanceAs (Decidable (_ ∧ _))

@[simp] theorem runFrom_nil (s : σ) : runFrom step s [] = some s := rfl

theorem runFrom_cons_eq_some {s s' : σ} {a : ι} {as : List ι} :
    runFrom step s (a :: as) = some s' ↔ ∃ m, step s a = some m ∧ runFrom step m as = some s' := by
  simp only [runFrom, Option.bind_eq_some_iff]

theorem runFrom_append (s : σ) (as bs : List ι) :
    runFrom step s (as ++ bs) = (runFrom step s as).bind fun m => runFrom step m bs := by
  induction as generalizing s with
  | nil => rfl
  | cons a as ih =>
    simp only [List.cons_append, runFrom]
    cases step s a with
    | none => rfl
    | some m => exact ih m

/-! ### Invariants of runs -/

/-- **Invariant rule.**  What every step that meets `C` keeps holds after every run of such steps. -/
theorem Along.invariant {I : σ → Prop}
    (hstep : ∀ s a s', I s → C s a → step s a = some s' → I s')
    {s s' : σ} {as : List ι} (hC : Along step C s as) (hI : I s)
    (hrun : runFrom step s as = some s') : I s' := by
  induction as generalizing s with
  | nil =>
    rw [runFrom_nil, Option.some.injEq] at hrun
    exact hrun ▸ hI
  | cons a as ih =>
    obtain ⟨m, hm, hrest⟩ := runFrom_cons_eq_some.mp hrun
    exact ih (hC.2 m hm) (hstep s a m hI hC.1 hm) hrest

theorem runFrom_invariant {I : σ → Prop} (hstep : ∀ s a s', I s → step s a = some s' → I s')
    {s s' : σ} {as : List ι} (hI : I s) (hrun : runFrom step s as = some s') : I s' := by
  induction as generalizing s with
  | nil =>
    rw [runFrom_nil, Option.some.injEq] at hrun
    exact hrun ▸ hI
  | cons a as ih =>
    obtain ⟨m, hm, hrest⟩ := runFrom_cons_eq_some.mp hrun
    exact ih (hstep s a m hI hm) hrest

/-- The invariant rule for what relates a state to all the labels that led to it. -/
theorem runFrom_history {I : List ι → σ → Prop} {s s' : σ} {as : List ι} (hstart : I [] s)
    (hstep : ∀ as m a m', I as m → step m a = some m' → I (as ++ [a]) m')
    (hrun : runFrom step s as = some s') : I as s' := by
  induction as using List.reverseRecOn generalizing s' with
  | nil =>
    rw [runFrom_nil, Option.some.injEq] at hrun
    exact hrun ▸ hstart
  | append_singleton as a ih =>
    rw [runFrom_append] at hrun
    obtain ⟨m, hm, hlast⟩ := Option.bind_eq_some_iff.mp hrun
    obtain ⟨m', hm', hend⟩ := runFrom_cons_eq_some.mp hlast
    rw [runFrom_nil, Option.some.injEq] at hend
    exact hend ▸ hstep as m a m' (ih hm) hm'

/-- If under the invariant `J` each step keeps `I` exactly when it meets `C`, a run keeps `I` exactly when
all its steps do. -/
theorem runFrom_iff_along {I J : σ → Prop} (hJ : ∀ s a s', J s → step s a = some s' → J s')
    (hstep : ∀ s a s', J s → step s a = some s' → (I s' ↔ I s ∧ C s a))
    {s s' : σ} {as : List ι} (hs : J s) (hrun : runFrom step s as = some s') :
    I s' ↔ I s ∧ Along step C s as := by
  induction as generalizing s with
  | nil =>
    rw [runFrom_nil, Option.some.injEq] at hrun
    rw [hrun, Along, and_true]
  | cons a as ih =>
    obtain ⟨m, hm, hrest⟩ := runFrom_cons_eq_some.mp hrun
    have hAlong : Along step C s (a :: as) ↔ C s a ∧ Along step C m as := by
      rw [Along, hm]
      simp only [Option.some.injEq, forall_eq']
    rw [ih (hJ s a m hs hm) hrest, hstep s a m hs hm, hAlong, and_assoc]

theorem Along.of_forall (s : σ) (as : List ι) (h : ∀ a ∈ as, ∀ s, C s a) : Along step C s as := by
  induction as generalizing s with
  | nil => trivial
  | cons a as ih =>
    exact ⟨h a (by simp) s, fun s' _ => ih s' fun b hb => h b (by simp [hb])⟩

theorem Along.and {D : σ → ι → Prop} {s : σ} {as : List ι} (hC : Along step C s as)
    (hD : Along step D s as) : Along step (fun s a => C s a ∧ D s a) s as := by
  induction as generalizing s with
  | nil => trivial
  | cons a as ih => exact ⟨⟨hC.1, hD.1⟩, fun s' hs' => ih (hC.2 s' hs') (hD.2 s' hs')⟩

/-! ### Forward simulation -/

/-- **Simulation rule.**  If under `R` no concrete step that meets `C` can fail, and the abstract
system takes the image of its label with it, then the run does not fail and the abstract system runs
along. -/
theorem Along.simulated {step' : τ → κ → Option τ} (f : ι → κ) {R : σ → τ → Prop}
    (hstep : ∀ s t a, R s t → C s a →
      ∃ s' t', step s a = some s' ∧ step' t (f a) = some t' ∧ R s' t')
    {s : σ} {t : τ} {as : List ι} (hC : Along step C s as) (hR : R s t) :
    ∃ s' t', runFrom step s as = some s' ∧ runFrom step' t (as.map f) = some t' ∧ R s' t' := by
  induction as generalizing s t with
  | nil => exact ⟨s, t, rfl, rfl, hR⟩
  | cons a as ih =>
    obtain ⟨m, n, hm, hn, hRmn⟩ := hstep s t a hR hC.1
    obtain ⟨s', t', hs', ht', hR'⟩ := ih (hC.2 m hm) hRmn
    exact ⟨s', t', runFrom_cons_eq_some.mpr ⟨m, hm, hs'⟩, runFrom_cons_eq_some.mpr ⟨n, hn, ht'⟩, hR'⟩

end LinkManagement.Transition
