import LinkManagement.Lib.Transition

/-!
# Runs that end

A measure that every enabled step lowers bounds the length of every run, and from every state some run
goes on until nothing is enabled.  `E` singles out the labels that count, as a rule those of the system
and not those of its environment; what is true where none of them is enabled is then true eventually,
whatever the schedule.

* `Decreasing.run_length_le` — a run of labels in `E` is no longer than the measure drops;
* `Decreasing.exists_run_to_quiet` — some run of labels in `E` ends in a state where none is enabled;
* `Decreasing.drains` — both together, for what holds in the states where nothing is enabled;
* `Along.countP_add_le` — a measure that certain labels lower, and the others do not raise;
* `runFrom_le_countP` — a measure that only certain labels raise, by one each.
-/

namespace LinkManagement.Transition

variable {σ ι : Type*} {step : σ → ι → Option σ} {E : ι → Prop} {I : σ → Prop} {μ : σ → ℕ}

/-- No label of `E` is enabled. -/
def Quiet (step : σ → ι → Option σ) (E : ι → Prop) (s : σ) : Prop := ∀ a, E a → step s a = none

/-- Steps of `E` keep the invariant and lower the measure. -/
structure Decreasing (step : σ → ι → Option σ) (E : ι → Prop) (I : σ → Prop) (μ : σ → ℕ) : Prop where
  keeps : ∀ s a s', I s → E a → step s a = some s' → I s'
  lowers : ∀ s a s', I s → E a → step s a = some s' → μ s' < μ s

theorem Decreasing.run_inv (h : Decreasing step E I μ) {s s' : σ} {as : List ι} (hs : I s)
    (hE : ∀ a ∈ as, E a) (hrun : runFrom step s as = some s') : I s' :=
  (Along.of_forall (C := fun _ a => E a) s as fun a ha _ => hE a ha).invariant
    (fun s a s' hI ha hstep => h.keeps s a s' hI ha hstep) hs hrun

/-- **A run is no longer than the measure drops.** -/
theorem Decreasing.run_length_le (h : Decreasing step E I μ) {s s' : σ} {as : List ι} (hs : I s)
    (hE : ∀ a ∈ as, E a) (hrun : runFrom step s as = some s') : as.length + μ s' ≤ μ s := by
  induction as generalizing s with
  | nil =>
    rw [runFrom_nil, Option.some.injEq] at hrun
    subst hrun
    exact Nat.le_of_eq (Nat.zero_add _)
  | cons a as ih =>
    obtain ⟨m, hm, hrest⟩ := runFrom_cons_eq_some.mp hrun
    have ha : E a := hE a List.mem_cons_self
    have hlt := h.lowers s a m hs ha hm
    have hle := ih (h.keeps s a m hs ha hm) (fun b hb => hE b (List.mem_cons_of_mem a hb)) hrest
    rw [List.length_cons]
    omega

/-- **Some run goes on until nothing is enabled.** -/
theorem Decreasing.exists_run_to_quiet (h : Decreasing step E I μ) {s : σ} (hs : I s) :
    ∃ as s', (∀ a ∈ as, E a) ∧ runFrom step s as = some s' ∧ Quiet step E s' := by
  induction hμ : μ s using Nat.strongRecOn generalizing s with
  | ind n ih =>
    by_cases hquiet : Quiet step E s
    · exact ⟨[], s, by simp, rfl, hquiet⟩
    · unfold Quiet at hquiet
      push Not at hquiet
      obtain ⟨a, ha, hne⟩ := hquiet
      obtain ⟨m, hm⟩ := Option.ne_none_iff_exists'.mp hne
      have hlt := h.lowers s a m hs ha hm
      obtain ⟨as, s', hE, hrun, hq⟩ := ih (μ m) (hμ ▸ hlt) (h.keeps s a m hs ha hm) rfl
      refine ⟨a :: as, s', ?_, runFrom_cons_eq_some.mpr ⟨m, hm, hrun⟩, hq⟩
      intro b hb
      rcases List.mem_cons.mp hb with rfl | hb
      · exact ha
      · exact hE b hb

/-- From `s` every schedule of labels in `E` ends within `n` steps, one that goes on as long as it can
exists, and each of these ends in a state with `Q`. -/
structure Drains (step : σ → ι → Option σ) (E : ι → Prop) (n : ℕ) (Q : σ → Prop) (s : σ) : Prop where
  bounded : ∀ as s', (∀ a ∈ as, E a) → runFrom step s as = some s' → as.length ≤ n
  ends : ∃ as s', (∀ a ∈ as, E a) ∧ runFrom step s as = some s' ∧ Quiet step E s'
  result : ∀ as s', (∀ a ∈ as, E a) → runFrom step s as = some s' → Quiet step E s' → Q s'

/-- **Progress rule.**  What holds where the invariant holds and nothing is enabled is reached by every
schedule. -/
theorem Decreasing.drains (h : Decreasing step E I μ) {Q : σ → Prop}
    (hQ : ∀ s, I s → Quiet step E s → Q s) {s : σ} (hs : I s) : Drains step E (μ s) Q s where
  bounded := fun _ _ hE hrun =>
    Nat.le_trans (Nat.le_add_right _ _) (h.run_length_le hs hE hrun)
  ends := h.exists_run_to_quiet hs
  result := fun _ s' hE hrun hquiet => hQ s' (h.run_inv hs hE hrun) hquiet

/-- **Price rule.**  If the steps that meet `C` keep the invariant and none raises the measure, there are at
most as many labels with `P`, which lower it, as it drops. -/
theorem Along.countP_add_le {C : σ → ι → Prop} {P : ι → Bool}
    (hkeeps : ∀ s a s', I s → C s a → step s a = some s' → I s')
    (hlowers : ∀ s a s', I s → C s a → step s a = some s' → μ s' + (if P a then 1 else 0) ≤ μ s)
    {s s' : σ} {as : List ι} (hC : Along step C s as) (hs : I s) (hrun : runFrom step s as = some s') :
    as.countP P + μ s' ≤ μ s := by
  induction as generalizing s with
  | nil =>
    rw [runFrom_nil, Option.some.injEq] at hrun
    subst hrun
    exact Nat.le_of_eq (Nat.zero_add _)
  | cons a as ih =>
    obtain ⟨m, hm, hrest⟩ := runFrom_cons_eq_some.mp hrun
    have hfirst := hlowers s a m hs hC.1 hm
    have hlater := ih (hC.2 m hm) (hkeeps s a m hs hC.1 hm) hrest
    rw [List.countP_cons]
    omega

/-- **Budget rule.**  A measure that only labels with `P` raise, and by one, grows by at most the number of
these labels. -/
theorem runFrom_le_countP {P : ι → Bool}
    (hstep : ∀ s a s', step s a = some s' → μ s' ≤ μ s + if P a then 1 else 0) {s s' : σ} {as : List ι}
    (hrun : runFrom step s as = some s') : μ s' ≤ μ s + as.countP P := by
  induction as generalizing s with
  | nil =>
    rw [runFrom_nil, Option.some.injEq] at hrun
    subst hrun
    exact Nat.le_add_right _ _
  | cons a as ih =>
    obtain ⟨m, hm, hrest⟩ := runFrom_cons_eq_some.mp hrun
    have hfirst := hstep s a m hm
    have hlater := ih hrest
    rw [List.countP_cons]
    omega

end LinkManagement.Transition
