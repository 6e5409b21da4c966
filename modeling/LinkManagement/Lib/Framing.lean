import Mathlib.Data.List.Basic

/-!
# Streams of items under a prefix-free code

A code writes an item as a list of symbols.  If no item's code begins with another's (`PrefixFree`),
a stream can be cut into items in one way only: `Splits` says that a stream is the codes of some items
followed by a tail that does not begin with the code of any item, `Splits.unique` that items and tail
are determined by the stream.

`splits_of_append` cuts a piece off a stream of codes: the piece holds some of the items, in order, and
an unfinished part of the next one.
-/

namespace LinkManagement.Framing

variable {α β : Type*}

/-- Codes of valid items are not empty, and what follows the code of an item is determined. -/
structure PrefixFree (V : β → Prop) (code : β → List α) : Prop where
  ne_nil : ∀ {a : β}, V a → code a ≠ []
  cancel : ∀ {a b : β} {x y : List α}, V a → V b → code a ++ x = code b ++ y → a = b ∧ x = y

/-- No valid item's code begins the list. -/
def Incomplete (V : β → Prop) (code : β → List α) (t : List α) : Prop :=
  ∀ a x, V a → t ≠ code a ++ x

/-- The stream is the codes of the items, in order, and an incomplete tail. -/
structure Splits (V : β → Prop) (code : β → List α) (s : List α) (items : List β)
    (tail : List α) : Prop where
  valid : ∀ a ∈ items, V a
  eq : s = items.flatMap code ++ tail
  incomplete : Incomplete V code tail

variable {V : β → Prop} {code : β → List α}

/-- **A stream splits in one way.** -/
theorem Splits.unique (hc : PrefixFree V code) {s : List α} {is js : List β} {t u : List α}
    (hi : Splits V code s is t) (hj : Splits V code s js u) : is = js ∧ t = u := by
  induction is generalizing s js with
  | nil =>
    cases js with
    | nil =>
      have h := hi.eq.symm.trans hj.eq
      exact ⟨rfl, by simpa using h⟩
    | cons b js =>
      have h := hi.eq.symm.trans hj.eq
      rw [List.flatMap_nil, List.nil_append, List.flatMap_cons, List.append_assoc] at h
      exact absurd h (hi.incomplete b _ (hj.valid b (by simp)))
  | cons a is ih =>
    cases js with
    | nil =>
      have h := hj.eq.symm.trans hi.eq
      rw [List.flatMap_nil, List.nil_append, List.flatMap_cons, List.append_assoc] at h
      exact absurd h (hj.incomplete a _ (hi.valid a (by simp)))
    | cons b js =>
      have h := hi.eq.symm.trans hj.eq
      rw [List.flatMap_cons, List.flatMap_cons, List.append_assoc, List.append_assoc] at h
      obtain ⟨rfl, hrest⟩ := hc.cancel (hi.valid a (by simp)) (hj.valid b (by simp)) h
      obtain ⟨rfl, rfl⟩ := ih ⟨fun c hm => hi.valid c (by simp [hm]), rfl, hi.incomplete⟩
        ⟨fun c hm => hj.valid c (by simp [hm]), hrest, hj.incomplete⟩
      exact ⟨rfl, rfl⟩

theorem incomplete_nil (hc : PrefixFree V code) : Incomplete V code [] := by
  intro a x ha h
  exact hc.ne_nil ha (List.append_eq_nil_iff.mp h.symm).1

/-- A list that the code of a valid item properly extends is incomplete. -/
theorem incomplete_of_append (hc : PrefixFree V code) {p : β} (hp : V p) {t y rest : List α}
    (h : t ++ y = code p ++ rest) (hlt : t.length < (code p).length) : Incomplete V code t := by
  intro a x ha ht
  rw [ht, List.append_assoc] at h
  obtain ⟨rfl, -⟩ := hc.cancel ha hp h
  rw [ht, List.length_append] at hlt
  omega

/-- **A piece of a stream of codes** holds the first of its items, in order, and is unfinished in the
item after them. -/
theorem splits_of_append (hc : PrefixFree V code) {ps : List β} (hps : ∀ p ∈ ps, V p)
    {s y : List α} (h : s ++ y = ps.flatMap code) :
    ∃ is js t, ps = is ++ js ∧ Splits V code s is t ∧
      ∀ p ∈ js.head?, t.length < (code p).length := by
  induction ps generalizing s with
  | nil =>
    obtain ⟨rfl, -⟩ := List.append_eq_nil_iff.mp h
    exact ⟨[], [], [], rfl, ⟨by simp, rfl, incomplete_nil hc⟩, by simp⟩
  | cons p ps ih =>
    have hp : V p := hps p (by simp)
    rw [List.flatMap_cons] at h
    rcases Nat.lt_or_ge s.length (code p).length with hlt | hge
    · refine ⟨[], p :: ps, s, rfl, ⟨by simp, rfl, incomplete_of_append hc hp h hlt⟩, ?_⟩
      intro q hq
      cases hq
      exact hlt
    · have hpre : code p <+: s :=
        List.prefix_of_prefix_length_le ⟨_, rfl⟩ (h ▸ List.prefix_append s y) hge
      obtain ⟨s', rfl⟩ := hpre
      rw [List.append_assoc] at h
      have hs' := List.append_cancel_left h
      obtain ⟨is, js, t, rfl, hsplit, hnext⟩ := ih (fun q hq => hps q (by simp [hq])) hs'
      refine ⟨p :: is, js, t, rfl, ⟨?_, ?_, hsplit.incomplete⟩, hnext⟩
      · intro a ha
        rcases List.mem_cons.mp ha with rfl | ha
        · exact hp
        · exact hsplit.valid a ha
      · rw [List.flatMap_cons, List.append_assoc, ← hsplit.eq]

end LinkManagement.Framing
