import LinkManagement.Lib.Transition

/-!
# Lossy pipes

What a relay without retransmission is for: an item is taken in or refused when it is offered, and what
is taken in leaves again, each item once and in order.  `Pipe` keeps the items inside next to the
histories; `Pipe.Law` relates them.
-/

namespace LinkManagement.LossyPipe

open LinkManagement.Transition

variable {α : Type*}

structure Pipe (α : Type*) where
  offered : List α
  accepted : List α
  inside : List α
  delivered : List α

inductive PipeOp (α : Type*) where
  | accept (a : α)
  | refuse (a : α)
  | deliver

def Pipe.empty (α : Type*) : Pipe α := ⟨[], [], [], []⟩

def pipeStep (p : Pipe α) : PipeOp α → Option (Pipe α)
  | .accept a =>
      some { p with
        offered := p.offered ++ [a]
        accepted := p.accepted ++ [a]
        inside := p.inside ++ [a] }
  | .refuse a => some { p with offered := p.offered ++ [a] }
  | .deliver =>
      match p.inside with
      | [] => none
      | a :: inside => some { p with inside := inside, delivered := p.delivered ++ [a] }

/-- What was accepted is what was delivered, then what is inside; and it was offered in this order. -/
structure Pipe.Law (p : Pipe α) : Prop where
  conserved : p.accepted = p.delivered ++ p.inside
  sublist : p.accepted.Sublist p.offered

theorem empty_law : (Pipe.empty α).Law := ⟨rfl, List.Sublist.refl []⟩

theorem pipeStep_law (p : Pipe α) (op : PipeOp α) (p' : Pipe α) (h : p.Law)
    (hstep : pipeStep p op = some p') : p'.Law := by
  cases op with
  | accept a =>
    cases hstep
    exact ⟨by rw [h.conserved, List.append_assoc], h.sublist.append (List.Sublist.refl [a])⟩
  | refuse a =>
    cases hstep
    exact ⟨h.conserved, h.sublist.trans (List.sublist_append_left _ _)⟩
  | deliver =>
    have hcons := h.conserved
    cases hin : p.inside with
    | nil =>
      simp only [pipeStep, hin] at hstep
      cases hstep
    | cons a inside =>
      simp only [pipeStep, hin] at hstep
      cases hstep
      refine ⟨?_, h.sublist⟩
      rw [hcons, hin]
      simp

theorem runFrom_deliver (p : Pipe α) (js rest : List α) (h : p.inside = js ++ rest) :
    runFrom pipeStep p (List.replicate js.length .deliver)
      = some { p with inside := rest, delivered := p.delivered ++ js } := by
  induction js generalizing p with
  | nil =>
    rw [List.nil_append] at h
    subst h
    simp
  | cons a js ih =>
    have hstep : pipeStep p .deliver
        = some { p with inside := js ++ rest, delivered := p.delivered ++ [a] } := by
      simp only [pipeStep, h, List.cons_append]
    refine runFrom_cons_eq_some.mpr ⟨_, hstep, ?_⟩
    rw [ih { p with inside := js ++ rest, delivered := p.delivered ++ [a] } rfl]
    simp

end LinkManagement.LossyPipe
