import LinkManagement.Lib.Transition

/-!
# Bounded first-in first-out queues

The queue that a ring of cells is meant to be: a list of at most `cap` values, to which runs of values
are appended and from which the first value is taken.  The bound is a field of the queue, so an
over-full queue cannot be built.

`QueueRun` records, next to the queue, everything pushed and everything popped so far;
`queueStep_conserves` is the law that makes it a queue: what was pushed is what was popped followed by
what is stored.
-/

namespace LinkManagement.Queue

open LinkManagement.Transition

variable {α : Type*} {cap : ℕ}

/-- A list of at most `cap` values. -/
structure BoundedQueue (α : Type*) (cap : ℕ) where
  items : List α
  length_le : items.length ≤ cap

def BoundedQueue.empty (α : Type*) (cap : ℕ) : BoundedQueue α cap := ⟨[], Nat.zero_le cap⟩

def BoundedQueue.push (q : BoundedQueue α cap) (xs : List α) : Option (BoundedQueue α cap) :=
  if h : (q.items ++ xs).length ≤ cap then some ⟨q.items ++ xs, h⟩ else none

def BoundedQueue.pop : BoundedQueue α cap → Option (α × BoundedQueue α cap)
  | ⟨[], _⟩ => none
  | ⟨x :: xs, h⟩ => some (x, ⟨xs, Nat.le_of_succ_le h⟩)

inductive QueueOp (α : Type*) where
  | push (xs : List α)
  | pop

/-- A queue with the values that went in and the values that came out. -/
structure QueueRun (α : Type*) (cap : ℕ) where
  queue : BoundedQueue α cap
  pushed : List α
  popped : List α

def queueStep (r : QueueRun α cap) : QueueOp α → Option (QueueRun α cap)
  | .push xs => (r.queue.push xs).map fun q => { r with queue := q, pushed := r.pushed ++ xs }
  | .pop => r.queue.pop.map fun p => { r with queue := p.2, popped := r.popped ++ [p.1] }

def QueueRun.start (α : Type*) (cap : ℕ) : QueueRun α cap := ⟨BoundedQueue.empty α cap, [], []⟩

theorem push_eq_some {q q' : BoundedQueue α cap} {xs : List α} (h : q.push xs = some q') :
    q'.items = q.items ++ xs := by
  unfold BoundedQueue.push at h
  split at h
  · cases h; rfl
  · cases h

theorem pop_eq_some {q : BoundedQueue α cap} {p : α × BoundedQueue α cap} (h : q.pop = some p) :
    q.items = p.1 :: p.2.items := by
  obtain ⟨items, hle⟩ := q
  cases items with
  | nil => cases h
  | cons x xs => cases h; rfl

theorem queueStep_conserves {r r' : QueueRun α cap} {o : QueueOp α}
    (h : r.pushed = r.popped ++ r.queue.items) (hs : queueStep r o = some r') :
    r'.pushed = r'.popped ++ r'.queue.items := by
  cases o with
  | push xs =>
    obtain ⟨q, hq, rfl⟩ := Option.map_eq_some_iff.mp hs
    simp only [push_eq_some hq, h, List.append_assoc]
  | pop =>
    obtain ⟨p, hp, rfl⟩ := Option.map_eq_some_iff.mp hs
    simp only [h, pop_eq_some hp, List.append_assoc, List.singleton_append]

/-- **The law of the queue**, over whole runs: what went in is what came out and what is stored. -/
theorem queueRun_conserves {r : QueueRun α cap} {os : List (QueueOp α)}
    (h : runFrom queueStep (QueueRun.start α cap) os = some r) :
    r.pushed = r.popped ++ r.queue.items :=
  runFrom_invariant (fun _ _ _ hI hs => queueStep_conserves hI hs) rfl h

end LinkManagement.Queue
