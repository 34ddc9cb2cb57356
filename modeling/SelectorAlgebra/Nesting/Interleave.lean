/-!
# Interleaving

Lists merged in turns: the first items of all of them, then the second items, and so on. The lists
are taken as queues, and a queue is let go once it is empty.
-/

namespace SelectorAlgebra

variable {α : Type}

/-- One round over queues: the items in front, and the queues that still have items. -/
def takeTurns : List (List α) → List α × List (List α)
  | [] => ([], [])
  | [] :: queues => takeTurns queues
  | (a :: queue) :: queues =>
    let (items, left) := takeTurns queues
    (a :: items, if queue.isEmpty then left else queue :: left)

/-- A round takes an item of each queue, or the queue. -/
theorem length_takeTurns_add_le (queues : List (List α)) :
    (takeTurns queues).2.flatten.length + (takeTurns queues).2.length + queues.length ≤
      queues.flatten.length + queues.length := by
  induction queues using takeTurns.induct with
  | case1 => simp [takeTurns]
  | case2 queues ih =>
    simp only [takeTurns, List.flatten_cons, List.length_append, List.length_cons, List.length_nil]
    omega
  | case3 a queue queues items left hrest ih =>
    simp only [takeTurns, List.flatten_cons, List.length_append, List.length_cons]
    split
    · omega
    · simp only [List.flatten_cons, List.length_append, List.length_cons]
      omega

/-- The items of queues, taken in rounds until no queue is left. -/
def interleave : List (List α) → List α
  | [] => []
  | queue :: queues =>
    (takeTurns (queue :: queues)).1 ++ interleave (takeTurns (queue :: queues)).2
termination_by queues => queues.flatten.length + queues.length
decreasing_by
  have h := length_takeTurns_add_le (queue :: queues)
  rw [List.length_cons] at h ⊢
  omega

end SelectorAlgebra
