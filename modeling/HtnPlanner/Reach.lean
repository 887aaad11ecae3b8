namespace HtnPlanner

variable {α : Type} [DecidableEq α]

/-- Breadth first: takes the first of the queue and puts those of its successors at the end that were
not seen before. Returns what was seen, in that order. -/
def reachFrom (next : α → List α) : Nat → List α → List α → List α
  | 0, _, seen => seen
  | _ + 1, [], seen => seen
  | fuel + 1, a :: queue, seen =>
    let fresh := ((next a).filter (· ∉ seen)).eraseDups
    reachFrom next fuel (queue ++ fresh) (seen ++ fresh)

/-- All that can be reached from `start`, if there are not more than `bound` such. -/
def reach (next : α → List α) (bound : Nat) (start : List α) : List α :=
  reachFrom next bound start.eraseDups start.eraseDups

end HtnPlanner
