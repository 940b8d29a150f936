import TamperEvident.Merkle.Proof

/-! Checking proofs against roots, with no access to a tree. -/

namespace TamperEvident

variable {α : Type}

def Step.apply (combine : α → α → α) (value : α) (step : Step α) : α :=
  if step.onLeft then combine step.entry value else combine value step.entry

def inclusionHolds [DecidableEq α] (combine : α → α → α) (leaf root : α) :
    List (Step α) → Bool
  | [] => false
  | first :: rest =>
    first.entry == leaf && rest.foldl (Step.apply combine) first.entry == root

/-- Whether the steps lead to `new`, and those on the left alone to `old`. -/
def consistencyHolds [DecidableEq α] (combine : α → α → α) (old new : α) :
    List (Step α) → Bool
  | [] => false
  | first :: rest =>
    (rest.filter (·.onLeft)).foldl (Step.apply combine) first.entry == old &&
      rest.foldl (Step.apply combine) first.entry == new

end TamperEvident
