import TamperEvident.Binary

/-! The root of a list of leaves by its definition: a leaf is its own root, and
a longer list is cut at the largest power of two strictly below its length. -/

namespace TamperEvident

def listRoot {α : Type} (combine : α → α → α) : List α → Option α
  | [] => none
  | [leaf] => some leaf
  | first :: second :: rest => do
    let leaves := first :: second :: rest
    let left ← listRoot combine (leaves.take (splitPoint leaves.length))
    let right ← listRoot combine (leaves.drop (splitPoint leaves.length))
    return combine left right
termination_by leaves => leaves.length
decreasing_by
  all_goals
    have := splitPoint_pos (first :: second :: rest).length
    have := splitPoint_lt (show 2 ≤ (first :: second :: rest).length by simp)
    simp only [List.length_take, List.length_drop]
    omega

end TamperEvident
