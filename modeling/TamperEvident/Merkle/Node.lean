/-! Nodes of an endless perfect binary tree by height and position, and the
leaves below them. Leaf numbers stop at the largest 64-bit number: a product or
sum past it counts as that number. -/

namespace TamperEvident

/-- Leaf `i` has height 0 and index `i`. -/
structure Node where
  height : Nat
  index : Nat
  deriving DecidableEq, Repr

namespace Node

/-- The largest leaf number that can be named. -/
def topLeaf : Nat := 2 ^ 64 - 1

def leaf (i : Nat) : Node := ⟨0, i⟩

def isLeft (n : Node) : Bool := n.index % 2 == 0

def isRight (n : Node) : Bool := n.index % 2 == 1

def parent (n : Node) : Node := ⟨n.height + 1, n.index / 2⟩

def sibling (n : Node) : Node :=
  if n.isLeft then ⟨n.height, n.index + 1⟩ else ⟨n.height, n.index - 1⟩

def left? (n : Node) : Option Node :=
  if n.index = 0 then none else some ⟨n.height, n.index - 1⟩

def leaves (n : Node) : Nat := if n.height < 64 then 2 ^ n.height else topLeaf

def minLeaf (n : Node) : Nat := min (n.index * n.leaves) topLeaf

def maxLeaf (n : Node) : Nat := min (n.minLeaf + (n.leaves - 1)) topLeaf

def contains (n m : Node) : Bool := n.minLeaf ≤ m.minLeaf && m.maxLeaf ≤ n.maxLeaf

def isWithin (n : Node) (count : Nat) : Bool := n.maxLeaf < count

def ancestors (n : Node) (count : Nat) : List Node :=
  if count ≤ 1 then [] else n.parent :: n.parent.ancestors ((count + 1) / 2)
termination_by count
decreasing_by omega

/-- Ancestors of a node that are complete once its leaves are the last ones:
the climb ends at the first left child, whose sibling is still empty. -/
def perfected (n : Node) : List Node :=
  if h : n.isRight then
    have : n.parent.index < n.index := by
      simp only [isRight, beq_iff_eq] at h
      simp only [parent]
      omega
    n.parent :: n.parent.perfected
  else []
termination_by n.index

/-- The first left child on the way up from a node. -/
def climbRight (n : Node) : Node :=
  if h : n.isRight then
    have : n.parent.index < n.index := by
      simp only [isRight, beq_iff_eq] at h
      simp only [parent]
      omega
    n.parent.climbRight
  else n
termination_by n.index

/-- The highest node on the way up whose leaves are all among the first
`count`. Nothing is complete above height 64. -/
def climbWithin (n : Node) (count : Nat) : Node :=
  if n.height < 64 ∧ n.parent.isWithin count then n.parent.climbWithin count else n
termination_by 64 - n.height
decreasing_by
  simp only [parent]
  omega

def start (n : Node) : Nat := n.index * 2 ^ n.height

theorem start_parent_le (n : Node) : n.parent.start ≤ n.start := by
  simp only [start, parent, Nat.pow_succ', ← Nat.mul_assoc]
  exact Nat.mul_le_mul_right _ (by omega)

theorem start_climbWithin_le (n : Node) (count : Nat) : (n.climbWithin count).start ≤ n.start := by
  fun_induction climbWithin n count with
  | case1 n _ ih => exact Nat.le_trans ih n.start_parent_le
  | case2 n _ => exact Nat.le_refl _

/-- Complete nodes that together cover what `n` holds of the first `count`
leaves to the left of and below `cursor`, from right to left. -/
def coverFrom (n : Node) (count : Nat) (cursor : Node) : List Node :=
  if n.contains cursor then
    let top := cursor.climbWithin count
    if h : top.index = 0 then [top]
    else top :: n.coverFrom count ⟨top.height, top.index - 1⟩
  else []
termination_by (cursor.index + 1) * 2 ^ cursor.height
decreasing_by
  have := start_climbWithin_le cursor count
  simp only [start] at this
  have := Nat.two_pow_pos cursor.height
  have : (cursor.climbWithin count).index ≠ 0 := h
  rw [Nat.sub_add_cancel (by omega), Nat.add_mul, Nat.one_mul]
  omega

/-- Complete nodes that stand in for a node only some of whose leaves are among
the first `count`, from right to left. -/
def cover (n : Node) (count : Nat) : List Node :=
  if count = 0 then [] else n.coverFrom count (leaf (count - 1))

end Node

end TamperEvident
