import TamperEvident.Merkle.Tree

/-! A Merkle tree that is changed in place, one write after another. A call that fails leaves
the tree as its writes have made it by then. -/

namespace TamperEvident

/-- Answers or fails, and leaves a tree behind in both cases. Has no outcome at all when it
names a level that is not there. -/
abbrev InPlace (α β : Type) := ExceptT MerkleError (StateT (Tree α) Option) β

namespace InPlace

variable {α β γ : Type}

def outcome (call : InPlace α β) (t : Tree α) : Option (Except MerkleError β × Tree α) :=
  call.run.run t

/-- The levels, with a blank one on top if that is the one at `height`. -/
def opened (blank : γ) (levels : List γ) (height : Nat) : List γ :=
  if levels.length = height then levels ++ [blank] else levels

/-- Takes the next place of a level on the lengths of the levels alone. -/
def reserve (lengths : List Nat) (n : Node) : Except MerkleError (List Nat) :=
  let lengths := opened 0 lengths n.height
  match lengths[n.height]? with
  | some length =>
    if length = n.index then .ok (lengths.set n.height (length + 1))
    else .error (.missingNode n.height n.index)
  | none => .error (.missingNode n.height n.index)

def reserveAll (levels : List (Array α)) (nodes : List (Node × α)) :
    Except MerkleError (List Nat) :=
  nodes.foldlM (fun lengths entry => reserve lengths entry.1) (levels.map Array.size)

def write (entry : Node × α) : InPlace α Unit := do
  let t ← get
  let levels := opened #[] t.levels entry.1.height
  let level ← levels[entry.1.height]?
  set { t with levels := levels.set entry.1.height (level.push entry.2) }

/-- Finds the places of all nodes first, and then writes one after another. -/
def insertPerfected (nodes : List (Node × α)) : InPlace α Unit := do
  let t ← get
  let _ ← reserveAll t.levels nodes
  nodes.forM write

/-- Appends a leaf. The frontier is the last thing that changes. -/
def push (combine : α → α → α) (leaf : α) : InPlace α (List (Node × α)) := do
  let t ← get
  let leaves ← t.levels[0]?
  let (nodes, frontier) ← Frontier.append combine t.frontier leaves.size leaf
  insertPerfected nodes
  modify fun t => { t with frontier }
  return nodes

variable {t t' : Tree α}

theorem outcome_get (next : Tree α → InPlace α β) :
    outcome (get >>= next) t = (next t).outcome t := rfl

theorem outcome_level (level : Array α) (next : Array α → InPlace α β) :
    outcome (some level >>= next) t = (next level).outcome t := rfl

theorem outcome_ok (a : γ) (next : γ → InPlace α β) :
    outcome ((.ok a : Except MerkleError γ) >>= next) t = (next a).outcome t := rfl

theorem outcome_error (e : MerkleError) (next : γ → InPlace α β) :
    outcome ((.error e : Except MerkleError γ) >>= next) t = some (.error e, t) := rfl

theorem outcome_bind_ok {call : InPlace α γ} {a : γ} (next : γ → InPlace α β)
    (h : call.outcome t = some (.ok a, t')) : outcome (call >>= next) t = (next a).outcome t' := by
  change Option.bind (call.outcome t) _ = _
  rw [h]
  rfl

theorem outcome_bind_error {call : InPlace α γ} {e : MerkleError} (next : γ → InPlace α β)
    (h : call.outcome t = some (.error e, t')) :
    outcome (call >>= next) t = some (.error e, t') := by
  change Option.bind (call.outcome t) _ = _
  rw [h]
  rfl

end InPlace

end TamperEvident
