import TamperEvident.Proofs.Ledger.Audited
import TamperEvident.Proofs.Merkle.Replica

/-! What an audited ledger reports as completed is enough to keep a replica of its
tree, as what pushes complete is for any tree. -/

namespace TamperEvident

namespace AuditedLedger

def completedBy : Except LedgerError AuditedReport → List (Node × Digest)
  | .ok report => report.completed
  | .error _ => []

def runFrom (l : AuditedLedger) (inputs : List Submission) : AuditedLedger :=
  inputs.foldl (fun l x => (l.receive x).2) l

def completedFrom (l : AuditedLedger) : List Submission → List (Node × Digest)
  | [] => []
  | x :: inputs => completedBy (l.receive x).1 ++ (l.receive x).2.completedFrom inputs

theorem advances_append (l : AuditedLedger) (report : Report) :
    l.tree.Advances (completedBy (l.append report).1) (l.append report).2.tree := by
  rw [append]
  cases report.state with
  | none => exact .of_levels rfl
  | some s =>
    by_cases hindex : s.headIndex = l.leafCount
    · simp only [hindex, if_true]
      cases hpush : l.tree.push Digest.combine (Digest.leaf s.headLinkHash) with
      | error e => exact .of_levels rfl
      | ok grown => exact .of_push hpush
    · simp only [hindex, if_false]
      exact .of_levels rfl

theorem advances_receive (l : AuditedLedger) (x : Submission) :
    l.tree.Advances (completedBy (l.receive x).1) (l.receive x).2.tree := by
  rw [receive_eq, submitWith]
  cases l.checkSync with
  | error e => exact .of_levels rfl
  | ok _ =>
    simp only
    generalize l.validator.receive x = received
    obtain ⟨answer, v⟩ := received
    cases answer with
    | error e => exact .of_levels rfl
    | ok report => exact advances_append { l with validator := v } report

theorem advances_run (l : AuditedLedger) (inputs : List Submission) :
    l.tree.Advances (l.completedFrom inputs) (l.runFrom inputs).tree := by
  induction inputs generalizing l with
  | nil => exact .of_levels rfl
  | cons x inputs ih => exact (l.advances_receive x).trans (ih _)

end AuditedLedger

/-- A replica that is handed what the pushes of a tree complete, in any batches, takes every
batch and then answers as the tree does, at any point of the pushes. So does one that is
handed what an audited ledger reports as completed, whatever the ledger is given. Both may
start empty, or from the same levels where a ledger goes on from an earlier tree. -/
theorem replica_agrees :
    (∀ {α : Type} (combine : α → α → α) (leaves more : List α),
      ∃ nodes t later grown, Tree.empty.pushAll combine leaves = .ok (nodes, t) ∧
        t.pushAll combine more = .ok (later, grown) ∧
        ∀ batches batches' : List (List (Node × α)),
          batches.flatten = nodes → batches'.flatten = later →
          ∃ r r', batches.foldlM Tree.insertPerfected .empty = .ok r ∧
            Tree.Agrees combine t r ∧
            batches'.foldlM Tree.insertPerfected r = .ok r' ∧ Tree.Agrees combine grown r') ∧
    ∀ (start : AuditedLedger) (replica : Tree Digest), replica.levels = start.tree.levels →
      ∀ (inputs more : List Submission) (batches batches' : List (List (Node × Digest))),
      let l := start.runFrom inputs
      batches.flatten = start.completedFrom inputs → batches'.flatten = l.completedFrom more →
      ∃ r r', batches.foldlM Tree.insertPerfected replica = .ok r ∧
        Tree.Agrees Digest.combine l.tree r ∧
        batches'.foldlM Tree.insertPerfected r = .ok r' ∧
        Tree.Agrees Digest.combine (l.runFrom more).tree r' := by
  constructor
  · intro α combine leaves more
    obtain ⟨nodes, hfirst⟩ := pushAll_treeOf combine [] leaves
    obtain ⟨later, hmore⟩ := pushAll_treeOf combine leaves more
    rw [treeOf_nil] at hfirst
    refine ⟨nodes, _, later, _, hfirst, hmore, fun batches batches' hnodes hlater => ?_⟩
    obtain ⟨r, hr, hlevels⟩ := (Tree.Advances.of_pushAll hfirst).in_batches rfl hnodes
    obtain ⟨r', hr', hlevels'⟩ := (Tree.Advances.of_pushAll hmore).in_batches hlevels hlater
    exact ⟨r, r', hr, agrees_of_levels combine hlevels, hr', agrees_of_levels combine hlevels'⟩
  · intro start replica hreplica inputs more batches batches' l hnodes hlater
    obtain ⟨r, hr, hlevels⟩ := (start.advances_run inputs).in_batches hreplica hnodes
    obtain ⟨r', hr', hlevels'⟩ := (l.advances_run more).in_batches hlevels hlater
    exact ⟨r, r', hr, agrees_of_levels _ hlevels, hr', agrees_of_levels _ hlevels'⟩

/-- Four pushed leaves in two batches, the first of which ends among the nodes of a push, and
three more node by node; a ledger with a malformed block and a refused policy in one batch. -/
theorem replica_agrees_of_seven :
    (∃ nodes t later grown,
      Tree.empty.pushAll (fun a b : FreeMagma Nat => a * b) ([0, 1, 2, 3].map FreeMagma.of) =
        .ok (nodes, t) ∧
      t.pushAll (fun a b => a * b) ([4, 5, 6].map FreeMagma.of) = .ok (later, grown) ∧
      [nodes.take 3, nodes.drop 3].flatten = nodes ∧
      (later.map fun entry => [entry]).flatten = later ∧
      ∃ r r', [nodes.take 3, nodes.drop 3].foldlM Tree.insertPerfected .empty = .ok r ∧
        Tree.Agrees (fun a b => a * b) t r ∧
        (later.map fun entry => [entry]).foldlM Tree.insertPerfected r = .ok r' ∧
        Tree.Agrees (fun a b => a * b) grown r') ∧
    ∃ r r', [(AuditedLedger.empty Sample.provider {}).completedFrom Sample.submissions].foldlM
        Tree.insertPerfected .empty = .ok r ∧
      Tree.Agrees Digest.combine
        ((AuditedLedger.empty Sample.provider {}).runFrom Sample.submissions).tree r ∧
      ([] : List (List (Node × Digest))).foldlM Tree.insertPerfected r = .ok r' ∧
      Tree.Agrees Digest.combine
        (((AuditedLedger.empty Sample.provider {}).runFrom Sample.submissions).runFrom []).tree
        r' := by
  constructor
  · obtain ⟨nodes, t, later, grown, hpush, hmore, h⟩ := replica_agrees.1
      (fun a b : FreeMagma Nat => a * b) ([0, 1, 2, 3].map .of) ([4, 5, 6].map .of)
    have hcut : [nodes.take 3, nodes.drop 3].flatten = nodes := by simp
    have hsingle : (later.map fun entry => [entry]).flatten = later := by
      rw [← List.flatMap_def, List.flatMap_singleton']
    exact ⟨nodes, t, later, grown, hpush, hmore, hcut, hsingle, h _ _ hcut hsingle⟩
  · exact replica_agrees.2 (.empty Sample.provider {}) .empty rfl Sample.submissions []
      [(AuditedLedger.empty Sample.provider {}).completedFrom Sample.submissions] []
      (by simp) rfl

end TamperEvident
