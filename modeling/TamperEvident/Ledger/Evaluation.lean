import TamperEvident.Ledger.Validator

/-! A validator that is changed in place, one write after another. A call that fails leaves the
validator as its writes have made it by then. -/

namespace TamperEvident

/-- Answers or fails, and leaves a validator behind in both cases. -/
abbrev Evaluation (α : Type) := ExceptT LedgerError (StateM Validator) α

namespace Evaluation

variable {α β : Type}

def outcome (call : Evaluation α) (v : Validator) : Except LedgerError α × Validator :=
  call.run.run v

/-- One check, beside the authors as they are by now. Those it adds are written at once. -/
def check (step : Validator → Findings → Findings) (f : Findings) : Evaluation Findings := do
  let v ← get
  let f := step v { f with authors := v.authors }
  set { v with authors := f.authors }
  return f

def registerAuthors (hasher : HashAlgorithm) (signer : SignatureAlgorithm) (f : Findings)
    (keys : List Bytes) : Evaluation Findings :=
  keys.foldlM (fun f key => check (fun _ f => f.registerAuthor hasher signer key) f) f

/-- A policy is an error, wherever it is met and whatever has been written before. -/
def checkLayer (a : ActiveLedger) (f : Findings) : Block → Evaluation Findings
  | .terminal _ (.policy _ _) => throw (.amendmentUnsupported a.state.blockCount)
  | .terminal _ (.addAuthors keys) => registerAuthors a.hasher a.signer f keys
  | .terminal _ content => check (fun v f => f.checkTerminal a v.links content) f
  | .wrapped _ around inner => check (fun _ f => f.checkWrapper a inner.raw around) f

def refuse (p : Problem) : Evaluation Report := return ⟨none, none, [p]⟩

/-- Every test of a first block comes before anything is written. -/
def submitGenesis (b : Block) : Evaluation Report := do
  let v ← get
  match b with
  | .terminal raw (.policy version payload) =>
    match Policy.parse version payload with
    | .error _ => refuse .cannotParsePolicy
    | .ok policy =>
      match policy.algorithms v.crypto with
      | .error _ => refuse .cannotParsePolicy
      | .ok (hasher, signer) =>
        match policy.allowedShapes with
        | .error _ => refuse .cannotParsePolicy
        | .ok allowed =>
          let f ← registerAuthors hasher signer (.start v.authors) policy.authorKeys
          let state := LedgerState.genesis hasher policy raw
          modify fun v => { v with active := some ⟨state, hasher, signer, allowed⟩ }
          modify (·.recordLink state)
          return ⟨some state, none, f.problems.toList⟩
  | _ => refuse .blockTypeNotAllowed

def submitBlock (b : Block) : Evaluation Report := do
  let v ← get
  match v.active with
  | none => submitGenesis b
  | some a =>
    let f ← b.layers.foldlM (checkLayer a) (Findings.ofWhole a v.authors b)
    let next := a.state.advance a.hasher b.raw f.updatesContext
    modify (·.install a next)
    modify (·.recordLink next)
    return ⟨some next, none, f.problems.toList⟩

def submit (raw : Bytes) : Evaluation Report := do
  let v ← get
  match Block.parse v.config.maxBlockDepth raw with
  | .ok b =>
    let report ← submitBlock b
    return { report with block := some b }
  | .error _ =>
    match v.active with
    | none => refuse .malformedBlock
    | some a =>
      let next := a.state.advance a.hasher raw false
      modify (·.install a next)
      return ⟨some next, none, [.malformedBlock]⟩

theorem outcome_get (next : Validator → Evaluation β) (v : Validator) :
    outcome (get >>= next) v = (next v).outcome v := rfl

theorem outcome_bind_ok {call : Evaluation α} {v v' : Validator} {a : α} (next : α → Evaluation β)
    (h : call.outcome v = (.ok a, v')) : outcome (call >>= next) v = (next a).outcome v' := by
  rw [outcome] at h
  rw [outcome, ExceptT.run_bind, StateT.run_bind, h]
  rfl

theorem outcome_bind_error {call : Evaluation α} {v v' : Validator} {e : LedgerError}
    (next : α → Evaluation β) (h : call.outcome v = (.error e, v')) :
    outcome (call >>= next) v = (.error e, v') := by
  rw [outcome] at h
  rw [outcome, ExceptT.run_bind, StateT.run_bind, h]
  rfl

theorem outcome_check (step : Validator → Findings → Findings) (f : Findings) (v : Validator) :
    (check step f).outcome v =
      (let f := step v { f with authors := v.authors }
      (.ok f, { v with authors := f.authors })) := rfl

end Evaluation

end TamperEvident
