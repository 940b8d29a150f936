import TamperEvident.Ledger.Evaluation
import TamperEvident.Proofs.Ledger.Diagnosis

/-! A call that writes one thing after another ends with the answer and the validator of the call
that works them out first. It matters where a call fails: of the layers of a block only the last
one writes anything, so nothing is written before a policy is met. -/

namespace TamperEvident

namespace Evaluation

variable {a : ActiveLedger} {f : Findings} {v : Validator}

theorem outcome_check_of_eq (step : Validator → Findings → Findings) (h : f.authors = v.authors) :
    (check step f).outcome v = (.ok (step v f), { v with authors := (step v f).authors }) := by
  rw [outcome_check, ← h]

theorem outcome_registerAuthors (hasher : HashAlgorithm) (signer : SignatureAlgorithm)
    (keys : List Bytes) (h : f.authors = v.authors) :
    (registerAuthors hasher signer f keys).outcome v =
      (let f := keys.foldl (Findings.registerAuthor hasher signer) f
      (.ok f, { v with authors := f.authors })) := by
  rw [registerAuthors]
  induction keys generalizing f v with
  | nil =>
    change (Except.ok f, v) = (.ok f, { v with authors := f.authors })
    rw [h]
  | cons key rest ih =>
    rw [List.foldlM_cons, outcome_bind_ok _ (outcome_check_of_eq _ h), ih rfl]
    rfl

theorem outcome_checkLayers (b : Block) (h : f.authors = v.authors) :
    (b.layers.foldlM (checkLayer a) f).outcome v =
      match f.checkLayers a v.links b with
      | .ok f => (.ok f, { v with authors := f.authors })
      | .error e => (.error e, v) := by
  -- A wrapper writes back the authors it found, so the validator is still `v` at the innermost
  -- layer. That is the only one that can add to them, and then it is not a policy.
  induction b generalizing f with
  | terminal raw content =>
    rw [Block.layers, List.foldlM_cons]
    simp only [List.foldlM_nil, bind_pure]
    have hcheck := outcome_check_of_eq (fun v f => f.checkTerminal a v.links content) h
    cases content with
    | policy version payload => rfl
    | data payload => exact hcheck
    | reference hashes => exact hcheck
    | addAuthors keys => exact outcome_registerAuthors a.hasher a.signer keys h
    | ack index link => exact hcheck
  | wrapped raw around inner ih =>
    have hauthors : (f.checkWrapper a inner.raw around).authors = v.authors := by
      rw [Findings.checkWrapper_eq, Findings.authors_extend, h]
    have hcheck : (checkLayer a f (.wrapped raw around inner)).outcome v =
        (.ok (f.checkWrapper a inner.raw around), v) := by
      rw [checkLayer, outcome_check_of_eq _ h, hauthors]
    rw [Block.layers, List.foldlM_cons, outcome_bind_ok _ hcheck, ih hauthors]
    rfl

theorem outcome_submitGenesis (b : Block) (v : Validator) :
    (submitGenesis b).outcome v = (.ok (v.submitGenesis b).1, (v.submitGenesis b).2) := by
  rw [submitGenesis, outcome_get]
  unfold Validator.submitGenesis
  cases b with
  | wrapped raw around inner => rfl
  | terminal raw content =>
    cases content with
    | data payload => rfl
    | reference hashes => rfl
    | addAuthors keys => rfl
    | ack index link => rfl
    | policy version payload =>
      dsimp only
      cases Policy.parse version payload with
      | error e => rfl
      | ok policy =>
        dsimp only
        cases policy.algorithms v.crypto with
        | error e => rfl
        | ok algorithms =>
          cases policy.allowedShapes with
          | error e => rfl
          | ok allowed =>
            have hauthors := outcome_registerAuthors algorithms.1 algorithms.2 policy.authorKeys
              (f := .start v.authors) (v := v) rfl
            exact outcome_bind_ok _ hauthors

theorem outcome_submitBlock (b : Block) (v : Validator) :
    (submitBlock b).outcome v = v.submitBlock b := by
  rw [submitBlock, outcome_get, Validator.submitBlock]
  cases hactive : v.active with
  | none => exact outcome_submitGenesis b v
  | some a =>
    have hauthors : (Findings.ofWhole a v.authors b).authors = v.authors := by
      rw [Findings.ofWhole_eq, Findings.authors_extend]
    have hlayers := @outcome_checkLayers a _ _ b hauthors
    dsimp only
    cases hcheck : (Findings.ofWhole a v.authors b).checkLayers a v.links b with
    | error e =>
      rw [hcheck] at hlayers
      exact outcome_bind_error _ hlayers
    | ok f =>
      rw [hcheck] at hlayers
      exact (outcome_bind_ok _ hlayers).trans rfl

theorem outcome_submit (raw : Bytes) (v : Validator) : (submit raw).outcome v = v.submit raw := by
  rw [submit, outcome_get, Validator.submit]
  cases Block.parse v.config.maxBlockDepth raw with
  | error e =>
    rw [Validator.submitMalformed]
    dsimp only
    cases v.active <;> rfl
  | ok b =>
    have hblock := outcome_submitBlock b v
    dsimp only
    generalize v.submitBlock b = result at hblock
    obtain ⟨answer, v'⟩ := result
    cases answer with
    | error e => exact outcome_bind_error _ hblock
    | ok report => exact outcome_bind_ok _ hblock

def receive : Submission → Evaluation Report
  | .bytes raw => submit raw
  | .block b => submitBlock b

theorem outcome_receive (x : Submission) (v : Validator) : (receive x).outcome v = v.receive x := by
  cases x with
  | bytes raw => exact outcome_submit raw v
  | block b => exact outcome_submitBlock b v

end Evaluation

end TamperEvident
