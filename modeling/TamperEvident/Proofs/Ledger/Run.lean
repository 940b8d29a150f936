import TamperEvident.Ledger.Validator
import TamperEvident.Proofs.Block.Layer

/-! Runs of a validator over blocks and bytes in any order, and what a single
submission can do to it. -/

namespace TamperEvident

/-- What a validator is given: bytes, or a block that was read elsewhere. -/
inductive Submission where
  | bytes (raw : Bytes)
  | block (b : Block)

namespace Submission

def raw : Submission → Bytes
  | bytes raw => raw
  | block b => b.raw

def block? (limit : Nat) : Submission → Option Block
  | bytes raw => (Block.parse limit raw).toOption
  | block b => some b

def returned (limit : Nat) : Submission → Option Block
  | bytes raw => (Block.parse limit raw).toOption
  | block _ => none

theorem block?_bytes {limit : Nat} {raw : Bytes} {b : Block} :
    (bytes raw).block? limit = some b ↔ Block.parse limit raw = .ok b := by
  rw [block?]
  cases Block.parse limit raw with
  | error e => simp [Except.toOption]
  | ok b' => simp [Except.toOption]

theorem raw_block? {limit : Nat} {x : Submission} {b : Block} (h : x.block? limit = some b) :
    b.raw = x.raw := by
  cases x with
  | bytes raw => exact Block.raw_parse (block?_bytes.mp h)
  | block b' =>
    obtain rfl := Option.some.inj h
    rfl

end Submission

namespace Validator

def receive (v : Validator) : Submission → Except LedgerError Report × Validator
  | .bytes raw => v.submit raw
  | .block b => v.submitBlock b

/-- The ways a submission can go. A validator without blocks refuses all but a
policy it can follow; later only a policy leaves it as it was. -/
inductive Transition (v : Validator) (x : Submission) : Except LedgerError Report → Validator → Prop
  | unread (hactive : v.active = none) (hblock : x.block? v.config.maxBlockDepth = none) :
      Transition v x (.ok ⟨none, none, [.malformedBlock]⟩) v
  | refused {b : Block} {p : Problem} (hactive : v.active = none)
      (hblock : x.block? v.config.maxBlockDepth = some b)
      (hrefused : v.submitGenesis b = (⟨none, none, [p]⟩, v)) :
      Transition v x (.ok ⟨none, x.returned v.config.maxBlockDepth, [p]⟩) v
  | founded {version : UInt64} {payload : Bytes} {policy : Policy} {hasher : HashAlgorithm}
      {signer : SignatureAlgorithm} {allowed : ShapeSet} {f : Findings} {state : LedgerState}
      (hactive : v.active = none)
      (hblock : x.block? v.config.maxBlockDepth =
        some (.terminal x.raw (.policy version payload)))
      (hpolicy : Policy.parse version payload = .ok policy)
      (halgorithms : policy.algorithms v.crypto = .ok (hasher, signer))
      (hallowed : policy.allowedShapes = .ok allowed)
      (hauthors : policy.authorKeys.foldl (Findings.registerAuthor hasher signer)
        (.start v.authors) = f)
      (hstate : LedgerState.genesis hasher policy x.raw = state) :
      Transition v x (.ok ⟨some state, x.returned v.config.maxBlockDepth, f.problems.toList⟩)
        { v with
          active := some ⟨state, hasher, signer, allowed⟩
          authors := f.authors
          links := v.links.insert state.headIndex state.headLinkHash }
  | malformed {a : ActiveLedger} {next : LedgerState} (hactive : v.active = some a)
      (hblock : x.block? v.config.maxBlockDepth = none)
      (hnext : a.state.advance a.hasher x.raw false = next) :
      Transition v x (.ok ⟨some next, none, [.malformedBlock]⟩)
        { v with active := some { a with state := next } }
  | amended {a : ActiveLedger} {b : Block} {e : LedgerError} (hactive : v.active = some a)
      (hblock : x.block? v.config.maxBlockDepth = some b)
      (hcheck : (Findings.ofWhole a v.authors b).checkLayers a v.links b = .error e) :
      Transition v x (.error e) v
  | extended {a : ActiveLedger} {b : Block} {f : Findings} {next : LedgerState}
      (hactive : v.active = some a) (hblock : x.block? v.config.maxBlockDepth = some b)
      (hcheck : (Findings.ofWhole a v.authors b).checkLayers a v.links b = .ok f)
      (hnext : a.state.advance a.hasher x.raw f.updatesContext = next) :
      Transition v x (.ok ⟨some next, x.returned v.config.maxBlockDepth, f.problems.toList⟩)
        { v with
          active := some { a with state := next }
          authors := f.authors
          links := v.links.insert next.headIndex next.headLinkHash }

theorem submitGenesis_cases (v : Validator) (b : Block) :
    (∃ p, v.submitGenesis b = (⟨none, none, [p]⟩, v)) ∨
    ∃ raw version payload policy hasher signer allowed,
      b = .terminal raw (.policy version payload) ∧
      Policy.parse version payload = .ok policy ∧
      policy.algorithms v.crypto = .ok (hasher, signer) ∧
      policy.allowedShapes = .ok allowed ∧
      v.submitGenesis b =
        (let f := policy.authorKeys.foldl (Findings.registerAuthor hasher signer) (.start v.authors)
        let state := LedgerState.genesis hasher policy raw
        (⟨some state, none, f.problems.toList⟩,
          { v with
            active := some ⟨state, hasher, signer, allowed⟩
            authors := f.authors
            links := v.links.insert state.headIndex state.headLinkHash })) := by
  unfold submitGenesis
  dsimp only
  split
  · rename_i raw version payload
    split
    · exact .inl ⟨_, rfl⟩
    · rename_i policy hpolicy
      split
      · rename_i hasher signer allowed halg hall
        exact .inr ⟨raw, version, payload, policy, hasher, signer, allowed, rfl, hpolicy, halg,
          hall, rfl⟩
      · exact .inl ⟨_, rfl⟩
  · exact .inl ⟨_, rfl⟩

theorem submitBlock_founding {v : Validator} {raw payload : Bytes} {version : UInt64}
    {policy : Policy} {hasher : HashAlgorithm} {signer : SignatureAlgorithm} {allowed : ShapeSet}
    (hactive : v.active = none) (hpolicy : Policy.parse version payload = .ok policy)
    (halgorithms : policy.algorithms v.crypto = .ok (hasher, signer))
    (hallowed : policy.allowedShapes = .ok allowed) :
    v.submitBlock (.terminal raw (.policy version payload)) =
      (let f := policy.authorKeys.foldl (Findings.registerAuthor hasher signer) (.start v.authors)
      let state := LedgerState.genesis hasher policy raw
      (.ok ⟨some state, none, f.problems.toList⟩,
        { v with
          active := some ⟨state, hasher, signer, allowed⟩
          authors := f.authors
          links := v.links.insert state.headIndex state.headLinkHash })) := by
  simp only [submitBlock, hactive, submitGenesis, hpolicy, halgorithms, hallowed, recordLink]

theorem submitBlock_of_checkLayers {v : Validator} {a : ActiveLedger} {b : Block} {f : Findings}
    (hactive : v.active = some a)
    (hcheck : (Findings.ofWhole a v.authors b).checkLayers a v.links b = .ok f) :
    v.submitBlock b =
      (let next := a.state.advance a.hasher b.raw f.updatesContext
      (.ok ⟨some next, none, f.problems.toList⟩,
        { v with
          active := some { a with state := next }
          authors := f.authors
          links := v.links.insert next.headIndex next.headLinkHash })) := by
  simp only [submitBlock, hactive, hcheck, install, recordLink]

theorem block_submitBlock (v : Validator) (b : Block) :
    (v.submitBlock b).1.map (fun r => { r with block := none }) = (v.submitBlock b).1 := by
  unfold submitBlock
  cases v.active with
  | none =>
    obtain ⟨p, h⟩ | ⟨_, _, _, _, _, _, _, _, _, _, _, h⟩ := v.submitGenesis_cases b
    · simp only [h, Except.map]
    · simp only [h, Except.map]
  | some a =>
    dsimp only
    cases (Findings.ofWhole a v.authors b).checkLayers a v.links b <;> rfl

theorem transition_submitBlock {v : Validator} {x : Submission} {b : Block}
    (hblock : x.block? v.config.maxBlockDepth = some b) :
    Transition v x
      ((v.submitBlock b).1.map fun r => { r with block := x.returned v.config.maxBlockDepth })
      (v.submitBlock b).2 := by
  have hraw := Submission.raw_block? hblock
  unfold submitBlock
  cases hactive : v.active with
  | none =>
    obtain ⟨p, h⟩ | ⟨raw, version, payload, policy, hasher, signer, allowed, rfl, hpolicy, halg,
      hall, h⟩ := v.submitGenesis_cases b
    · simp only [h, Except.map]
      exact .refused hactive hblock h
    · obtain rfl : raw = x.raw := hraw
      simp only [h, Except.map]
      exact .founded hactive hblock hpolicy halg hall rfl rfl
  | some a =>
    cases hcheck : (Findings.ofWhole a v.authors b).checkLayers a v.links b with
    | error e =>
      simp only [hcheck, Except.map]
      exact .amended hactive hblock hcheck
    | ok f =>
      simp only [hcheck, Except.map, install, recordLink]
      exact .extended hactive hblock hcheck (by rw [hraw])

theorem receive_of_block? {v : Validator} {x : Submission} {b : Block}
    (hblock : x.block? v.config.maxBlockDepth = some b) :
    v.receive x =
      ((v.submitBlock b).1.map fun r => { r with block := x.returned v.config.maxBlockDepth },
        (v.submitBlock b).2) := by
  cases x with
  | bytes raw =>
    rw [receive, submit, Submission.returned, Submission.block?_bytes.mp hblock]
    rfl
  | block b' =>
    obtain rfl := Option.some.inj hblock
    rw [receive, Submission.returned, block_submitBlock]

theorem receive_of_unread {v : Validator} {x : Submission}
    (hblock : x.block? v.config.maxBlockDepth = none) :
    v.receive x = (.ok (v.submitMalformed x.raw).1, (v.submitMalformed x.raw).2) := by
  cases x with
  | block b => cases hblock
  | bytes raw =>
    rw [receive, submit]
    cases hparse : Block.parse v.config.maxBlockDepth raw with
    | ok b =>
      rw [Submission.block?_bytes.mpr hparse] at hblock
      cases hblock
    | error e => rfl

theorem transition_receive (v : Validator) (x : Submission) :
    Transition v x (v.receive x).1 (v.receive x).2 := by
  cases hblock : x.block? v.config.maxBlockDepth with
  | some b =>
    rw [receive_of_block? hblock]
    exact transition_submitBlock hblock
  | none =>
    rw [receive_of_unread hblock]
    cases hactive : v.active with
    | none =>
      simp only [submitMalformed, hactive]
      exact .unread hactive hblock
    | some a =>
      simp only [submitMalformed, hactive, install]
      exact .malformed hactive hblock rfl

theorem receive_error {v : Validator} {x : Submission} {e : LedgerError}
    (h : (v.receive x).1 = .error e) : (v.receive x).2 = v := by
  have ht := transition_receive v x
  rw [h] at ht
  generalize (v.receive x).2 = v' at ht
  cases ht with
  | amended => rfl

/-- An active validator has a state for all that it does not answer by an error. -/
theorem receive_ok {v : Validator} {x : Submission} {report : Report} {a : ActiveLedger}
    (hactive : v.active = some a) (h : (v.receive x).1 = .ok report) :
    report.state.isSome = true := by
  have ht := transition_receive v x
  rw [h] at ht
  generalize (v.receive x).2 = v' at ht
  cases ht with
  | unread hnone => simp [hactive] at hnone
  | refused hnone => simp [hactive] at hnone
  | founded hnone => simp [hactive] at hnone
  | malformed => rfl
  | extended => rfl

def runFrom (v : Validator) (inputs : List Submission) : Validator :=
  inputs.foldl (fun v x => (v.receive x).2) v

end Validator

def problemsOf : Except LedgerError Report → List Problem
  | .ok report => report.problems
  | .error _ => []

/-- What a chain commits to at one index. Bytes that are no block count too. -/
structure Commit where
  raw : Bytes
  block : Option Block

def Submission.commit? (limit : Nat) (x : Submission) :
    Except LedgerError Report → Option Commit
  | .ok report => if report.state.isSome then some ⟨x.raw, x.block? limit⟩ else none
  | .error _ => none

namespace Submission

variable (limit : Nat) (x : Submission) (block : Option Block) (problems : List Problem)

@[simp] theorem commit?_some (s : LedgerState) :
    x.commit? limit (.ok ⟨some s, block, problems⟩) = some ⟨x.raw, x.block? limit⟩ := rfl

@[simp] theorem commit?_none : x.commit? limit (.ok ⟨none, block, problems⟩) = none := rfl

@[simp] theorem commit?_error (e : LedgerError) : x.commit? limit (.error e) = none := rfl

end Submission

namespace Validator

def commitsFrom (v : Validator) : List Submission → List Commit
  | [] => []
  | x :: rest =>
    (x.commit? v.config.maxBlockDepth (v.receive x).1).toList ++ commitsFrom (v.receive x).2 rest

def answersFrom (v : Validator) : List Submission → List (Except LedgerError Report)
  | [] => []
  | x :: rest => (v.receive x).1 :: answersFrom (v.receive x).2 rest

theorem runFrom_nil (v : Validator) : v.runFrom [] = v := rfl

theorem runFrom_cons (v : Validator) (x : Submission) (rest : List Submission) :
    v.runFrom (x :: rest) = (v.receive x).2.runFrom rest := rfl

theorem runFrom_concat (v : Validator) (inputs : List Submission) (x : Submission) :
    v.runFrom (inputs ++ [x]) = ((v.runFrom inputs).receive x).2 := by
  rw [runFrom, List.foldl_append]
  rfl

theorem answersFrom_append (v : Validator) (inputs later : List Submission) :
    v.answersFrom (inputs ++ later) =
      v.answersFrom inputs ++ (v.runFrom inputs).answersFrom later := by
  induction inputs generalizing v with
  | nil => rfl
  | cons x rest ih =>
    rw [List.cons_append, answersFrom, ih, answersFrom, runFrom_cons]
    rfl

theorem answersFrom_concat (v : Validator) (inputs : List Submission) (x : Submission) :
    v.answersFrom (inputs ++ [x]) = v.answersFrom inputs ++ [((v.runFrom inputs).receive x).1] :=
  v.answersFrom_append inputs [x]

theorem commitsFrom_append (v : Validator) (inputs later : List Submission) :
    v.commitsFrom (inputs ++ later) =
      v.commitsFrom inputs ++ (v.runFrom inputs).commitsFrom later := by
  induction inputs generalizing v with
  | nil => rfl
  | cons x rest ih =>
    rw [List.cons_append, commitsFrom, ih, commitsFrom, List.append_assoc]
    rfl

theorem commitsFrom_concat (v : Validator) (inputs : List Submission) (x : Submission) :
    v.commitsFrom (inputs ++ [x]) = v.commitsFrom inputs ++
      (x.commit? (v.runFrom inputs).config.maxBlockDepth
        ((v.runFrom inputs).receive x).1).toList := by
  rw [commitsFrom_append, commitsFrom, commitsFrom, List.append_nil]

theorem length_commitsFrom_le (v : Validator) (inputs : List Submission) :
    (v.commitsFrom inputs).length ≤ inputs.length := by
  induction inputs generalizing v with
  | nil => exact Nat.le_refl 0
  | cons x rest ih =>
    rw [commitsFrom, List.length_append, List.length_cons, Nat.add_comm]
    exact Nat.add_le_add (ih _) Option.length_toList_le

/-- What holds at first and is kept by every transition holds after every run, of
the validator, of all it committed to and of all it answered. -/
theorem answers_induction
    {motive : Validator → List Commit → List (Except LedgerError Report) → Prop}
    (step : ∀ v commits answers x answer v', Transition v x answer v' → motive v commits answers →
      motive v' (commits ++ (x.commit? v.config.maxBlockDepth answer).toList) (answers ++ [answer]))
    {v : Validator} {commits : List Commit} {answers : List (Except LedgerError Report)}
    (h : motive v commits answers) (inputs : List Submission) :
    motive (v.runFrom inputs) (commits ++ v.commitsFrom inputs)
      (answers ++ v.answersFrom inputs) := by
  induction inputs generalizing v commits answers with
  | nil => rwa [commitsFrom, answersFrom, List.append_nil, List.append_nil]
  | cons x rest ih =>
    have hh := ih (step v commits answers x _ _ (transition_receive v x) h)
    rwa [List.append_assoc, List.append_assoc] at hh

theorem run_induction {motive : Validator → List Commit → Prop}
    (step : ∀ v commits x answer v', Transition v x answer v' → motive v commits →
      motive v' (commits ++ (x.commit? v.config.maxBlockDepth answer).toList))
    {v : Validator} {commits : List Commit} (h : motive v commits) (inputs : List Submission) :
    motive (v.runFrom inputs) (commits ++ v.commitsFrom inputs) :=
  @answers_induction (fun v commits _ => motive v commits)
    (fun v commits _ x answer v' => step v commits x answer v') v commits [] h inputs

theorem Transition.crypto_eq {v v' : Validator} {x : Submission}
    {answer : Except LedgerError Report} (h : Transition v x answer v') :
    v'.crypto = v.crypto := by
  cases h <;> rfl

theorem Transition.config_eq {v v' : Validator} {x : Submission}
    {answer : Except LedgerError Report} (h : Transition v x answer v') :
    v'.config = v.config := by
  cases h <;> rfl

theorem crypto_runFrom (v : Validator) (inputs : List Submission) :
    (v.runFrom inputs).crypto = v.crypto := by
  induction inputs generalizing v with
  | nil => rfl
  | cons x rest ih => exact (ih _).trans (transition_receive v x).crypto_eq

theorem config_runFrom (v : Validator) (inputs : List Submission) :
    (v.runFrom inputs).config = v.config := by
  induction inputs generalizing v with
  | nil => rfl
  | cons x rest ih => exact (ih _).trans (transition_receive v x).config_eq

end Validator

end TamperEvident
