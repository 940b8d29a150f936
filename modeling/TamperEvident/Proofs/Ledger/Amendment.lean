import TamperEvident.Proofs.Ledger.Evaluation
import TamperEvident.Proofs.Ledger.FailedCalls
import TamperEvident.Proofs.Ledger.Observers

/-! A policy after the first block. It is the one input that makes a call fail, and the call is
then as if it had not been made. -/

namespace TamperEvident

namespace Validator

variable {v v' : Validator} {x : Submission} {e : LedgerError}

def taken (v : Validator) : List Submission → List Submission
  | [] => []
  | x :: rest => (if (v.receive x).1.isOk then [x] else []) ++ taken (v.receive x).2 rest

theorem receive_eq_error :
    v.receive x = (.error e, v') ↔ v.active ≠ none ∧
      (∃ b, x.block? v.config.maxBlockDepth = some b ∧ b.innermost.kind = .policy) ∧
      e = .amendmentUnsupported v.blockCount ∧ v' = v := by
  constructor
  · intro h
    have ht := transition_receive v x
    rw [h] at ht
    have herror := ht.error_eq
    cases ht with
    | @amended a b _ hactive hblock hcheck =>
      have hkind : b.content.kind = .policy := by
        by_contra hkind
        rw [Findings.check_eq_ok.mpr ⟨hkind, rfl⟩] at hcheck
        cases hcheck
      refine ⟨?_, ⟨b, hblock, b.kind_innermost.trans hkind⟩, herror, rfl⟩
      rw [hactive]
      exact Option.some_ne_none a
  · rintro ⟨hactive, ⟨b, hblock, hkind⟩, rfl, rfl⟩
    obtain ⟨a, ha⟩ := Option.ne_none_iff_exists'.mp hactive
    rw [receive_of_policy ha hblock (b.kind_innermost.symm.trans hkind), blockCount, state?, ha]
    rfl

theorem exists_receive_error :
    (∃ e v', v.receive x = (.error e, v')) ↔ v.active ≠ none ∧
      ∃ b, x.block? v.config.maxBlockDepth = some b ∧ b.innermost.kind = .policy := by
  simp only [receive_eq_error]
  constructor
  · rintro ⟨_, _, hactive, hpolicy, _⟩
    exact ⟨hactive, hpolicy⟩
  · rintro ⟨hactive, hpolicy⟩
    exact ⟨_, _, hactive, hpolicy, rfl, rfl⟩

theorem run_taken (v : Validator) (inputs : List Submission) :
    v.runFrom (v.taken inputs) = v.runFrom inputs ∧
      v.answersFrom (v.taken inputs) = (v.answersFrom inputs).filter (·.isOk) := by
  induction inputs generalizing v with
  | nil => exact ⟨rfl, rfl⟩
  | cons x rest ih =>
    obtain ⟨hrun, hanswers⟩ := ih (v.receive x).2
    rw [answersFrom, runFrom_cons]
    cases hx : (v.receive x).1 with
    | ok report =>
      have htaken : v.taken (x :: rest) = x :: (v.receive x).2.taken rest := by
        rw [taken, hx]
        rfl
      rw [htaken, runFrom_cons, answersFrom, hx, hanswers]
      exact ⟨hrun, rfl⟩
    | error e =>
      have htaken : v.taken (x :: rest) = v.taken rest := by
        rw [taken, hx, receive_error hx]
        rfl
      rw [receive_error hx] at hrun hanswers ⊢
      rw [htaken]
      exact ⟨hrun, hanswers⟩

end Validator

/-- A call fails exactly if the validator is active and what it is given is a block with a policy
inside, with whatever layers around it. It then names the block that would have been next and has
written nothing, and all that comes later is answered as if the call had not been made. -/
theorem policy_fails_without_a_trace (v : Validator) :
    (∀ b, (∃ e v', (Evaluation.submitBlock b).outcome v = (.error e, v')) ↔
      v.active ≠ none ∧ b.innermost.kind = .policy) ∧
    (∀ raw, (∃ e v', (Evaluation.submit raw).outcome v = (.error e, v')) ↔
      v.active ≠ none ∧
        ∃ b, Block.parse v.config.maxBlockDepth raw = .ok b ∧ b.innermost.kind = .policy) ∧
    (∀ x e v', (Evaluation.receive x).outcome v = (.error e, v') →
      e = .amendmentUnsupported v.blockCount ∧ v' = v) ∧
    (∀ x, (Evaluation.receive x).outcome v = v.receive x) ∧
    ∀ inputs, v.runFrom (v.taken inputs) = v.runFrom inputs ∧
      v.answersFrom (v.taken inputs) = (v.answersFrom inputs).filter (·.isOk) := by
  refine ⟨fun b => ?_, fun raw => ?_, fun x e v' h => ?_,
    fun x => Evaluation.outcome_receive x v, v.run_taken⟩
  · rw [Evaluation.outcome_submitBlock]
    refine (Validator.exists_receive_error (x := .block b)).trans (and_congr_right fun _ => ?_)
    simp only [Submission.block?, Option.some.injEq, exists_eq_left']
  · rw [Evaluation.outcome_submit]
    refine (Validator.exists_receive_error (x := .bytes raw)).trans (and_congr_right fun _ => ?_)
    simp only [Submission.block?_bytes]
  · rw [Evaluation.outcome_receive, Validator.receive_eq_error] at h
    exact h.2.2

/-- The first policy again with a layer around it, and then bytes that are no block. -/
theorem policy_fails_without_a_trace_nested :
    Validator.Reachable Sample.provider {} Sample.founded ∧
    (Evaluation.submit Sample.nested).outcome Sample.founded =
      (.error (.amendmentUnsupported 1), Sample.founded) ∧
    Sample.founded.taken [.bytes Sample.nested, .bytes [0]] = [.bytes [0]] ∧
    Sample.founded.runFrom [.bytes [0]] =
      Sample.founded.runFrom [.bytes Sample.nested, .bytes [0]] := by
  obtain ⟨_, hsubmit, hfailed, hreceive, hruns⟩ := policy_fails_without_a_trace Sample.founded
  have hlimit : Sample.founded.config.maxBlockDepth = 8 :=
    congrArg Config.maxBlockDepth Sample.reachable_founded.config_eq
  obtain ⟨a, links, authors, hfounded, _⟩ := Sample.exists_founded_eq
  have hactive : Sample.founded.active ≠ none := by
    rw [hfounded]
    exact Option.some_ne_none a
  have hreads : Block.ReadsPolicy Sample.founded.config.maxBlockDepth Sample.nested := by
    rw [hlimit]
    exact Sample.readsPolicy_nested.1.mono (by decide)
  obtain ⟨e, v', herror⟩ := (hsubmit Sample.nested).mpr ⟨hactive, hreads⟩
  obtain ⟨rfl, rfl⟩ := hfailed (.bytes Sample.nested) e v' herror
  rw [Sample.blockCount_founded] at herror
  have hnested := hreceive (.bytes Sample.nested)
  rw [Evaluation.receive, herror] at hnested
  obtain ⟨s, v, hsecond, _⟩ := Sample.receive_second
  have htaken : Sample.founded.taken [.bytes Sample.nested, .bytes [0]] = [.bytes [0]] := by
    simp only [Validator.taken, ← hnested, hsecond]
    rfl
  have hrun := (hruns [.bytes Sample.nested, .bytes [0]]).1
  rw [htaken] at hrun
  exact ⟨Sample.reachable_founded, herror, htaken, hrun⟩

end TamperEvident
