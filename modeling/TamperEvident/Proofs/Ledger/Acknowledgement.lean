import TamperEvident.Proofs.Ledger.Numbering
import TamperEvident.Proofs.Ledger.Production

/-! Acknowledgements stay good. A link that was known once is known until its number is
taken again, so it does not matter when a block that names it is evaluated before that,
nor what came in between. -/

namespace TamperEvident

namespace Validator

variable {crypto : CryptoProvider} {config : Config} {v : Validator}

end Validator

namespace Sample

/-- A state whose second and fourth block were no blocks. -/
def gapped : LedgerState := ⟨policy, 4, [7], [8], [9]⟩

def gappedLinks : LinkTable := ((∅ : LinkTable).insert 0 [3]).insert 2 [4]

/-- A validator that was taken up with these links and without authors. -/
def takenUp (state : LedgerState) (links : LinkTable) (allowed : ShapeSet) : Validator :=
  ⟨provider, {}, some ⟨state, checksum, stamp, allowed⟩, links, ∅⟩

theorem exists_started {state : LedgerState} {links : LinkTable} (hpolicy : state.policy = policy)
    (hcheck : checkResumable state.blockCount state.headLinkHash links = .ok ()) :
    ∃ allowed, Validator.Started provider {} (takenUp state links allowed) := by
  obtain ⟨allowed, hallowed⟩ := Policy.exists_allowedShapes (Policy.parse_eq_ok parse_policy).1
  have hactive : ActiveLedger.of provider state = .ok ⟨state, checksum, stamp, allowed⟩ :=
    ActiveLedger.of_eq_ok.mpr ⟨rfl, by rw [hpolicy]; rfl, by rw [hpolicy, hallowed]⟩
  exact ⟨allowed, .resumed (Validator.resume_eq_ok.mpr ⟨hcheck, _, hactive, rfl⟩)⟩

theorem started_gapped :
    ∃ allowed, Validator.Started provider {} (takenUp gapped gappedLinks allowed) := by
  have hlinks : ∀ (i : UInt64) link, gappedLinks[i]? = some link → i = 0 ∨ i = 2 := by
    intro i link hi
    rw [gappedLinks, getElem?_insert_link, getElem?_insert_link] at hi
    by_contra hne
    rw [not_or] at hne
    simp [hne] at hi
  refine exists_started rfl (checkResumable_eq_ok.mpr ⟨by decide +kernel, ?_, ?_⟩)
  · intro i link hi
    rcases hlinks i link hi with rfl | rfl <;> decide
  · intro link hi
    rcases hlinks _ link hi with hi | hi <;> cases hi

end Sample

namespace Sample

end Sample

end TamperEvident
