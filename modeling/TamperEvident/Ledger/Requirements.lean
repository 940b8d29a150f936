import TamperEvident.Ledger.Policy
import TamperEvident.Table

/-! What blocks depend on, read off them without any state: acknowledged blocks
have to exist and signers have to be registered. -/

namespace TamperEvident

structure Requirements where
  ackedIndexes : KeySet UInt64 := ∅
  ackedLinks : KeySet Bytes := ∅
  /-- Keys brought by policies and author layers. -/
  newAuthors : KeySet Bytes := ∅
  /-- Author ids of signature layers. -/
  signers : KeySet Bytes := ∅

namespace Requirements

/-- A policy that cannot be read brings nobody. -/
def addTerminal (r : Requirements) : Terminal → Requirements
  | .policy version payload =>
    match Policy.parse version payload with
    | .ok policy => { r with newAuthors := r.newAuthors.insertMany policy.authorKeys }
    | .error _ => r
  | .addAuthors keys => { r with newAuthors := r.newAuthors.insertMany keys }
  | .ack index link =>
    { r with
      ackedIndexes := r.ackedIndexes.insert index
      ackedLinks := r.ackedLinks.insert link }
  | .data _ | .reference _ => r

def addWrapper (r : Requirements) : Wrapper Bytes → Requirements
  | .authorSignature author _ => { r with signers := r.signers.insert author }
  | .previousBlock _ | .inContext _ | .updateContext => r

def add (r : Requirements) : Block → Requirements
  | .terminal _ content => r.addTerminal content
  | .wrapped _ wrapper inner => (r.addWrapper wrapper).add inner

end Requirements

end TamperEvident
