/-! What can be wrong with a block that is evaluated. A problem is reported; it
stops neither the other checks nor the chain. -/

namespace TamperEvident

inductive Problem where
  | malformedBlock
  | blockTooBig
  | blockTypeNotAllowed
  | cannotParsePolicy
  | invalidHashLength
  | blockNotFound
  | blockLinkHashMismatch
  | invalidAuthorKey
  | authorAlreadyPresent
  | authorNotFound
  | invalidSignature
  | previousBlockHashMismatch
  | contextLinkHashMismatch
  deriving DecidableEq, Repr

namespace Problem

def all : List Problem :=
  [malformedBlock, blockTooBig, blockTypeNotAllowed, cannotParsePolicy, invalidHashLength,
    blockNotFound, blockLinkHashMismatch, invalidAuthorKey, authorAlreadyPresent, authorNotFound,
    invalidSignature, previousBlockHashMismatch, contextLinkHashMismatch]

def name : Problem → String
  | malformedBlock => "MalformedBlock"
  | blockTooBig => "BlockTooBig"
  | blockTypeNotAllowed => "BlockTypeNotAllowed"
  | cannotParsePolicy => "CannotParsePolicy"
  | invalidHashLength => "InvalidHashLength"
  | blockNotFound => "BlockNotFound"
  | blockLinkHashMismatch => "BlockLinkHashMismatch"
  | invalidAuthorKey => "InvalidAuthorKey"
  | authorAlreadyPresent => "AuthorAlreadyPresent"
  | authorNotFound => "AuthorNotFound"
  | invalidSignature => "InvalidSignature"
  | previousBlockHashMismatch => "PreviousBlockHashMismatch"
  | contextLinkHashMismatch => "ContextLinkHashMismatch"

def ofName? (name : String) : Option Problem := all.find? (·.name == name)

def description : Problem → String
  | malformedBlock => "block bytes cannot be parsed"
  | blockTooBig => "block exceeds the policy's max block size"
  | blockTypeNotAllowed => "block shape is not allowed by the policy"
  | cannotParsePolicy => "policy cannot be parsed"
  | invalidHashLength => "referenced hash has the wrong length"
  | blockNotFound => "acknowledged block is unknown"
  | blockLinkHashMismatch => "acknowledged link hash does not match"
  | invalidAuthorKey => "author key has the wrong length"
  | authorAlreadyPresent => "author is already registered"
  | authorNotFound => "signing author is unknown"
  | invalidSignature => "author signature does not verify"
  | previousBlockHashMismatch => "previous block hash does not match the head"
  | contextLinkHashMismatch => "context link hash does not match"

end Problem

end TamperEvident
