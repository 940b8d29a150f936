import TamperEvident.Block.Error

/-! Blocks: a terminal block inside any number of wrappers, each layer kept
with the exact bytes it was read from. -/

namespace TamperEvident

/-- Content of the block at the bottom of a nesting. -/
inductive Terminal where
  | policy (version : UInt64) (payload : Bytes)
  | data (payload : Bytes)
  | reference (hashes : List Bytes)
  | addAuthors (keys : List Bytes)
  | ack (index : UInt64) (link : Bytes)
  deriving DecidableEq, Repr

/-- A layer around one inner block. `σ` is what stands for a signature. -/
inductive Wrapper (σ : Type) where
  | authorSignature (author : Bytes) (signature : σ)
  | previousBlock (hash : Bytes)
  | inContext (link : Bytes)
  | updateContext
  deriving DecidableEq, Repr

inductive Block where
  | terminal (raw : Bytes) (content : Terminal)
  | wrapped (raw : Bytes) (wrapper : Wrapper Bytes) (inner : Block)
  deriving DecidableEq, Repr

def Terminal.kind : Terminal → Kind
  | .policy .. => .policy
  | .data .. => .data
  | .reference .. => .reference
  | .addAuthors .. => .addAuthors
  | .ack .. => .ack

def Wrapper.kind {σ : Type} : Wrapper σ → Kind
  | .authorSignature .. => .authorSignature
  | .previousBlock .. => .previousBlock
  | .inContext .. => .inContext
  | .updateContext => .updateContext

namespace Block

def raw : Block → Bytes
  | terminal raw _ => raw
  | wrapped raw _ _ => raw

def kind : Block → Kind
  | terminal _ content => content.kind
  | wrapped _ wrapper _ => wrapper.kind

/-- This block and every block inside it, outermost first. -/
def layers : Block → List Block
  | b@(terminal _ _) => [b]
  | b@(wrapped _ _ inner) => b :: inner.layers

def innermost : Block → Block
  | b@(terminal _ _) => b
  | wrapped _ _ inner => inner.innermost

def depth (b : Block) : Nat := b.layers.length

def shape (b : Block) : Shape := b.layers.map kind

def updatesContext : Block → Bool
  | terminal _ _ => false
  | wrapped _ .updateContext _ => true
  | wrapped _ _ inner => inner.updatesContext

end Block

end TamperEvident
