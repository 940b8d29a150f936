/-! The closed set of block kinds and the numbers that mark them on the wire.
A tag is the ASCII code of a mnemonic letter, so a simple block is readable in
a dump. -/

namespace TamperEvident

inductive Kind where
  | policy
  | data
  | reference
  | addAuthors
  | ack
  | authorSignature
  | previousBlock
  | inContext
  | updateContext
  deriving DecidableEq, Repr

namespace Kind

def all : List Kind :=
  [policy, data, reference, addAuthors, ack, authorSignature, previousBlock, inContext,
    updateContext]

def tag : Kind → Nat
  | policy => 71
  | data => 68
  | reference => 82
  | addAuthors => 65
  | ack => 75
  | authorSignature => 83
  | previousBlock => 80
  | inContext => 67
  | updateContext => 85

def ofTag? (tag : Nat) : Option Kind := all.find? (·.tag == tag)

def isWrapper : Kind → Bool
  | authorSignature | previousBlock | inContext | updateContext => true
  | policy | data | reference | addAuthors | ack => false

def name : Kind → String
  | policy => "Policy"
  | data => "Data"
  | reference => "Reference"
  | addAuthors => "AddAuthors"
  | ack => "Ack"
  | authorSignature => "AuthorSignature"
  | previousBlock => "PreviousBlock"
  | inContext => "InContext"
  | updateContext => "UpdateContext"

def ofName? (name : String) : Option Kind := all.find? (·.name == name)

def allByTag : List Kind := all.mergeSort (·.tag ≤ ·.tag)

@[simp] theorem ofTag?_tag (k : Kind) : ofTag? k.tag = some k := by cases k <;> decide

theorem tag_of_ofTag? {n : Nat} {k : Kind} (h : ofTag? n = some k) : k.tag = n := by
  simpa using List.find?_some h

theorem eq_of_tag_eq {k l : Kind} (h : k.tag = l.tag) : k = l := by
  simpa [← h] using ofTag?_tag l

instance : Ord Kind := ⟨compareOn tag⟩

instance : Std.TransOrd Kind := inferInstanceAs (Std.TransCmp (compareOn tag))

instance : Std.LawfulEqOrd Kind where
  eq_of_compare {k l} h :=
    eq_of_tag_eq (Std.LawfulEqOrd.eq_of_compare (show compare k.tag l.tag = .eq from h))

end Kind

end TamperEvident
