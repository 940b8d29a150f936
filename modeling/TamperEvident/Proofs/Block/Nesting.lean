import TamperEvident.Proofs.Block.Content
import TamperEvident.Proofs.Block.Depth
import TamperEvident.Proofs.Block.Standalone

/-! The shapes there are: a block is any number of wrappers around one terminal block, and every
such shape is that of some bytes that can be read, as long as the limit has room for it. -/

namespace TamperEvident

/-- Any number of wrappers around one terminal kind. -/
def Shape.Nested (s : Shape) : Prop :=
  ∃ (wrappers : List Kind) (bottom : Kind), s = wrappers ++ [bottom] ∧
    (∀ kind ∈ wrappers, kind.isWrapper = true) ∧ bottom.isWrapper = false

namespace Kind

theorem exists_wrapper {kind : Kind} (h : kind.isWrapper = true) :
    ∃ around : Wrapper Bytes, around.Sized ∧ around.kind = kind := by
  have hempty : ([] : Bytes).length < 2 ^ 64 := by decide
  cases kind with
  | authorSignature => exact ⟨.authorSignature [] [], ⟨hempty, hempty⟩, rfl⟩
  | previousBlock => exact ⟨.previousBlock [], hempty, rfl⟩
  | inContext => exact ⟨.inContext [], hempty, rfl⟩
  | updateContext => exact ⟨.updateContext, trivial, rfl⟩
  | policy | data | reference | addAuthors | ack => cases h

theorem exists_terminal {kind : Kind} (h : kind.isWrapper = false) :
    ∃ content : Terminal, content.Sized ∧ content.kind = kind := by
  have hnone : ∀ b ∈ ([] : List Bytes), b.length < 2 ^ 64 := by simp
  have hempty : ([] : Bytes).length < 2 ^ 64 := by decide
  cases kind with
  | policy => exact ⟨.policy 0 [], trivial, rfl⟩
  | data => exact ⟨.data [], trivial, rfl⟩
  | reference => exact ⟨.reference [], hnone, rfl⟩
  | addAuthors => exact ⟨.addAuthors [], hnone, rfl⟩
  | ack => exact ⟨.ack 0 [], hempty, rfl⟩
  | authorSignature | previousBlock | inContext | updateContext => cases h

end Kind

namespace Block

theorem nested_shape (b : Block) : b.shape.Nested := by
  induction b with
  | terminal raw content => exact ⟨[], content.kind, rfl, by simp, content.isWrapper_kind⟩
  | wrapped raw around inner ih =>
    obtain ⟨wrappers, bottom, hshape, hwrappers, hbottom⟩ := ih
    have houter : ∀ kind ∈ around.kind :: wrappers, kind.isWrapper = true :=
      List.forall_mem_cons.mpr ⟨around.isWrapper_kind, hwrappers⟩
    exact ⟨around.kind :: wrappers, bottom, by rw [shape_wrapped, hshape]; rfl, houter, hbottom⟩

theorem length_shape (b : Block) : b.shape.length = b.depth := List.length_map _

theorem exists_parse {wrappers : List Kind} {bottom : Kind} {limit : Nat}
    (hwrappers : ∀ kind ∈ wrappers, kind.isWrapper = true) (hbottom : bottom.isWrapper = false)
    (hroom : wrappers.length < limit) :
    ∃ raw b, parse limit raw = .ok b ∧ b.shape = wrappers ++ [bottom] := by
  induction wrappers generalizing limit with
  | nil =>
    obtain ⟨content, hsize, rfl⟩ := Kind.exists_terminal hbottom
    exact ⟨_, _, parse_terminal (Nat.ne_of_gt hroom) hsize, rfl⟩
  | cons kind more ih =>
    obtain ⟨hkind, hmore⟩ := List.forall_mem_cons.mp hwrappers
    obtain ⟨around, hsize, rfl⟩ := Kind.exists_wrapper hkind
    obtain ⟨limit, rfl⟩ := Nat.exists_eq_add_one.mpr (Nat.zero_lt_of_lt hroom)
    obtain ⟨raw, inner, hinner, hshape⟩ := ih hmore (Nat.lt_of_succ_lt_succ hroom)
    -- the layers inside stand between what the wrapper writes before and after them
    have hencloses : around.Encloses raw (around.header List.length ++ (raw ++ around.ending)) :=
      ⟨hsize, rfl⟩
    have houter := parse_of_encloses hencloses limit
    rw [hinner, recast] at houter
    exact ⟨_, _, houter, by rw [shape_wrapped, hshape]; rfl⟩

theorem exists_parse_of_nested {s : Shape} {limit : Nat} (h : s.Nested) (hlen : s.length ≤ limit) :
    ∃ raw b, parse limit raw = .ok b ∧ b.shape = s := by
  obtain ⟨wrappers, bottom, rfl, hwrappers, hbottom⟩ := h
  rw [List.length_append, List.length_singleton] at hlen
  exact exists_parse hwrappers hbottom hlen

end Block

end TamperEvident
