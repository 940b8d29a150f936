import TamperEvident.Ledger.Validator

/-! When the checks of a block find nothing: what its layers have to say beside a
state, the authors registered so far and the links recorded so far. -/

namespace TamperEvident

/-- Looked up by id, a table gives the keys of the list and no others. -/
def Registers (h : HashAlgorithm) (authors : AuthorTable) (keys : List Bytes) : Prop :=
  ∀ id key, authors[id]? = some key ↔ key ∈ keys ∧ h.hash key = id

/-- Keys that may be added to the known ones: they have the length of a public key,
and no id stands for two keys. -/
structure Admissible (h : HashAlgorithm) (s : SignatureAlgorithm) (known added : List Bytes) :
    Prop where
  length : ∀ key ∈ added, key.length = s.publicKeyLength
  distinct : ((known ++ added).map h.hash).Nodup

/-- The content of a block has nothing to object to, where `keys` are registered
and `links` recorded. It brings the keys `added`. -/
inductive Terminal.InOrder (h : HashAlgorithm) (s : SignatureAlgorithm) (keys links : List Bytes) :
    Terminal → (added : List Bytes) → Prop
  | data (payload : Bytes) : InOrder h s keys links (.data payload) []
  | addAuthors {added : List Bytes} (hadded : Admissible h s keys added) :
      InOrder h s keys links (.addAuthors added) added
  | ack {index : UInt64} {link : Bytes} (hlink : links[index.toNat]? = some link) :
      InOrder h s keys links (.ack index link) []
  | reference {hashes : List Bytes} (hlength : ∀ hash ∈ hashes, hash.length = h.outputLength) :
      InOrder h s keys links (.reference hashes) []

section Registers

variable {h : HashAlgorithm} {authors : AuthorTable} {keys : List Bytes}

theorem registers_empty : Registers h ∅ [] := by
  intro id key
  simp

theorem Registers.contains_eq_false (hr : Registers h authors keys) {key : Bytes}
    (hnew : h.hash key ∉ keys.map h.hash) : authors.contains (h.hash key) = false := by
  rw [Bool.eq_false_iff]
  intro hc
  rw [Std.ExtTreeMap.contains_eq_isSome_getElem?] at hc
  obtain ⟨known, hknown⟩ := Option.isSome_iff_exists.mp hc
  obtain ⟨hmem, hid⟩ := (hr _ known).mp hknown
  exact hnew (List.mem_map.mpr ⟨known, hmem, hid⟩)

theorem Registers.insert (hr : Registers h authors keys) {key : Bytes}
    (hnew : h.hash key ∉ keys.map h.hash) :
    Registers h (authors.insert (h.hash key) key) (keys ++ [key]) := by
  intro id other
  rw [Std.ExtTreeMap.getElem?_insert, List.mem_append, List.mem_singleton]
  by_cases hid : h.hash key = id
  · rw [if_pos (Std.LawfulEqCmp.compare_eq_iff_eq.mpr hid), Option.some_inj]
    constructor
    · rintro rfl
      exact ⟨.inr rfl, hid⟩
    · rintro ⟨hmem | rfl, hother⟩
      · exact absurd (List.mem_map.mpr ⟨other, hmem, hother.trans hid.symm⟩) hnew
      · rfl
  · rw [if_neg fun hc => hid (Std.LawfulEqCmp.compare_eq_iff_eq.mp hc), hr id other]
    constructor
    · rintro ⟨hmem, hother⟩
      exact ⟨.inl hmem, hother⟩
    · rintro ⟨hmem | rfl, hother⟩
      · exact ⟨hmem, hother⟩
      · exact absurd hother hid

end Registers

namespace Findings

variable {h : HashAlgorithm} {s : SignatureAlgorithm} {a : ActiveLedger} {f : Findings}
  {keys added : List Bytes}

theorem reportIf_of_eq {α : Type} [BEq α] [LawfulBEq α] {x y : α} (hxy : x = y) (p : Problem) :
    f.reportIf (x != y) p = f := by
  rw [reportIf, hxy, bne_self_eq_false, if_neg Bool.false_ne_true]

theorem registerAuthor_of_admissible (hr : Registers h f.authors keys) {key : Bytes}
    (hlength : key.length = s.publicKeyLength) (hnew : h.hash key ∉ keys.map h.hash) :
    f.registerAuthor h s key = { f with authors := f.authors.insert (h.hash key) key } := by
  rw [registerAuthor, reportIf_of_eq hlength, hr.contains_eq_false hnew]
  rfl

theorem foldl_registerAuthor (hr : Registers h f.authors keys) (ha : Admissible h s keys added) :
    ∃ authors, added.foldl (registerAuthor h s) f = { f with authors := authors } ∧
      Registers h authors (keys ++ added) := by
  induction added generalizing f keys with
  | nil => exact ⟨f.authors, rfl, by rwa [List.append_nil]⟩
  | cons key rest ih =>
    obtain ⟨hlength, hlengths⟩ := List.forall_mem_cons.mp ha.length
    have hdistinct : (((keys ++ [key]) ++ rest).map h.hash).Nodup := by
      rw [List.append_assoc]
      exact ha.distinct
    have hnew : h.hash key ∉ keys.map h.hash := by
      intro hmem
      have hd := ha.distinct
      rw [List.map_append, List.nodup_append] at hd
      exact hd.2.2 _ hmem _ List.mem_cons_self rfl
    rw [List.foldl_cons, registerAuthor_of_admissible hr hlength hnew]
    obtain ⟨authors, hfold, hregisters⟩ :=
      @ih { f with authors := f.authors.insert (h.hash key) key } _ (hr.insert hnew)
        ⟨hlengths, hdistinct⟩
    rw [List.append_assoc] at hregisters
    exact ⟨authors, hfold, hregisters⟩

theorem foldl_hashes {n : Nat} {hashes : List Bytes} (hlength : ∀ hash ∈ hashes, hash.length = n) :
    hashes.foldl (fun f hash => f.reportIf (hash.length != n) .invalidHashLength) f = f := by
  induction hashes with
  | nil => rfl
  | cons hash rest ih =>
    obtain ⟨hfirst, hrest⟩ := List.forall_mem_cons.mp hlength
    rw [List.foldl_cons, reportIf_of_eq hfirst, ih hrest]

theorem checkTerminal_of_inOrder {table : LinkTable} {links : List Bytes} {content : Terminal}
    (hlinks : ∀ i : UInt64, table[i]? = links[i.toNat]?) (hr : Registers a.hasher f.authors keys)
    (hcontent : content.InOrder a.hasher a.signer keys links added) :
    ∃ authors, f.checkTerminal a table content = { f with authors := authors } ∧
      Registers a.hasher authors (keys ++ added) := by
  cases hcontent with
  | data payload => exact ⟨f.authors, rfl, by rwa [List.append_nil]⟩
  | addAuthors hadded => exact foldl_registerAuthor hr hadded
  | ack hlink =>
    refine ⟨f.authors, ?_, by rwa [List.append_nil]⟩
    rw [← hlinks] at hlink
    simp only [checkTerminal, hlink, reportIf_of_eq]
  | reference hlength => exact ⟨f.authors, foldl_hashes hlength, by rwa [List.append_nil]⟩

theorem checkLayers_of_inOrder {table : LinkTable} {links : List Bytes} {content : Terminal}
    (raw : Bytes) (hlinks : ∀ i : UInt64, table[i]? = links[i.toNat]?)
    (hr : Registers a.hasher f.authors keys)
    (hcontent : content.InOrder a.hasher a.signer keys links added) :
    ∃ authors, f.checkLayers a table (.terminal raw content) = .ok { f with authors := authors } ∧
      Registers a.hasher authors (keys ++ added) := by
  obtain ⟨authors, hcheck, hregisters⟩ := checkTerminal_of_inOrder hlinks hr hcontent
  refine ⟨authors, ?_, hregisters⟩
  -- none of these is a policy, the one content that is an error
  cases hcontent <;> exact congrArg Except.ok hcheck

theorem checkWrapper_authorSignature {author inner key signature : Bytes}
    (hkey : f.authors[author]? = some key) (hverify : a.signer.verify key inner signature = true) :
    f.checkWrapper a inner (.authorSignature author signature) = f := by
  simp only [checkWrapper, hkey, hverify]
  rfl

/-- The layers that tie a block to what a state stands for. -/
def Ties (state : LedgerState) (around : Wrapper Bytes) : Prop :=
  around = .inContext state.contextLinkHash ∨ around = .previousBlock state.headBlockHash

theorem checkWrapper_of_ties {around : Wrapper Bytes} (ht : Ties a.state around) (inner : Bytes) :
    f.checkWrapper a inner around = f := by
  rcases ht with rfl | rfl
  · rw [checkWrapper, reportIf_of_eq rfl]
  · rw [checkWrapper, reportIf_of_eq rfl]

theorem ofWhole_of_allowed {authors : AuthorTable} {b : Block}
    (hsize : b.raw.length ≤ a.state.policy.maxBlockSize.toNat) (hshape : b.shape ∈ a.allowed) :
    ofWhole a authors b = start authors := by
  have hcontains : a.allowed.contains b.shape = true := Std.ExtTreeSet.contains_iff_mem.mpr hshape
  rw [ofWhole, hcontains]
  simp only [reportIf, decide_eq_true_eq, if_neg (Nat.not_lt.mpr hsize)]
  rfl

end Findings

end TamperEvident
