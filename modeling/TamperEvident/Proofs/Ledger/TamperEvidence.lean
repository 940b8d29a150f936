import TamperEvident.Proofs.Commitment
import TamperEvident.Proofs.Ledger.Audited
import TamperEvident.Proofs.Merkle.Trace

/-! What an accepted proof tells about two audited ledgers: the raw blocks of the
older one begin the other, or something that was hashed on the way has the digest
of something else that was. No digest is assumed to be hard to find twice. -/

namespace TamperEvident

namespace Digest

def leafMessage (value : Bytes) : Bytes := 0 :: value

def nodeMessage (left right : Digest) : Bytes := 1 :: (left.bytes ++ right.bytes)

theorem leafMessage_injective : Function.Injective leafMessage :=
  fun _ _ h => (List.cons.inj h).2

theorem nodeMessage_injective2 : Function.Injective2 nodeMessage := by
  intro a a' b b' h
  have hbytes := (List.cons.inj h).2
  have hlen : a.bytes.length = a'.bytes.length := by rw [a.length_eq, a'.length_eq]
  obtain ⟨hleft, hright⟩ := List.append_inj hbytes hlen
  cases a
  cases a'
  cases b
  cases b'
  exact ⟨by simpa using hleft, by simpa using hright⟩

theorem leafMessage_ne_nodeMessage (value : Bytes) (left right : Digest) :
    leafMessage value ≠ nodeMessage left right :=
  fun h => absurd (List.cons.inj h).1 (by decide)

def Hashed (messages : List Bytes) (left right : Digest) : Prop :=
  nodeMessage left right ∈ messages

variable {messages : List Bytes}

theorem injectiveWithin_hashed (hinj : Set.InjOn blake3 {m | m ∈ messages}) :
    InjectiveWithin combine (Hashed messages) :=
  fun _ _ _ _ hab hab' h => nodeMessage_injective2 (hinj hab hab' h)

theorem apart_hashed (hinj : Set.InjOn blake3 {m | m ∈ messages}) {values : List Bytes}
    (hvalues : values.map leafMessage ⊆ messages) :
    Apart combine (Hashed messages) (values.map leaf) := by
  intro x hx left right hhashed h
  obtain ⟨value, hvalue, rfl⟩ := List.mem_map.mp hx
  have hmem := hvalues (List.mem_map_of_mem hvalue)
  exact leafMessage_ne_nodeMessage value left right (hinj hmem hhashed h.symm)

theorem eq_of_map_leaf (hinj : Set.InjOn blake3 {m | m ∈ messages}) {as bs : List Bytes}
    (has : as.map leafMessage ⊆ messages) (hbs : bs.map leafMessage ⊆ messages)
    (h : as.map leaf = bs.map leaf) : as = bs := by
  induction as generalizing bs with
  | nil => exact (List.map_eq_nil_iff.mp h.symm).symm
  | cons a as ih =>
    cases bs with
    | nil => cases h
    | cons b bs =>
      simp only [List.map_cons, List.cons_subset] at has hbs
      obtain ⟨hfirst, hrest⟩ := List.cons.inj h
      rw [leafMessage_injective (hinj has.1 hbs.1 hfirst), ih has.2 hbs.2 hrest]

end Digest

/-- What is hashed while the values become leaves of a tree one by one and the
root is taken after each. -/
def Tree.messages (values : List Bytes) : List Bytes :=
  values.map Digest.leafMessage ++
    (Tree.joins Digest.combine (values.map Digest.leaf)).map fun p => Digest.nodeMessage p.1 p.2

def Step.messages (steps : List (Step Digest)) : List Bytes :=
  (Step.joins Digest.combine steps).map fun p => Digest.nodeMessage p.1 p.2

/-- Steps that show a root over the first values to be older than a root over
others show that those others begin with them. -/
theorem take_isPrefix_of_consistencyHolds {as bs messages : List Bytes}
    (hinj : Set.InjOn Digest.blake3 {m | m ∈ messages}) {n : Nat} (hn : n ≤ as.length)
    {old new : Digest} (hold : listRoot Digest.combine ((as.map Digest.leaf).take n) = some old)
    (hnew : listRoot Digest.combine (bs.map Digest.leaf) = some new) {steps : List (Step Digest)}
    (has : Tree.messages as ⊆ messages) (hbs : Tree.messages bs ⊆ messages)
    (hsteps : Step.messages steps ⊆ messages)
    (h : consistencyHolds Digest.combine old new steps = true) : as.take n <+: bs := by
  have hhashed : ∀ {joins : List (Digest × Digest)},
      (joins.map fun p => Digest.nodeMessage p.1 p.2) ⊆ messages →
      ∀ a b, (a, b) ∈ joins → Digest.Hashed messages a b :=
    fun hsub a b hab => hsub (List.mem_map_of_mem (f := fun p => Digest.nodeMessage p.1 p.2) hab)
  obtain ⟨hleavesA, hjoinsA⟩ := List.append_subset.mp has
  obtain ⟨hleavesB, hjoinsB⟩ := List.append_subset.mp hbs
  have hleaves : (as.take n).map Digest.leafMessage ⊆ messages :=
    List.Subset.trans (List.map_subset _ (List.take_subset n as)) hleavesA
  have hrootOld : RootWithin Digest.combine (Digest.Hashed messages)
      ((as.take n).map Digest.leaf) old := by
    rw [List.map_take]
    exact (rootWithin_joins (by rwa [List.length_map]) hold).mono (hhashed hjoinsA)
  have hrootNew : RootWithin Digest.combine (Digest.Hashed messages) (bs.map Digest.leaf) new := by
    rw [← List.take_length (l := bs.map Digest.leaf)] at hnew
    have hwithin := (rootWithin_joins le_rfl hnew).mono (hhashed hjoinsB)
    rwa [List.take_length] at hwithin
  cases steps with
  | nil => simp [consistencyHolds] at h
  | cons first rest =>
    simp only [consistencyHolds, Bool.and_eq_true, beq_iff_eq] at h
    obtain ⟨rfl, rfl⟩ := h
    obtain ⟨hfoldOld, hfoldNew⟩ := foldWithin_joins first rest
    obtain ⟨_, hprefix⟩ := isPrefix_of_foldsWithin (Digest.injectiveWithin_hashed hinj)
      (Digest.apart_hashed hinj hleaves) (Digest.apart_hashed hinj hleavesB) first.entry rest
      (hfoldOld.mono (hhashed hsteps)) (hfoldNew.mono (hhashed hsteps)) hrootOld hrootNew
    obtain ⟨cs, ds, rfl, hcs, _⟩ := List.map_eq_append_iff.mp hprefix.symm
    rw [List.map_append] at hleavesB
    rw [Digest.eq_of_map_leaf hinj (List.append_subset.mp hleavesB).1 hleaves hcs]
    exact List.prefix_append _ _

namespace AuditedLedger.Follows

variable {l : AuditedLedger} {commits : List Commit} {a : ActiveLedger}

theorem tree_eq (h : l.Follows commits) (hactive : l.validator.active = some a) :
    l.tree = treeOf Digest.combine
      ((Chain.linkHashes a.hasher (commits.map Commit.raw)).map Digest.leaf) := by
  rw [h.2, Validator.chain_eq_replay hactive, Chain.linkHashes, List.map_map]
  rfl

theorem rootAt_eq (h : l.Follows commits) (hactive : l.validator.active = some a)
    (hsize : commits.length < 2 ^ 63) {n : Nat} (hpos : 1 ≤ n) (hn : n ≤ commits.length) :
    ∃ root, l.rootAt n = .ok root ∧ listRoot Digest.combine
      (((Chain.linkHashes a.hasher (commits.map Commit.raw)).map Digest.leaf).take n) =
        some root := by
  have hcount : n ≤
      ((Chain.linkHashes a.hasher (commits.map Commit.raw)).map Digest.leaf).length := by
    rwa [List.length_map, Chain.length_linkHashes, List.length_map]
  obtain ⟨root, hroot, hrootAt⟩ :=
    rootAt_treeOf Digest.combine (lt_topLeaf (Nat.lt_of_le_of_lt hn hsize)) hpos hcount
  refine ⟨root, ?_, hroot⟩
  rw [rootAt, h.tree_eq hactive, hrootAt]
  rfl

theorem root_eq (h : l.Follows commits) (hactive : l.validator.active = some a) :
    ∃ root, l.root = some root ∧ listRoot Digest.combine
      ((Chain.linkHashes a.hasher (commits.map Commit.raw)).map Digest.leaf) = some root := by
  have hne : (Chain.linkHashes a.hasher (commits.map Commit.raw)).map Digest.leaf ≠ [] := by
    intro hnil
    have hhead := (h.1.active hactive).2.head
    rw [List.map_eq_nil_iff, Chain.linkHashes, List.map_eq_nil_iff] at hnil
    simp [hnil] at hhead
  obtain ⟨root, hroot⟩ := exists_listRoot Digest.combine hne
  refine ⟨root, ?_, hroot⟩
  rw [AuditedLedger.root, h.tree_eq hactive, root_treeOf, hroot]

end AuditedLedger.Follows

def Validator.committed (v : Validator) (inputs : List Submission) : List Bytes :=
  (v.commitsFrom inputs).map Commit.raw

theorem AuditedLedger.Reached.blockCount_eq {crypto : CryptoProvider} {config : Config}
    {inputs : List Submission} {l : AuditedLedger} (h : Reached crypto config inputs l) :
    l.validator.blockCount =
      UInt64.ofNat ((Validator.empty crypto config).committed inputs).length := by
  rw [Validator.committed, List.length_map]
  exact h.follows.2.1.blockCount_eq

/-- Let two audited ledgers use one hash function, and let steps of any origin
show the root of the first at some earlier number of blocks to be older than the
root of the second. Then the second ledger has the same raw blocks up to that
number, or two of the messages hashed for the trees and the proof collide, or two
of those hashed for the chains. The blocks are fewer than the leaves of the largest
tree, and then their number is the one that is kept. -/
theorem same_blocks_or_collision {cryptoA cryptoB : CryptoProvider} {configA configB : Config}
    {inputsA inputsB : List Submission} {a b : AuditedLedger}
    (ha : AuditedLedger.Reached cryptoA configA inputsA a)
    (hb : AuditedLedger.Reached cryptoB configB inputsB b) {x y : ActiveLedger}
    (hx : a.validator.active = some x) (hy : b.validator.active = some y)
    (hhash : x.hasher.hash = y.hasher.hash)
    (hsize : ((Validator.empty cryptoA configA).committed inputsA).length < 2 ^ 63)
    {n : Nat} (hpos : 1 ≤ n) (hn : n ≤ a.validator.blockCount.toNat) :
    let blocksA := (Validator.empty cryptoA configA).committed inputsA
    let blocksB := (Validator.empty cryptoB configB).committed inputsB
    ∃ old new, a.rootAt n = .ok old ∧ b.root = some new ∧
      ∀ steps, consistencyHolds Digest.combine old new steps = true →
        (n ≤ blocksB.length ∧ (blocksB.length < 2 ^ 64 → n ≤ b.validator.blockCount.toNat) ∧
          blocksA.take n = blocksB.take n) ∨
        Collision Digest.blake3 (Tree.messages (Chain.linkHashes x.hasher blocksA) ++
          Tree.messages (Chain.linkHashes y.hasher blocksB) ++ Step.messages steps) ∨
        Collision x.hasher.hash
          (Chain.messages x.hasher blocksA ++ Chain.messages y.hasher blocksB) := by
  intro blocksA blocksB
  have hcountA : a.validator.blockCount.toNat = blocksA.length :=
    (eq_ofNat_iff (Nat.lt_trans hsize (by decide))).mp ha.blockCount_eq
  have hlengthA : blocksA.length = ((Validator.empty cryptoA configA).commitsFrom inputsA).length :=
    List.length_map _
  rw [hcountA] at hn
  obtain ⟨old, hrootA, hold⟩ :=
    ha.follows.2.rootAt_eq hx (hlengthA ▸ hsize) hpos (hn.trans hlengthA.le)
  obtain ⟨new, hrootB, hnew⟩ := hb.follows.2.root_eq hy
  refine ⟨old, new, hrootA, hrootB, fun steps h => ?_⟩
  -- Where neither function collides, equal digests come from equal messages.
  by_cases htrees : Collision Digest.blake3 (Tree.messages (Chain.linkHashes x.hasher blocksA) ++
    Tree.messages (Chain.linkHashes y.hasher blocksB) ++ Step.messages steps)
  · exact .inr (.inl htrees)
  by_cases hchains : Collision x.hasher.hash
    (Chain.messages x.hasher blocksA ++ Chain.messages y.hasher blocksB)
  · exact .inr (.inr hchains)
  have hlinks : (Chain.linkHashes x.hasher blocksA).take n <+:
      Chain.linkHashes y.hasher blocksB := by
    refine take_isPrefix_of_consistencyHolds (injOn_of_not_collision htrees) ?_ hold hnew ?_ ?_ ?_ h
    · exact hn.trans (Chain.length_linkHashes _ _).ge
    · exact List.Subset.trans (List.subset_append_left _ _) (List.subset_append_left _ _)
    · exact List.Subset.trans (List.subset_append_right _ _) (List.subset_append_left _ _)
    · exact List.subset_append_right _ _
  rw [← Chain.linkHashes_congr hhash] at hlinks
  rw [← Chain.messages_congr hhash] at hchains
  obtain ⟨hlengthB, hsame⟩ := Chain.take_eq_of_linkHashes (injOn_of_not_collision hchains)
    (List.subset_append_left _ _) (List.subset_append_right _ _) hn hlinks
  refine .inl ⟨hlengthB, fun hroom => ?_, hsame⟩
  rwa [(eq_ofNat_iff hroom).mp hb.blockCount_eq]

/-! A ledger of one block, and one that has a second block: the proof is made of
their two leaves. -/

namespace Sample

theorem run_founding : ∃ allowed,
    ((Validator.empty provider {}).runFrom [.block founding]).active =
      some ⟨genesis, checksum, stamp, allowed⟩ ∧
    ((Validator.empty provider {}).runFrom [.block founding, .bytes [0]]).active =
      some ⟨genesis.advance checksum [0] false, checksum, stamp, allowed⟩ := by
  obtain ⟨allowed, hfounding⟩ := receive_founding
  refine ⟨allowed, ?_, ?_⟩
  · rw [Validator.runFrom_cons, hfounding, Validator.runFrom_nil]
  · rw [Validator.runFrom_cons, hfounding, Validator.runFrom_cons, receive_junk,
      Validator.runFrom_nil]

theorem committed_founding :
    (Validator.empty provider {}).committed [.block founding] = [raw] ∧
    (Validator.empty provider {}).committed [.block founding, .bytes [0]] = [raw, [0]] := by
  obtain ⟨allowed, hfounding⟩ := receive_founding
  refine ⟨?_, ?_⟩
  · rw [Validator.committed, Validator.commitsFrom, hfounding, Validator.commitsFrom]
    rfl
  · rw [Validator.committed, Validator.commitsFrom, hfounding, Validator.commitsFrom, receive_junk,
      Validator.commitsFrom]
    rfl

end Sample

theorem listRoot_two {α : Type} (combine : α → α → α) (first second : α) :
    listRoot combine [first, second] = some (combine first second) := by
  have hcut : [first].length = splitPoint ([first] ++ [second]).length := rfl
  rw [show [first, second] = [first] ++ [second] from rfl,
    listRoot_append (by simp) (by simp) hcut, listRoot_singleton, listRoot_singleton]
  rfl

theorem consistencyHolds_two {α : Type} [DecidableEq α] (combine : α → α → α) (first second : α) :
    consistencyHolds combine first (combine first second) [⟨true, first⟩, ⟨false, second⟩] =
      true := by
  simp [consistencyHolds, Step.apply]

theorem same_first_block :
    ∃ a b old new steps, AuditedLedger.Reached Sample.provider {} [.block Sample.founding] a ∧
      AuditedLedger.Reached Sample.provider {} [.block Sample.founding, .bytes [0]] b ∧
      a.rootAt 1 = .ok old ∧ b.root = some new ∧
      consistencyHolds Digest.combine old new steps = true ∧
      ((1 ≤ b.validator.blockCount.toNat ∧ [Sample.raw].take 1 = [Sample.raw, [0]].take 1) ∨
        Collision Digest.blake3 (Tree.messages (Chain.linkHashes Sample.checksum [Sample.raw]) ++
          Tree.messages (Chain.linkHashes Sample.checksum [Sample.raw, [0]]) ++
          Step.messages steps) ∨
        Collision Sample.checksum.hash (Chain.messages Sample.checksum [Sample.raw] ++
          Chain.messages Sample.checksum [Sample.raw, [0]])) := by
  obtain ⟨allowed, hx, hy⟩ := Sample.run_founding
  have hnew : AuditedLedger.Reached Sample.provider {} [] _ := .new
  have ha : AuditedLedger.Reached Sample.provider {} [.block Sample.founding] _ :=
    hnew.submitted (.block Sample.founding)
  have hb : AuditedLedger.Reached Sample.provider {} [.block Sample.founding, .bytes [0]] _ :=
    ha.submitted (.bytes [0])
  have hfa := ha.follows
  have hfb := hb.follows
  rw [← hfa.1] at hx
  rw [← hfb.1] at hy
  have hcount : ((AuditedLedger.empty Sample.provider {}).receive
      (.block Sample.founding)).2.validator.blockCount = 1 := by
    rw [Validator.blockCount, Validator.state?, hx]
    rfl
  obtain ⟨hblocksA, hblocksB⟩ := Sample.committed_founding
  have hsize : ((Validator.empty Sample.provider {}).committed [.block Sample.founding]).length <
      2 ^ 63 := by
    rw [hblocksA]
    decide
  obtain ⟨old, new, hold, hnew, h⟩ := same_blocks_or_collision ha hb hx hy rfl hsize le_rfl
    (by rw [hcount]; decide)
  rw [Validator.committed] at hblocksA hblocksB
  have hlength := congrArg List.length hblocksA
  rw [List.length_map] at hlength
  obtain ⟨old', hold', hlistA⟩ := hfa.2.rootAt_eq hx (by rw [hlength]; decide) le_rfl hlength.ge
  obtain ⟨new', hnew', hlistB⟩ := hfb.2.root_eq hy
  obtain rfl := Except.ok.inj (hold.symm.trans hold')
  obtain rfl := Option.some.inj (hnew.symm.trans hnew')
  rw [hblocksA] at hlistA
  rw [hblocksB] at hlistB
  obtain ⟨first, second, hfirst, hboth⟩ : ∃ first second,
      Chain.linkHashes Sample.checksum [Sample.raw] = [first] ∧
      Chain.linkHashes Sample.checksum [Sample.raw, [0]] = [first, second] := ⟨_, _, rfl, rfl⟩
  rw [hfirst, List.map_singleton, List.take_one] at hlistA
  rw [hboth] at hlistB
  obtain rfl : Digest.leaf first = old := by simpa [listRoot_singleton] using hlistA
  obtain rfl : Digest.combine (Digest.leaf first) (Digest.leaf second) = new := by
    simpa [listRoot_two] using hlistB
  have hsteps := consistencyHolds_two Digest.combine (Digest.leaf first) (Digest.leaf second)
  have hconclusion := h _ hsteps
  simp only [Validator.committed, hblocksA, hblocksB] at hconclusion
  refine ⟨_, _, _, _, _, ha, hb, hold, hnew, hsteps, hconclusion.imp_left ?_⟩
  rintro ⟨_, hcountB, hsame⟩
  exact ⟨hcountB (by decide), hsame⟩

end TamperEvident
