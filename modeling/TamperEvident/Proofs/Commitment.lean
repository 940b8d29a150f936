import Mathlib.Data.List.Basic
import Mathlib.Data.List.Induction
import Mathlib.Data.Set.Function
import TamperEvident.Proofs.Replay

/-! What a chain of links commits to. Chains with the same links are made of the
same blocks, unless two of the messages hashed on the way collide. Where digests
have one length, the last link alone is enough. -/

namespace TamperEvident

/-- Two different messages among the given ones with the same digest. -/
def Collision {δ : Type} (hash : Bytes → δ) (messages : List Bytes) : Prop :=
  ∃ m ∈ messages, ∃ m' ∈ messages, m ≠ m' ∧ hash m = hash m'

theorem injOn_of_not_collision {δ : Type} {hash : Bytes → δ} {messages : List Bytes}
    (h : ¬ Collision hash messages) : Set.InjOn hash {m | m ∈ messages} := by
  intro m hm m' hm' heq
  by_contra hne
  exact h ⟨m, hm, m', hm', hne, heq⟩

namespace Chain

/-- What is hashed to link blocks to a chain with the link `previous`: each
block, and its hash before the link it follows. -/
def messagesFrom (h : HashAlgorithm) (previous : Option Bytes) : List Bytes → List Bytes
  | [] => []
  | raw :: rest =>
    let link := nextLink h previous raw
    raw :: (link.blockHash ++ previous.getD []) :: messagesFrom h (some link.linkHash) rest

def messages (h : HashAlgorithm) (blocks : List Bytes) : List Bytes := messagesFrom h none blocks

theorem linkHash_nextLink (h : HashAlgorithm) (previous : Option Bytes) (raw : Bytes) :
    (nextLink h previous raw).linkHash = h.hash (h.hash raw ++ previous.getD []) := by
  cases previous with
  | none => simp [nextLink, linkHash]
  | some previous => simp [nextLink, linkHash, HashAlgorithm.hashParts]

theorem nextLink_injOn {h : HashAlgorithm} {messages : List Bytes} {previous : Option Bytes}
    (hinj : Set.InjOn h.hash {m | m ∈ messages}) {raw raw' : Bytes}
    (hraw : raw ∈ messages) (hraw' : raw' ∈ messages)
    (hm : h.hash raw ++ previous.getD [] ∈ messages)
    (hm' : h.hash raw' ++ previous.getD [] ∈ messages)
    (heq : (nextLink h previous raw).linkHash = (nextLink h previous raw').linkHash) :
    raw = raw' := by
  rw [linkHash_nextLink, linkHash_nextLink] at heq
  have hblock := List.append_cancel_right (hinj hm hm' heq)
  exact hinj hraw hraw' hblock

theorem nextLink_congr {h h' : HashAlgorithm} (hhash : h.hash = h'.hash)
    (previous : Option Bytes) (raw : Bytes) :
    nextLink h previous raw = nextLink h' previous raw := by
  cases previous <;> simp only [nextLink, linkHash, HashAlgorithm.hashParts, hhash]

theorem replayFrom_congr {h h' : HashAlgorithm} (hhash : h.hash = h'.hash)
    (previous : Option Bytes) (blocks : List Bytes) :
    replayFrom h previous blocks = replayFrom h' previous blocks := by
  induction blocks generalizing previous with
  | nil => rfl
  | cons raw rest ih => rw [replayFrom, replayFrom, nextLink_congr hhash, ih]

theorem messagesFrom_congr {h h' : HashAlgorithm} (hhash : h.hash = h'.hash)
    (previous : Option Bytes) (blocks : List Bytes) :
    messagesFrom h previous blocks = messagesFrom h' previous blocks := by
  induction blocks generalizing previous with
  | nil => rfl
  | cons raw rest ih => rw [messagesFrom, messagesFrom, nextLink_congr hhash, ih]

theorem messages_congr {h h' : HashAlgorithm} (hhash : h.hash = h'.hash) (blocks : List Bytes) :
    messages h blocks = messages h' blocks := messagesFrom_congr hhash none blocks

theorem eq_of_replayFrom {h : HashAlgorithm} {messages : List Bytes}
    (hinj : Set.InjOn h.hash {m | m ∈ messages}) {previous : Option Bytes} {as bs : List Bytes}
    (has : messagesFrom h previous as ⊆ messages) (hbs : messagesFrom h previous bs ⊆ messages)
    (heq : (replayFrom h previous as).map ChainLink.linkHash =
      (replayFrom h previous bs).map ChainLink.linkHash) : as = bs := by
  induction as generalizing previous bs with
  | nil =>
    cases bs with
    | nil => rfl
    | cons raw' rest' => simp [replayFrom] at heq
  | cons raw rest ih =>
    cases bs with
    | nil => simp [replayFrom] at heq
    | cons raw' rest' =>
      obtain ⟨hlink, hrest⟩ := List.cons.inj heq
      simp only [messagesFrom, List.cons_subset] at has hbs
      obtain rfl := nextLink_injOn hinj has.1 hbs.1 has.2.1 hbs.2.1 hlink
      rw [ih has.2.2 hbs.2.2 hrest]

theorem take_replayFrom (h : HashAlgorithm) (previous : Option Bytes) (blocks : List Bytes)
    (n : Nat) : (replayFrom h previous blocks).take n = replayFrom h previous (blocks.take n) := by
  induction blocks generalizing previous n with
  | nil => simp [replayFrom]
  | cons raw rest ih =>
    cases n with
    | zero => rfl
    | succ n => rw [replayFrom, List.take_succ_cons, List.take_succ_cons, replayFrom, ih]

theorem messagesFrom_take_subset (h : HashAlgorithm) (previous : Option Bytes)
    (blocks : List Bytes) (n : Nat) :
    messagesFrom h previous (blocks.take n) ⊆ messagesFrom h previous blocks := by
  induction blocks generalizing previous n with
  | nil => simp [messagesFrom]
  | cons raw rest ih =>
    cases n with
    | zero => exact List.nil_subset _
    | succ n =>
      rw [List.take_succ_cons, messagesFrom, messagesFrom]
      exact List.cons_subset_cons _ (List.cons_subset_cons _ (ih _ n))

def linkHashes (h : HashAlgorithm) (blocks : List Bytes) : List Bytes :=
  (replay h blocks).map ChainLink.linkHash

theorem length_linkHashes (h : HashAlgorithm) (blocks : List Bytes) :
    (linkHashes h blocks).length = blocks.length := by
  rw [linkHashes, List.length_map, length_replay]

theorem linkHashes_congr {h h' : HashAlgorithm} (hhash : h.hash = h'.hash) (blocks : List Bytes) :
    linkHashes h blocks = linkHashes h' blocks := by
  rw [linkHashes, linkHashes, replay, replay, replayFrom_congr hhash]

/-- Chains whose first links are the same begin with the same blocks. -/
theorem take_eq_of_linkHashes {h : HashAlgorithm} {as bs messages : List Bytes}
    (hinj : Set.InjOn h.hash {m | m ∈ messages}) (has : Chain.messages h as ⊆ messages)
    (hbs : Chain.messages h bs ⊆ messages) {n : Nat} (hn : n ≤ as.length)
    (hlinks : (linkHashes h as).take n <+: linkHashes h bs) :
    n ≤ bs.length ∧ as.take n = bs.take n := by
  have hle := hlinks.length_le
  rw [List.length_take, length_linkHashes, length_linkHashes, min_eq_left hn] at hle
  refine ⟨hle, ?_⟩
  have heq := List.prefix_iff_eq_take.mp hlinks
  rw [List.length_take, length_linkHashes, min_eq_left hn, linkHashes, linkHashes, ← List.map_take,
    ← List.map_take, replay, replay, take_replayFrom, take_replayFrom] at heq
  exact eq_of_replayFrom hinj (List.Subset.trans (messagesFrom_take_subset h none as n) has)
    (List.Subset.trans (messagesFrom_take_subset h none bs n) hbs) heq

theorem messagesFrom_concat (h : HashAlgorithm) (previous : Option Bytes) (blocks : List Bytes)
    (raw : Bytes) :
    messagesFrom h previous (blocks ++ [raw]) = messagesFrom h previous blocks ++
      [raw, h.hash raw ++ ((headLink? (replayFrom h previous blocks)).or previous).getD []] := by
  induction blocks generalizing previous with
  | nil => rfl
  | cons first rest ih =>
    rw [headLink?_replayFrom_cons, List.cons_append, messagesFrom, ih, messagesFrom]
    rfl

theorem messages_concat (h : HashAlgorithm) (blocks : List Bytes) (raw : Bytes) :
    messages h (blocks ++ [raw]) = messages h blocks ++
      [raw, h.hash raw ++ (headLink? (replay h blocks)).getD []] := by
  rw [messages, messagesFrom_concat, Option.or_none]
  rfl

theorem headLink?_concat (h : HashAlgorithm) (blocks : List Bytes) (raw : Bytes) :
    headLink? (replay h (blocks ++ [raw])) =
      some (h.hash (h.hash raw ++ (headLink? (replay h blocks)).getD [])) := by
  rw [replay_concat, headLink?, List.getLast?_concat, Option.map_some, linkHash_nextLink]

section Head

variable {h : HashAlgorithm} (hlength : ∀ message, (h.hash message).length = h.outputLength)
  (hpos : 0 < h.outputLength)
include hlength hpos

theorem ne_nil_of_headLink? {blocks : List Bytes} {link : Bytes}
    (hlink : headLink? (replay h blocks) = some link) : link ≠ [] := by
  rcases List.eq_nil_or_concat' blocks with rfl | ⟨blocks, raw, rfl⟩
  · cases hlink
  · rw [headLink?_concat] at hlink
    obtain rfl := Option.some.inj hlink
    exact List.ne_nil_of_length_pos (by rw [hlength]; exact hpos)

/-- An empty chain is told from all others by what it puts before the next link. -/
theorem headLink?_of_getD_eq {as bs : List Bytes}
    (heq : (headLink? (replay h as)).getD [] = (headLink? (replay h bs)).getD []) :
    headLink? (replay h as) = headLink? (replay h bs) := by
  cases ha : headLink? (replay h as) with
  | none =>
    cases hb : headLink? (replay h bs) with
    | none => rfl
    | some link =>
      rw [ha, hb] at heq
      exact absurd heq.symm (ne_nil_of_headLink? hlength hpos hb)
  | some link =>
    cases hb : headLink? (replay h bs) with
    | none =>
      rw [ha, hb] at heq
      exact absurd heq (ne_nil_of_headLink? hlength hpos ha)
    | some link' =>
      rw [ha, hb] at heq
      exact congrArg some heq

/-- Both chains are walked back from their ends. Each step parts the message of a
link into the block's digest and the link before it. -/
theorem eq_of_headLink? {messages : List Bytes} (hinj : Set.InjOn h.hash {m | m ∈ messages})
    {as bs : List Bytes} (has : Chain.messages h as ⊆ messages)
    (hbs : Chain.messages h bs ⊆ messages)
    (heq : headLink? (replay h as) = headLink? (replay h bs)) : as = bs := by
  induction as using List.reverseRecOn generalizing bs with
  | nil =>
    rcases List.eq_nil_or_concat' bs with rfl | ⟨bs, raw', rfl⟩
    · rfl
    · rw [headLink?_concat] at heq
      cases heq
  | append_singleton as raw ih =>
    rcases List.eq_nil_or_concat' bs with rfl | ⟨bs, raw', rfl⟩
    · rw [headLink?_concat] at heq
      cases heq
    · rw [headLink?_concat, headLink?_concat] at heq
      rw [messages_concat, List.append_subset, List.cons_subset, List.cons_subset] at has hbs
      have hmessage := hinj has.2.2.1 hbs.2.2.1 (Option.some.inj heq)
      obtain ⟨hblock, hlink⟩ := List.append_inj hmessage (by rw [hlength, hlength])
      rw [hinj has.2.1 hbs.2.1 hblock,
        ih has.1 hbs.1 (headLink?_of_getD_eq hlength hpos hlink)]

end Head

theorem verifyHead_eq_ok {h : HashAlgorithm} {blocks : List Bytes} {head : Bytes} :
    verifyHead h blocks head = .ok () ↔ headLink? (replay h blocks) = some head := by
  rw [verifyHead, headLink?]
  cases (replay h blocks).getLast? with
  | none => simp
  | some last => by_cases heq : last.linkHash = head <;> simp [heq]

/-- The last link commits to the whole chain: where digests have one length that is
not zero, a chain of any length that ends in the link of another one has the same
blocks, or two of the messages hashed for the two of them collide. -/
theorem blocks_eq_or_collision {h : HashAlgorithm}
    (hlength : ∀ message, (h.hash message).length = h.outputLength) (hpos : 0 < h.outputLength)
    {as bs : List Bytes} (has : as ≠ []) (hbs : bs ≠ []) :
    ∃ first second : ChainLink,
      (replay h as).getLast? = some first ∧ (replay h bs).getLast? = some second ∧
      (verifyHead h bs first.linkHash = .ok () ↔ first.linkHash = second.linkHash) ∧
      (first.linkHash = second.linkHash →
        as = bs ∨ Collision h.hash (messages h as ++ messages h bs)) := by
  have hlast : ∀ {blocks : List Bytes}, blocks ≠ [] →
      ∃ link, (replay h blocks).getLast? = some link := by
    intro blocks hne
    have hreplay : replay h blocks ≠ [] := by
      rwa [ne_eq, ← List.length_eq_zero_iff, length_replay, List.length_eq_zero_iff]
    exact ⟨_, List.getLast?_eq_some_getLast hreplay⟩
  obtain ⟨first, hfirst⟩ := hlast has
  obtain ⟨second, hsecond⟩ := hlast hbs
  have hheadA : headLink? (replay h as) = some first.linkHash := by
    rw [headLink?, hfirst, Option.map_some]
  have hheadB : headLink? (replay h bs) = some second.linkHash := by
    rw [headLink?, hsecond, Option.map_some]
  refine ⟨first, second, hfirst, hsecond, ?_, ?_⟩
  · rw [verifyHead_eq_ok, hheadB, Option.some_inj, eq_comm]
  · intro heq
    by_cases hcollision : Collision h.hash (messages h as ++ messages h bs)
    · exact .inr hcollision
    · refine .inl (eq_of_headLink? hlength hpos (injOn_of_not_collision hcollision)
        (List.subset_append_left _ _) (List.subset_append_right _ _) ?_)
      rw [hheadA, hheadB, heq]

end Chain

namespace Sample

def measure : HashAlgorithm := ⟨"length", 1, fun message => [UInt8.ofNat message.length]⟩

end Sample

/-- Chains of two and three blocks end in the link that is made of every two bytes. -/
theorem collision_of_measured_head :
    Chain.verifyHead Sample.measure [[3], [4], [5]] [2] = .ok () ∧
    Collision Sample.measure.hash
      (Chain.messages Sample.measure [[1], [2]] ++ Chain.messages Sample.measure [[3], [4], [5]]) := by
  obtain ⟨first, second, hfirst, hsecond, hverify, hcommits⟩ :=
    @Chain.blocks_eq_or_collision Sample.measure (fun _ => rfl) (by decide) [[1], [2]]
      [[3], [4], [5]] (by decide) (by decide)
  obtain rfl : ⟨[1], [2]⟩ = first := Option.some.inj hfirst
  obtain rfl : ⟨[1], [2]⟩ = second := Option.some.inj hsecond
  exact ⟨hverify.mpr rfl, (hcommits rfl).resolve_left (by decide)⟩

end TamperEvident
