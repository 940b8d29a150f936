import Mathlib.Data.List.Induction
import TamperEvident.Proofs.Block.Depth
import TamperEvident.Proofs.Ledger.Audited
import TamperEvident.Proofs.Ledger.Production

/-! Validators that read the same bytes under different nesting limits. A block that
one of them cannot read still takes its place in the chain of both, unless the other
one reads a policy, which it refuses to commit to. -/

namespace TamperEvident

namespace Block

variable {m n : Nat} {raw : Bytes}

def ReadsPolicy (limit : Nat) (raw : Bytes) : Prop :=
  ∃ b, parse limit raw = .ok b ∧ b.innermost.kind = .policy

/-- A block that brings a policy, nested too deep for just one of two limits. -/
def Contested (m n : Nat) (raw : Bytes) : Prop :=
  ∃ b, parse (max m n) raw = .ok b ∧ b.innermost.kind = .policy ∧ min m n < b.depth

theorem kind_innermost (b : Block) : b.innermost.kind = b.content.kind := by
  obtain ⟨raw, hinnermost⟩ := b.exists_innermost
  rw [hinnermost, kind]

theorem ReadsPolicy.mono (h : ReadsPolicy m raw) (hle : m ≤ n) : ReadsPolicy n raw := by
  obtain ⟨b, hparse, hkind⟩ := h
  exact ⟨b, parse_of_le hle hparse, hkind⟩

theorem contested_iff (hle : m ≤ n) :
    Contested m n raw ↔ ReadsPolicy n raw ∧ ¬ ReadsPolicy m raw := by
  rw [Contested, Nat.max_eq_right hle, Nat.min_eq_left hle]
  constructor
  · rintro ⟨b, hparse, hkind, hdepth⟩
    refine ⟨⟨b, hparse, hkind⟩, ?_⟩
    rintro ⟨c, hc, _⟩
    obtain rfl : b = c := Except.ok.inj (hparse.symm.trans (parse_of_le hle hc))
    exact Nat.not_lt.mpr (depth_le_of_parse hc) hdepth
  · rintro ⟨⟨b, hparse, hkind⟩, hnot⟩
    refine ⟨b, hparse, hkind, Nat.lt_of_not_le fun hdepth => hnot ⟨b, ?_, hkind⟩⟩
    exact parse_of_depth_le hparse hdepth

theorem contested_comm : Contested m n raw ↔ Contested n m raw := by
  rw [Contested, Contested, Nat.max_comm, Nat.min_comm]

end Block

/-- The bytes are a first block that this ledger starts with. -/
def ActiveLedger.StartsWith (crypto : CryptoProvider) (raw : Bytes) (a : ActiveLedger) : Prop :=
  ∃ version payload, Block.parse 1 raw = .ok (.terminal raw (.policy version payload)) ∧
    Policy.parse version payload = .ok a.state.policy ∧
    a.state.policy.algorithms crypto = .ok (a.hasher, a.signer) ∧
    a.state.policy.allowedShapes = .ok a.allowed ∧
    a.state = .genesis a.hasher a.state.policy raw

namespace Validator

variable {v w : Validator} {a c : ActiveLedger} {raw : Bytes} {k : Nat}

/-- A limit leaves room for at least one layer, and that is all a first block has. -/
theorem active_receive_iff_startsWith (hlimit : 0 < v.config.maxBlockDepth)
    (hactive : v.active = none) :
    (v.receive (.bytes raw)).2.active = some a ↔ a.StartsWith v.crypto raw := by
  constructor
  · intro ha
    obtain ⟨version, payload, hblock, hpolicy, halgorithms, hallowed, hstate, _⟩ :=
      founded_of_receive hactive ha
    have hparse : Block.parse 1 raw = .ok (.terminal raw (.policy version payload)) :=
      Block.parse_of_depth_le (Submission.block?_bytes.mp hblock) (Nat.le_refl 1)
    exact ⟨version, payload, hparse, hpolicy, halgorithms, hallowed, hstate⟩
  · rintro ⟨version, payload, hparse, hpolicy, halgorithms, hallowed, hstate⟩
    have hblock := Submission.block?_bytes.mpr (Block.parse_of_le hlimit hparse)
    rw [receive_of_block? hblock, submitBlock_founding hactive hpolicy halgorithms hallowed,
      ← hstate]

/-- A policy that can be read changes nothing, and all else is committed to. -/
theorem active_receive (hactive : v.active = some a) (raw : Bytes) :
    (Block.ReadsPolicy v.config.maxBlockDepth raw ∧ (v.receive (.bytes raw)).2.active = some a) ∨
    (¬ Block.ReadsPolicy v.config.maxBlockDepth raw ∧ ∃ update,
      (v.receive (.bytes raw)).2.active =
        some { a with state := a.state.advance a.hasher raw update }) := by
  cases hblock : (Submission.bytes raw).block? v.config.maxBlockDepth with
  | none =>
    have hunread : ¬ Block.ReadsPolicy v.config.maxBlockDepth raw := by
      rintro ⟨b, hparse, _⟩
      rw [Submission.block?_bytes.mpr hparse] at hblock
      cases hblock
    refine .inr ⟨hunread, false, ?_⟩
    rw [receive_of_malformed hactive hblock]
    rfl
  | some b =>
    have hparse := Submission.block?_bytes.mp hblock
    by_cases hkind : b.content.kind = .policy
    · refine .inl ⟨⟨b, hparse, b.kind_innermost.trans hkind⟩, ?_⟩
      rw [receive_of_policy hactive hblock hkind, hactive]
    · have hunread : ¬ Block.ReadsPolicy v.config.maxBlockDepth raw := by
        rintro ⟨c, hc, hpolicy⟩
        obtain rfl : b = c := Except.ok.inj (hparse.symm.trans hc)
        exact hkind (b.kind_innermost.symm.trans hpolicy)
      refine .inr ⟨hunread, b.updatesContext, ?_⟩
      rw [receive_of_ne_policy hactive hblock hkind]
      rfl

def head? (v : Validator) : Option (UInt64 × ChainLink) :=
  v.state?.map fun s => (s.blockCount, s.headLink)

/-- Ledgers of one policy, the first one with `k` blocks more. Where it has none
more, both have the same head. -/
inductive Ahead : Nat → Option ActiveLedger → Option ActiveLedger → Prop
  | unfounded : Ahead 0 none none
  | founded {k : Nat} {a c : ActiveLedger} (hhasher : a.hasher = c.hasher)
      (hpolicy : a.state.policy = c.state.policy)
      (hcount : a.state.blockCount = c.state.blockCount + UInt64.ofNat k)
      (hhead : k = 0 → a.state.headLink = c.state.headLink) : Ahead k (some a) (some c)

namespace Ahead

theorem refl (active : Option ActiveLedger) : Ahead 0 active active := by
  cases active with
  | none => exact .unfounded
  | some a => exact .founded rfl rfl (UInt64.add_zero _).symm fun _ => rfl

/-- Both commit to the same bytes. -/
theorem advance (h : Ahead k (some a) (some c)) (raw : Bytes) (update update' : Bool) :
    Ahead k (some { a with state := a.state.advance a.hasher raw update })
      (some { c with state := c.state.advance c.hasher raw update' }) := by
  cases h with
  | founded hhasher hpolicy hcount hhead =>
    refine .founded hhasher hpolicy ?_ fun hk => ?_
    · simp only [LedgerState.blockCount_advance]
      rw [hcount, UInt64.add_assoc, UInt64.add_assoc, UInt64.add_comm 1]
    · have hlink : a.state.headLinkHash = c.state.headLinkHash :=
        congrArg ChainLink.linkHash (hhead hk)
      simp only [LedgerState.headLink, LedgerState.advance, hhasher, hlink]

/-- Only the first one commits to the bytes. -/
theorem gain (h : Ahead k (some a) (some c)) (raw : Bytes) (update : Bool) :
    Ahead (k + 1) (some { a with state := a.state.advance a.hasher raw update }) (some c) := by
  cases h with
  | founded hhasher hpolicy hcount _ =>
    refine .founded hhasher hpolicy ?_ fun hk => ?_
    · simp only [LedgerState.blockCount_advance]
      rw [hcount, UInt64.ofNat_add, UInt64.add_assoc]
      rfl
    · cases hk

theorem head?_eq_iff (h : Ahead k v.active w.active) (hk : k < 2 ^ 64) :
    v.head? = w.head? ↔ k = 0 := by
  rw [head?, head?, state?, state?]
  cases hv : v.active <;> cases hw : w.active <;> rw [hv, hw] at h
  case none.none => cases h; simp
  case none.some a => cases h
  case some.none a => cases h
  case some.some a c =>
    cases h with
    | founded _ _ hcount hhead =>
      simp only [Option.map_some, Option.some.injEq, Prod.mk.injEq]
      constructor
      · rintro ⟨hsame, _⟩
        have hzero : 0 = UInt64.ofNat k := (UInt64.add_eq_left.mp (hcount.symm.trans hsame)).symm
        exact ((eq_ofNat_iff hk).mp hzero).symm
      · rintro rfl
        exact ⟨hcount.trans (UInt64.add_zero _), hhead rfl⟩

theorem eq_none_iff (h : Ahead k v.active w.active) : v.active = none ↔ w.active = none := by
  generalize v.active = first, w.active = second at h
  cases h <;> simp

theorem policy_eq (h : Ahead k v.active w.active) :
    v.state?.map LedgerState.policy = w.state?.map LedgerState.policy := by
  rw [state?, state?]
  generalize v.active = first, w.active = second at h
  cases h with
  | unfounded => rfl
  | founded _ hpolicy => simp [hpolicy]

end Ahead

/-- The validator with the lower limit gets one block ahead when the other one
refuses a policy that it cannot read itself. In all else they keep step. -/
theorem ahead_receive (h : Ahead k v.active w.active) (hcrypto : v.crypto = w.crypto)
    (hlimit : 0 < v.config.maxBlockDepth)
    (hle : v.config.maxBlockDepth ≤ w.config.maxBlockDepth) (raw : Bytes) :
    (¬ (v.active ≠ none ∧ Block.Contested v.config.maxBlockDepth w.config.maxBlockDepth raw) ∧
      Ahead k (v.receive (.bytes raw)).2.active (w.receive (.bytes raw)).2.active) ∨
    (v.active ≠ none ∧ Block.Contested v.config.maxBlockDepth w.config.maxBlockDepth raw ∧
      Ahead (k + 1) (v.receive (.bytes raw)).2.active (w.receive (.bytes raw)).2.active) := by
  rw [Block.contested_iff hle]
  cases hv : v.active <;> cases hw : w.active <;> rw [hv, hw] at h
  case none.none =>
    have hsame : (v.receive (.bytes raw)).2.active = (w.receive (.bytes raw)).2.active := by
      ext a
      rw [active_receive_iff_startsWith hlimit hv,
        active_receive_iff_startsWith (Nat.lt_of_lt_of_le hlimit hle) hw, hcrypto]
    cases h
    rw [hsame]
    exact .inl ⟨fun hactive => hactive.1 rfl, .refl _⟩
  case none.some c => cases h
  case some.none a => cases h
  case some.some a c =>
    have hne := Option.some_ne_none a
    obtain ⟨hreads, ha⟩ | ⟨hunread, update, ha⟩ := active_receive hv raw <;>
      obtain ⟨hreads', hc⟩ | ⟨hunread', update', hc⟩ := active_receive hw raw <;>
      rw [ha, hc]
    · exact .inl ⟨fun hcontested => hcontested.2.2 hreads, h⟩
    · exact absurd (hreads.mono hle) hunread'
    · exact .inr ⟨hne, ⟨hreads', hunread⟩, h.gain raw update⟩
    · exact .inl ⟨fun hcontested => hunread' hcontested.2.1, h.advance raw update update'⟩

end Validator

def observer (crypto : CryptoProvider) (config : Config) (limit : Nat) (inputs : List Bytes) :
    Validator :=
  (Validator.empty crypto { config with maxBlockDepth := limit }).runFrom
    (inputs.map Submission.bytes)

section Observers

variable {crypto : CryptoProvider} {config : Config} {m n : Nat}

theorem observer_concat (limit : Nat) (inputs : List Bytes) (raw : Bytes) :
    observer crypto config limit (inputs ++ [raw]) =
      ((observer crypto config limit inputs).receive (.bytes raw)).2 := by
  rw [observer, List.map_append, List.map_singleton, Validator.runFrom_concat]
  rfl

theorem crypto_observer (limit : Nat) (inputs : List Bytes) :
    (observer crypto config limit inputs).crypto = crypto := Validator.crypto_runFrom _ _

theorem limit_observer (limit : Nat) (inputs : List Bytes) :
    (observer crypto config limit inputs).config.maxBlockDepth = limit := by
  rw [observer, Validator.config_runFrom]
  rfl

theorem exists_ahead (hm : 0 < m) (hle : m ≤ n) (inputs : List Bytes) :
    ∃ k ≤ inputs.length, Validator.Ahead k (observer crypto config m inputs).active
        (observer crypto config n inputs).active ∧
      (k = 0 ↔ ∀ before raw, before ++ [raw] <+: inputs →
        (observer crypto config m before).active ≠ none → ¬ Block.Contested m n raw) := by
  induction inputs using List.reverseRecOn with
  | nil =>
    refine ⟨0, Nat.le_refl 0, .unfounded, iff_of_true rfl ?_⟩
    intro before raw hseen
    obtain ⟨_, hraw⟩ := List.append_eq_nil_iff.mp (List.prefix_nil.mp hseen)
    cases hraw
  | append_singleton inputs last ih =>
    obtain ⟨k, hlength, hahead, hk⟩ := ih
    have hstep := Validator.ahead_receive hahead (by rw [crypto_observer, crypto_observer])
      (by rwa [limit_observer]) (by rwa [limit_observer, limit_observer]) last
    rw [limit_observer, limit_observer, ← observer_concat, ← observer_concat] at hstep
    rw [List.length_append]
    rcases hstep with ⟨hnot, hahead⟩ | ⟨hactive, hcontested, hahead⟩
    · refine ⟨k, Nat.le_add_right_of_le hlength, hahead, hk.trans ⟨fun hall before raw hseen => ?_,
        fun hall before raw hseen => hall before raw (hseen.trans (List.prefix_append _ _))⟩⟩
      rcases List.prefix_concat_iff.mp hseen with heq | hseen
      · obtain ⟨rfl, hlast⟩ := List.append_inj' heq rfl
        obtain rfl := List.singleton_inj.mp hlast
        exact not_and.mp hnot
      · exact hall before raw hseen
    · refine ⟨k + 1, Nat.succ_le_succ hlength, hahead,
        iff_of_false (Nat.succ_ne_zero k) fun hall => ?_⟩
      exact hall inputs last (List.prefix_refl _) hactive hcontested

end Observers

/-- Two validators that differ in their nesting limits are founded by the same block
and have the same head just as long as no block that brings a policy comes later,
nested too deep for one of them and not for the other. Whatever else they are given,
and whatever each of them reports, they stand for one chain. One of them can only be
level with the other again when its count has gone once around. -/
theorem same_head_iff_uncontested (crypto : CryptoProvider) (config : Config) {m n : Nat}
    (hm : 0 < m) (hn : 0 < n) (inputs : List Bytes) :
    let uncontested := ∀ before raw, before ++ [raw] <+: inputs →
      (observer crypto config m before).active ≠ none → ¬ Block.Contested m n raw
    (observer crypto config m inputs).state?.map LedgerState.policy =
      (observer crypto config n inputs).state?.map LedgerState.policy ∧
    (uncontested →
      (observer crypto config m inputs).head? = (observer crypto config n inputs).head?) ∧
    (inputs.length < 2 ^ 64 →
      ((observer crypto config m inputs).head? = (observer crypto config n inputs).head? ↔
        uncontested)) := by
  intro uncontested
  rcases Nat.le_total m n with hle | hle
  · obtain ⟨k, hlength, hahead, hk⟩ := exists_ahead hm hle inputs
    refine ⟨hahead.policy_eq, fun hnone => ?_, fun hroom => ?_⟩
    · obtain rfl := hk.mpr hnone
      exact (hahead.head?_eq_iff (Nat.two_pow_pos 64)).mpr rfl
    · exact (hahead.head?_eq_iff (Nat.lt_of_le_of_lt hlength hroom)).trans hk
  · obtain ⟨k, hlength, hahead, hk⟩ := @exists_ahead crypto config _ _ hn hle inputs
    have hactive : ∀ before, (observer crypto config n before).active ≠ none ↔
        (observer crypto config m before).active ≠ none := by
      intro before
      obtain ⟨_, _, hbefore, _⟩ := exists_ahead hn hle before
      exact not_congr hbefore.eq_none_iff
    have hk : k = 0 ↔ uncontested := by
      refine hk.trans ?_
      simp only [uncontested, hactive, Block.contested_comm]
    refine ⟨hahead.policy_eq.symm, fun hnone => ?_, fun hroom => ?_⟩
    · obtain rfl := hk.mpr hnone
      exact ((hahead.head?_eq_iff (Nat.two_pow_pos 64)).mpr rfl).symm
    · exact eq_comm.trans ((hahead.head?_eq_iff (Nat.lt_of_le_of_lt hlength hroom)).trans hk)

namespace Sample

theorem exists_founded : ∃ allowed, ∀ limit, 0 < limit →
    (observer provider {} limit [raw]).active = some ⟨genesis, checksum, stamp, allowed⟩ := by
  obtain ⟨allowed, hallowed⟩ := Policy.exists_allowedShapes (Policy.parse_eq_ok parse_policy).1
  refine ⟨allowed, fun limit hlimit => ?_⟩
  rw [show [raw] = [] ++ [raw] from rfl, observer_concat,
    Validator.active_receive_iff_startsWith (by rwa [limit_observer]) rfl]
  exact ⟨1, policy.payload, Producer.parse_encode_policy Nat.one_ne_zero 1 policy.payload,
    parse_policy, rfl, hallowed, rfl⟩

theorem head?_founded {limit : Nat} (hlimit : 0 < limit) :
    (observer provider {} limit [raw]).head? = some (1, genesis.headLink) := by
  obtain ⟨allowed, hfounded⟩ := exists_founded
  rw [Validator.head?, Validator.state?, hfounded limit hlimit]
  rfl

theorem blockCount_second {limit : Nat} (hlimit : 0 < limit) (second : Bytes) :
    (Block.ReadsPolicy limit second ∧ (observer provider {} limit [raw, second]).blockCount = 1) ∨
    (¬ Block.ReadsPolicy limit second ∧
      (observer provider {} limit [raw, second]).blockCount = 2) := by
  obtain ⟨allowed, hfounded⟩ := exists_founded
  have hsecond := Validator.active_receive (hfounded limit hlimit) second
  rw [limit_observer, ← observer_concat] at hsecond
  refine hsecond.imp (And.imp_right fun hactive => ?_) (And.imp_right fun hactive => ?_)
  · change (observer provider {} limit [raw, second]).active = _ at hactive
    rw [Validator.blockCount, Validator.state?, hactive]
    rfl
  · obtain ⟨update, hactive⟩ := hactive
    change (observer provider {} limit [raw, second]).active = _ at hactive
    rw [Validator.blockCount, Validator.state?, hactive]
    rfl

def nested : Bytes := 85 :: raw

theorem encode_nested :
    (Draft.wrapped .updateContext (.terminal (.policy 1 policy.payload))).encode = .ok nested := by
  have hheader : (Wrapper.updateContext : Wrapper Bytes).header List.length = [85] := by cbv
  have hbytes : nested = (Wrapper.updateContext : Wrapper Bytes).header List.length ++
      (raw ++ Wrapper.updateContext.ending) := by
    rw [hheader, Wrapper.ending, List.append_nil]
    rfl
  exact Draft.encode_wrapped_eq_ok.mpr ⟨raw, .updateContext, rfl, rfl, hbytes⟩

theorem readsPolicy_nested : Block.ReadsPolicy 2 nested ∧ ¬ Block.ReadsPolicy 1 nested := by
  have hsize : nested.length < 2 ^ 64 := by decide +kernel
  obtain ⟨b, hparse, _⟩ := (Draft.parse_encode encode_nested hsize 2).1 (by decide)
  have hdeep := (Draft.parse_encode encode_nested hsize 1).2 (by decide)
  refine ⟨⟨b, hparse, ?_⟩, ?_⟩
  · rw [Block.kind_innermost, Draft.content_of_parse encode_nested hparse]
    rfl
  · rintro ⟨c, hc, _⟩
    rw [hdeep] at hc
    cases hc

theorem not_readsPolicy_data : ¬ Block.ReadsPolicy 2 [85, 68, 5] := by
  have hparse : Block.parse 2 [85, 68, 5] =
      .ok (.wrapped [85, 68, 5] .updateContext (.terminal [68, 5] (.data [5]))) := by cbv
  rintro ⟨b, hb, hkind⟩
  obtain rfl := Except.ok.inj (hparse.symm.trans hb)
  cases hkind

end Sample

/-- A first block that both accept, and then the same policy with a layer around it,
which one of them takes for bytes that are no block. -/
theorem heads_differ_after_nested_policy :
    (observer Sample.provider {} 1 [Sample.raw]).head? = some (1, Sample.genesis.headLink) ∧
    (observer Sample.provider {} 2 [Sample.raw]).head? = some (1, Sample.genesis.headLink) ∧
    (observer Sample.provider {} 1 [Sample.raw, Sample.nested]).blockCount = 2 ∧
    (observer Sample.provider {} 2 [Sample.raw, Sample.nested]).blockCount = 1 := by
  obtain ⟨hreads, hunread⟩ := Sample.readsPolicy_nested
  refine ⟨Sample.head?_founded Nat.one_pos, Sample.head?_founded Nat.two_pos, ?_, ?_⟩
  · obtain ⟨hreads, _⟩ | ⟨_, hcount⟩ := Sample.blockCount_second Nat.one_pos Sample.nested
    · exact absurd hreads hunread
    · exact hcount
  · obtain ⟨_, hcount⟩ | ⟨hunread, _⟩ := Sample.blockCount_second Nat.two_pos Sample.nested
    · exact hcount
    · exact absurd hreads hunread

theorem same_head_of_nested_data :
    (observer Sample.provider {} 1 [Sample.raw, [85, 68, 5]]).head? =
      (observer Sample.provider {} 2 [Sample.raw, [85, 68, 5]]).head? ∧
    (observer Sample.provider {} 2 [Sample.raw, [85, 68, 5]]).blockCount = 2 := by
  obtain ⟨_, hheads, _⟩ := same_head_iff_uncontested Sample.provider {} Nat.one_pos Nat.two_pos
    [Sample.raw, [85, 68, 5]]
  refine ⟨hheads fun before raw hseen hactive hcontested => ?_, ?_⟩
  · have hreads := ((Block.contested_iff (Nat.le_succ 1)).mp hcontested).1
    have hsplit : before ++ [raw] = [Sample.raw] ++ [[85, 68, 5]] ∨
        before ++ [raw] <+: [Sample.raw] := List.prefix_concat_iff.mp hseen
    rcases hsplit with heq | hseen
    · obtain ⟨_, hraw⟩ := List.append_inj' heq rfl
      obtain rfl := List.singleton_inj.mp hraw
      exact Sample.not_readsPolicy_data hreads
    · obtain rfl : before = [] := by
        have hlength := hseen.length_le
        simpa using hlength
      exact hactive rfl
  · obtain ⟨hreads, _⟩ | ⟨_, hcount⟩ := Sample.blockCount_second Nat.two_pos [85, 68, 5]
    · exact absurd hreads Sample.not_readsPolicy_data
    · exact hcount

end TamperEvident
