import Mathlib.Data.List.Forall2
import Mathlib.Data.List.Iterate
import TamperEvident.Proofs.Merkle.Completeness

/-! Which nodes the steps of a proof stand for, and that each of them carries what
the tree gives for its node. A proof is resolved through stored nodes alone, so
whoever has those can resolve it, and to the same values. -/

namespace TamperEvident

variable {α : Type} {combine : α → α → α}

namespace Node

def wayUp (n : Node) (count : Nat) : List Node :=
  List.iterate parent n (bitLength (count - 1) - n.height)

/-- What the steps of a proof stand for: the node it starts from, and then the siblings on
the way up that hold leaves of the tree. -/
def coordinates (n : Node) (count : Nat) : List Node :=
  n :: ((n.wayUp count).map sibling).filter (·.start < count)

variable {n : Node} {count : Nat}

theorem wayUp_of_lt (h : n.height < bitLength (count - 1)) :
    n.wayUp count = n :: n.parent.wayUp count := by
  have hstep : bitLength (count - 1) - n.height =
      bitLength (count - 1) - n.parent.height + 1 := by
    simp only [parent]
    omega
  rw [wayUp, hstep, List.iterate]
  rfl

theorem wayUp_of_le (h : bitLength (count - 1) ≤ n.height) : n.wayUp count = [] := by
  rw [wayUp, Nat.sub_eq_zero_of_le h, List.iterate]

theorem bitLength_le_of_le {h : Nat} (hcount : count ≤ 2 ^ h) : bitLength (count - 1) ≤ h := by
  by_cases hzero : count - 1 = 0
  · rw [hzero]
    exact Nat.zero_le h
  · have hlog := Nat.log2_lt hzero |>.mpr (show count - 1 < 2 ^ h by omega)
    rw [bitLength, if_neg hzero]
    omega

/-- Where two siblings have leaves, the root is higher up. -/
theorem height_lt_bitLength (hn : n.start < count) (hsibling : n.sibling.start < count) :
    n.height < bitLength (count - 1) := by
  have hpos : 0 < count := Nat.zero_lt_of_lt hn
  have hbig : 2 ^ n.height < count := by
    cases hleft : n.isLeft with
    | true =>
      have hstop := n.stop_eq
      rw [start_sibling hleft] at hsibling
      omega
    | false =>
      have hstop := n.sibling.stop_eq
      rw [start_of_right hleft] at hn
      rw [height_sibling] at hstop
      omega
  by_contra hle
  have hpow := Nat.pow_le_pow_right (show 0 < 2 by omega) (Nat.le_of_not_lt hle)
  have hroot := le_two_pow_bitLength hpos
  omega

theorem filter_siblings {m : Nat} (htop : count ≤ topLeaf) (hindex : n.index < m)
    (hsize : count ≤ m * 2 ^ n.height) (hn : n.start < count) :
    (siblings n m).filter (·.minLeaf < count) =
      ((n.wayUp count).map sibling).filter (·.start < count) := by
  refine siblingInduction (motive := fun n l =>
    l = ((n.wayUp count).map sibling).filter (·.start < count)) ?_ ?_ ?_ htop hindex hsize hn
  · intro n hzero hstop
    rw [stop, hzero, Nat.zero_add, Nat.one_mul] at hstop
    rw [wayUp_of_le (bitLength_le_of_le hstop)]
    rfl
  · intro n l hn hsibling ih
    rw [wayUp_of_lt (height_lt_bitLength hn hsibling), List.map_cons,
      List.filter_cons_of_pos (by simpa using hsibling), ih]
  · intro n l hn hsibling ih
    by_cases hroot : n.height < bitLength (count - 1)
    · rw [wayUp_of_lt hroot, List.map_cons, List.filter_cons_of_neg (by simpa using hsibling), ih]
    · rw [Nat.not_lt] at hroot
      rw [ih, wayUp_of_le hroot, wayUp_of_le (hroot.trans (Nat.le_succ _))]

end Node

theorem nodeValue_of_shows {leaves : List α} {count : Nat} (htop : count < Node.topLeaf)
    (hcount : count ≤ leaves.length) {n : Node} {s : Step α} (h : Shows combine leaves count n s) :
    s.onLeft = n.isLeft ∧ (treeOf combine leaves).nodeValue combine n count = .ok s.entry := by
  have hne := List.length_pos_iff.mpr (ne_nil_of_listRoot h.2)
  rw [length_slice] at hne
  obtain ⟨root, hroot, hvalue⟩ :=
    nodeValue_treeOf combine htop hcount (show n.start < count by omega)
  rw [hvalue, Option.some.inj (hroot.symm.trans h.2)]
  exact ⟨h.1, rfl⟩

/-- The steps from a node to the root, resolved, carry what the tree gives for the node and
for the siblings on the way. -/
theorem resolve_coordinates (combine : α → α → α) {leaves : List α} {count : Nat}
    (htop : count < Node.topLeaf) (hcount : count ≤ leaves.length) {n : Node}
    (hindex : n.index < count) (hn : n.start < count) :
    ∃ steps, resolve combine (treeOf combine leaves).stored (Step.toRoot n count) = .ok steps ∧
      List.Forall₂ (fun c s => s.onLeft = c.isLeft ∧
        (treeOf combine leaves).nodeValue combine c count = .ok s.entry)
        (n.coordinates count) steps := by
  have hmin : n.minLeaf < count := (Node.minLeaf_lt_iff htop.le).mpr hn
  have hsize : count ≤ count * 2 ^ n.height :=
    Nat.le_mul_of_pos_right count (Nat.two_pow_pos n.height)
  have hnodes : (n :: siblings n count).filter (·.minLeaf < count) = n.coordinates count := by
    rw [List.filter_cons_of_pos (by simpa using hmin),
      Node.filter_siblings htop.le hindex hsize hn]
    rfl
  have hinside : ∀ m ∈ n.coordinates count, m.start < count := by
    refine List.forall_mem_cons.mpr ⟨hn, fun m hm => ?_⟩
    simpa using (List.mem_filter.mp hm).2
  obtain ⟨steps, hsteps, hshows⟩ := resolve_toward combine htop hcount hinside
  rw [← hnodes] at hsteps
  exact ⟨steps, hsteps, hshows.imp fun _ _ => nodeValue_of_shows htop hcount⟩

section Lookup

variable {lookup lookup' : Node → Except MerkleError α}

theorem foldlM_lookup_mono (h : ∀ n value, lookup n = .ok value → lookup' n = .ok value)
    {nodes : List Node} {first value : α}
    (hvalue : nodes.foldlM (fun value n => do return combine (← lookup n) value) first =
      .ok value) :
    nodes.foldlM (fun value n => do return combine (← lookup' n) value) first = .ok value := by
  induction nodes generalizing first with
  | nil => exact hvalue
  | cons n nodes ih =>
    rw [List.foldlM_cons] at hvalue ⊢
    obtain ⟨joined, hjoined, hrest⟩ := bind_eq_ok.mp hvalue
    obtain ⟨left, hleft, hpure⟩ := bind_eq_ok.mp hjoined
    rw [h n left hleft]
    exact bind_eq_ok.mpr ⟨joined, hpure, ih hrest⟩

theorem Target.value_mono (h : ∀ n value, lookup n = .ok value → lookup' n = .ok value)
    {target : Target} {value : α} (hvalue : target.value combine lookup = .ok value) :
    target.value combine lookup' = .ok value := by
  match target with
  | .node n => exact h n value hvalue
  | .cover [] => cases hvalue
  | .cover (n :: nodes) =>
    obtain ⟨first, hfirst, hrest⟩ := bind_eq_ok.mp hvalue
    exact bind_eq_ok.mpr ⟨first, h n first hfirst, foldlM_lookup_mono h hrest⟩

theorem resolve_eq_ok {targets : List (Step Target)} {steps : List (Step α)} :
    resolve combine lookup targets = .ok steps ↔
      List.Forall₂ (fun target s => s.onLeft = target.onLeft ∧
        target.entry.value combine lookup = .ok s.entry) targets steps := by
  rw [resolve]
  induction targets generalizing steps with
  | nil => simp [pure, Except.pure, eq_comm]
  | cons target targets ih =>
    rw [List.mapM_cons, List.forall₂_cons_left_iff]
    constructor
    · intro h
      obtain ⟨s, hs, hrest⟩ := bind_eq_ok.mp h
      obtain ⟨value, hvalue, hstep⟩ := bind_eq_ok.mp hs
      obtain ⟨rest, htargets, hsteps⟩ := bind_eq_ok.mp hrest
      cases hstep
      cases hsteps
      exact ⟨_, rest, ⟨rfl, hvalue⟩, ih.mp htargets, rfl⟩
    · rintro ⟨s, rest, ⟨hside, hvalue⟩, hrest, rfl⟩
      rw [hvalue, ih.mpr hrest, ← hside]
      rfl

theorem resolve_mono (h : ∀ n value, lookup n = .ok value → lookup' n = .ok value)
    {targets : List (Step Target)} {steps : List (Step α)}
    (hsteps : resolve combine lookup targets = .ok steps) :
    resolve combine lookup' targets = .ok steps :=
  resolve_eq_ok.mpr <| (resolve_eq_ok.mp hsteps).imp fun _ _ ⟨hside, hvalue⟩ =>
    ⟨hside, Target.value_mono h hvalue⟩

end Lookup

/-- Each step of a proof carries what the tree gives for the node that it stands for: where
the proof starts, and then each sibling with leaves on the way to the root. The nodes looked
up for it are all stored, so any lookup that has what is stored finds the same values. -/
theorem steps_carry_nodeValue (combine : α → α → α) {leaves : List α}
    (hlen : leaves.length < 2 ^ 63) :
    ∃ t, Tree.ofLeaves combine leaves = .ok t ∧
      (∀ leaf count, leaf < count → count ≤ leaves.length →
        ∃ targets steps, Step.inclusion leaf count = .ok targets ∧
          t.inclusionProof combine leaf count = .ok steps ∧
          List.Forall₂ (fun c s => s.onLeft = c.isLeft ∧
            t.nodeValue combine c count = .ok s.entry)
            ((Node.leaf leaf).coordinates count) steps ∧
          ∀ lookup, (∀ n value, t.stored n = .ok value → lookup n = .ok value) →
            resolve combine lookup targets = .ok steps) ∧
      ∀ old new, 1 ≤ old → old ≤ new → new ≤ leaves.length →
        ∃ targets steps, Step.consistency old new = .ok targets ∧
          t.consistencyProof combine old new = .ok steps ∧
          List.Forall₂ (fun c s => s.onLeft = c.isLeft ∧
            t.nodeValue combine c new = .ok s.entry)
            ((Node.leaf (old - 1)).climbRight.coordinates new) steps ∧
          ∀ lookup, (∀ n value, t.stored n = .ok value → lookup n = .ok value) →
            resolve combine lookup targets = .ok steps := by
  have htop := lt_topLeaf hlen
  refine ⟨treeOf combine leaves, ofLeaves_eq leaves, ?_, ?_⟩
  · intro leaf count hleaf hcount
    obtain ⟨steps, hsteps, hcarry⟩ := resolve_coordinates combine (hcount.trans_lt htop) hcount
      (n := .leaf leaf) hleaf (by rwa [Node.start_leaf])
    refine ⟨_, steps, ?_, ?_, hcarry, fun lookup h => resolve_mono h hsteps⟩
    · rw [Step.inclusion, if_pos hleaf]
    · rw [inclusionProof_eq, if_neg (by omega), if_pos hleaf, hsteps]
  · intro old new hold hle hnew
    obtain ⟨_, hstart, hindex⟩ := climbRight_last hold
    obtain ⟨steps, hsteps, hcarry⟩ := resolve_coordinates combine (hnew.trans_lt htop) hnew
      (hindex.trans_le hle) (hstart.trans_le hle)
    refine ⟨_, steps, ?_, ?_, hcarry, fun lookup h => resolve_mono h hsteps⟩
    · rw [Step.consistency, if_neg (by omega)]
    · rw [consistencyProof_eq, if_neg (by omega), if_neg (by omega), hsteps]

/-- Proofs at seven of eight leaves. For the first leaf the last sibling is there only in part;
from three leaves the walk has siblings on both sides. -/
theorem steps_carry_nodeValue_seven :
    ([0, 1, 2, 3, 4, 5, 6, 7].map FreeMagma.of).length < 2 ^ 63 ∧
      ∃ t, Tree.ofLeaves (fun a b : FreeMagma Nat => a * b)
          ([0, 1, 2, 3, 4, 5, 6, 7].map FreeMagma.of) = .ok t ∧
        (∃ targets steps, Step.inclusion 0 7 = .ok targets ∧
          t.inclusionProof (fun a b => a * b) 0 7 = .ok steps ∧
          List.Forall₂ (fun c s => s.onLeft = c.isLeft ∧
            t.nodeValue (fun a b => a * b) c 7 = .ok s.entry)
            [⟨0, 0⟩, ⟨0, 1⟩, ⟨1, 1⟩, ⟨2, 1⟩] steps ∧
          resolve (fun a b => a * b) t.stored targets = .ok steps) ∧
        ∃ targets steps, Step.consistency 3 7 = .ok targets ∧
          t.consistencyProof (fun a b => a * b) 3 7 = .ok steps ∧
          List.Forall₂ (fun c s => s.onLeft = c.isLeft ∧
            t.nodeValue (fun a b => a * b) c 7 = .ok s.entry)
            [⟨0, 2⟩, ⟨0, 3⟩, ⟨1, 0⟩, ⟨2, 1⟩] steps ∧
          resolve (fun a b => a * b) t.stored targets = .ok steps := by
  have hlen : ([0, 1, 2, 3, 4, 5, 6, 7].map FreeMagma.of).length < 2 ^ 63 := by decide
  obtain ⟨t, ht, hinclusion, hconsistency⟩ :=
    steps_carry_nodeValue (fun a b : FreeMagma Nat => a * b) hlen
  refine ⟨hlen, t, ht, ?_, ?_⟩
  · obtain ⟨targets, steps, htargets, hsteps, hcarry, hlookup⟩ :=
      hinclusion 0 7 (by decide) (by decide)
    exact ⟨targets, steps, htargets, hsteps, hcarry, hlookup _ fun _ _ h => h⟩
  · obtain ⟨targets, steps, htargets, hsteps, hcarry, hlookup⟩ :=
      hconsistency 3 7 (by decide) (by decide) (by decide)
    have hstart : (Node.leaf (3 - 1)).climbRight = ⟨0, 2⟩ := Node.climbRight_of_left rfl
    rw [hstart] at hcarry
    exact ⟨targets, steps, htargets, hsteps, hcarry, hlookup _ fun _ _ h => h⟩

end TamperEvident
