import Mathlib.Data.List.Induction
import Mathlib.Data.List.Nodup
import TamperEvident.Ledger.Policy
import TamperEvident.Proofs.Block.Nesting
import TamperEvident.Proofs.Block.Shape
import TamperEvident.Proofs.Table

/-! The shapes that a policy allows. An entry of the policy is the tags of a shape,
and a shape is allowed just when its tags are an entry. An entry is of use when it is
the shape of a block that the limit lets be read. -/

namespace TamperEvident

/-- Every entry is the tags of some kinds, one after the other, and none stands there twice. -/
structure ShapeEntries (entries : List Bytes) : Prop where
  tags : ∀ raw ∈ entries, ∃ kinds : List Kind,
    raw = kinds.flatMap fun kind => Varint.encode kind.tag
  nodup : entries.Nodup

/-- What is wrong with an entry that follows the entries `before`. -/
inductive EntryFault (before : List Bytes) (raw : Bytes) : PolicyError → Prop
  | malformed {cause : Shape.Error} (h : Shape.Malformed raw cause) :
      EntryFault before raw (.invalidAllowedBlock before.length (.shape cause))
  | repeated {shape : Shape} (hshape : raw = shape.toBytes) (hmem : raw ∈ before) :
      EntryFault before raw (.duplicateAllowedBlock shape.display)

theorem shapeEntries_concat {entries : List Bytes} {raw : Bytes} :
    ShapeEntries (entries ++ [raw]) ↔
      ShapeEntries entries ∧ (∃ shape : Shape, raw = shape.toBytes) ∧ raw ∉ entries := by
  constructor
  · rintro ⟨htags, hnodup⟩
    rw [List.forall_mem_append, List.forall_mem_singleton] at htags
    rw [← List.concat_eq_append, List.nodup_concat] at hnodup
    exact ⟨⟨htags.1, hnodup.2⟩, htags.2, hnodup.1⟩
  · rintro ⟨⟨htags, hnodup⟩, hraw, hnew⟩
    refine ⟨?_, ?_⟩
    · rw [List.forall_mem_append, List.forall_mem_singleton]
      exact ⟨htags, hraw⟩
    · rw [← List.concat_eq_append, List.nodup_concat]
      exact ⟨hnew, hnodup⟩

theorem shapeEntries_map {shapes : List Shape} (h : shapes.Nodup) :
    ShapeEntries (shapes.map Shape.toBytes) where
  tags := by
    intro raw hraw
    obtain ⟨shape, _, rfl⟩ := List.mem_map.mp hraw
    exact ⟨shape, rfl⟩
  nodup := List.Nodup.map (fun _ _ => Shape.toBytes_inj.mp) h

namespace Policy

theorem mem_shapesFrom {index : Nat} {seen allowed : ShapeSet} {entries : List Bytes}
    (h : shapesFrom index seen entries = .ok allowed) {s : Shape} :
    s ∈ allowed ↔ s ∈ seen ∨ s.toBytes ∈ entries := by
  induction entries generalizing index seen with
  | nil =>
    obtain rfl := Except.ok.inj h
    simp
  | cons raw rest ih =>
    rw [shapesFrom] at h
    cases hshape : Shape.ofBytes raw with
    | error cause => simp [hshape] at h
    | ok shape =>
      simp only [hshape] at h
      split at h
      · cases h
      · have hentry : s = shape ↔ s.toBytes = raw := by
          rw [← Shape.ofBytes_eq_ok, hshape, Except.ok.injEq, eq_comm]
        rw [ih h, KeySet.mem_insert, hentry, List.mem_cons, or_comm (a := s.toBytes = raw),
          or_assoc]

theorem shapesFrom_concat (index : Nat) (seen : ShapeSet) (entries : List Bytes) (raw : Bytes) :
    shapesFrom index seen (entries ++ [raw]) =
      shapesFrom index seen entries >>= fun found =>
        shapesFrom (index + entries.length) found [raw] := by
  induction entries generalizing index seen with
  | nil => rfl
  | cons first rest ih =>
    rw [List.cons_append, shapesFrom, shapesFrom.eq_2]
    cases Shape.ofBytes first with
    | error cause => rfl
    | ok shape =>
      by_cases hseen : shape ∈ seen
      · simp only [hseen, if_true]
        rfl
      · simp only [hseen, if_false]
        rw [ih, List.length_cons, Nat.add_assoc, Nat.add_comm 1]

variable {entries : List Bytes} {raw : Bytes} {seen : ShapeSet}

theorem exists_shapesFrom_singleton {index : Nat}
    (hseen : ∀ s : Shape, s ∈ seen ↔ s.toBytes ∈ entries) :
    (∃ allowed, shapesFrom index seen [raw] = .ok allowed) ↔
      (∃ shape : Shape, raw = shape.toBytes) ∧ raw ∉ entries := by
  cases hshape : Shape.ofBytes raw with
  | error cause =>
    have hno : ¬ ∃ shape : Shape, raw = shape.toBytes := by
      rintro ⟨shape, rfl⟩
      rw [Shape.ofBytes_toBytes] at hshape
      cases hshape
    simp [shapesFrom, hshape, hno]
  | ok shape =>
    obtain rfl := Shape.ofBytes_eq_ok.mp hshape
    by_cases hmem : shape ∈ seen
    · simp [shapesFrom, hshape, hmem, (hseen shape).mp hmem]
    · simp [shapesFrom, hshape, hmem, (hseen shape).not.mp hmem]

theorem shapesFrom_singleton_eq_error {e : PolicyError}
    (hseen : ∀ s : Shape, s ∈ seen ↔ s.toBytes ∈ entries) :
    shapesFrom entries.length seen [raw] = .error e ↔ EntryFault entries raw e := by
  rw [shapesFrom]
  constructor
  · intro h
    cases hshape : Shape.ofBytes raw with
    | error cause =>
      rw [hshape] at h
      obtain rfl := Except.error.inj h
      exact .malformed (Shape.ofBytes_eq_error.mp hshape)
    | ok shape =>
      obtain rfl := Shape.ofBytes_eq_ok.mp hshape
      by_cases hmem : shape ∈ seen
      · simp only [hshape, hmem, if_true] at h
        obtain rfl := Except.error.inj h
        exact .repeated rfl ((hseen shape).mp hmem)
      · simp only [hshape, hmem, if_false] at h
        cases h
  · rintro (h | ⟨rfl, hmem⟩)
    · rw [Shape.ofBytes_eq_error.mpr h]
    · simp only [Shape.ofBytes_toBytes, if_pos ((hseen _).mpr hmem)]

theorem mem_of_shapesFrom (h : shapesFrom 0 ∅ entries = .ok seen) (s : Shape) :
    s ∈ seen ↔ s.toBytes ∈ entries := by
  rw [mem_shapesFrom h]
  simp

theorem exists_shapesFrom_iff :
    (∃ allowed, shapesFrom 0 ∅ entries = .ok allowed) ↔ ShapeEntries entries := by
  induction entries using List.reverseRecOn with
  | nil => exact ⟨fun _ => ⟨by simp, List.nodup_nil⟩, fun _ => ⟨∅, rfl⟩⟩
  | append_singleton entries raw ih =>
    rw [shapeEntries_concat, ← ih, shapesFrom_concat]
    simp only [bind_eq_ok]
    constructor
    · rintro ⟨allowed, seen, hseen, hlast⟩
      exact ⟨⟨seen, hseen⟩, (exists_shapesFrom_singleton (mem_of_shapesFrom hseen)).mp ⟨_, hlast⟩⟩
    · rintro ⟨⟨seen, hseen⟩, hlast⟩
      obtain ⟨allowed, h⟩ := (exists_shapesFrom_singleton (mem_of_shapesFrom hseen)).mpr hlast
      exact ⟨allowed, seen, hseen, h⟩

theorem shapesFrom_eq_error {e : PolicyError} :
    shapesFrom 0 ∅ entries = .error e ↔
      ∃ before raw after, entries = before ++ raw :: after ∧
        ShapeEntries before ∧ EntryFault before raw e := by
  induction entries using List.reverseRecOn with
  | nil => simp [shapesFrom]
  | append_singleton entries raw ih =>
    rw [exists_split_concat, ← ih, shapesFrom_concat, bind_eq_error, ← exists_shapesFrom_iff]
    simp only [Nat.zero_add]
    refine or_congr_right ⟨?_, ?_⟩
    · rintro ⟨seen, hseen, h⟩
      exact ⟨⟨seen, hseen⟩, (shapesFrom_singleton_eq_error (mem_of_shapesFrom hseen)).mp h⟩
    · rintro ⟨⟨seen, hseen⟩, h⟩
      exact ⟨seen, hseen, (shapesFrom_singleton_eq_error (mem_of_shapesFrom hseen)).mpr h⟩

theorem exists_allowedShapes_iff {p : Policy} :
    (∃ allowed, p.allowedShapes = .ok allowed) ↔ ShapeEntries p.allowedBlocks :=
  exists_shapesFrom_iff

theorem mem_allowedShapes {p : Policy} {allowed : ShapeSet} (h : p.allowedShapes = .ok allowed)
    {s : Shape} : s ∈ allowed ↔ s.toBytes ∈ p.allowedBlocks := mem_of_shapesFrom h s

def listing (entries : List Bytes) : Policy where
  ledgerPublicKey := []
  maxBlockSize := 1
  hashingAlgorithm := ""
  signingAlgorithm := ""
  allowedBlocks := entries
  authorKeys := []
  applicationData := ⟨.bool true, trivial⟩

/-- The shapes of a policy can be read just when each entry is tags of kinds and none is listed
twice. Otherwise the first entry that is no tags, or stands there already, is what is reported. A
block's shape is then allowed just when its tags are an entry, for tags and shapes say the same. -/
theorem allowed_by_tags (p : Policy) :
    ((∃ allowed, p.allowedShapes = .ok allowed) ↔
      (∀ raw ∈ p.allowedBlocks, ∃ kinds : List Kind,
        raw = kinds.flatMap fun kind => Varint.encode kind.tag) ∧ p.allowedBlocks.Nodup) ∧
    (∀ e, p.allowedShapes = .error e ↔
      ∃ before raw after, p.allowedBlocks = before ++ raw :: after ∧
        ShapeEntries before ∧ EntryFault before raw e) ∧
    (∀ allowed, p.allowedShapes = .ok allowed → ∀ b : Block,
      b.shape ∈ allowed ↔ b.shape.toBytes ∈ p.allowedBlocks) ∧
    (∀ shape : Shape, Shape.ofBytes shape.toBytes = .ok shape) ∧
    ∀ raw shape, Shape.ofBytes raw = .ok shape → shape.toBytes = raw := by
  refine ⟨?_, fun e => shapesFrom_eq_error, fun allowed h b => mem_allowedShapes h,
    Shape.ofBytes_toBytes, fun raw shape => Shape.toBytes_of_ofBytes⟩
  have hentries : ShapeEntries p.allowedBlocks ↔
      (∀ raw ∈ p.allowedBlocks, ∃ kinds : List Kind,
        raw = kinds.flatMap fun kind => Varint.encode kind.tag) ∧ p.allowedBlocks.Nodup :=
    ⟨fun h => ⟨h.tags, h.nodup⟩, fun h => ⟨h.1, h.2⟩⟩
  rw [← hentries]
  exact exists_allowedShapes_iff

/-- An entry that breaks off is reported before a later one that stands there already. -/
theorem allowed_by_tags_broken :
    (∃ allowed, (listing [[85, 68], [68]]).allowedShapes = .ok allowed ∧
      ([.updateContext, .data] : Shape) ∈ allowed) ∧
    (listing [[68], [85, 128], [68]]).allowedShapes =
      .error (.invalidAllowedBlock 1 (.shape (.varint .truncated))) ∧
    (listing [[85, 68], [68], [85, 68]]).allowedShapes =
      .error (.duplicateAllowedBlock "UpdateContext>Data") := by
  have hshapes : ([[85, 68], [68]] : List Bytes) =
      ([[.updateContext, .data], [.data]] : List Shape).map Shape.toBytes := by cbv
  have htwo : ShapeEntries [[85, 68], [68]] := hshapes ▸ shapeEntries_map (by decide)
  have hone : ShapeEntries [[68]] :=
    ⟨fun raw h => htwo.tags raw (List.mem_cons_of_mem _ h), List.nodup_singleton _⟩
  obtain ⟨hread, _, hallowed, _⟩ := allowed_by_tags (listing [[85, 68], [68]])
  obtain ⟨_, hbroken, _⟩ := allowed_by_tags (listing [[68], [85, 128], [68]])
  obtain ⟨_, hrepeated, _⟩ := allowed_by_tags (listing [[85, 68], [68], [85, 68]])
  have htags : ([85, 68] : Bytes) = Shape.toBytes [.updateContext, .data] := by cbv
  refine ⟨?_, (hbroken _).mpr ⟨[[68]], [85, 128], [[68]], rfl, hone, ?_⟩,
    (hrepeated _).mpr ⟨[[85, 68], [68]], [85, 68], [], rfl, htwo, ?_⟩⟩
  · obtain ⟨allowed, h⟩ := hread.mpr ⟨htwo.tags, htwo.nodup⟩
    have hblock := hallowed allowed h (.wrapped [] .updateContext (.terminal [] (.data [])))
    exact ⟨allowed, h, hblock.mpr (htags ▸ List.mem_cons_self)⟩
  · exact .malformed ⟨[.updateContext], [128], by cbv, by decide, .inl ⟨.truncated, rfl, rfl⟩⟩
  · exact .repeated htags (by decide)

end Policy

/-- What can be read has the shape of wrappers around one terminal block, as many as its layers, and
every such shape within the limit can be read. So an entry of a policy lets some block through just
when it is the tags of such a shape. -/
theorem reachable_shapes (d : Nat) :
    (∀ raw b, Block.parse d raw = .ok b →
      b.shape.Nested ∧ b.shape.length = b.depth ∧ b.shape.length ≤ d) ∧
    (∀ s : Shape, s.Nested → 1 ≤ s.length → s.length ≤ d →
      ∃ raw b, Block.parse d raw = .ok b ∧ b.shape = s) ∧
    ∀ (p : Policy) (allowed : ShapeSet) (entry : Bytes), p.allowedShapes = .ok allowed →
      entry ∈ p.allowedBlocks →
      ((∃ raw b, Block.parse d raw = .ok b ∧ b.shape ∈ allowed ∧ entry = b.shape.toBytes) ↔
        ∃ s : Shape, entry = s.toBytes ∧ s.Nested ∧ s.length ≤ d) := by
  have hread : ∀ raw b, Block.parse d raw = .ok b →
      b.shape.Nested ∧ b.shape.length = b.depth ∧ b.shape.length ≤ d := by
    intro raw b h
    exact ⟨b.nested_shape, b.length_shape, b.length_shape ▸ Block.depth_le_of_parse h⟩
  refine ⟨hread, fun s h _ hlen => Block.exists_parse_of_nested h hlen, ?_⟩
  intro p allowed entry hallowed hentry
  constructor
  · rintro ⟨raw, b, hparse, _, rfl⟩
    obtain ⟨hnested, _, hlen⟩ := hread raw b hparse
    exact ⟨b.shape, rfl, hnested, hlen⟩
  · rintro ⟨s, rfl, hnested, hlen⟩
    obtain ⟨raw, b, hparse, rfl⟩ := Block.exists_parse_of_nested hnested hlen
    exact ⟨raw, b, hparse, (Policy.mem_allowedShapes hallowed).mpr hentry, rfl⟩

/-- Two terminal blocks in a row may be listed, but no block ever has that shape. -/
theorem reachable_shapes_doubled :
    (∃ raw b, Block.parse 2 raw = .ok b ∧ b.shape = [.inContext, .ack]) ∧
    ∃ allowed, (Policy.listing [[68, 68], [85, 68]]).allowedShapes = .ok allowed ∧
      (∃ raw b, Block.parse 2 raw = .ok b ∧ b.shape ∈ allowed ∧ [85, 68] = b.shape.toBytes) ∧
      ¬ ∃ raw b, Block.parse 2 raw = .ok b ∧ b.shape ∈ allowed ∧ [68, 68] = b.shape.toBytes := by
  obtain ⟨_, hexists, hpermits⟩ := reachable_shapes 2
  have hshapes : ([[68, 68], [85, 68]] : List Bytes) =
      ([[.data, .data], [.updateContext, .data]] : List Shape).map Shape.toBytes := by cbv
  obtain ⟨hdoubled, hupdate⟩ := List.cons.inj hshapes
  have hentries : ShapeEntries (Policy.listing [[68, 68], [85, 68]]).allowedBlocks :=
    hshapes ▸ shapeEntries_map (by decide)
  obtain ⟨allowed, hallowed⟩ := Policy.exists_allowedShapes_iff.mpr hentries
  refine ⟨?_, allowed, hallowed, ?_, ?_⟩
  · exact hexists _ ⟨[.inContext], .ack, rfl, by decide, rfl⟩ (by decide) (by decide)
  · refine (hpermits _ allowed _ hallowed (by decide)).mpr ⟨_, (List.cons.inj hupdate).1, ?_, ?_⟩
    · exact ⟨[.updateContext], .data, rfl, by decide, rfl⟩
    · decide
  · intro h
    obtain ⟨s, hs, ⟨wrappers, bottom, hsplit, hwrappers, _⟩, _⟩ :=
      (hpermits _ allowed _ hallowed (by decide)).mp h
    obtain rfl := Shape.toBytes_inj.mp (hs.symm.trans hdoubled)
    have htwo : [Kind.data] ++ [.data] = wrappers ++ [bottom] := hsplit
    obtain ⟨rfl, _⟩ := List.append_inj' htwo rfl
    have hdata := hwrappers .data List.mem_cons_self
    cases hdata

end TamperEvident
