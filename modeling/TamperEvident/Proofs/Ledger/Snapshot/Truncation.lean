import TamperEvident.Proofs.Ledger.Reachable
import TamperEvident.Proofs.Ledger.Snapshot.Binary

/-! What is made of the bytes of a snapshot. Whole, they give the snapshot back if a ledger
can go on from it. Cut short anywhere, they give nothing: a reader that had enough bytes
takes the same ones when more follow. -/

namespace TamperEvident.Snapshot

/-- More bytes after those that were enough are left over. -/
def Local {α : Type} (read : Reader α) : Prop :=
  ∀ ⦃bytes x rest⦄, read bytes = some (x, rest) →
    ∀ more, read (bytes ++ more) = some (x, rest ++ more)

variable {α β : Type} {read : Reader α} {next : α → Reader β}

theorem Local.bind (h : Local read) (hnext : ∀ x, Local (next x)) :
    Local (fun bytes => do
      let (x, rest) ← read bytes
      next x rest) := by
  intro bytes y rest hread more
  obtain ⟨⟨x, left⟩, hx, hy⟩ := Option.bind_eq_some_iff.mp hread
  exact Option.bind_eq_some_iff.mpr ⟨_, h hx more, hnext x hy more⟩

theorem Local.pure (x : α) : Local fun bytes => some (x, bytes) := by
  intro bytes y rest h more
  obtain ⟨rfl, rfl⟩ := Prod.mk.inj (Option.some.inj h)
  rfl

theorem local_word : Local readWord := by
  intro bytes n rest h more
  rw [readWord] at h
  split at h
  · rename_i hlen
    have hle : 8 ≤ bytes.length := by
      rw [List.length_take] at hlen
      omega
    obtain ⟨rfl, rfl⟩ := Prod.mk.inj (Option.some.inj h)
    rw [readWord, List.take_append_of_le_length hle, List.drop_append_of_le_length hle, if_pos hlen]
  · cases h

theorem local_hex : Local readHex := by
  intro bytes field rest h more
  simp only [readHex, bind, Option.bind_eq_some_iff] at h
  obtain ⟨⟨length, text⟩, hword, _, hguard, field', hfield, h⟩ := h
  obtain ⟨rfl, rfl⟩ := Prod.mk.inj (Option.some.inj h)
  simp only [guard] at hguard
  split at hguard
  · rename_i hlen
    have hle : length.toNat ≤ text.length := by
      rw [List.length_take] at hlen
      omega
    simp only [readHex, bind, local_word hword, Option.bind_some,
      List.take_append_of_le_length hle, List.drop_append_of_le_length hle, guard, if_pos hlen,
      hfield]
    rfl
  · cases hguard

theorem local_items (h : Local read) (n : Nat) : Local (readItems read n) := by
  induction n with
  | zero => exact .pure []
  | succ n ih => exact h.bind fun first => ih.bind fun more => .pure (first :: more)

theorem local_list (h : Local read) : Local (readList read) :=
  local_word.bind fun count => local_items h count.toNat

theorem local_link : Local readLink :=
  local_word.bind fun _ => local_hex.bind fun _ => .pure _

theorem local_author : Local readAuthor :=
  local_hex.bind fun _ => local_hex.bind fun _ => .pure _

theorem local_read : Local Snapshot.read :=
  local_hex.bind fun _ => local_word.bind fun _ => local_hex.bind fun _ => local_hex.bind fun _ =>
    local_hex.bind fun _ => (local_list local_link).bind fun _ =>
      (local_list local_author).bind fun _ => .pure _

/-- Bytes that were enough for a snapshot are all of its bytes, so fewer are not. -/
theorem read_truncated {s : Snapshot} (hsize : s.toBytes.length < 2 ^ 64) {front : Bytes}
    (hfront : front <+: s.toBytes) (hne : front ≠ s.toBytes) : Snapshot.read front = none := by
  obtain ⟨more, hmore⟩ := hfront
  rw [Option.eq_none_iff_forall_ne_some]
  rintro ⟨t, rest⟩ hread
  have hwhole := readsBack_toBytes hsize []
  rw [List.append_nil, ← hmore, local_read hread more] at hwhole
  have hrest := (Prod.mk.inj (Option.some.inj hwhole)).2
  rw [(List.append_eq_nil_iff.mp hrest).2, List.append_nil] at hmore
  exact hne hmore

/-- The link recorded for a block. Of several the last one counts. -/
def linkOf? (s : Snapshot) (i : UInt64) : Option Bytes :=
  (s.knownLinks.findRev? fun l => l.index == i).map KnownLink.linkHash

/-- A ledger can go on from here: it has a first block, whose link is recorded, no link
past its last block, and if there is one for that block it is the head's. -/
structure Resumes (s : Snapshot) : Prop where
  blocks : 0 < s.blockCount
  first : ∃ l ∈ s.knownLinks, l.index = 0
  below : ∀ l ∈ s.knownLinks, l.index ≤ s.blockCount - 1
  head : ∀ link, s.linkOf? (s.blockCount - 1) = some link → link = s.headLinkHash

variable {s : Snapshot}

theorem getElem?_linkTable (s : Snapshot) (i : UInt64) : s.linkTable[i]? = s.linkOf? i := by
  rw [linkTable, Table.getElem?_ofEntries, linkOf?, List.findRev?_eq_find?_reverse,
    List.findRev?_eq_find?_reverse, ← List.map_reverse, List.find?_map, Option.map_map]
  rfl

theorem exists_linkOf? {i : UInt64} :
    (∃ link, s.linkOf? i = some link) ↔ ∃ l ∈ s.knownLinks, l.index = i := by
  rw [← Option.isSome_iff_exists, linkOf?, Option.isSome_map, List.findRev?_eq_find?_reverse,
    List.find?_isSome]
  simp

theorem checkResumable_iff :
    checkResumable s.blockCount s.headLinkHash s.linkTable = .ok () ↔ s.Resumes := by
  rw [checkResumable_eq_ok, Std.ExtTreeMap.contains_eq_isSome_getElem?, Option.isSome_iff_exists]
  simp only [getElem?_linkTable]
  constructor
  · rintro ⟨hfirst, hbelow, hhead⟩
    obtain ⟨link, hlink⟩ := hfirst
    have hpos := hbelow 0 link hlink
    refine ⟨hpos, exists_linkOf?.mp ⟨link, hlink⟩, fun l hl => ?_, hhead⟩
    obtain ⟨known, hknown⟩ := exists_linkOf?.mpr ⟨l, hl, rfl⟩
    exact (le_sub_one_iff (UInt64.pos_iff_ne_zero.mp hpos)).mpr (hbelow _ known hknown)
  · rintro ⟨hpos, hfirst, hbelow, hhead⟩
    refine ⟨exists_linkOf?.mpr hfirst, fun i link hlink => ?_, hhead⟩
    obtain ⟨l, hl, rfl⟩ := exists_linkOf?.mp ⟨link, hlink⟩
    exact (le_sub_one_iff (UInt64.pos_iff_ne_zero.mp hpos)).mp (hbelow l hl)

theorem ofBytes_toBytes (hsize : s.toBytes.length < 2 ^ 64) :
    ofBytes s.toBytes = recast .inconsistentState (fun _ => s)
      (checkResumable s.blockCount s.headLinkHash s.linkTable) := by
  have hread := readsBack_toBytes hsize []
  rw [List.append_nil] at hread
  rw [ofBytes, hread]
  dsimp only
  cases checkResumable s.blockCount s.headLinkHash s.linkTable <;> rfl

/-- A snapshot is read back from its bytes just when a ledger can go on from it, whatever its fields
hold and however its links and authors are ordered and repeated, and is inconsistent otherwise. No
beginning of its bytes is taken for a snapshot. Lengths take eight bytes, hence the bound. -/
theorem whole_or_unreadable (hsize : s.toBytes.length < 2 ^ 64) :
    (ofBytes s.toBytes = .ok s ↔ s.Resumes) ∧
    (∀ t, ofBytes s.toBytes = .ok t → t = s) ∧
    (¬ s.Resumes → ∃ cause, ofBytes s.toBytes = .error (.inconsistentState cause)) ∧
    (∀ i : UInt64, s.linkTable[i]? = s.linkOf? i) ∧
    ∀ front : Bytes, front <+: s.toBytes → front ≠ s.toBytes →
      ofBytes front = .error .snapshotUnreadable := by
  have hbytes := ofBytes_toBytes hsize
  refine ⟨?_, fun t ht => ?_, fun hnot => ?_, getElem?_linkTable s, fun front hfront hne => ?_⟩
  · rw [hbytes, recast_eq_ok, ← checkResumable_iff]
    exact ⟨fun ⟨_, h, _⟩ => h, fun h => ⟨(), h, rfl⟩⟩
  · rw [hbytes, recast_eq_ok] at ht
    obtain ⟨_, _, rfl⟩ := ht
    rfl
  · rw [← checkResumable_iff] at hnot
    rw [hbytes]
    cases hcheck : checkResumable s.blockCount s.headLinkHash s.linkTable with
    | ok _ => exact absurd hcheck hnot
    | error cause => exact ⟨cause, rfl⟩
  · rw [ofBytes, read_truncated hsize hfront hne]

end TamperEvident.Snapshot

namespace TamperEvident

/-- Three blocks with links that are repeated and out of order, up to the last block's. -/
def Sample.disordered (head : Bytes) : Snapshot where
  policy := [71]
  blockCount := 3
  headBlockHash := []
  headLinkHash := head
  contextLinkHash := [1, 2]
  knownLinks := [⟨2, [9]⟩, ⟨0, [1]⟩, ⟨2, [7]⟩, ⟨0, []⟩]
  knownAuthors := [⟨[5], []⟩, ⟨[4], [6]⟩, ⟨[5], [8]⟩]

theorem Sample.length_disordered (head : Bytes) :
    (disordered head).toBytes.length = 56 + 2 * (3 + head.length) + 70 + 58 := by
  rw [Snapshot.length_toBytes]
  simp [disordered, Snapshot.length_writeLink, Snapshot.length_writeAuthor]
  omega

/-- The later of the two links of the last block has to be the head's. -/
theorem Snapshot.whole_or_unreadable_disordered :
    (Sample.disordered [7]).toBytes.length < 2 ^ 64 ∧
    ofBytes (Sample.disordered [7]).toBytes = .ok (Sample.disordered [7]) ∧
    ofBytes ((Sample.disordered [7]).toBytes.take 100) = .error .snapshotUnreadable ∧
    ∃ cause, ofBytes (Sample.disordered [9]).toBytes = .error (.inconsistentState cause) := by
  have hlength := Sample.length_disordered
  have hsize : ∀ head : Bytes, head.length = 1 →
      (Sample.disordered head).toBytes.length < 2 ^ 64 := by
    intro head hhead
    rw [hlength, hhead]
    decide
  obtain ⟨hwhole, _, _, _, hshort⟩ := whole_or_unreadable (hsize [7] rfl)
  obtain ⟨_, _, hinconsistent, _, _⟩ := whole_or_unreadable (hsize [9] rfl)
  refine ⟨hsize [7] rfl, hwhole.mpr ⟨by decide, by decide, by decide, ?_⟩,
    hshort _ (List.take_prefix _ _) ?_, hinconsistent ?_⟩
  · rintro link hlink
    exact (Option.some.inj hlink).symm
  · intro heq
    have hcount := congrArg List.length heq
    rw [List.length_take, hlength] at hcount
    revert hcount
    decide
  · intro hresumes
    exact absurd (hresumes.head [7] rfl) (by decide)

end TamperEvident
