import Mathlib.Control.Basic
import Mathlib.Data.Option.Basic
import TamperEvident.Ledger.Snapshot.Binary
import TamperEvident.Proofs.Text

/-! A snapshot is read back from the bytes it is written as, whatever follows
them. Lengths are written in eight bytes, so what is written has to be shorter
than `2 ^ 64` bytes. -/

namespace TamperEvident.Snapshot

/-- The reader takes off what the writer put in front. -/
def ReadsBack {α : Type} (read : Reader α) (write : α → Bytes) (x : α) : Prop :=
  ∀ rest, read (write x ++ rest) = some (x, rest)

theorem length_writeWord (n : UInt64) : (writeWord n).length = 8 := Bytes.length_littleEndian 8 _

theorem readsBack_word (n : UInt64) : ReadsBack readWord writeWord n := by
  intro rest
  have hlen := length_writeWord n
  have hn : n.toNat % 256 ^ 8 = n.toNat := Nat.mod_eq_of_lt n.toNat_lt
  rw [readWord, List.take_left' hlen, List.drop_left' hlen, if_pos hlen, writeWord,
    Bytes.ofLittleEndian_littleEndian, hn, UInt64.ofNat_toNat]

theorem length_writeHex (b : Bytes) : (writeHex b).length = 8 + 2 * b.length := by
  rw [writeHex, List.length_append, length_writeWord, Hex.length_ofText_encode]

theorem readsBack_hex {b : Bytes} (h : (writeHex b).length < 2 ^ 64) :
    ReadsBack readHex writeHex b := by
  intro rest
  rw [length_writeHex] at h
  have hlen := Hex.length_ofText_encode b
  have hword : (UInt64.ofNat (Bytes.ofText (Hex.encode b)).length).toNat =
      (Bytes.ofText (Hex.encode b)).length :=
    UInt64.toNat_ofNat_of_lt' (by rw [hlen]; show 2 * b.length < 2 ^ 64; omega)
  have heven : (Bytes.ofText (Hex.encode b)).length % 2 = 0 := by omega
  rw [readHex, writeHex, List.append_assoc, readsBack_word]
  simp only [bind, Option.bind, hword, List.take_left, List.drop_left, heven, and_self, guard,
    if_true, Hex.decodePairs_encode]
  rfl

variable {α : Type} {read : Reader α} {write : α → Bytes} {items : List α}

theorem readItems_flatMap (h : ∀ x ∈ items, ReadsBack read write x) (rest : Bytes) :
    readItems read items.length (items.flatMap write ++ rest) = some (items, rest) := by
  induction items with
  | nil => rfl
  | cons x more ih =>
    have hx := h x List.mem_cons_self
    have hmore := ih fun y hy => h y (List.mem_cons_of_mem _ hy)
    rw [List.length_cons, List.flatMap_cons, List.append_assoc, readItems, hx]
    simp only [bind, Option.bind, hmore]
    rfl

theorem length_write_le {x : α} (hx : x ∈ items) :
    (write x).length ≤ (writeList write items).length := by
  rw [writeList, List.length_append]
  induction items with
  | nil => cases hx
  | cons y more ih =>
    rw [List.flatMap_cons, List.length_append]
    rcases List.mem_cons.mp hx with rfl | hmem
    · omega
    · have := ih hmem
      rw [length_writeWord] at this ⊢
      omega

theorem length_le_writeList (h : ∀ x, 0 < (write x).length) :
    items.length ≤ (writeList write items).length := by
  rw [writeList, List.length_append]
  induction items with
  | nil => exact Nat.zero_le _
  | cons y more ih =>
    have hy := h y
    rw [List.flatMap_cons, List.length_append, List.length_cons]
    rw [length_writeWord] at ih ⊢
    omega

/-- A list is read back if each of its items would be. -/
theorem readsBack_list (hpos : ∀ x, 0 < (write x).length)
    (hread : ∀ x, (write x).length < 2 ^ 64 → ReadsBack read write x)
    (h : (writeList write items).length < 2 ^ 64) :
    ReadsBack (readList read) (writeList write) items := by
  intro rest
  have hcount : items.length < 2 ^ 64 := Nat.lt_of_le_of_lt (length_le_writeList hpos) h
  have hitems : ∀ x ∈ items, ReadsBack read write x :=
    fun x hx => hread x (Nat.lt_of_le_of_lt (length_write_le hx) h)
  rw [readList, writeList, List.append_assoc, readsBack_word]
  simp only [bind, Option.bind, UInt64.toNat_ofNat_of_lt' hcount]
  exact readItems_flatMap hitems rest

theorem length_writeLink (l : KnownLink) : (writeLink l).length = 16 + 2 * l.linkHash.length := by
  rw [writeLink, List.length_append, length_writeWord, length_writeHex]
  omega

theorem length_writeAuthor (a : KnownAuthor) :
    (writeAuthor a).length = 16 + 2 * (a.id.length + a.publicKey.length) := by
  rw [writeAuthor, List.length_append, length_writeHex, length_writeHex]
  omega

theorem readsBack_link {l : KnownLink} (h : (writeLink l).length < 2 ^ 64) :
    ReadsBack readLink writeLink l := by
  intro rest
  rw [writeLink, List.length_append] at h
  rw [readLink, writeLink, List.append_assoc, readsBack_word]
  simp only [bind, Option.bind, readsBack_hex (Nat.lt_of_le_of_lt (Nat.le_add_left _ _) h) rest]
  rfl

theorem readsBack_author {a : KnownAuthor} (h : (writeAuthor a).length < 2 ^ 64) :
    ReadsBack readAuthor writeAuthor a := by
  intro rest
  rw [writeAuthor, List.length_append] at h
  have hid := readsBack_hex (b := a.id) (by omega)
  have hkey := readsBack_hex (b := a.publicKey) (by omega)
  rw [readAuthor, writeAuthor, List.append_assoc, hid]
  simp only [bind, Option.bind, hkey rest]
  rfl

theorem readsBack_toBytes {s : Snapshot} (h : s.toBytes.length < 2 ^ 64) :
    ReadsBack Snapshot.read toBytes s := by
  intro rest
  simp only [toBytes, List.length_append] at h
  have hpolicy := readsBack_hex (b := s.policy) (by omega)
  have hblock := readsBack_hex (b := s.headBlockHash) (by omega)
  have hlink := readsBack_hex (b := s.headLinkHash) (by omega)
  have hcontext := readsBack_hex (b := s.contextLinkHash) (by omega)
  have hlinks : ReadsBack (readList readLink) (writeList writeLink) s.knownLinks :=
    readsBack_list (fun l => by rw [length_writeLink]; omega) (fun _ => readsBack_link) (by omega)
  have hauthors : ReadsBack (readList readAuthor) (writeList writeAuthor) s.knownAuthors :=
    readsBack_list (fun a => by rw [length_writeAuthor]; omega) (fun _ => readsBack_author)
      (by omega)
  rw [Snapshot.read, toBytes]
  simp only [List.append_assoc, bind, Option.bind, hpolicy _, readsBack_word _ _, hblock _, hlink _,
    hcontext _, hlinks _, hauthors _]
  rfl

theorem length_toBytes (s : Snapshot) :
    s.toBytes.length = 56 + 2 * (s.policy.length + s.headBlockHash.length + s.headLinkHash.length +
      s.contextLinkHash.length) + (s.knownLinks.flatMap writeLink).length +
      (s.knownAuthors.flatMap writeAuthor).length := by
  simp only [toBytes, writeList, List.length_append, length_writeHex, length_writeWord]
  omega

end TamperEvident.Snapshot
