import TamperEvident.Proofs.Json.Record
import TamperEvident.Proofs.Ledger.AllowedShapes

/-! A policy is read back from the payload it is written as if it passes its own
checks, and no payload gives a policy that fails them. -/

namespace TamperEvident

open Json (Value)

theorem floatFree_hexList (items : List Bytes) : (Policy.hexList items).FloatFree := by
  rw [Policy.hexList, Value.FloatFree]
  induction items with
  | nil => trivial
  | cons b rest ih => exact ⟨trivial, ih⟩

namespace Policy

variable {p : Policy}

theorem floatFree_toJson (h : p.applicationData.value.FloatFree) : p.toJson.FloatFree :=
  ⟨trivial, trivial, trivial, trivial, floatFree_hexList _, floatFree_hexList _, h, trivial⟩

def fieldValues (p : Policy) : List Value :=
  [.string (Hex.encode p.ledgerPublicKey), .ofWord p.maxBlockSize, .string p.hashingAlgorithm,
    .string p.signingAlgorithm, hexList p.allowedBlocks, hexList p.authorKeys,
    p.applicationData.value]

/-- All that is asked of a written policy is room for the containers in its application data. -/
theorem ofJson_toJson (p : Policy) (room : Nat) :
    ofJson room p.toJson.document =
      (p.applicationData.value.document.toData (room - 1)).map fun application =>
        { p with applicationData := application } := by
  have hfields := @Json.fieldsOf_document fieldNames p.fieldValues .refused (by decide) rfl
  have hlist : ∀ items, (hexList items).document.list? Json.hex? = some items :=
    Json.list?_document Json.hex?_document
  rw [ofJson, show p.toJson = .object (fieldNames.zip p.fieldValues) from rfl, hfields, fieldValues]
  simp only [List.map_cons, List.map_nil, bind, Option.bind, Json.hex?_document,
    Json.word?_document, hlist]
  cases p.applicationData.value.document.toData (room - 1) <;> rfl

theorem exists_text (hfree : p.applicationData.value.FloatFree) :
    ∃ text, Bytes.toText? p.payload = some text ∧ Json.parse text = some p.toJson.document :=
  ⟨p.toJson.text, Bytes.toText?_ofText _, Json.parse_text (floatFree_toJson hfree)⟩

theorem parseDocument_eq (hfree : p.applicationData.value.FloatFree) :
    parseDocument p.payload = ofJson Json.nestingLimit p.toJson.document := by
  obtain ⟨text, htext, hparse⟩ := exists_text hfree
  rw [parseDocument, htext]
  simp only [bind, Option.bind, hparse]

theorem parseDocument_payload (hfree : p.applicationData.value.FloatFree)
    (hroom : p.applicationData.value.nesting ≤ Json.nestingLimit - 1) :
    parseDocument p.payload = some p := by
  rw [parseDocument_eq hfree, ofJson_toJson, Json.toData_document hfree hroom]
  rfl

theorem parse_payload_of_deep (hfree : p.applicationData.value.FloatFree)
    (hdeep : Json.nestingLimit - 1 < p.applicationData.value.nesting) :
    parse version p.payload = .error .malformedDocument := by
  rw [parse, if_pos rfl, parseDocument_eq hfree, ofJson_toJson, Json.toData_document_of_deep hdeep]
  rfl

theorem parse_payload (hfree : p.applicationData.value.FloatFree)
    (hroom : p.applicationData.value.nesting ≤ Json.nestingLimit - 1) :
    parse version p.payload = p.validate.map fun _ => p := by
  rw [parse, if_pos rfl, parseDocument_payload hfree hroom]

theorem nesting_ofJson {room : Nat} {j : Json} (h : ofJson room j = some p) :
    p.applicationData.value.nesting ≤ room - 1 := by
  simp only [ofJson, bind, Option.bind_eq_some_iff] at h
  obtain ⟨found, _, h⟩ := h
  split at h
  · simp only [Option.bind_eq_some_iff] at h
    obtain ⟨_, _, _, _, _, _, _, _, _, _, _, _, application, hdata, h⟩ := h
    obtain rfl := Option.some.inj h
    exact Json.Value.nesting_toValue (Json.toData_eq.mp hdata)
  · cases h

theorem parse_eq_ok {version : UInt64} {payload : Bytes} (h : parse version payload = .ok p) :
    p.validate = .ok () ∧ p.applicationData.value.nesting ≤ Json.nestingLimit - 1 := by
  rw [parse] at h
  split at h
  · split at h
    · cases h
    · rename_i found hfound
      cases hvalid : found.validate with
      | error e => simp [hvalid, Except.map] at h
      | ok u =>
        rw [hvalid] at h
        obtain rfl := Except.ok.inj h
        refine ⟨hvalid, ?_⟩
        simp only [parseDocument, bind, Option.bind_eq_some_iff] at hfound
        obtain ⟨_, _, _, _, hjson⟩ := hfound
        exact nesting_ofJson hjson
  · cases h

theorem validate_eq_ok : p.validate = .ok () ↔
    0 < p.maxBlockSize ∧ p.applicationData.value ≠ .null ∧
      ∃ allowed, p.allowedShapes = .ok allowed := by
  have hnull : p.applicationData.value.isNull = true ↔ p.applicationData.value = .null := by
    cases p.applicationData.value <;> simp [Value.isNull]
  rw [validate]
  by_cases hsize : p.maxBlockSize = 0
  · simp [hsize]
  by_cases hdata : p.applicationData.value = .null
  · simp [hsize, hdata, Value.isNull]
  have hpos : 0 < p.maxBlockSize := UInt64.pos_iff_ne_zero.mpr hsize
  rw [if_neg hsize, if_neg (hnull.not.mpr hdata)]
  simp [map_eq_ok, hpos, hdata]

theorem exists_allowedShapes (h : p.validate = .ok ()) :
    ∃ allowed, p.allowedShapes = .ok allowed := (validate_eq_ok.mp h).2.2

/-- A policy that was read is read again from what it is written as, unless it
has doubles in it. -/
theorem parse_payload_of_parse {version : UInt64} {payload : Bytes}
    (h : parse version payload = .ok p) (hfree : p.applicationData.value.FloatFree) :
    parse Policy.version p.payload = .ok p := by
  obtain ⟨hvalid, hroom⟩ := parse_eq_ok h
  rw [parse_payload hfree hroom, hvalid]
  rfl

/-- A policy without doubles is written as a document whatever else is in it, and read from it again
when its application data is not nested too deep: as itself if it passes its own checks, and
otherwise with the error of those. What was read once from any payload is written in one way, from
which it is read again. -/
theorem payload_round_trip :
    (∀ p : Policy, p.applicationData.value.FloatFree →
      (∃ text, Bytes.toText? p.payload = some text ∧ Json.parse text = some p.toJson.document) ∧
      (p.applicationData.value.nesting ≤ Json.nestingLimit - 1 →
        (parse version p.payload = .ok p ↔
          0 < p.maxBlockSize ∧ p.applicationData.value ≠ .null ∧
            ∃ allowed, p.allowedShapes = .ok allowed) ∧
        (∀ q, parse version p.payload = .ok q → q = p) ∧
        ∀ e, parse version p.payload = .error e ↔ p.validate = .error e) ∧
      (Json.nestingLimit - 1 < p.applicationData.value.nesting →
        parse version p.payload = .error .malformedDocument)) ∧
    ∀ (payload : Bytes) (p : Policy), parse version payload = .ok p →
      p.applicationData.value.FloatFree →
      parse version p.payload = .ok p ∧
        ∀ q, parse version p.payload = .ok q → q.payload = p.payload := by
  refine ⟨fun p hfree => ⟨exists_text hfree, fun hroom => ?_, parse_payload_of_deep hfree⟩, ?_⟩
  · have hparse := parse_payload hfree hroom
    refine ⟨?_, fun q hq => ?_, fun e => ?_⟩
    · rw [hparse, map_eq_ok, ← validate_eq_ok]
      exact ⟨fun ⟨_, h, _⟩ => h, fun h => ⟨(), h, rfl⟩⟩
    · rw [hparse, map_eq_ok] at hq
      obtain ⟨_, _, rfl⟩ := hq
      rfl
    · rw [hparse, map_eq_error]
  · intro payload p h hfree
    have hagain := parse_payload_of_parse h hfree
    refine ⟨hagain, fun q hq => ?_⟩
    rw [hagain] at hq
    rw [Except.ok.inj hq]

/-- A policy with a quote and a line break in a name is read back, and read from that again. One
that lists a shape twice is written too, but not read. -/
theorem payload_round_trip_listing :
    let p := { listing [[68]] with hashingAlgorithm := "a \"hash\"\n" }
    parse version p.payload = .ok p ∧
    (∀ q, parse version p.payload = .ok q → q.payload = p.payload) ∧
    parse version (listing [[68], [68]]).payload = .error (.duplicateAllowedBlock "Data") := by
  intro p
  obtain ⟨hwritten, hread⟩ := payload_round_trip
  obtain ⟨_, hroom, _⟩ := hwritten p trivial
  obtain ⟨_, htwice, _⟩ := hwritten (listing [[68], [68]]) trivial
  have hentries : ([[68]] : List Bytes) = ([[.data]] : List Shape).map Shape.toBytes := by cbv
  have hallowed : ShapeEntries p.allowedBlocks :=
    show ShapeEntries [[68]] from hentries ▸ shapeEntries_map (by decide)
  have hvalid := (hroom (by decide)).1.mpr
    ⟨by decide, Value.noConfusion, exists_allowedShapes_iff.mpr hallowed⟩
  have hrefused : (listing [[68], [68]]).validate = .error (.duplicateAllowedBlock "Data") := by
    cbv
  exact ⟨hvalid, (hread _ _ hvalid trivial).2, ((htwice (by decide)).2.2 _).mpr hrefused⟩

end Policy

end TamperEvident
