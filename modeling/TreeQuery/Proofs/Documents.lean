import TreeQuery.Json.Document
import TreeQuery.Proofs.NodeText

/-! Nodes go through JSON and come back. The writer and the parser of JSON are a library's, and the
code between nodes and documents is derived from the fields of a node. Here they are parameters, and
all that is asked of them is what they are known to do. -/

namespace TreeQuery

namespace Json

/-- The derived code, `serialize` and `deserialize`, and the JSON library. -/
structure Library where
  serialize : Node → Value
  write : Value → String
  parse : String → Except Fault Value
  deserialize : Value → Except Fault Node

/-- Fields, in any order, that describe a node. One that is missing stands for its default, and the
values of properties have their own fields in order. -/
structure Describes (read : Value → Except Fault Node) (fields : List (String × Value))
    (e : Element) (ts : List Node) : Prop where
  nodup : (fields.map Prod.fst).Nodup
  known : ∀ f ∈ fields, f.1 ∈ ["type", "properties", "children"]
  type : fields.lookup "type" = some (.text e.type)
  properties :
    (∃ entries, fields.lookup "properties" = some (.object entries) ∧
      (∀ p ∈ entries, ∀ v ∈ p.2.parts, v.Sound) ∧ e.properties = .ofList entries) ∨
    fields.lookup "properties" = none ∧ e.properties = .empty
  children :
    (∃ ds, fields.lookup "children" = some (.array ds) ∧ ds.map read = ts.map .ok) ∨
    fields.lookup "children" = none ∧ ts = []

namespace Library

variable (L : Library)

def toText (n : Node) : String := L.write (L.serialize n)

def fromText (s : String) : Except Fault Node := L.parse s >>= L.deserialize

/-- A node is an object of its fields. The two that may be empty are skipped then. -/
def SerializesFields : Prop :=
  ∀ e ts, L.serialize (.node e ts) = .object (Node.members e (ts.map L.serialize))

/-- The text is compact JSON. How characters are spelled between quotes is left open. -/
def WritesJson : Prop :=
  ∃ spell : Spelling, spell.Valid ∧
    ∀ d : Value, d.Exact → L.write d = String.ofList (d.write spell [])

/-- Compact JSON is read, however characters are spelled, if brackets nest no deeper than 127. -/
def ParsesJson : Prop :=
  ∀ spell : Spelling, spell.Valid → ∀ d : Value, d.Exact →
    L.parse (String.ofList (d.write spell [])) =
      if d.nesting ≤ 127 then .ok d else .error .malformed

/-- A node is made of the fields of an object. -/
def DeserializesFields : Prop :=
  ∀ fields e ts, Describes L.deserialize fields e ts →
    L.deserialize (.object fields) = .ok (.node e ts)

end Library

theorem describes_members {read : Value → Except Fault Node} {e : Element} {ts : List Node}
    (hsound : ∀ p ∈ e.properties.entries, ∀ v ∈ p.2.parts, v.Sound)
    (hread : ∀ t ∈ ts, read t.document = .ok t) :
    Describes read (Node.members e (ts.map Node.document)) e ts := by
  have hchildren : (ts.map Node.document).map read = ts.map .ok := by
    rw [List.map_map]
    exact List.map_congr_left hread
  have hproperties : e.properties = .ofList e.properties.entries :=
    (Properties.foldl_insert e.properties).symm
  have hempty (h : e.properties.isEmpty) : e.properties = .empty :=
    Properties.ext_entries (List.isEmpty_iff.mp h)
  have hnone (h : ts.isEmpty) : ts = [] := List.isEmpty_iff.mp h
  rw [Node.members, List.isEmpty_map]
  cases hps : e.properties.isEmpty with
  | true =>
    cases hts : ts.isEmpty with
    | true => exact ⟨by simp, by simp, rfl, .inr ⟨rfl, hempty hps⟩, .inr ⟨rfl, hnone hts⟩⟩
    | false => exact ⟨by simp, by simp, rfl, .inr ⟨rfl, hempty hps⟩, .inl ⟨_, rfl, hchildren⟩⟩
  | false =>
    cases hts : ts.isEmpty with
    | true =>
      exact ⟨by simp, by simp, rfl, .inl ⟨_, rfl, hsound, hproperties⟩, .inr ⟨rfl, hnone hts⟩⟩
    | false =>
      exact ⟨by simp, by simp, rfl, .inl ⟨_, rfl, hsound, hproperties⟩, .inl ⟨_, rfl, hchildren⟩⟩

/-- Nodes are written as they are here, and read by way of documents. -/
def library : Library where
  serialize := Node.document
  write := Value.toText
  parse := readDocument
  deserialize := Node.ofDocument

theorem library_serializesFields : library.SerializesFields := fun _ _ => Node.document_node

theorem library_writesJson : library.WritesJson := ⟨escape, valid_escape, fun _ _ => rfl⟩

theorem foldl_append_fields (before fields : List (String × Value)) :
    fields.foldl (fun acc f => acc ++ [(f.1, f.2)]) before = before ++ fields := by
  induction fields generalizing before with
  | nil => exact (List.append_nil before).symm
  | cons f fields ih => rw [List.foldl_cons, ih, List.append_assoc, List.singleton_append]

theorem library_parsesJson : library.ParsesJson := by
  intro spell hspell d hexact
  have hkept : ∀ p ∈ d.parts, p.Kept fun name v fields => fields ++ [(name, v)] := by
    intro p _
    cases p with
    | object fields => exact foldl_append_fields [] fields
    | null | bool _ | float _ | text _ | array _ | integer _ => exact trivial
  have hread := Value.value_write hspell ((d.write spell []).length + 1) maxDepth
    (fun p hp => (hexact p hp).1) hkept (fun p hp => (hexact p hp).2) [] .nil (Nat.lt_succ_self _)
  change readDocument _ = _
  rw [readDocument, readValueWith, String.toList_ofList]
  exact bind_ok_eq_ite hread rfl

end Json

namespace Value

theorem sortedAll_eq_map (items : List Value) : sortedAll items = items.map sorted := by
  induction items with
  | nil => rfl
  | cons v items ih => rw [sortedAll, ih, List.map_cons]

theorem sortedFields_eq_map (fields : List (String × Value)) :
    sortedFields fields = fields.map fun f => (f.1, f.2.sorted) := by
  induction fields with
  | nil => rfl
  | cons f fields ih => rw [sortedFields, ih, List.map_cons]

theorem map_sorted_fields {fields : List (String × Value)} (h : ∀ f ∈ fields, f.2.sorted = f.2) :
    (fields.map fun f => (f.1, f.2.sorted)) = fields := by
  rw [List.map_congr_left fun f hf => congrArg (Prod.mk f.1) (h f hf)]
  exact List.map_id fields

/-- Fields that are in order are left there. -/
theorem sorted_eq_self {v : Value} (h : ∀ p ∈ v.parts, p.Sound) : v.sorted = v := by
  induction v with
  | null | bool _ | integer _ | float _ | text _ => rfl
  | array items ih =>
    have hitems : ∀ v ∈ items, v.sorted = v := fun v hv =>
      ih v hv fun p hp => h p (parts_subset_array hv hp)
    rw [sorted, sortedAll_eq_map, List.map_congr_left hitems, List.map_id']
  | object fields ih =>
    have hfields : ∀ f ∈ fields, f.2.sorted = f.2 := fun f hf =>
      ih f hf fun p hp => h p (parts_subset_object hf hp)
    have hkept : fields.foldl (fun acc f => insertField f.1 f.2 acc) [] = fields :=
      (h _ (self_mem_parts _)).kept
    rw [sorted, sortedFields_eq_map, map_sorted_fields hfields, ofFields, hkept]

end Value

namespace Node

open Json (Describes NodeDraft)

theorem propertiesOf_object {entries : List (String × Value)}
    (h : ∀ p ∈ entries, ∀ v ∈ p.2.parts, v.Sound) :
    propertiesOf (.object entries) = .ok (.ofList entries) := by
  rw [propertiesOf, Value.map_sorted_fields fun p hp => Value.sorted_eq_self (h p hp)]

theorem ofDocuments_eq {ds : List Value} {ts : List Node} (h : ds.map ofDocument = ts.map .ok) :
    ofDocuments ds = .ok ts := by
  induction ds generalizing ts with
  | nil =>
    obtain rfl : ts = [] := by simpa using h.symm
    rfl
  | cons d ds ih =>
    cases ts with
    | nil => cases h
    | cons t ts =>
      obtain ⟨hfirst, hrest⟩ := List.cons.inj h
      rw [ofDocuments, hfirst, ih hrest]
      rfl

/-- What is found under a name goes into a place that is empty. -/
def Takes {α : Type} (found : Option Value) (before : Option α) (reads : Value → α → Prop)
    (after : Option α) : Prop :=
  match found with
  | some d => before = none ∧ ∃ a, reads d a ∧ after = some a
  | none => after = before

/-- Every field goes into its own place, whatever the order. -/
def Fills (fields : List (String × Value)) (before after : NodeDraft) : Prop :=
  Takes (fields.lookup "type") before.type (fun d s => d = .text s) after.type ∧
    Takes (fields.lookup "properties") before.properties
      (fun d ps => propertiesOf d = .ok ps) after.properties ∧
    Takes (fields.lookup "children") before.children
      (fun d ts => ∃ ds, d = .array ds ∧ ofDocuments ds = .ok ts) after.children

theorem lookup_eq_none {name : String} {fields : List (String × Value)}
    (h : name ∉ fields.map Prod.fst) : fields.lookup name = none := by
  rw [List.lookup_eq_none_iff]
  intro f hf
  exact bne_iff_ne.mpr fun heq => h (List.mem_map.mpr ⟨f, hf, heq.symm⟩)

variable {fields : List (String × Value)} {before after : NodeDraft} {d : Value}

theorem fills_nil (h : Fills [] before after) : after = before := by
  obtain ⟨type, properties, children⟩ := after
  obtain ⟨rfl, rfl, rfl⟩ := h
  rfl

theorem fills_type (hnew : "type" ∉ fields.map Prod.fst)
    (h : Fills (("type", d) :: fields) before after) :
    ∃ type, d = .text type ∧ before.type = none ∧ Fills fields { before with type } after := by
  obtain ⟨⟨hempty, type, hd, hafter⟩, hproperties, hchildren⟩ := h
  refine ⟨type, hd, hempty, ?_, hproperties, hchildren⟩
  rw [lookup_eq_none hnew]
  exact hafter

theorem fills_properties (hnew : "properties" ∉ fields.map Prod.fst)
    (h : Fills (("properties", d) :: fields) before after) :
    ∃ ps, propertiesOf d = .ok ps ∧ before.properties = none ∧
      Fills fields { before with properties := some ps } after := by
  obtain ⟨htype, ⟨hempty, ps, hd, hafter⟩, hchildren⟩ := h
  refine ⟨ps, hd, hempty, htype, ?_, hchildren⟩
  rw [lookup_eq_none hnew]
  exact hafter

theorem fills_children (hnew : "children" ∉ fields.map Prod.fst)
    (h : Fills (("children", d) :: fields) before after) :
    ∃ ds ts, d = .array ds ∧ ofDocuments ds = .ok ts ∧ before.children = none ∧
      Fills fields { before with children := some ts } after := by
  obtain ⟨htype, hproperties, hempty, ts, ⟨ds, hd, hts⟩, hafter⟩ := h
  refine ⟨ds, ts, hd, hts, hempty, htype, hproperties, ?_⟩
  rw [lookup_eq_none hnew]
  exact hafter

theorem draftOf_eq (hnodup : (fields.map Prod.fst).Nodup)
    (hknown : ∀ f ∈ fields, f.1 ∈ ["type", "properties", "children"])
    (hfills : Fills fields before after) : draftOf fields before = .ok after := by
  induction fields generalizing before with
  | nil => rw [fills_nil hfills, draftOf]
  | cons f fields ih =>
    obtain ⟨name, d⟩ := f
    rw [List.map_cons, List.nodup_cons] at hnodup
    obtain ⟨hnew, hnodup⟩ := hnodup
    rw [List.forall_mem_cons] at hknown
    obtain ⟨hname, hknown⟩ := hknown
    simp only [List.mem_cons, List.not_mem_nil, or_false] at hname
    rcases hname with rfl | rfl | rfl
    · obtain ⟨type, rfl, hempty, hrest⟩ := fills_type hnew hfills
      rw [draftOf, if_pos rfl, hempty]
      exact ih hnodup hknown hrest
    · obtain ⟨ps, hd, hempty, hrest⟩ := fills_properties hnew hfills
      rw [draftOf.eq_def]
      dsimp only
      rw [if_neg (by decide), if_pos rfl, hempty, hd]
      exact ih hnodup hknown hrest
    · obtain ⟨ds, ts, rfl, hts, hempty, hrest⟩ := fills_children hnew hfills
      rw [draftOf, if_neg (by decide), if_neg (by decide), if_pos rfl, hempty]
      dsimp only
      rw [hts]
      exact ih hnodup hknown hrest

end Node

namespace Json

theorem Describes.takes_properties {read : Value → Except Fault Node}
    {fields : List (String × Value)} {e : Element} {ts : List Node}
    (h : Describes read fields e ts) :
    ∃ found, Node.Takes (fields.lookup "properties") none
      (fun d ps => Node.propertiesOf d = .ok ps) found ∧ found.getD .empty = e.properties := by
  rcases h.properties with ⟨entries, hlookup, hsound, heq⟩ | ⟨hlookup, heq⟩
  · rw [hlookup, heq]
    exact ⟨some _, ⟨rfl, _, Node.propertiesOf_object hsound, rfl⟩, rfl⟩
  · rw [hlookup, heq]
    exact ⟨none, rfl, rfl⟩

theorem Describes.takes_children {fields : List (String × Value)} {e : Element} {ts : List Node}
    (h : Describes Node.ofDocument fields e ts) :
    ∃ found, Node.Takes (fields.lookup "children") none
      (fun d ts => ∃ ds, d = .array ds ∧ Node.ofDocuments ds = .ok ts) found ∧
      found.getD [] = ts := by
  rcases h.children with ⟨ds, hlookup, hread⟩ | ⟨hlookup, rfl⟩
  · rw [hlookup]
    exact ⟨some ts, ⟨rfl, ts, ⟨ds, rfl, Node.ofDocuments_eq hread⟩, rfl⟩, rfl⟩
  · rw [hlookup]
    exact ⟨none, rfl, rfl⟩

theorem library_deserializesFields : library.DeserializesFields := by
  intro fields e ts h
  obtain ⟨properties, hproperties, hps⟩ := h.takes_properties
  obtain ⟨children, hchildren, hts⟩ := h.takes_children
  have htype : Node.Takes (fields.lookup "type") none (fun d s => d = .text s) (some e.type) := by
    rw [h.type]
    exact ⟨rfl, e.type, rfl, rfl⟩
  have hdraft : Node.draftOf fields {} = .ok ⟨some e.type, properties, children⟩ :=
    Node.draftOf_eq h.nodup h.known ⟨htype, hproperties, hchildren⟩
  change Node.draftOf fields {} >>= NodeDraft.finish = _
  rw [hdraft]
  exact congrArg₂ (fun ps ts => Except.ok (Tree.node ⟨e.type, ps⟩ ts)) hps hts

theorem library_toList_toText (n : Node) :
    (library.toText n).toList = n.document.write escape [] := String.toList_ofList

namespace Library

variable {L : Library}

theorem SerializesFields.serialize_eq (h : L.SerializesFields) (n : Node) :
    L.serialize n = n.document := by
  induction n using Tree.induction with
  | node e ts ih => rw [h, List.map_congr_left ih, Node.document_node]

theorem DeserializesFields.deserialize_document (h : L.DeserializesFields) (n : Node)
    (hsound : ∀ v ∈ n.values, v.Sound) : L.deserialize n.document = .ok n := by
  induction n using Tree.induction with
  | node e ts ih =>
    have hps : ∀ p ∈ e.properties.entries, ∀ v ∈ p.2.parts, v.Sound := fun p hp v hv =>
      hsound v (Node.parts_subset_values hp hv)
    have hts : ∀ t ∈ ts, L.deserialize (Node.document t) = .ok t := fun t ht =>
      ih t ht fun v hv => hsound v (Node.values_subset ht hv)
    rw [Node.document_node]
    exact h _ e ts (describes_members hps hts)

theorem fromText_toText_eq (hserialize : L.SerializesFields) (hwrite : L.WritesJson)
    (hparse : L.ParsesJson) (hdeserialize : L.DeserializesFields) {n : Node}
    (hsound : ∀ v ∈ n.values, v.Sound) (hfloat : ∀ v ∈ n.values, ¬v.isFloat) :
    nesting (L.toText n) = n.nesting ∧
      L.fromText (L.toText n) = if n.nesting ≤ 127 then .ok n else .error .malformed := by
  obtain ⟨spell, hspell, htext⟩ := hwrite
  have hexact : n.document.Exact :=
    Node.exact_document n (fun v hv => (hsound v hv).inRange) hfloat
  have htoText : L.toText n = String.ofList (n.document.write spell []) := by
    rw [toText, hserialize.serialize_eq, htext _ hexact]
  rw [htoText]
  refine ⟨Value.nesting_write hspell fun p hp => (hexact p hp).2, ?_⟩
  exact bind_ok_eq_ite (hparse spell hspell n.document hexact)
    (hdeserialize.deserialize_document n hsound)

/-- A node comes back from its text, the same with its properties in the same order at every level,
exactly if arrays and objects nest no deeper than 127 in the text; beyond that the text counts as
malformed. -/
theorem fromText_toText (L : Library) (hserialize : L.SerializesFields) (hwrite : L.WritesJson)
    (hparse : L.ParsesJson) (hdeserialize : L.DeserializesFields) {n : Node}
    (hsound : ∀ v ∈ n.values, v.Sound) (hfloat : ∀ v ∈ n.values, ¬v.isFloat) :
    (L.fromText (L.toText n) = .ok n ↔ nesting (L.toText n) ≤ 127) ∧
      (127 < nesting (L.toText n) → L.fromText (L.toText n) = .error .malformed) := by
  obtain ⟨hnesting, hback⟩ :=
    fromText_toText_eq hserialize hwrite hparse hdeserialize hsound hfloat
  rw [hnesting, hback]
  by_cases hfits : n.nesting ≤ 127
  · rw [if_pos hfits]
    exact ⟨iff_of_true rfl hfits, fun hdeep => absurd hfits (Nat.not_le_of_lt hdeep)⟩
  · rw [if_neg hfits]
    exact ⟨iff_of_false (by simp) hfits, fun _ => rfl⟩

/-- Lists inside one another, with escapes and the least and the greatest integer: one list fewer is
read back, one more is too many. -/
theorem fromText_toText_at_the_limit :
    let lists (k : Nat) : Value := k.repeat (fun v => .array [v]) (.integer (-Int.pow 2 63))
    let fields : Value := .object [("", .text "]\x7d\""), ("x", .integer (Int.pow 2 64 - 1))]
    let n (k : Nat) : Node :=
      .addChildren (.setProperty (.setProperty (.ofType "\"\\\x01") "b" (lists k)) "a" fields)
        [.ofType "["]
    library.SerializesFields ∧ library.WritesJson ∧ library.ParsesJson ∧
      library.DeserializesFields ∧
      (∀ v ∈ (n 125).values, v.Sound) ∧ (∀ v ∈ (n 125).values, ¬v.isFloat) ∧
      nesting (library.toText (n 125)) = 127 ∧
      library.fromText (library.toText (n 125)) = .ok (n 125) ∧
      nesting (library.toText (n 126)) = 128 ∧
      library.fromText (library.toText (n 126)) = .error .malformed := by
  intro lists fields n
  have hsound : ∀ k ∈ [125, 126], ∀ v ∈ (n k).values, v.Sound := by decide +kernel
  have hfloat : ∀ k ∈ [125, 126], ∀ v ∈ (n k).values, ¬v.isFloat := by decide +kernel
  have hlast : nesting (library.toText (n 125)) = 127 := by
    rw [nesting, library_toList_toText]
    decide +kernel
  have hbeyond : nesting (library.toText (n 126)) = 128 := by
    rw [nesting, library_toList_toText]
    decide +kernel
  have h (k : Nat) (hk : k ∈ [125, 126]) :=
    fromText_toText library library_serializesFields library_writesJson library_parsesJson
      library_deserializesFields (hsound k hk) (hfloat k hk)
  have hmem : 125 ∈ [125, 126] := by decide
  have hmem' : 126 ∈ [125, 126] := by decide
  exact ⟨library_serializesFields, library_writesJson, library_parsesJson,
    library_deserializesFields, hsound 125 hmem, hfloat 125 hmem, hlast,
    (h 125 hmem).1.mpr (by omega), hbeyond, (h 126 hmem').2 (by omega)⟩

end Library

/-- The reader that takes a node straight from the text agrees with the one that goes by way of a
document. -/
theorem readNode_toText {n : Node} (hsound : ∀ v ∈ n.values, v.Sound)
    (hfloat : ∀ v ∈ n.values, ¬v.isFloat) :
    readNode n.toText = library.fromText (library.toText n) := by
  obtain ⟨-, hback⟩ := Library.fromText_toText_eq library_serializesFields library_writesJson
    library_parsesJson library_deserializesFields hsound hfloat
  rw [hback]
  exact readNode_write valid_escape hsound hfloat

end Json

end TreeQuery
