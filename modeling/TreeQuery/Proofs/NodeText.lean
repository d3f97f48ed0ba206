import TreeQuery.Json.Node
import TreeQuery.Proofs.Brackets
import TreeQuery.Proofs.Relabelling

/-! A node is read back from its own text, in any spelling, if brackets nest no deeper in it than
the reader goes, and is malformed otherwise. -/

namespace TreeQuery

namespace Properties

variable {name : String} {v : Value}

theorem set_append {entries : List (String × Value)} (h : name ∉ entries.map Prod.fst) :
    set name v entries = entries ++ [(name, v)] := by
  induction entries with
  | nil => rfl
  | cons e entries ih =>
    rw [List.map_cons, List.mem_cons, not_or] at h
    rw [set, if_neg (Ne.symm h.1), ih h.2, List.cons_append]

theorem entries_foldl_insert (ps : Properties) (entries : List (String × Value))
    (hnodup : ((ps.entries ++ entries).map Prod.fst).Nodup) :
    (entries.foldl (fun acc e => acc.insert e.1 e.2) ps).entries = ps.entries ++ entries := by
  induction entries generalizing ps with
  | nil => exact (List.append_nil _).symm
  | cons e entries ih =>
    have hnew : e.1 ∉ ps.entries.map Prod.fst := by
      rw [List.map_append, List.nodup_append] at hnodup
      intro hmem
      exact hnodup.2.2 e.1 hmem e.1 (by simp) rfl
    have hinsert : (ps.insert e.1 e.2).entries = ps.entries ++ [e] := set_append hnew
    rw [List.append_cons] at hnodup ⊢
    rw [List.foldl_cons, ih _ (by rwa [hinsert]), hinsert]

theorem foldl_insert (ps : Properties) :
    ps.entries.foldl (fun acc e => acc.insert e.1 e.2) empty = ps :=
  ext_entries (entries_foldl_insert empty ps.entries ps.nodup)

/-- How deep the object of the properties nests, which is left out if it is empty. -/
def nesting (ps : Properties) : Nat :=
  if ps.isEmpty then 0 else Value.nestingOfFields ps.entries + 1

end Properties

namespace Value

/-- There are no floats in the value, and its integers have 64 bits. -/
def Exact (v : Value) : Prop := ∀ p ∈ v.parts, p.InRange ∧ ¬p.isFloat

variable {items : List Value} {fields : List (String × Value)}

theorem exact_array (h : ∀ v ∈ items, v.Exact) : (array items).Exact := by
  intro p hp
  rw [parts, partsAll_eq_flatMap] at hp
  rcases List.mem_cons.mp hp with rfl | hp
  · exact ⟨trivial, Bool.false_ne_true⟩
  · obtain ⟨v, hv, hp⟩ := List.mem_flatMap.mp hp
    exact h v hv p hp

theorem exact_object (h : ∀ f ∈ fields, f.2.Exact) : (object fields).Exact := by
  intro p hp
  rw [parts, partsOfFields_eq_flatMap] at hp
  rcases List.mem_cons.mp hp with rfl | hp
  · exact ⟨trivial, Bool.false_ne_true⟩
  · obtain ⟨f, hf, hp⟩ := List.mem_flatMap.mp hp
    exact h f hf p hp

theorem exact_text (s : String) : (text s).Exact := by
  intro p hp
  obtain rfl : p = text s := List.mem_singleton.mp hp
  exact ⟨trivial, Bool.false_ne_true⟩

end Value

namespace Node

/-- The values of all properties in the tree, with all values inside them. -/
def values (n : Node) : List Value :=
  n.preorder.flatMap fun e => e.properties.entries.flatMap fun p => p.2.parts

variable {e : Element} {ts : List Node} {rest : List Char} {depth k : Nat} {spell : Json.Spelling}

theorem documents_eq_map (ts : List Node) : documents ts = ts.map document := by
  induction ts with
  | nil => rfl
  | cons t ts ih => rw [documents, ih, List.map_cons]

theorem document_node : document (.node e ts) = .object (members e (ts.map document)) := by
  rw [document, documents_eq_map]

theorem parts_subset_values {p : String × Value} (h : p ∈ e.properties.entries) :
    p.2.parts ⊆ values (.node e ts) := by
  intro v hv
  refine List.mem_flatMap.mpr ⟨e, List.mem_cons_self, ?_⟩
  exact List.mem_flatMap.mpr ⟨p, h, hv⟩

theorem values_subset {t : Node} (h : t ∈ ts) : values t ⊆ values (.node e ts) := by
  intro v hv
  obtain ⟨a, ha, hv⟩ := List.mem_flatMap.mp hv
  have hmem : a ∈ Tree.preorders ts := Tree.mem_preorders.mpr ⟨t, h, ha⟩
  exact List.mem_flatMap.mpr ⟨a, List.mem_cons_of_mem _ hmem, hv⟩

theorem exact_members {children : List Value} (hps : ∀ p ∈ e.properties.entries, p.2.Exact)
    (hchildren : ∀ d ∈ children, d.Exact) : ∀ m ∈ members e children, m.2.Exact := by
  intro m hm
  rcases List.mem_cons.mp hm with rfl | hm
  · exact Value.exact_text e.type
  · rcases List.mem_append.mp hm with hm | hm
    · split at hm
      · exact absurd hm List.not_mem_nil
      · rw [List.mem_singleton.mp hm]
        exact Value.exact_object hps
    · split at hm
      · exact absurd hm List.not_mem_nil
      · rw [List.mem_singleton.mp hm]
        exact Value.exact_array hchildren

theorem exact_document (n : Node) (hrange : ∀ v ∈ n.values, v.InRange)
    (hfloat : ∀ v ∈ n.values, ¬v.isFloat) : n.document.Exact := by
  induction n using Tree.induction with
  | node e ts ih =>
    have hps : ∀ p ∈ e.properties.entries, p.2.Exact := fun p hp v hv =>
      ⟨hrange v (parts_subset_values hp hv), hfloat v (parts_subset_values hp hv)⟩
    have hts : ∀ d ∈ ts.map document, d.Exact := by
      intro d hd
      obtain ⟨t, ht, rfl⟩ := List.mem_map.mp hd
      exact ih t ht (fun v hv => hrange v (values_subset ht hv))
        fun v hv => hfloat v (values_subset ht hv)
    rw [document_node]
    exact Value.exact_object (exact_members hps hts)

/-- How deep brackets nest in the text of a node. -/
def nesting (n : Node) : Nat := n.document.nesting

theorem nesting_node : nesting (.node e ts) =
    max e.properties.nesting
      (if ts.isEmpty then 0 else Value.nestingAll (ts.map document) + 1) + 1 := by
  have hchildren : (ts.map document).isEmpty = ts.isEmpty := List.isEmpty_map
  rw [nesting, document_node, members, hchildren, Properties.nesting]
  cases e.properties.isEmpty <;> cases ts.isEmpty <;>
    simp [Value.nesting, Value.nestingOfFields]

theorem nestingAll_le_iff :
    Value.nestingAll (ts.map document) ≤ k ↔ ∀ t ∈ ts, nesting t ≤ k := by
  rw [Value.nestingAll_le_iff, List.forall_mem_map]
  rfl

section Text

variable (spell)

/-- A node and what follows it. -/
def write (n : Node) (rest : List Char) : List Char := n.document.write spell rest

def writeProperties (ps : Properties) (rest : List Char) : List Char :=
  (Value.object ps.entries).write spell rest

/-- The rest of a node's object, from the end of its properties. -/
def writeChildren (ts : List Node) (rest : List Char) : List Char :=
  if ts.isEmpty then '\x7d' :: rest
  else ',' :: Json.member spell "children"
    ('[' :: Json.separated [','] (write spell) ts (']' :: '\x7d' :: rest))

/-- The rest of a node's object, from the end of its type. -/
def writeParts (ps : Properties) (ts : List Node) (rest : List Char) : List Char :=
  if ps.isEmpty then writeChildren spell ts rest
  else ',' :: Json.member spell "properties"
    (writeProperties spell ps (writeChildren spell ts rest))

end Text

theorem writeItems_documents (ts : List Node) (rest : List Char) :
    Value.writeItems spell (ts.map document) rest =
      Json.separated [','] (write spell) ts rest := by
  have hfollowing (ts : List Node) :
      Json.following [','] (Value.write spell) (ts.map document) rest =
        Json.following [','] (write spell) ts rest := by
    induction ts with
    | nil => rfl
    | cons t ts ih =>
      rw [List.map_cons, Json.following_cons, Json.following_cons, ih]
      rfl
  rw [Value.writeItems_eq]
  cases ts with
  | nil => rfl
  | cons t ts =>
    rw [List.map_cons, Json.separated_cons, Json.separated_cons, hfollowing]
    rfl

theorem write_node : write spell (.node e ts) rest =
    '\x7b' :: Json.member spell "type"
      (Json.quote spell e.type (writeParts spell e.properties ts rest)) := by
  have hchildren : (ts.map document).isEmpty = ts.isEmpty := List.isEmpty_map
  rw [write, document_node, members, hchildren, writeParts, writeChildren, ← writeItems_documents]
  cases e.properties.isEmpty <;> cases ts.isEmpty <;> rfl

theorem opens_write {n : Node} (h : n.document.Exact) : Json.Opens (write spell) n := by
  have hopens : Json.Opens (Value.write spell) n.document :=
    Value.opens_write fun p hp => (h p hp).2
  exact ⟨hopens.start, hopens.grows⟩

theorem length_lt_writeProperties (spell : Json.Spelling) {ps : Properties}
    (hps : ∀ p ∈ ps.entries, p.2.Exact) (rest : List Char) :
    rest.length < (writeProperties spell ps rest).length :=
  (Value.opens_write fun p hp => (Value.exact_object hps p hp).2).grows rest

section Reading

variable {list : Json.Reader (List Node)} {bound limit : Nat} {ps : Properties} {d : Json.NodeDraft}

theorem addProperty_colon {acc : Properties} {name : String} :
    Json.addProperty (Json.value insertField limit depth) acc name (':' :: rest) =
      Json.value insertField limit depth rest >>= fun read =>
        .ok (acc.insert name read.1, read.2) := rfl

variable (spell) in
/-- The object of the properties is read back if it is written at all. -/
def ReadsProperties (limit depth : Nat) (ps : Properties) : Prop :=
  ∀ rest, (writeProperties spell ps rest).length < limit → ps.isEmpty = false →
    Json.properties limit depth (writeProperties spell ps rest) =
      if ps.nesting ≤ depth then .ok (ps, rest) else .error .malformed

variable (spell) in
/-- The list of the children is read back if it is written at all; it is not even opened where no
further bracket may be. -/
def ReadsChildren (limit depth : Nat) (list : Json.Reader (List Node)) (ts : List Node) : Prop :=
  ∀ rest, (Json.separated [','] (write spell) ts (']' :: rest)).length < limit →
    ts.isEmpty = false →
    list (Json.separated [','] (write spell) ts (']' :: rest)) =
      if Value.nestingAll (ts.map document) + 1 ≤ depth then .ok (ts, rest)
      else .error .malformed

theorem readsChildren_closed : ReadsChildren spell limit 0 (fun _ => .error .malformed) ts :=
  fun _ _ _ => rfl

theorem readsChildren_items (hread : ∀ t ∈ ts,
      Json.ReadsBack limit (write spell) (fun t => nesting t ≤ depth) (Json.node limit depth) t)
    (hopens : ∀ t ∈ ts, Json.Opens (write spell) t) :
    ReadsChildren spell limit (depth + 1) (Json.items (Json.node limit depth) limit true) ts := by
  intro rest hlimit _
  simp only [Nat.add_le_add_iff_right, nestingAll_le_iff]
  exact Json.items_separated hopens hread hlimit hlimit

/-- What the members of a node's object come to. -/
def draft (type : String) (ps : Properties) (ts : List Node) : Json.NodeDraft where
  type := some type
  properties := if ps.isEmpty then none else some ps
  children := if ts.isEmpty then none else some ts

/-- What is left out because it is empty is empty because it is left out. -/
theorem finish_draft (type : String) (ps : Properties) (ts : List Node) :
    (draft type ps ts).finish = .ok (.node ⟨type, ps⟩ ts) := by
  obtain ⟨entries, hnodup⟩ := ps
  cases entries <;> cases ts <;> rfl

theorem nodeMember_properties (type : Option String) :
    Json.nodeMember limit depth list { type } "properties" (':' :: rest) =
      Json.properties limit depth rest >>= fun read =>
        .ok ({ type, properties := some read.1 }, read.2) := rfl

theorem nodeMember_children (type : Option String) (properties : Option Properties) :
    Json.nodeMember limit depth list { type, properties } "children" (':' :: '[' :: rest) =
      list rest >>= fun read =>
        .ok ({ type, properties, children := some read.1 }, read.2) := rfl

variable (hspell : spell.Valid)

include hspell

theorem nodeMember_type {type : String} :
    Json.nodeMember limit depth list {} "type" (':' :: Json.quote spell type rest) =
      .ok ({ type := some type }, rest) := by
  have htype : Json.nodeMember limit depth list {} "type" (':' :: Json.quote spell type rest) =
      Json.text true (type.toList.flatMap spell ++ '"' :: rest) >>= fun read =>
        .ok ({ type := some read.1 }, read.2) := rfl
  rw [htype, Json.text_quote hspell]
  rfl

theorem readsProperties (hps : ∀ p ∈ ps.entries, p.2.Exact)
    (hsorted : ∀ p ∈ ps.entries, ∀ v ∈ p.2.parts, v.Sound) :
    ReadsProperties spell limit depth ps := by
  intro rest hlimit hempty
  have hnesting : ps.nesting = Value.nestingOfFields ps.entries + 1 := by
    rw [Properties.nesting, hempty, if_neg Bool.false_ne_true]
  rw [writeProperties, Value.write, Value.writeFields_eq] at hlimit ⊢
  cases depth with
  | zero =>
    rw [hnesting]
    rfl
  | succ depth =>
    have hmember : ∀ p ∈ ps.entries, Json.TakesUp limit (Value.write spell)
        (fun v => v.nesting ≤ depth) (Json.addProperty (Json.value insertField limit depth))
        Properties.insert p := by
      intro p hp acc rest hends hlength
      have hv := Value.value_write hspell limit depth (fun v hv => (hps p hp v hv).1)
        (fun v hv => (hsorted p hp v hv).kept) (fun v hv => (hps p hp v hv).2) rest hends hlength
      rw [addProperty_colon]
      exact Json.bind_ok_eq_ite hv rfl
    have hopens : ∀ p ∈ ps.entries, Json.Opens (Value.write spell) p.2 := fun p hp =>
      Value.opens_write fun v hv => (hps p hp v hv).2
    rw [List.length_cons] at hlimit
    have hall := Json.members_separated hspell (fun p hp => (hopens p hp).grows) hmember .empty
      (Nat.lt_of_succ_lt hlimit) (Nat.lt_of_succ_lt hlimit)
    rw [Properties.foldl_insert] at hall
    rw [hnesting]
    simp only [Nat.add_le_add_iff_right, Value.nestingOfFields_le_iff]
    exact hall

theorem members_writeChildren (hlist : ReadsChildren spell limit depth list ts)
    (type : Option String) (properties : Option Properties)
    (hlimit : (writeChildren spell ts rest).length < limit)
    (hbound : (writeChildren spell ts rest).length < bound) :
    Json.members true (Json.nodeMember limit depth list) bound false { type, properties }
        (writeChildren spell ts rest) =
      if (if ts.isEmpty then 0 else Value.nestingAll (ts.map document) + 1) ≤ depth
      then .ok ({ type, properties, children := if ts.isEmpty then none else some ts }, rest)
      else .error .malformed := by
  obtain ⟨bound, rfl⟩ := Nat.exists_eq_succ_of_ne_zero (Nat.ne_zero_of_lt hbound)
  rw [writeChildren] at hlimit hbound ⊢
  cases hts : ts.isEmpty with
  | true => rfl
  | false =>
    simp only [hts, Bool.false_eq_true, if_false] at hlimit hbound ⊢
    have hname := Json.length_lt_member spell "children"
      ('[' :: Json.separated [','] (write spell) ts (']' :: '\x7d' :: rest))
    simp only [List.length_cons] at hname hlimit hbound
    have hread := hlist ('\x7d' :: rest) (by omega) hts
    obtain ⟨bound, rfl⟩ := Nat.exists_eq_succ_of_ne_zero (n := bound) (by omega)
    rw [Json.members_comma hspell, nodeMember_children]
    exact Json.bind_ok_eq_ite (Json.bind_ok_eq_ite hread rfl) Json.members_close

theorem members_writeParts (hps : ReadsProperties spell limit depth ps)
    (hlist : ReadsChildren spell limit depth list ts) (hexact : ∀ p ∈ ps.entries, p.2.Exact)
    (type : String) (hlimit : (writeParts spell ps ts rest).length < limit)
    (hbound : (writeParts spell ps ts rest).length < bound) :
    Json.members true (Json.nodeMember limit depth list) bound false { type := some type }
        (writeParts spell ps ts rest) =
      if ps.nesting ≤ depth ∧
        (if ts.isEmpty then 0 else Value.nestingAll (ts.map document) + 1) ≤ depth
      then .ok (draft type ps ts, rest)
      else .error .malformed := by
  obtain ⟨bound, rfl⟩ := Nat.exists_eq_succ_of_ne_zero (Nat.ne_zero_of_lt hbound)
  rw [writeParts] at hlimit hbound ⊢
  cases hempty : ps.isEmpty with
  | true =>
    simp only [hempty, if_true] at hlimit hbound ⊢
    have hnesting : ps.nesting ≤ depth := by
      rw [Properties.nesting, hempty]
      exact Nat.zero_le _
    simp only [hnesting, true_and, draft, hempty]
    exact members_writeChildren hspell hlist (some type) none hlimit hbound
  | false =>
    simp only [hempty, Bool.false_eq_true, if_false] at hlimit hbound ⊢
    have hname := Json.length_lt_member spell "properties"
      (writeProperties spell ps (writeChildren spell ts rest))
    have hshort := length_lt_writeProperties spell hexact (writeChildren spell ts rest)
    simp only [List.length_cons] at hlimit hbound
    have hread := hps (writeChildren spell ts rest) (by omega) hempty
    rw [Json.members_comma hspell, nodeMember_properties]
    simp only [draft, hempty]
    exact Json.bind_eq_ite (Json.bind_ok_eq_ite hread rfl)
      (members_writeChildren hspell hlist (some type) (some ps) (by omega) (by omega))

theorem openNode_write (hps : ReadsProperties spell limit depth e.properties)
    (hlist : ReadsChildren spell limit depth list ts)
    (hexact : ∀ p ∈ e.properties.entries, p.2.Exact)
    (hlimit : (write spell (.node e ts) rest).length < limit) :
    Json.openNode limit depth list (write spell (.node e ts) rest) =
      if nesting (.node e ts) ≤ depth + 1 then .ok (.node e ts, rest) else .error .malformed := by
  rw [write_node] at hlimit ⊢
  obtain ⟨limit, rfl⟩ := Nat.exists_eq_succ_of_ne_zero (Nat.ne_zero_of_lt hlimit)
  have hopen (text : List Char) : Json.openNode (limit + 1) depth list ('\x7b' :: text) =
      Json.members true (Json.nodeMember (limit + 1) depth list) (limit + 1) true {} text >>=
        fun read => read.1.finish >>= fun n => .ok (n, read.2) := rfl
  have hname := Json.length_lt_member spell "type"
    (Json.quote spell e.type (writeParts spell e.properties ts rest))
  simp only [List.length_cons, Json.quote, List.length_append] at hlimit hname
  have hlength : (writeParts spell e.properties ts rest).length < limit := by omega
  have hmembers := members_writeParts hspell hps hlist hexact e.type (Nat.lt_succ_of_lt hlength)
    hlength
  rw [hopen, Json.members_first hspell, nodeMember_type hspell, nesting_node]
  simp only [Nat.add_le_add_iff_right, Nat.max_le]
  refine Json.bind_ok_eq_ite hmembers ?_
  dsimp only
  rw [finish_draft]
  rfl

/-- Each generation opens two brackets, that of the node and that of its children. -/
theorem node_write (n : Node) (limit depth : Nat) (hsound : ∀ v ∈ n.values, v.Sound)
    (hfloat : ∀ v ∈ n.values, ¬v.isFloat) :
    Json.ReadsBack limit (write spell) (fun t => nesting t ≤ depth) (Json.node limit depth) n := by
  induction n using Tree.induction generalizing depth with
  | node e ts ih =>
    intro rest _ hlimit
    have hread : ∀ depth, ∀ t ∈ ts, Json.ReadsBack limit (write spell)
        (fun t => nesting t ≤ depth) (Json.node limit depth) t :=
      fun depth t ht => ih t ht depth (fun v hv => hsound v (values_subset ht hv))
        fun v hv => hfloat v (values_subset ht hv)
    have hopens : ∀ t ∈ ts, Json.Opens (write spell) t := fun t ht =>
      opens_write (exact_document t (fun v hv => (hsound v (values_subset ht hv)).inRange)
        fun v hv => hfloat v (values_subset ht hv))
    have hexact : ∀ p ∈ e.properties.entries, p.2.Exact := fun p hp v hv =>
      ⟨(hsound v (parts_subset_values hp hv)).inRange, hfloat v (parts_subset_values hp hv)⟩
    have hps (depth : Nat) : ReadsProperties spell limit depth e.properties :=
      readsProperties hspell hexact fun p hp v hv => hsound v (parts_subset_values hp hv)
    match depth with
    | 0 =>
      rw [write_node]
      exact (if_neg (Nat.not_succ_le_zero _)).symm
    | 1 => exact openNode_write hspell (hps 0) readsChildren_closed hexact hlimit
    | depth + 2 =>
      exact openNode_write hspell (hps _) (readsChildren_items (hread depth) hopens) hexact hlimit

end Reading

end Node

namespace Json

/-- The reader that takes a node straight from the text. -/
theorem readNode_write {spell : Spelling} (hspell : spell.Valid) {n : Node}
    (hsound : ∀ v ∈ n.values, v.Sound) (hfloat : ∀ v ∈ n.values, ¬v.isFloat) :
    readNode (String.ofList (n.document.write spell [])) =
      if Node.nesting n ≤ 127 then .ok n else .error .malformed := by
  have hnode := Node.node_write hspell n ((n.document.write spell []).length + 1) maxDepth hsound
    hfloat [] .nil (Nat.lt_succ_self _)
  rw [readNode, String.toList_ofList]
  exact bind_ok_eq_ite hnode rfl

end Json

end TreeQuery
