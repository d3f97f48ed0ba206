import TreeQuery.Proofs.Separated

/-! Values are read back as they were written, in whatever spelling: the same value, with its fields
in the same order, if it has no floats, its integers have 64 bits and it nests no deeper than the
reader goes. -/

namespace TreeQuery

namespace Value

mutual

/-- The value and every value inside it. -/
def parts : Value → List Value
  | array items => array items :: partsAll items
  | object fields => object fields :: partsOfFields fields
  | v => [v]

def partsAll : List Value → List Value
  | [] => []
  | v :: vs => v.parts ++ partsAll vs

def partsOfFields : List (String × Value) → List Value
  | [] => []
  | (_, v) :: fields => v.parts ++ partsOfFields fields

end

/-- An integer has 64 bits, signed or unsigned. -/
def InRange : Value → Prop
  | integer i => -Int.pow 2 63 ≤ i ∧ i < Int.pow 2 64
  | _ => True

/-- An object's fields are all there, in their order, when they have been put where they belong one
after the other. -/
def Kept (put : String → Value → List (String × Value) → List (String × Value)) : Value → Prop
  | object fields => fields.foldl (fun acc f => put f.1 f.2 acc) [] = fields
  | _ => True

/-- What holds of every value by itself: an integer has 64 bits, signed or unsigned, and the fields
of an object stand in the order of their names. -/
def Sound : Value → Prop
  | integer i => -Int.pow 2 63 ≤ i ∧ i < Int.pow 2 64
  | object fields => Sorted fields
  | _ => True

instance : DecidablePred Sound
  | integer i => inferInstanceAs (Decidable (-Int.pow 2 63 ≤ i ∧ i < Int.pow 2 64))
  | object fields => inferInstanceAs (Decidable (Sorted fields))
  | null | bool _ | float _ | text _ | array _ => isTrue trivial

def isFloat : Value → Bool
  | float _ => true
  | _ => false

mutual

/-- How many lists and objects stand inside one another. -/
def nesting : Value → Nat
  | array items => nestingAll items + 1
  | object fields => nestingOfFields fields + 1
  | _ => 0

def nestingAll : List Value → Nat
  | [] => 0
  | v :: vs => max v.nesting (nestingAll vs)

def nestingOfFields : List (String × Value) → Nat
  | [] => 0
  | (_, v) :: fields => max v.nesting (nestingOfFields fields)

end

variable {v : Value} {items : List Value} {fields : List (String × Value)} {rest : List Char}
variable {spell : Json.Spelling}

theorem partsAll_eq_flatMap (items : List Value) : partsAll items = items.flatMap parts := by
  induction items with
  | nil => rfl
  | cons v items ih => rw [partsAll, ih, List.flatMap_cons]

theorem partsOfFields_eq_flatMap (fields : List (String × Value)) :
    partsOfFields fields = fields.flatMap fun f => f.2.parts := by
  induction fields with
  | nil => rfl
  | cons f fields ih => rw [partsOfFields, ih, List.flatMap_cons]

theorem parts_subset_array (h : v ∈ items) : v.parts ⊆ (array items).parts := by
  intro p hp
  rw [parts, partsAll_eq_flatMap]
  exact List.mem_cons_of_mem _ (List.mem_flatMap.mpr ⟨v, h, hp⟩)

theorem parts_subset_object {f : String × Value} (h : f ∈ fields) :
    f.2.parts ⊆ (object fields).parts := by
  intro p hp
  rw [parts, partsOfFields_eq_flatMap]
  exact List.mem_cons_of_mem _ (List.mem_flatMap.mpr ⟨f, h, hp⟩)

theorem self_mem_parts (v : Value) : v ∈ v.parts := by
  cases v <;> exact List.mem_cons_self

/-- A list goes as deep as the deepest of it, wherever it starts. -/
theorem add_deepest_le_iff {α : Type} {nests : α → Nat} {nestsAll : List α → Nat} {depth k : Nat}
    (hnil : nestsAll [] = 0) (hcons : ∀ a as, nestsAll (a :: as) = max (nests a) (nestsAll as))
    (as : List α) : depth + nestsAll as ≤ k ↔ depth ≤ k ∧ ∀ a ∈ as, depth + nests a ≤ k := by
  induction as with
  | nil => simp [hnil]
  | cons a as ih =>
    rw [hcons, ← Nat.add_max_add_left, Nat.max_le, ih, List.forall_mem_cons, and_left_comm]

theorem add_nestingAll_le_iff {depth k : Nat} :
    depth + nestingAll items ≤ k ↔ depth ≤ k ∧ ∀ v ∈ items, depth + v.nesting ≤ k :=
  add_deepest_le_iff rfl (fun _ _ => rfl) items

theorem add_nestingOfFields_le_iff {depth k : Nat} :
    depth + nestingOfFields fields ≤ k ↔ depth ≤ k ∧ ∀ f ∈ fields, depth + f.2.nesting ≤ k :=
  add_deepest_le_iff rfl (fun _ _ => rfl) fields

theorem nestingAll_le_iff {depth : Nat} :
    nestingAll items ≤ depth ↔ ∀ v ∈ items, v.nesting ≤ depth := by
  have h := @add_nestingAll_le_iff items 0 depth
  simpa using h

theorem nestingOfFields_le_iff {depth : Nat} :
    nestingOfFields fields ≤ depth ↔ ∀ f ∈ fields, f.2.nesting ≤ depth := by
  have h := @add_nestingOfFields_le_iff fields 0 depth
  simpa using h

theorem writeItems_eq (items : List Value) (rest : List Char) :
    writeItems spell items rest = Json.separated [','] (write spell) items rest :=
  Json.eq_separated (fun _ => rfl) (fun _ _ => rfl) (fun _ _ _ _ => rfl) items rest

theorem writeFields_eq (fields : List (String × Value)) (rest : List Char) :
    writeFields spell fields rest =
      Json.separated [','] (Json.memberOf spell (write spell)) fields rest :=
  Json.eq_separated (fun _ => rfl) (fun _ _ => rfl) (fun _ _ _ _ => rfl) fields rest

theorem quote_append (s : String) (rest more : List Char) :
    Json.quote spell s (rest ++ more) = Json.quote spell s rest ++ more := by
  simp only [Json.quote, List.cons_append, List.append_assoc]

/-- A value is written without a look at what follows it. -/
theorem write_append (v : Value) (rest more : List Char) :
    v.write spell (rest ++ more) = v.write spell rest ++ more := by
  induction v generalizing rest more with
  | null => rfl
  | bool b => cases b <;> rfl
  | integer i => rw [write, write, List.append_assoc]
  | float x => rw [write, write, List.append_assoc]
  | text s => exact quote_append s rest more
  | array items ih =>
    rw [write, write, writeItems_eq, writeItems_eq, ← List.cons_append, Json.separated_append ih,
      List.cons_append]
  | object fields ih =>
    have hmember : ∀ f ∈ fields, ∀ rest more, Json.memberOf spell (write spell) f (rest ++ more) =
        Json.memberOf spell (write spell) f rest ++ more := by
      intro f hf rest more
      rw [Json.memberOf, Json.member, ih f hf, ← List.cons_append]
      exact quote_append f.1 _ more
    rw [write, write, writeFields_eq, writeFields_eq, ← List.cons_append,
      Json.separated_append hmember, List.cons_append]

theorem not_isBlank_of_number {c : Char} (h : c = '-' ∨ c.isDigit) :
    Json.isBlank c = false ∧ c ≠ ']' := by
  constructor
  · rw [← Bool.not_eq_true]
    intro hblank
    simp only [Json.isBlank, Bool.or_eq_true, beq_iff_eq] at hblank
    rcases hblank with ((rfl | rfl) | rfl) | rfl <;> exact absurd h (by decide)
  · rintro rfl
    exact absurd h (by decide)

theorem opens_write (hfloat : ∀ p ∈ v.parts, ¬p.isFloat) : Json.Opens (write spell) v := by
  induction v with
  | null => exact ⟨fun _ => ⟨_, _, rfl, by decide⟩, fun _ => by simp [write]; omega⟩
  | bool b =>
    cases b <;> exact ⟨fun _ => ⟨_, _, rfl, by decide⟩, fun _ => by simp [write]; omega⟩
  | integer i =>
    obtain ⟨c, cs, hchars, hnumber⟩ := Json.intChars_eq_cons i
    have htext (rest : List Char) : write spell (integer i) rest = c :: (cs ++ rest) := by
      rw [write, hchars, List.cons_append]
    refine ⟨fun rest => ⟨c, cs ++ rest, htext rest, not_isBlank_of_number hnumber⟩, fun rest => ?_⟩
    rw [htext, List.length_cons, List.length_append]
    omega
  | float x => exact absurd rfl (hfloat _ (self_mem_parts _))
  | text s => exact ⟨fun _ => ⟨_, _, rfl, by decide⟩, fun _ => by simp [write, Json.quote]; omega⟩
  | array items ih =>
    refine ⟨fun _ => ⟨_, _, rfl, by decide⟩, fun rest => ?_⟩
    have hitems := Json.length_le_separated [','] (']' :: rest) fun v hv rest =>
      Nat.le_of_lt ((ih v hv fun p hp => hfloat p (parts_subset_array hv hp)).grows rest)
    rw [List.length_cons] at hitems
    rw [write, writeItems_eq, List.length_cons]
    omega
  | object fields ih =>
    refine ⟨fun _ => ⟨_, _, rfl, by decide⟩, fun rest => ?_⟩
    have hfields := Json.length_le_separated [','] ('\x7d' :: rest) fun f hf rest =>
      Nat.le_of_lt (Json.length_lt_memberOf spell
        (ih f hf fun p hp => hfloat p (parts_subset_object hf hp)).grows rest)
    rw [List.length_cons] at hfields
    rw [write, writeFields_eq, List.length_cons]
    omega

theorem foldl_insertField (before fields : List (String × Value))
    (hsorted : Sorted (before ++ fields)) :
    fields.foldl (fun acc f => insertField f.1 f.2 acc) before = before ++ fields := by
  induction fields generalizing before with
  | nil => exact (List.append_nil before).symm
  | cons f fields ih =>
    have hbefore : ∀ g ∈ before, g.1 < f.1 := fun g hg =>
      (List.pairwise_append.mp hsorted).2.2 g hg f List.mem_cons_self
    have hf : insertField f.1 f.2 before = before ++ [f] := by
      simpa [insertField] using insertField_append hbefore f.2 []
    rw [List.append_cons] at hsorted ⊢
    rw [List.foldl_cons, hf]
    exact ih _ hsorted

theorem Sound.inRange (h : v.Sound) : v.InRange := by
  cases v with
  | integer i => exact h
  | null | bool _ | float _ | text _ | array _ | object _ => exact trivial

theorem Sound.kept (h : v.Sound) : v.Kept insertField := by
  cases v with
  | object fields => exact foldl_insertField [] fields h
  | null | bool _ | float _ | text _ | array _ | integer _ => exact trivial

variable {put : String → Value → List (String × Value) → List (String × Value)}

section Dispatch

variable {bound depth : Nat}

theorem value_number {c : Char} {cs : List Char} (h : c = '-' ∨ c.isDigit) :
    Json.value put bound depth (c :: cs) = Json.number (c :: cs) := by
  rw [Json.value.eq_def]
  dsimp only
  rw [Json.skipBlank_cons (not_isBlank_of_number h).1]
  dsimp only
  split
  case h_7 => exact if_pos h
  all_goals exact absurd h (by decide)

theorem value_text (hspell : spell.Valid) (s : String) :
    Json.value put bound depth (Json.quote spell s rest) = .ok (.text s, rest) := by
  have htext : Json.value put bound depth (Json.quote spell s rest) =
      Json.text true (s.toList.flatMap spell ++ '"' :: rest) >>= fun read =>
        .ok (.text read.1, read.2) := by
    cases depth <;> rfl
  rw [htext, Json.text_quote hspell]
  rfl

theorem value_array :
    Json.value put bound (depth + 1) ('[' :: rest) =
      Json.items (Json.value put bound depth) bound true rest >>= fun read =>
        .ok (.array read.1, read.2) := rfl

theorem value_object :
    Json.value put bound (depth + 1) ('\x7b' :: rest) =
      Json.members true (Json.addField put (Json.value put bound depth)) bound true [] rest >>=
        fun read => .ok (.object read.1, read.2) := rfl

theorem addField_colon {acc : List (String × Value)} {name : String} :
    Json.addField put (Json.value put bound depth) acc name (':' :: rest) =
      Json.value put bound depth rest >>= fun read => .ok (put name read.1 acc, read.2) := rfl

end Dispatch

theorem value_write (hspell : spell.Valid) (bound depth : Nat) (hrange : ∀ p ∈ v.parts, p.InRange)
    (hkept : ∀ p ∈ v.parts, p.Kept put) (hfloat : ∀ p ∈ v.parts, ¬p.isFloat) :
    Json.ReadsBack bound (write spell) (fun v => v.nesting ≤ depth)
      (Json.value put bound depth) v := by
  induction v generalizing depth with
  | null =>
    intro rest _ _
    cases depth <;> rfl
  | bool b =>
    intro rest _ _
    cases b <;> cases depth <;> rfl
  | integer i =>
    intro rest hends _
    obtain ⟨hlow, hhigh⟩ : -Int.pow 2 63 ≤ i ∧ i < Int.pow 2 64 := hrange _ (self_mem_parts _)
    obtain ⟨c, cs, hchars, hnumber⟩ := Json.intChars_eq_cons i
    have hread := Json.number_intChars hlow hhigh hends
    have hfits : (integer i).nesting ≤ depth := Nat.zero_le _
    rw [write, if_pos hfits]
    rw [hchars, List.cons_append] at hread ⊢
    rw [value_number hnumber, hread]
  | float x => exact absurd rfl (hfloat _ (self_mem_parts _))
  | text s =>
    intro rest _ _
    have hfits : (text s).nesting ≤ depth := Nat.zero_le _
    rw [write, if_pos hfits, value_text hspell]
  | array items ih =>
    intro rest _ hbound
    rw [write, writeItems_eq] at hbound ⊢
    cases depth with
    | zero => rfl
    | succ depth =>
      have hread : ∀ v ∈ items,
          Json.ReadsBack bound (write spell) (fun v => v.nesting ≤ depth)
            (Json.value put bound depth) v :=
        fun v hv => ih v hv depth (fun p hp => hrange p (parts_subset_array hv hp))
          (fun p hp => hkept p (parts_subset_array hv hp))
          fun p hp => hfloat p (parts_subset_array hv hp)
      have hopens : ∀ v ∈ items, Json.Opens (write spell) v := fun v hv =>
        opens_write fun p hp => hfloat p (parts_subset_array hv hp)
      rw [List.length_cons] at hbound
      have hitems := Json.items_separated hopens hread (Nat.lt_of_succ_lt hbound)
        (Nat.lt_of_succ_lt hbound)
      simp only [nesting, Nat.add_le_add_iff_right, nestingAll_le_iff]
      rw [value_array]
      exact Json.bind_ok_eq_ite hitems rfl
  | object fields ih =>
    intro rest _ hbound
    rw [write, writeFields_eq] at hbound ⊢
    cases depth with
    | zero => rfl
    | succ depth =>
      have hread : ∀ f ∈ fields, Json.TakesUp bound (write spell) (fun v => v.nesting ≤ depth)
          (Json.addField put (Json.value put bound depth)) (fun acc name v => put name v acc)
          f := by
        intro f hf acc rest hends hlength
        have hv := ih f hf depth (fun p hp => hrange p (parts_subset_object hf hp))
          (fun p hp => hkept p (parts_subset_object hf hp))
          (fun p hp => hfloat p (parts_subset_object hf hp)) rest hends hlength
        rw [addField_colon]
        exact Json.bind_ok_eq_ite hv rfl
      have hopens : ∀ f ∈ fields, ∀ rest, rest.length < (f.2.write spell rest).length := fun f hf =>
        (opens_write fun p hp => hfloat p (parts_subset_object hf hp)).grows
      have hall : fields.foldl (fun acc f => put f.1 f.2 acc) [] = fields :=
        hkept _ (self_mem_parts _)
      rw [List.length_cons] at hbound
      have hfields := Json.members_separated hspell hopens hread [] (Nat.lt_of_succ_lt hbound)
        (Nat.lt_of_succ_lt hbound)
      rw [hall] at hfields
      simp only [nesting, Nat.add_le_add_iff_right, nestingOfFields_le_iff]
      rw [value_object]
      exact Json.bind_ok_eq_ite hfields rfl

/-- Texts that start with a value hold the same value and go on alike. -/
theorem write_inj {w : Value} {rest' : List Char} (hspell : spell.Valid)
    (hsound : ∀ p ∈ v.parts, p.Sound) (hfloat : ∀ p ∈ v.parts, ¬p.isFloat)
    (hsound' : ∀ p ∈ w.parts, p.Sound) (hfloat' : ∀ p ∈ w.parts, ¬p.isFloat)
    (hends : Json.EndsNumber rest) (hends' : Json.EndsNumber rest')
    (h : v.write spell rest = w.write spell rest') : v = w ∧ rest = rest' := by
  have hread {u : Value} (hsound : ∀ p ∈ u.parts, p.Sound) (hfloat : ∀ p ∈ u.parts, ¬p.isFloat)
      (bound depth : Nat) : Json.ReadsBack bound (write spell) (fun v => v.nesting ≤ depth)
        (Json.value insertField bound depth) u :=
    value_write hspell bound depth (fun p hp => (hsound p hp).inRange)
      (fun p hp => (hsound p hp).kept) hfloat
  have hfirst := hread hsound hfloat ((v.write spell rest).length + 1)
    (max v.nesting w.nesting) rest hends (Nat.lt_succ_self _)
  have hsecond := hread hsound' hfloat' ((v.write spell rest).length + 1)
    (max v.nesting w.nesting) rest' hends' (h ▸ Nat.lt_succ_self _)
  rw [if_pos (Nat.le_max_left _ _)] at hfirst
  rw [if_pos (Nat.le_max_right _ _), ← h, hfirst] at hsecond
  exact Prod.mk.inj (Except.ok.inj hsecond)

end Value

end TreeQuery
