import TreeQuery.Proofs.ValueText

/-! How deep the brackets of a text stand inside one another, read off the text alone. For written
values this is how deep their lists and objects stand inside one another. -/

namespace TreeQuery

namespace Json

/-- The most brackets that are open at a time, where so many are open already. Quoted text has no
brackets. -/
def deepest (depth : Nat) : (quoted : Bool) → List Char → Nat
  | _, [] => depth
  | true, '\\' :: _ :: cs => deepest depth true cs
  | quoted, '"' :: cs => deepest depth (!quoted) cs
  | true, _ :: cs => deepest depth true cs
  | false, c :: cs =>
    if c = '[' ∨ c = '\x7b' then deepest (depth + 1) false cs
    else if c = ']' ∨ c = '\x7d' then max depth (deepest (depth - 1) false cs)
    else deepest depth false cs

/-- How deep arrays and objects nest in a text. -/
def nesting (s : String) : Nat := deepest 0 false s.toList

variable {α : Type} {depth k : Nat} {c : Char} {cs rest : List Char}

theorem depth_le_deepest (depth : Nat) (quoted : Bool) (cs : List Char) :
    depth ≤ deepest depth quoted cs := by
  fun_induction deepest depth quoted cs <;> omega

theorem deepest_open (h : c = '[' ∨ c = '\x7b') :
    deepest depth false (c :: rest) = deepest (depth + 1) false rest := by
  rcases h with rfl | rfl <;> rfl

theorem deepest_close (h : c = ']' ∨ c = '\x7d') :
    deepest depth false (c :: rest) = max depth (deepest (depth - 1) false rest) := by
  rcases h with rfl | rfl <;> rfl

/-- No quote and no bracket. -/
def isFlat (c : Char) : Bool := (['"', '[', ']', '\x7b', '\x7d'].contains c).not

theorem deepest_cons_flat (h : isFlat c) :
    deepest depth false (c :: rest) = deepest depth false rest := by
  simp only [isFlat, List.contains_cons, List.contains_nil, Bool.not_eq_true', Bool.or_eq_false_iff,
    beq_eq_false_iff_ne] at h
  obtain ⟨hquote, hopen, hclose, hopen', hclose', _⟩ := h
  rw [deepest]
  · rw [if_neg (not_or.mpr ⟨hopen, hopen'⟩), if_neg (not_or.mpr ⟨hclose, hclose'⟩)]
  · exact hquote

theorem deepest_flat (h : ∀ c ∈ cs, isFlat c) :
    deepest depth false (cs ++ rest) = deepest depth false rest := by
  induction cs with
  | nil => rfl
  | cons c cs ih =>
    obtain ⟨hc, hcs⟩ := List.forall_mem_cons.mp h
    rw [List.cons_append, deepest_cons_flat hc, ih hcs]

theorem deepest_quoted (hquote : c ≠ '"') (hescape : c ≠ '\\') :
    deepest depth true (c :: rest) = deepest depth true rest := by
  rw [deepest]
  · exact fun _ _ h _ => hescape h
  · exact hquote

theorem deepest_hex {a : Nat} (h : hexValue? c = some a) :
    deepest depth true (c :: rest) = deepest depth true rest := by
  apply deepest_quoted
  · rintro rfl
    cases h
  · rintro rfl
    cases h

theorem deepest_spells (h : Spells cs c) :
    deepest depth true (cs ++ rest) = deepest depth true rest := by
  cases h with
  | plain _ hquote hescape => exact deepest_quoted hquote hescape
  | escaped => rfl
  | @unit w x y z _ _ _ _ _ hw hx hy hz _ =>
    change deepest depth true (w :: x :: y :: z :: rest) = _
    rw [deepest_hex hw, deepest_hex hx, deepest_hex hy, deepest_hex hz]

theorem deepest_quote {spell : Spelling} (hspell : spell.Valid) (s : String) :
    deepest depth false (quote spell s rest) = deepest depth false rest := by
  have hchars (cs : List Char) : deepest depth true (cs.flatMap spell ++ '"' :: rest) =
      deepest depth false rest := by
    induction cs with
    | nil => rfl
    | cons c cs ih => rw [List.flatMap_cons, List.append_assoc, deepest_spells (hspell c), ih]
  exact hchars s.toList

theorem isFlat_of_number (h : c = '-' ∨ c.isDigit) : isFlat c := by
  rw [isFlat, Bool.not_eq_true', ← Bool.not_eq_true]
  intro hc
  simp only [List.contains_cons, List.contains_nil, Bool.or_eq_true, beq_iff_eq] at hc
  rcases hc with rfl | rfl | rfl | rfl | rfl | hc <;> exact absurd ‹_› (by decide)

/-- What is written nests so deep, and is over once it is written. -/
def Deepens (write : α → List Char → List Char) (nests : α → Nat) (a : α) : Prop :=
  ∀ depth k rest, deepest depth false (write a rest) ≤ k ↔
    depth + nests a ≤ k ∧ deepest depth false rest ≤ k

section Deepens

variable {write : α → List Char → List Char} {nests : α → Nat} {as : List α}

theorem Deepens.of_eq {a : α} (hnests : nests a = 0)
    (h : ∀ depth rest, deepest depth false (write a rest) = deepest depth false rest) :
    Deepens write nests a := by
  intro depth k rest
  have hle := depth_le_deepest depth false rest
  rw [h, hnests]
  omega

theorem deepest_following (h : ∀ a ∈ as, Deepens write nests a) :
    deepest depth false (following [','] write as rest) ≤ k ↔
      (∀ a ∈ as, depth + nests a ≤ k) ∧ deepest depth false rest ≤ k := by
  induction as with
  | nil => simp [following]
  | cons a as ih =>
    obtain ⟨ha, has⟩ := List.forall_mem_cons.mp h
    rw [following_cons, List.singleton_append, deepest_cons_flat (by decide), ha, ih has,
      List.forall_mem_cons, and_assoc]

theorem deepest_separated (h : ∀ a ∈ as, Deepens write nests a) :
    deepest depth false (separated [','] write as rest) ≤ k ↔
      (∀ a ∈ as, depth + nests a ≤ k) ∧ deepest depth false rest ≤ k := by
  cases as with
  | nil => simp [separated]
  | cons a as =>
    obtain ⟨ha, has⟩ := List.forall_mem_cons.mp h
    rw [separated_cons, ha, deepest_following has, List.forall_mem_cons, and_assoc]

theorem Deepens.memberOf {spell : Spelling} (hspell : spell.Valid) {field : String × α}
    (h : Deepens write nests field.2) :
    Deepens (memberOf spell write) (fun f => nests f.2) field := by
  intro depth k rest
  rw [Json.memberOf, member, deepest_quote hspell, deepest_cons_flat (by decide), h]

/-- Brackets around what is separated by commas go one deeper. -/
theorem deepest_bracketed {first last : Char} (h : ∀ a ∈ as, Deepens write nests a)
    (hfirst : first = '[' ∨ first = '\x7b') (hlast : last = ']' ∨ last = '\x7d') :
    deepest depth false (first :: separated [','] write as (last :: rest)) ≤ k ↔
      (depth + 1 ≤ k ∧ ∀ a ∈ as, depth + 1 + nests a ≤ k) ∧ deepest depth false rest ≤ k := by
  rw [deepest_open hfirst, deepest_separated h, deepest_close hlast, Nat.max_le,
    Nat.add_sub_cancel, ← and_assoc, and_comm (a := ∀ a ∈ as, depth + 1 + nests a ≤ k)]

end Deepens

end Json

namespace Value

variable {v : Value} {spell : Json.Spelling}

theorem deepens_write (hspell : spell.Valid) (hfloat : ∀ p ∈ v.parts, ¬p.isFloat) :
    Json.Deepens (write spell) nesting v := by
  induction v with
  | null => exact .of_eq rfl fun _ _ => rfl
  | bool b => cases b <;> exact .of_eq rfl fun _ _ => rfl
  | integer i =>
    refine .of_eq rfl fun depth rest => Json.deepest_flat fun c hc => ?_
    exact Json.isFlat_of_number (Json.mem_intChars hc)
  | float x => exact absurd rfl (hfloat _ (self_mem_parts _))
  | text s => exact .of_eq rfl fun _ _ => Json.deepest_quote hspell s
  | array items ih =>
    intro depth k rest
    have hitems : ∀ v ∈ items, Json.Deepens (write spell) nesting v := fun v hv =>
      ih v hv fun p hp => hfloat p (parts_subset_array hv hp)
    rw [write, writeItems_eq, Json.deepest_bracketed hitems (.inl rfl) (.inl rfl),
      ← add_nestingAll_le_iff, nesting, Nat.add_right_comm, Nat.add_assoc]
  | object fields ih =>
    intro depth k rest
    have hfields : ∀ f ∈ fields,
        Json.Deepens (Json.memberOf spell (write spell)) (fun f => f.2.nesting) f :=
      fun f hf => .memberOf hspell (ih f hf fun p hp => hfloat p (parts_subset_object hf hp))
    rw [write, writeFields_eq, Json.deepest_bracketed hfields (.inr rfl) (.inr rfl),
      ← add_nestingOfFields_le_iff, nesting, Nat.add_right_comm, Nat.add_assoc]

/-- Brackets nest as deep in a text as lists and objects do in its value. -/
theorem nesting_write (hspell : spell.Valid) (hfloat : ∀ p ∈ v.parts, ¬p.isFloat) :
    Json.nesting (String.ofList (v.write spell [])) = v.nesting := by
  have hle (k : Nat) : Json.nesting (String.ofList (v.write spell [])) ≤ k ↔ v.nesting ≤ k := by
    rw [Json.nesting, String.toList_ofList, deepens_write hspell hfloat 0 k [], Nat.zero_add]
    exact and_iff_left (Nat.zero_le _)
  exact Nat.le_antisymm ((hle _).mpr (Nat.le_refl _)) ((hle _).mp (Nat.le_refl _))

end Value

end TreeQuery
