import TreeQuery.Json.Value
import TreeQuery.Proofs.Scalars

/-! Lists and objects are read back if their entries are. The entries are written one after the
other with a mark between them; as the readers do, the proofs go from one entry to the next. -/

namespace TreeQuery

namespace Json

variable {α : Type}

/-- Each written after a mark. -/
def following (mark : List Char) (write : α → List Char → List Char) (as : List α)
    (rest : List Char) : List Char :=
  as.foldr (fun a text => mark ++ write a text) rest

/-- Written one after the other, with a mark between any two. -/
def separated (mark : List Char) (write : α → List Char → List Char) :
    List α → List Char → List Char
  | [], rest => rest
  | a :: as, rest => write a (following mark write as rest)

/-- Something is written, and it starts neither with a blank nor with the end of a list. -/
structure Opens (write : α → List Char → List Char) (a : α) : Prop where
  start : ∀ rest, ∃ c cs, write a rest = c :: cs ∧ isBlank c = false ∧ c ≠ ']'
  grows : ∀ rest, rest.length < (write a rest).length

/-- What fits is read back, with the text that follows it, and what does not is malformed. -/
def ReadsBack (limit : Nat) (write : α → List Char → List Char) (fits : α → Prop)
    [DecidablePred fits] (read : Reader α) (a : α) : Prop :=
  ∀ rest, EndsNumber rest → (write a rest).length < limit →
    read (write a rest) = if fits a then .ok (a, rest) else .error .malformed

variable {write : α → List Char → List Char} {as : List α} {limit bound : Nat} {rest : List Char}

theorem separated_cons (mark : List Char) (a : α) :
    separated mark write (a :: as) rest = write a (following mark write as rest) := rfl

theorem following_cons (mark : List Char) (a : α) :
    following mark write (a :: as) rest = mark ++ write a (following mark write as rest) := rfl

/-- One that writes the last of a list without a mark after it. -/
theorem eq_separated {mark : List Char} {writeAll : List α → List Char → List Char}
    (hnil : ∀ rest, writeAll [] rest = rest) (hlast : ∀ a rest, writeAll [a] rest = write a rest)
    (hmore : ∀ a b as rest,
      writeAll (a :: b :: as) rest = write a (mark ++ writeAll (b :: as) rest))
    (as : List α) (rest : List Char) : writeAll as rest = separated mark write as rest := by
  induction as with
  | nil => exact hnil rest
  | cons a as ih =>
    cases as with
    | nil => exact hlast a rest
    | cons b as =>
      rw [hmore, ih, separated_cons, separated_cons, following_cons]

theorem following_append {mark s t : List Char}
    (h : ∀ a ∈ as, ∀ s t, write a (s ++ t) = write a s ++ t) :
    following mark write as (s ++ t) = following mark write as s ++ t := by
  induction as with
  | nil => rfl
  | cons a as ih =>
    obtain ⟨ha, has⟩ := List.forall_mem_cons.mp h
    rw [following_cons, following_cons, ih has, ha, List.append_assoc]

theorem separated_append {mark s t : List Char}
    (h : ∀ a ∈ as, ∀ s t, write a (s ++ t) = write a s ++ t) :
    separated mark write as (s ++ t) = separated mark write as s ++ t := by
  cases as with
  | nil => rfl
  | cons a as =>
    obtain ⟨ha, has⟩ := List.forall_mem_cons.mp h
    rw [separated_cons, separated_cons, following_append has, ha]

theorem length_le_following (mark rest : List Char)
    (h : ∀ a ∈ as, ∀ rest, rest.length ≤ (write a rest).length) :
    rest.length ≤ (following mark write as rest).length := by
  induction as with
  | nil => exact Nat.le_refl _
  | cons a as ih =>
    obtain ⟨ha, has⟩ := List.forall_mem_cons.mp h
    rw [following_cons, List.length_append]
    exact Nat.le_trans (Nat.le_trans (ih has) (ha _)) (Nat.le_add_left ..)

theorem length_le_separated (mark rest : List Char)
    (h : ∀ a ∈ as, ∀ rest, rest.length ≤ (write a rest).length) :
    rest.length ≤ (separated mark write as rest).length := by
  cases as with
  | nil => exact Nat.le_refl _
  | cons a as =>
    obtain ⟨ha, has⟩ := List.forall_mem_cons.mp h
    exact Nat.le_trans (length_le_following mark rest has) (ha _)

theorem endsNumber_following (hrest : EndsNumber rest) :
    EndsNumber (following [','] write as rest) := by
  cases as with
  | nil => exact hrest
  | cons a as =>
    intro c hc
    obtain rfl : ',' = c := Option.some.inj hc
    decide

theorem endsNumber_cons {c : Char} (h : ¬c.isDigit ∧ c ≠ '.' ∧ c ≠ 'e' ∧ c ≠ 'E') :
    EndsNumber (c :: rest) := by
  intro d hd
  obtain rfl : c = d := Option.some.inj hd
  exact h

theorem bind_eq_ite {β : Type} {x : Except Fault α} {f : α → Except Fault β} {a : α} {b : β}
    {p q : Prop} [Decidable p] [Decidable q] (hx : x = if p then .ok a else .error .malformed)
    (hf : f a = if q then .ok b else .error .malformed) :
    x >>= f = if p ∧ q then .ok b else .error .malformed := by
  by_cases hp : p
  · rw [hx, if_pos hp]
    change f a = _
    rw [hf]
    by_cases hq : q
    · rw [if_pos hq, if_pos ⟨hp, hq⟩]
    · rw [if_neg hq, if_neg fun h => hq h.2]
  · rw [hx, if_neg hp, if_neg fun h => hp h.1]
    rfl

theorem bind_ok_eq_ite {β : Type} {x : Except Fault α} {f : α → Except Fault β} {a : α} {b : β}
    {p : Prop} [Decidable p] (hx : x = if p then .ok a else .error .malformed) (hf : f a = .ok b) :
    x >>= f = if p then .ok b else .error .malformed := by
  by_cases hp : p
  · rw [hx, if_pos hp, if_pos hp]
    exact hf
  · rw [hx, if_neg hp, if_neg hp]
    rfl

section Items

variable {fits : α → Prop} [DecidablePred fits] {read : Reader α}

theorem skipBlank_cons {c : Char} {cs : List Char} (h : isBlank c = false) :
    skipBlank (c :: cs) = c :: cs := by
  rw [skipBlank, List.dropWhile_cons_of_neg (by simp [h])]

theorem nextItem_first {a : α} (hopens : Opens write a) :
    nextItem true (write a rest) = .ok (.entry (write a rest)) := by
  obtain ⟨c, cs, htext, hblank, hclose⟩ := hopens.start rest
  rw [htext, nextItem, skipBlank_cons hblank]
  split
  next h => exact absurd h (List.cons_ne_nil _ _)
  next h => exact absurd (List.cons.inj h).1 hclose
  next h => rw [if_pos rfl, h]

theorem nextItem_comma {a : α} (hopens : Opens write a) :
    nextItem false (',' :: write a rest) = .ok (.entry (write a rest)) := by
  obtain ⟨c, cs, htext, hblank, hclose⟩ := hopens.start rest
  rw [htext, nextItem, skipBlank_cons (by decide)]
  split
  next h => exact absurd h (List.cons_ne_nil _ _)
  next h => exact absurd (List.cons.inj h).1 (by decide)
  next h =>
    obtain ⟨rfl, rfl⟩ := List.cons.inj h
    rw [if_neg Bool.false_ne_true, if_pos rfl, skipBlank_cons hblank]
    split
    next h => exact absurd h (List.cons_ne_nil _ _)
    next h => exact absurd (List.cons.inj h).1 hclose
    next => rfl

theorem items_close {first : Bool} :
    items read (bound + 1) first (']' :: rest) = .ok ([], rest) := by
  cases first <;> rfl

theorem items_entry {first : Bool} {a : α} {cs after : List Char} {others : Prop} [Decidable others]
    (hnext : nextItem first cs = .ok (.entry (write a after)))
    (hread : read (write a after) = if fits a then .ok (a, after) else .error .malformed)
    (hrest : items read bound false after = if others then .ok (as, rest) else .error .malformed) :
    items read (bound + 1) first cs =
      if fits a ∧ others then .ok (a :: as, rest) else .error .malformed := by
  have hentry : items read (bound + 1) first cs = read (write a after) >>= fun found =>
      items read bound false found.2 >>= fun others =>
        .ok (found.1 :: others.1, others.2) := by
    rw [items, hnext]
    rfl
  rw [hentry]
  exact bind_eq_ite hread (bind_ok_eq_ite hrest rfl)

theorem items_following (hopens : ∀ a ∈ as, Opens write a)
    (hread : ∀ a ∈ as, ReadsBack limit write fits read a)
    (hlimit : (following [','] write as (']' :: rest)).length < limit)
    (hbound : (following [','] write as (']' :: rest)).length < bound) :
    items read bound false (following [','] write as (']' :: rest)) =
      if ∀ a ∈ as, fits a then .ok (as, rest) else .error .malformed := by
  induction as generalizing bound with
  | nil =>
    obtain ⟨bound, rfl⟩ := Nat.exists_eq_succ_of_ne_zero (Nat.ne_zero_of_lt hbound)
    rw [if_pos (List.forall_mem_nil _)]
    exact items_close
  | cons a as ih =>
    obtain ⟨bound, rfl⟩ := Nat.exists_eq_succ_of_ne_zero (Nat.ne_zero_of_lt hbound)
    obtain ⟨ha, has⟩ := List.forall_mem_cons.mp hread
    obtain ⟨hopen, hopens⟩ := List.forall_mem_cons.mp hopens
    have hgrows := hopen.grows (following [','] write as (']' :: rest))
    rw [following_cons, List.singleton_append] at hlimit hbound ⊢
    rw [List.length_cons] at hlimit hbound
    have hends : EndsNumber (following [','] write as (']' :: rest)) :=
      endsNumber_following (endsNumber_cons (by decide))
    simp only [List.forall_mem_cons]
    exact items_entry (nextItem_comma hopen) (ha _ hends (by omega))
      (ih hopens has (by omega) (by omega))

/-- A list is read back when each of its items fits. -/
theorem items_separated (hopens : ∀ a ∈ as, Opens write a)
    (hread : ∀ a ∈ as, ReadsBack limit write fits read a)
    (hlimit : (separated [','] write as (']' :: rest)).length < limit)
    (hbound : (separated [','] write as (']' :: rest)).length < bound) :
    items read bound true (separated [','] write as (']' :: rest)) =
      if ∀ a ∈ as, fits a then .ok (as, rest) else .error .malformed := by
  obtain ⟨bound, rfl⟩ := Nat.exists_eq_succ_of_ne_zero (Nat.ne_zero_of_lt hbound)
  cases as with
  | nil =>
    rw [if_pos (List.forall_mem_nil _)]
    exact items_close
  | cons a as =>
    obtain ⟨ha, has⟩ := List.forall_mem_cons.mp hread
    obtain ⟨hopen, hopens⟩ := List.forall_mem_cons.mp hopens
    have hgrows := hopen.grows (following [','] write as (']' :: rest))
    rw [separated_cons] at hlimit hbound ⊢
    have hends : EndsNumber (following [','] write as (']' :: rest)) :=
      endsNumber_following (endsNumber_cons (by decide))
    simp only [List.forall_mem_cons]
    exact items_entry (nextItem_first hopen) (ha _ hends hlimit)
      (items_following hopens has (by omega) (by omega))

end Items

section Members

variable {σ β : Type} {write : β → List Char → List Char} {fits : β → Prop} [DecidablePred fits]
variable {entry : σ → String → Reader σ} {step : σ → String → β → σ} {fields : List (String × β)}
variable {spell : Spelling}

/-- A name, a colon and what it names. -/
def memberOf (spell : Spelling) (write : β → List Char → List Char) (field : String × β)
    (rest : List Char) : List Char :=
  member spell field.1 (write field.2 rest)

/-- A member is read back from the end of its name, and what it names goes to what has been read. -/
def TakesUp (limit : Nat) (write : β → List Char → List Char) (fits : β → Prop) [DecidablePred fits]
    (entry : σ → String → Reader σ) (step : σ → String → β → σ) (field : String × β) : Prop :=
  ∀ acc rest, EndsNumber rest → (write field.2 rest).length < limit →
    entry acc field.1 (':' :: write field.2 rest) =
      if fits field.2 then .ok (step acc field.1 field.2, rest) else .error .malformed

theorem members_close {first : Bool} {acc : σ} :
    members true entry (bound + 1) first acc ('\x7d' :: rest) = .ok (acc, rest) := by
  cases first <;> rfl

theorem members_named (hspell : spell.Valid) {first : Bool} {acc : σ} {cs after : List Char}
    (name : String)
    (hnext : nextMember first cs = .ok (.entry (name.toList.flatMap spell ++ '"' :: after))) :
    members true entry (bound + 1) first acc cs =
      entry acc name after >>= fun read => members true entry bound false read.1 read.2 := by
  have hname : members true entry (bound + 1) first acc cs =
      text true (name.toList.flatMap spell ++ '"' :: after) >>= fun read =>
        entry acc read.1 read.2 >>= fun read => members true entry bound false read.1 read.2 := by
    rw [members, hnext]
    rfl
  rw [hname, text_quote hspell]
  rfl

theorem members_first (hspell : spell.Valid) {acc : σ} (name : String) (after : List Char) :
    members true entry (bound + 1) true acc (member spell name after) =
      entry acc name (':' :: after) >>= fun read =>
        members true entry bound false read.1 read.2 :=
  members_named hspell name rfl

theorem members_comma (hspell : spell.Valid) {acc : σ} (name : String) (after : List Char) :
    members true entry (bound + 1) false acc (',' :: member spell name after) =
      entry acc name (':' :: after) >>= fun read =>
        members true entry bound false read.1 read.2 :=
  members_named hspell name rfl

theorem length_lt_member (spell : Spelling) (name : String) (after : List Char) :
    after.length < (member spell name after).length := by
  simp [member, quote]
  omega

theorem length_lt_memberOf (spell : Spelling) {field : String × β}
    (hgrows : ∀ rest, rest.length < (write field.2 rest).length) (rest : List Char) :
    rest.length < (memberOf spell write field rest).length :=
  Nat.lt_trans (hgrows _) (length_lt_member _ _ _)

theorem members_following (hspell : spell.Valid)
    (hgrows : ∀ f ∈ fields, ∀ rest, rest.length < (write f.2 rest).length)
    (hread : ∀ f ∈ fields, TakesUp limit write fits entry step f) (acc : σ)
    (hlimit : (following [','] (memberOf spell write) fields ('\x7d' :: rest)).length < limit)
    (hbound : (following [','] (memberOf spell write) fields ('\x7d' :: rest)).length < bound) :
    members true entry bound false acc
        (following [','] (memberOf spell write) fields ('\x7d' :: rest)) =
      if ∀ f ∈ fields, fits f.2
      then .ok (fields.foldl (fun acc f => step acc f.1 f.2) acc, rest)
      else .error .malformed := by
  induction fields generalizing bound acc with
  | nil =>
    obtain ⟨bound, rfl⟩ := Nat.exists_eq_succ_of_ne_zero (Nat.ne_zero_of_lt hbound)
    rw [if_pos (List.forall_mem_nil _)]
    exact members_close
  | cons f fields ih =>
    obtain ⟨bound, rfl⟩ := Nat.exists_eq_succ_of_ne_zero (Nat.ne_zero_of_lt hbound)
    obtain ⟨hf, hfs⟩ := List.forall_mem_cons.mp hread
    obtain ⟨hgrow, hgrows⟩ := List.forall_mem_cons.mp hgrows
    rw [following_cons, List.singleton_append] at hlimit hbound ⊢
    rw [List.length_cons] at hlimit hbound
    generalize hafter : following [','] (memberOf spell write) fields ('\x7d' :: rest) = after
      at hlimit hbound ih ⊢
    have hends : EndsNumber after := hafter ▸ endsNumber_following (endsNumber_cons (by decide))
    have hvalue := hgrow after
    have hname := length_lt_member spell f.1 (write f.2 after)
    rw [memberOf] at hlimit hbound ⊢
    simp only [List.forall_mem_cons]
    rw [members_comma hspell]
    exact bind_eq_ite (hf acc after hends (by omega)) (ih hgrows hfs _ (by omega) (by omega))

/-- An object is read back when the values of its members fit. -/
theorem members_separated (hspell : spell.Valid)
    (hgrows : ∀ f ∈ fields, ∀ rest, rest.length < (write f.2 rest).length)
    (hread : ∀ f ∈ fields, TakesUp limit write fits entry step f) (acc : σ)
    (hlimit : (separated [','] (memberOf spell write) fields ('\x7d' :: rest)).length < limit)
    (hbound : (separated [','] (memberOf spell write) fields ('\x7d' :: rest)).length < bound) :
    members true entry bound true acc
        (separated [','] (memberOf spell write) fields ('\x7d' :: rest)) =
      if ∀ f ∈ fields, fits f.2
      then .ok (fields.foldl (fun acc f => step acc f.1 f.2) acc, rest)
      else .error .malformed := by
  obtain ⟨bound, rfl⟩ := Nat.exists_eq_succ_of_ne_zero (Nat.ne_zero_of_lt hbound)
  cases fields with
  | nil =>
    rw [if_pos (List.forall_mem_nil _)]
    exact members_close
  | cons f fields =>
    obtain ⟨hf, hfs⟩ := List.forall_mem_cons.mp hread
    obtain ⟨hgrow, hgrows⟩ := List.forall_mem_cons.mp hgrows
    rw [separated_cons] at hlimit hbound ⊢
    have hends : EndsNumber (following [','] (memberOf spell write) fields ('\x7d' :: rest)) :=
      endsNumber_following (endsNumber_cons (by decide))
    have hvalue := hgrow (following [','] (memberOf spell write) fields ('\x7d' :: rest))
    have hname := length_lt_member spell f.1
      (write f.2 (following [','] (memberOf spell write) fields ('\x7d' :: rest)))
    rw [memberOf] at hlimit hbound ⊢
    simp only [List.forall_mem_cons]
    rw [members_first hspell]
    exact bind_eq_ite (hf acc _ hends (by omega))
      (members_following hspell hgrows hfs _ (by omega) (by omega))

end Members

end Json

end TreeQuery
