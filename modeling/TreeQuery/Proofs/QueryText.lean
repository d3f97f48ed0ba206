import TreeQuery.Proofs.Sameness
import TreeQuery.Proofs.ValueText
import TreeQuery.Query.Text

/-! The short form of a query is unambiguous. Each part of it ends where a character comes that the
part cannot hold, so two texts that are alike are taken apart alike, from the front. The values of
properties are displayed by something else, and of that it is asked that the text of a value shows
where it ends. -/

namespace TreeQuery

/-- If anything follows, it starts with one of these. -/
def StartsIn (chars rest : List Char) : Prop := ∀ c ∈ rest.head?, c ∈ chars

/-- A name that needs no quotes: ASCII letters and digits, at least one. -/
def IsPlainName (name : String) : Prop := name ≠ "" ∧ name.toList.all Char.isAlphanum

instance (name : String) : Decidable (IsPlainName name) :=
  inferInstanceAs (Decidable (_ ∧ _))

section Names

variable {name other : String} {chars s t : List Char}

theorem StartsIn.cons {c : Char} (h : c ∈ chars) : StartsIn chars (c :: s) := by
  intro d hd
  obtain rfl : c = d := Option.some.inj hd
  exact h

theorem StartsIn.mono {more : List Char} (hs : StartsIn chars s) (h : chars ⊆ more) :
    StartsIn more s := fun c hc => h (hs c hc)

theorem StartsIn.ne_cons {c : Char} (hs : StartsIn chars s) (h : c ∉ chars) : s ≠ c :: t := by
  rintro rfl
  exact h (hs c rfl)

theorem takeWhile_name (hname : IsPlainName name) (hs : StartsIn chars s)
    (hchars : chars.all fun c => !c.isAlphanum) :
    (name.toList ++ s).takeWhile Char.isAlphanum = name.toList := by
  have hstop : s.takeWhile Char.isAlphanum = [] := by
    cases s with
    | nil => rfl
    | cons c s =>
      have hc : (!c.isAlphanum) = true := List.all_eq_true.mp hchars c (hs c rfl)
      exact List.takeWhile_cons_of_neg (by simpa using hc)
  rw [List.takeWhile_append_of_pos (List.all_eq_true.mp hname.2), hstop, List.append_nil]

theorem name_inj (hname : IsPlainName name) (hother : IsPlainName other) (hs : StartsIn chars s)
    (ht : StartsIn chars t) (hchars : chars.all fun c => !c.isAlphanum)
    (h : name.toList ++ s = other.toList ++ t) : name = other ∧ s = t := by
  have hnames : name.toList = other.toList := by
    rw [← takeWhile_name hname hs hchars, h, takeWhile_name hother ht hchars]
  rw [hnames] at h
  exact ⟨String.toList_inj.mp hnames, List.append_cancel_left h⟩

theorem name_ne_cons (hname : IsPlainName name) {c : Char} (hc : c.isAlphanum = false) :
    name.toList ++ s ≠ c :: t := by
  have hne : name.toList ≠ [] := fun h => hname.1 (String.toList_inj.mp h)
  obtain ⟨d, cs, hcons⟩ := List.exists_cons_of_ne_nil hne
  have halnum : d.isAlphanum := List.all_eq_true.mp hname.2 d (hcons ▸ List.mem_cons_self)
  rw [hcons, List.cons_append]
  intro h
  rw [(List.cons.inj h).1, hc] at halnum
  cases halnum

end Names

section Separated

variable {α : Type}

/-- Texts that start with the one and with the other are alike only if both are the same, and then
they go on alike. -/
def ToldApart (chars : List Char) (write : α → List Char → List Char) (a b : α) : Prop :=
  ∀ s t, StartsIn chars s → StartsIn chars t → write a s = write b t → a = b ∧ s = t

variable {write : α → List Char → List Char} {chars : List Char} {close : Char} {as bs : List α}
variable {s t : List Char}

theorem startsIn_following (hchars : [',', close] ⊆ chars) :
    StartsIn chars (Json.following [',', ' '] write as (close :: s)) := by
  cases as with
  | nil => exact .cons (hchars (by simp))
  | cons a as => exact .cons (hchars (by simp))

theorem following_inj (hclose : close ≠ ',') (hchars : [',', close] ⊆ chars)
    (hitem : ∀ a ∈ as, ∀ b ∈ bs, ToldApart chars write a b)
    (h : Json.following [',', ' '] write as (close :: s) =
      Json.following [',', ' '] write bs (close :: t)) : as = bs ∧ s = t := by
  induction as generalizing bs with
  | nil =>
    cases bs with
    | nil => exact ⟨rfl, (List.cons.inj h).2⟩
    | cons b bs => exact absurd (List.cons.inj h).1 hclose
  | cons a as ih =>
    cases bs with
    | nil => exact absurd (List.cons.inj h).1.symm hclose
    | cons b bs =>
      have htail := (List.cons.inj (List.cons.inj h).2).2
      obtain ⟨rfl, hrest⟩ := hitem a List.mem_cons_self b List.mem_cons_self _ _
        (startsIn_following hchars) (startsIn_following hchars) htail
      obtain ⟨rfl, rfl⟩ := ih (fun a ha b hb =>
        hitem a (List.mem_cons_of_mem _ ha) b (List.mem_cons_of_mem _ hb)) hrest
      exact ⟨rfl, rfl⟩

/-- Entries between commas are told apart if each is, and none starts with what closes them. -/
theorem separated_inj (hclose : close ≠ ',') (hchars : [',', close] ⊆ chars)
    (hitem : ∀ a ∈ as, ∀ b ∈ bs, ToldApart chars write a b)
    (has : ∀ a ∈ as, ∀ s t, write a s ≠ close :: t) (hbs : ∀ b ∈ bs, ∀ s t, write b s ≠ close :: t)
    (h : Json.separated [',', ' '] write as (close :: s) =
      Json.separated [',', ' '] write bs (close :: t)) : as = bs ∧ s = t := by
  cases as with
  | nil =>
    cases bs with
    | nil => exact ⟨rfl, (List.cons.inj h).2⟩
    | cons b bs => exact absurd h.symm (hbs b List.mem_cons_self _ _)
  | cons a as =>
    cases bs with
    | nil => exact absurd h (has a List.mem_cons_self _ _)
    | cons b bs =>
      obtain ⟨rfl, hrest⟩ := hitem a List.mem_cons_self b List.mem_cons_self _ _
        (startsIn_following hchars) (startsIn_following hchars) h
      obtain ⟨rfl, rfl⟩ := following_inj hclose hchars (fun a ha b hb =>
        hitem a (List.mem_cons_of_mem _ ha) b (List.mem_cons_of_mem _ hb)) hrest
      exact ⟨rfl, rfl⟩

end Separated

section Optional

variable {α : Type}

/-- After its mark if there is anything to write. -/
def optionally (mark : Char) (write : α → List Char → List Char) (o : Option α)
    (rest : List Char) : List Char :=
  match o with
  | some a => mark :: write a rest
  | none => rest

variable {mark : Char} {write : α → List Char → List Char} {chars : List Char} {o p : Option α}
variable {s t : List Char}

theorem startsIn_optionally (hs : StartsIn chars s) :
    StartsIn (mark :: chars) (optionally mark write o s) := by
  cases o with
  | none => exact hs.mono (List.subset_cons_self _ _)
  | some a => exact .cons List.mem_cons_self

theorem optionally_inj (hmark : mark ∉ chars) (hs : StartsIn chars s) (ht : StartsIn chars t)
    (hwrite : ∀ a ∈ o, ∀ b ∈ p, ToldApart chars write a b)
    (h : optionally mark write o s = optionally mark write p t) : o = p ∧ s = t := by
  cases o with
  | none =>
    cases p with
    | none => exact ⟨rfl, h⟩
    | some b => exact absurd h (hs.ne_cons hmark)
  | some a =>
    cases p with
    | none => exact absurd h.symm (ht.ne_cons hmark)
    | some b =>
      obtain ⟨rfl, hrest⟩ := hwrite a rfl b rfl s t hs ht (List.cons.inj h).2
      exact ⟨rfl, hrest⟩

end Optional

theorem toldApart_names {name other : String} {chars : List Char}
    (hchars : chars.all fun c => !c.isAlphanum) (hname : IsPlainName name)
    (hother : IsPlainName other) :
    ToldApart chars (fun name rest => name.toList ++ rest) name other :=
  fun _ _ hs ht h => name_inj hname hother hs ht hchars h

/-- The text of a value shows which value it is and where it ends, if a comma, a parenthesis or
nothing follows. Nothing is said of floats. -/
def SelfDelimiting (display : Value → String) : Prop :=
  ∀ v w : Value, (∀ p ∈ v.parts, p.Sound ∧ ¬p.isFloat) → (∀ p ∈ w.parts, p.Sound ∧ ¬p.isFloat) →
    ToldApart [',', ')'] (fun v rest => (display v).toList ++ rest) v w

/-- Compact JSON does: a value is read from the front of a text. -/
theorem selfDelimiting_toText : SelfDelimiting Value.toText := by
  intro v w hv hw s t hs ht h
  have hend {rest : List Char} (h : StartsIn [',', ')'] rest) : Json.EndsNumber rest := by
    intro c hc
    have hmark : c = ',' ∨ c = ')' := by simpa using h c hc
    rcases hmark with rfl | rfl <;> decide
  have hwrite (v : Value) (rest : List Char) :
      v.toText.toList ++ rest = v.write Json.escape rest := by
    rw [Value.toText, String.toList_ofList, ← Value.write_append, List.nil_append]
  dsimp only at h
  rw [hwrite, hwrite] at h
  exact Value.write_inj Json.valid_escape (fun p hp => (hv p hp).1) (fun p hp => (hv p hp).2)
    (fun p hp => (hw p hp).1) (fun p hp => (hw p hp).2) (hend hs) (hend ht) h

namespace Filter

/-- Names need no quotes, and values hold no floats. -/
structure Plain (f : Filter) : Prop where
  type : ∀ type ∈ f.type, IsPlainName type
  names : ∀ ps ∈ f.properties, ∀ e ∈ ps.entries, IsPlainName e.1
  sound : ∀ ps ∈ f.properties, ∀ e ∈ ps.entries, ∀ v ∈ e.2.parts, v.Sound
  noFloats : ∀ ps ∈ f.properties, ∀ e ∈ ps.entries, ∀ v ∈ e.2.parts, ¬v.isFloat
  capture : ∀ name ∈ f.capture, IsPlainName name

instance (f : Filter) : Decidable f.Plain :=
  decidable_of_iff ((∀ type ∈ f.type, IsPlainName type) ∧
      (∀ ps ∈ f.properties, ∀ e ∈ ps.entries, IsPlainName e.1) ∧
      (∀ ps ∈ f.properties, ∀ e ∈ ps.entries, ∀ v ∈ e.2.parts, v.Sound) ∧
      (∀ ps ∈ f.properties, ∀ e ∈ ps.entries, ∀ v ∈ e.2.parts, ¬v.isFloat) ∧
      ∀ name ∈ f.capture, IsPlainName name)
    ⟨fun ⟨htype, hnames, hsound, hfloats, hcapture⟩ => ⟨htype, hnames, hsound, hfloats, hcapture⟩,
      fun h => ⟨h.type, h.names, h.sound, h.noFloats, h.capture⟩⟩

theorem Plain.value {f : Filter} (h : f.Plain) {ps : Properties} (hps : ps ∈ f.properties)
    {e : String × Value} (he : e ∈ ps.entries) : ∀ p ∈ e.2.parts, p.Sound ∧ ¬p.isFloat :=
  fun p hp => ⟨h.sound ps hps e he p hp, h.noFloats ps hps e he p hp⟩

section Parts

variable (display : Value → String)

def writeEntries (ps : Properties) (rest : List Char) : List Char :=
  Json.separated [',', ' '] (writeEntry display) ps.entries (')' :: rest)

def writeType (type : Option String) (rest : List Char) : List Char :=
  match type with
  | some type => type.toList ++ rest
  | none => '_' :: rest

/-- What follows the type. -/
def writeAfterType (f : Filter) (rest : List Char) : List Char :=
  optionally '(' (writeEntries display) f.properties
    (optionally '@' (fun name rest => name.toList ++ rest) f.capture rest)

end Parts

/-- What may follow a filter. -/
def ends : List Char := ['\x7b', ',', '\x7d', ']']

variable {f g : Filter} {s t rest : List Char} {display : Value → String}

theorem writeProperties_eq (entries : List (String × Value)) (rest : List Char) :
    writeProperties display entries rest =
      Json.separated [',', ' '] (writeEntry display) entries rest :=
  Json.eq_separated (fun _ => rfl) (fun _ _ => rfl) (fun _ _ _ _ => rfl) entries rest

theorem write_eq (f : Filter) (rest : List Char) : f.write display rest =
    if f.direct then '>' :: writeType f.type (f.writeAfterType display rest)
    else writeType f.type (f.writeAfterType display rest) := by
  obtain ⟨type, properties, direct, capture⟩ := f
  simp only [write, writeProperties_eq]
  cases type <;> cases properties <;> cases capture <;> rfl

theorem toldApart_properties (hdisplay : SelfDelimiting display) (hf : f.Plain) (hg : g.Plain) :
    ∀ ps ∈ f.properties, ∀ qs ∈ g.properties,
      ToldApart ('@' :: ends) (writeEntries display) ps qs := by
  intro ps hps qs hqs s t _ _ h
  have hentries : ∀ e ∈ ps.entries, ∀ e' ∈ qs.entries,
      ToldApart [',', ')'] (writeEntry display) e e' := by
    rintro ⟨name, v⟩ he ⟨name', v'⟩ he' s t hs ht h
    have hsign (rest : List Char) : StartsIn ['='] ('=' :: rest) := .cons List.mem_cons_self
    obtain ⟨rfl, hvalues⟩ := name_inj (hf.names ps hps _ he) (hg.names qs hqs _ he') (hsign _)
      (hsign _) (by decide) h
    obtain ⟨rfl, hrest⟩ := hdisplay v v' (hf.value hps he) (hg.value hqs he') s t hs ht
      (List.cons.inj hvalues).2
    exact ⟨rfl, hrest⟩
  have hopens {e : String × Value} (hname : IsPlainName e.1) (s t : List Char) :
      writeEntry display e s ≠ ')' :: t := name_ne_cons hname rfl
  obtain ⟨hsame, hrest⟩ := separated_inj (by decide) (List.Subset.refl _) hentries
    (fun e he => hopens (hf.names ps hps e he)) (fun e he => hopens (hg.names qs hqs e he)) h
  exact ⟨Properties.ext_entries hsame, hrest⟩

theorem writeAfterType_inj (hdisplay : SelfDelimiting display) (hf : f.Plain) (hg : g.Plain)
    (hs : StartsIn ends s) (ht : StartsIn ends t)
    (h : f.writeAfterType display s = g.writeAfterType display t) :
    f.properties = g.properties ∧ f.capture = g.capture ∧ s = t := by
  obtain ⟨hproperties, hrest⟩ := optionally_inj (by decide) (startsIn_optionally hs)
    (startsIn_optionally ht) (toldApart_properties hdisplay hf hg) h
  obtain ⟨hcapture, hrest⟩ := optionally_inj (by decide) hs ht
    (fun name hname other hother =>
      toldApart_names (by decide) (hf.capture name hname) (hg.capture other hother)) hrest
  exact ⟨hproperties, hcapture, hrest⟩

theorem startsIn_writeAfterType (hs : StartsIn ends s) :
    StartsIn ('(' :: '@' :: ends) (f.writeAfterType display s) :=
  startsIn_optionally (startsIn_optionally hs)

theorem writeType_ne_cons (hf : f.Plain) {c : Char} (hwild : c ≠ '_') (hc : c.isAlphanum = false) :
    writeType f.type s ≠ c :: t := by
  cases htype : f.type with
  | none => exact fun h => hwild (List.cons.inj h).1.symm
  | some type => exact name_ne_cons (hf.type type htype) hc

theorem writeType_inj (hf : f.Plain) (hg : g.Plain) (hs : StartsIn ('(' :: '@' :: ends) s)
    (ht : StartsIn ('(' :: '@' :: ends) t) (h : writeType f.type s = writeType g.type t) :
    f.type = g.type ∧ s = t := by
  cases hftype : f.type with
  | none =>
    cases hgtype : g.type with
    | none =>
      rw [hftype, hgtype] at h
      exact ⟨rfl, (List.cons.inj h).2⟩
    | some other =>
      rw [hftype, hgtype] at h
      exact absurd h.symm (name_ne_cons (hg.type other hgtype) rfl)
  | some type =>
    cases hgtype : g.type with
    | none =>
      rw [hftype, hgtype] at h
      exact absurd h (name_ne_cons (hf.type type hftype) rfl)
    | some other =>
      rw [hftype, hgtype] at h
      obtain ⟨rfl, hrest⟩ := name_inj (hf.type type hftype) (hg.type other hgtype) hs ht
        (by decide) h
      exact ⟨rfl, hrest⟩

theorem write_inj (hdisplay : SelfDelimiting display) (hf : f.Plain) (hg : g.Plain)
    (hs : StartsIn ends s) (ht : StartsIn ends t) (h : f.write display s = g.write display t) :
    f = g ∧ s = t := by
  have hafter (h : writeType f.type (f.writeAfterType display s) =
        writeType g.type (g.writeAfterType display t)) :
      f.type = g.type ∧ f.properties = g.properties ∧ f.capture = g.capture ∧ s = t := by
    obtain ⟨htype, hrest⟩ := writeType_inj hf hg (startsIn_writeAfterType hs)
      (startsIn_writeAfterType ht) h
    exact ⟨htype, writeAfterType_inj hdisplay hf hg hs ht hrest⟩
  rw [write_eq, write_eq] at h
  obtain ⟨type, properties, direct, capture⟩ := f
  obtain ⟨type', properties', direct', capture'⟩ := g
  cases direct with
  | true =>
    cases direct' with
    | true =>
      obtain ⟨rfl, rfl, rfl, hrest⟩ := hafter (List.cons.inj h).2
      exact ⟨rfl, hrest⟩
    | false => exact absurd h.symm (writeType_ne_cons hg (by decide) rfl)
  | false =>
    cases direct' with
    | true => exact absurd h (writeType_ne_cons hf (by decide) rfl)
    | false =>
      obtain ⟨rfl, rfl, rfl, hrest⟩ := hafter h
      exact ⟨rfl, hrest⟩

end Filter

namespace Mode

theorem isPlainName_name (m : Mode) : IsPlainName m.name := by
  cases m <;> decide

theorem name_injective {m n : Mode} (h : m.name = n.name) : m = n := by
  have hname := ofName?_name m
  rw [h, ofName?_name] at hname
  exact (Option.some.inj hname).symm

end Mode

namespace Query

mutual

/-- The filters of all single queries in a query. -/
def filters : Query → List Filter
  | single f nested => f :: nested.filters
  | container _ children => filtersAll children

def filtersAll : List Query → List Filter
  | [] => []
  | q :: qs => q.filters ++ filtersAll qs

end

/-- What may follow a query. -/
def ends : List Char := [',', '\x7d', ']']

variable {q r nested : Query} {f : Filter} {mode : Mode} {children : List Query} {s t : List Char}
variable {display : Value → String}

theorem filtersAll_eq_flatMap (qs : List Query) : filtersAll qs = qs.flatMap filters := by
  induction qs with
  | nil => rfl
  | cons q qs ih => rw [filtersAll, ih, List.flatMap_cons]

theorem filters_subset_container (h : q ∈ children) :
    q.filters ⊆ (container mode children).filters := by
  intro f hf
  rw [filters, filtersAll_eq_flatMap]
  exact List.mem_flatMap.mpr ⟨q, h, hf⟩

theorem eq_empty_of_isTrivial (h : q.isTrivial) : q = empty := by
  rcases q with ⟨f, nested⟩ | ⟨mode, children⟩
  · cases h
  · cases mode <;> cases children <;> first | rfl | cases h

theorem writeAll_eq (qs : List Query) (rest : List Char) :
    writeAll display qs rest = Json.separated [',', ' '] (write display) qs rest :=
  Json.eq_separated (fun _ => rfl) (fun _ _ => rfl) (fun _ _ _ _ => rfl) qs rest

/-- The nested query as it is written, if it is. -/
def shown (q : Query) : Option Query := if q.isTrivial then none else some q

theorem write_single : (single f nested).write display s = f.write display
    (optionally '\x7b' (fun q rest => q.write display ('\x7d' :: rest)) nested.shown s) := by
  rw [write, shown]
  cases nested.isTrivial <;> rfl

theorem write_container : (container mode children).write display s =
    mode.name.toList ++ '[' :: Json.separated [',', ' '] (write display) children (']' :: s) := by
  rw [write, writeAll_eq]

theorem eq_of_mem_shown (h : r ∈ q.shown) : r = q := by
  rw [shown] at h
  split at h
  · cases h
  · exact (Option.some.inj h).symm

theorem shown_inj (h : q.shown = r.shown) : q = r := by
  rw [shown, shown] at h
  split at h
  next hq =>
    split at h
    next hr => rw [eq_empty_of_isTrivial hq, eq_empty_of_isTrivial hr]
    next => cases h
  next =>
    split at h
    next => cases h
    next => exact Option.some.inj h

theorem write_ne_cons (hq : ∀ f ∈ q.filters, f.Plain) : q.write display s ≠ ']' :: t := by
  cases q with
  | single f nested =>
    rw [write_single, Filter.write_eq]
    split
    · exact fun h => absurd (List.cons.inj h).1 (by decide)
    · exact Filter.writeType_ne_cons (hq f List.mem_cons_self) (by decide) rfl
  | container mode children =>
    rw [write_container]
    exact name_ne_cons mode.isPlainName_name rfl

/-- The type of a single query may be the name of a mode, but no list follows it. -/
theorem write_single_ne_container (hf : f.Plain) (hs : StartsIn ends s) :
    (single f nested).write display s ≠ (container mode children).write display t := by
  have hname {c : Char} (hc : c.isAlphanum = false) (s : List Char) :
      c :: s ≠ mode.name.toList ++
        '[' :: Json.separated [',', ' '] (write display) children (']' :: t) :=
    (name_ne_cons mode.isPlainName_name hc).symm
  have hafter : StartsIn ('(' :: '@' :: Filter.ends) (f.writeAfterType display
      (optionally '\x7b' (fun q rest => q.write display ('\x7d' :: rest)) nested.shown s)) :=
    Filter.startsIn_writeAfterType (startsIn_optionally hs)
  rw [write_single, write_container, Filter.write_eq]
  split
  · exact hname rfl _
  · cases htype : f.type with
    | none => exact hname rfl _
    | some type =>
      intro h
      have hbracket (rest : List Char) :
          StartsIn ('[' :: '(' :: '@' :: Filter.ends) ('[' :: rest) := .cons List.mem_cons_self
      obtain ⟨_, hrest⟩ := name_inj (hf.type type htype) mode.isPlainName_name
        (hafter.mono (List.subset_cons_self _ _)) (hbracket _) (by decide) h
      exact absurd hrest (hafter.ne_cons (by decide))

theorem write_inj (hdisplay : SelfDelimiting display) (hq : ∀ f ∈ q.filters, f.Plain)
    (hr : ∀ f ∈ r.filters, f.Plain) (hs : StartsIn ends s) (ht : StartsIn ends t)
    (h : q.write display s = r.write display t) : q = r ∧ s = t := by
  induction q generalizing r s t with
  | single f nested ih =>
    have hf : f.Plain := hq f List.mem_cons_self
    cases r with
    | container mode children => exact absurd h (write_single_ne_container hf hs)
    | single g nested' =>
      have hg : g.Plain := hr g List.mem_cons_self
      rw [write_single, write_single] at h
      obtain ⟨rfl, hrest⟩ := Filter.write_inj hdisplay hf hg (startsIn_optionally hs)
        (startsIn_optionally ht) h
      have hnested : ∀ a ∈ nested.shown, ∀ b ∈ nested'.shown,
          ToldApart ends (fun q rest => write display q ('\x7d' :: rest)) a b := by
        intro a ha b hb s t _ _ hinner
        obtain rfl := eq_of_mem_shown ha
        obtain rfl := eq_of_mem_shown hb
        have hbrace (rest : List Char) : StartsIn ends ('\x7d' :: rest) := .cons (by decide)
        obtain ⟨rfl, hclosed⟩ := ih (fun f hf => hq f (List.mem_cons_of_mem _ hf))
          (fun f hf => hr f (List.mem_cons_of_mem _ hf)) (hbrace _) (hbrace _) hinner
        exact ⟨rfl, (List.cons.inj hclosed).2⟩
      obtain ⟨hshown, hrest⟩ := optionally_inj (by decide) hs ht hnested hrest
      rw [shown_inj hshown]
      exact ⟨rfl, hrest⟩
  | container mode children ih =>
    cases r with
    | single g nested =>
      exact absurd h.symm (write_single_ne_container (hr g List.mem_cons_self) ht)
    | container mode' children' =>
      have hbracket (rest : List Char) : StartsIn ['['] ('[' :: rest) := .cons List.mem_cons_self
      rw [write_container, write_container] at h
      obtain ⟨hmode, hrest⟩ := name_inj mode.isPlainName_name mode'.isPlainName_name (hbracket _)
        (hbracket _) (by decide) h
      obtain rfl := Mode.name_injective hmode
      have hplain : ∀ q ∈ children, ∀ f ∈ q.filters, f.Plain := fun q hmem f hf =>
        hq f (filters_subset_container hmem hf)
      have hplain' : ∀ r ∈ children', ∀ f ∈ r.filters, f.Plain := fun r hmem f hf =>
        hr f (filters_subset_container hmem hf)
      obtain ⟨rfl, hend⟩ := separated_inj (by decide) (by decide)
        (fun q hmem r hmem' s t hs ht h => ih q hmem (hplain q hmem) (hplain' r hmem') hs ht h)
        (fun q hmem _ _ => write_ne_cons (hplain q hmem))
        (fun r hmem _ _ => write_ne_cons (hplain' r hmem)) (List.cons.inj hrest).2
      exact ⟨rfl, hend⟩

end Query

namespace FlaggedQuery

theorem eq_of_queries_eq {qs rs : List FlaggedQuery}
    (hpart : ∀ q ∈ qs, ∀ r ∈ rs, q.query = r.query → q = r) (h : queries qs = queries rs) :
    qs = rs := by
  induction qs generalizing rs with
  | nil =>
    cases rs with
    | nil => rfl
    | cons r rs => cases h
  | cons q qs ih =>
    cases rs with
    | nil => cases h
    | cons r rs =>
      obtain ⟨hfirst, hrest⟩ := List.cons.inj h
      rw [hpart q List.mem_cons_self r List.mem_cons_self hfirst, ih (fun q hq r hr =>
        hpart q (List.mem_cons_of_mem _ hq) r (List.mem_cons_of_mem _ hr)) hrest]

theorem Constructed.eq_of_query_eq {q r : FlaggedQuery} (hq : q.Constructed) (hr : r.Constructed)
    (h : q.query = r.query) : q = r := by
  have hflags {q r : FlaggedQuery} (hq : q.Constructed) (hr : r.Constructed)
      (h : q.query = r.query) : q.captures = r.captures := by
    rw [hq.captures_eq, hr.captures_eq, h]
  induction q generalizing r with
  | single f nested captures ih =>
    cases r with
    | container mode children captures' => cases h
    | single g nested' captures' =>
      obtain rfl : captures = captures' := hflags hq hr h
      obtain ⟨rfl, hnested⟩ := Query.single.inj h
      rw [ih hq.nested hr.nested hnested]
  | container mode children captures ih =>
    cases r with
    | single g nested' captures' => cases h
    | container mode' children' captures' =>
      obtain rfl : captures = captures' := hflags hq hr h
      obtain ⟨rfl, hchildren⟩ := Query.container.inj h
      rw [eq_of_queries_eq (fun q hmem r hmem' =>
        ih q hmem (hq.parts q hmem) (hr.parts r hmem')) hchildren]

/-- Constructed queries with the same text are the same in every part, flags included, if type
names, property names and captures are plain and no value holds a float, however values are
displayed as long as they are self-delimiting. -/
theorem eq_of_toText_eq (display : Value → String) (hdisplay : SelfDelimiting display)
    {q r : FlaggedQuery} (hq : q.Constructed) (hr : r.Constructed)
    (hplain : ∀ f ∈ q.query.filters, f.Plain) (hplain' : ∀ f ∈ r.query.filters, f.Plain)
    (h : q.query.toTextWith display = r.query.toTextWith display) : q = r := by
  have htext : q.query.write display [] = r.query.write display [] := String.ofList_injective h
  have hend : StartsIn Query.ends [] := nofun
  exact hq.eq_of_query_eq hr (Query.write_inj hdisplay hplain hplain' hend hend htext).1

/-- The type of the outer query is the name of a mode, and its property holds every mark there is;
the calls come in different orders, and an empty nested query is given on one side only. -/
theorem eq_of_toText_eq_reordered_calls :
    let leaf : FlaggedQuery := SingleBuilder.build (.ofType none)
    let value : Value := .array [.text ", b@c\x7b\"]\x7d)", .integer (-1), .object [("k", .null)]]
    let calls : List SingleBuilder.Call :=
      [.property "a1" value, .direct, .capture "X", .children .empty]
    let calls' : List SingleBuilder.Call :=
      [.capture "Y", .direct, .property "a1" value, .capture "X"]
    let single (calls : List SingleBuilder.Call) : FlaggedQuery :=
      (calls.foldl SingleBuilder.call (.ofType (some "exact"))).build
    let q : FlaggedQuery := .ofMode .exact [leaf, .ofMode .optional [single calls]]
    let r : FlaggedQuery := .ofMode .exact [leaf, .ofMode .optional [single calls']]
    SelfDelimiting Value.toText ∧ q.Constructed ∧ r.Constructed ∧
      (∀ f ∈ q.query.filters, f.Plain) ∧ (∀ f ∈ r.query.filters, f.Plain) ∧
      q.query.toTextWith Value.toText = r.query.toTextWith Value.toText ∧ q = r := by
  intro leaf value calls calls' single q r
  have hleaf : leaf.Constructed := .single none [] (by simp)
  have hempty : FlaggedQuery.empty.Constructed := .container .ordered [] (by simp)
  have hsingle : (single calls).Constructed :=
    .single (some "exact") calls (by simp [calls, hempty])
  have hsingle' : (single calls').Constructed := .single (some "exact") calls' (by simp [calls'])
  have hoptional : (FlaggedQuery.ofMode .optional [single calls]).Constructed :=
    .container .optional _ (by simpa using hsingle)
  have hoptional' : (FlaggedQuery.ofMode .optional [single calls']).Constructed :=
    .container .optional _ (by simpa using hsingle')
  have hq : q.Constructed := .container .exact _ (by simpa using ⟨hleaf, hoptional⟩)
  have hr : r.Constructed := .container .exact _ (by simpa using ⟨hleaf, hoptional'⟩)
  have hplain : ∀ f ∈ q.query.filters, f.Plain := by decide +kernel
  have hplain' : ∀ f ∈ r.query.filters, f.Plain := by decide +kernel
  have htext : q.query.toTextWith Value.toText = r.query.toTextWith Value.toText := rfl
  exact ⟨selfDelimiting_toText, hq, hr, hplain, hplain', htext,
    eq_of_toText_eq Value.toText selfDelimiting_toText hq hr hplain hplain' htext⟩

end FlaggedQuery

end TreeQuery
