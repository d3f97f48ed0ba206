import Mathlib.Data.List.Chain
import TreeQuery.Proofs.Slots

/-! Containers of single queries with a name for each. They enumerate the tuples of nodes that fit:
all of them, each once, in the lexicographic order of the ids. -/

namespace TreeQuery

section Lists

variable {α β : Type}

theorem forall₂_concat_iff {R : α → β → Prop} {l : List α} {a : α} {m : List β} :
    List.Forall₂ R (l ++ [a]) m ↔ ∃ k b, m = k ++ [b] ∧ List.Forall₂ R l k ∧ R a b := by
  induction l generalizing m with
  | nil =>
    rw [List.nil_append, List.forall₂_cons_left_iff]
    simp [and_comm]
  | cons x l ih =>
    rw [List.cons_append, List.forall₂_cons_left_iff]
    simp only [ih, List.forall₂_cons_left_iff]
    constructor
    · rintro ⟨y, _, hxy, ⟨k, b, rfl, hlk, hab⟩, rfl⟩
      exact ⟨y :: k, b, rfl, ⟨y, k, hxy, hlk, rfl⟩, hab⟩
    · rintro ⟨_, b, rfl, ⟨y, k, hxy, hlk, rfl⟩, hab⟩
      exact ⟨y, k ++ [b], hxy, ⟨k, b, rfl, hlk, hab⟩, rfl⟩

/-- Of lists of one length the first difference decides, whatever is appended. -/
theorem append_lt_append {l m : List Nat} (h : l < m) (hlength : l.length = m.length)
    (x y : List Nat) : l ++ x < m ++ y := by
  induction l generalizing m with
  | nil =>
    obtain rfl : m = [] := List.eq_nil_of_length_eq_zero hlength.symm
    exact absurd h (List.lt_irrefl [])
  | cons a l ih =>
    cases m with
    | nil => simp at hlength
    | cons b m =>
      rw [List.cons_lt_cons_iff] at h
      rw [List.cons_append, List.cons_append, List.cons_lt_cons_iff]
      exact h.imp_right fun h => ⟨h.1, ih h.2 (by simpa using hlength)⟩

end Lists

namespace Bindings

/-- The nodes bound to the names, in their order. -/
def tuple (b : Bindings) (names : List String) : List Nat := names.filterMap b.get?

theorem ofList_concat (entries : List (String × Nat)) (name : String) (node : Nat) :
    ofList (entries ++ [(name, node)]) = (ofList entries).insert name node := by
  rw [ofList, List.foldl_concat, ofList]

theorem get?_ofList_eq_none {entries : List (String × Nat)} {name : String}
    (h : name ∉ entries.map Prod.fst) : (ofList entries).get? name = none := by
  induction entries using List.reverseRecOn with
  | nil => rfl
  | append_singleton front e ih =>
    rw [List.map_append, List.mem_append, not_or] at h
    rw [ofList_concat, get?_insert, if_neg (by simpa using h.2), ih h.1]

theorem tuple_insert_concat {names : List String} {name : String} (h : name ∉ names)
    (b : Bindings) (node : Nat) :
    (b.insert name node).tuple (names ++ [name]) = b.tuple names ++ [node] := by
  have hfront : names.filterMap (b.insert name node).get? = names.filterMap b.get? := by
    refine List.filterMap_congr fun other hother => ?_
    have hne : other ≠ name := fun he => h (he ▸ hother)
    rw [get?_insert, if_neg hne]
  rw [tuple, List.filterMap_append, hfront]
  simp [tuple, get?_insert]

end Bindings

namespace Scene

variable (scene : Scene)

/-- What a child of a container that starts at `start` does with a state. -/
def sibling (mode : Mode) (start : State) (find : Find) : Find :=
  match mode with
  | .unordered => scene.anywhere start find
  | _ => find

/-- From where that child searches. -/
def origin (mode : Mode) (start s : State) : State :=
  match mode with
  | .unordered => s.startAt start
  | _ => s

variable {scene} {t : Tree Nat} {start s r : State} {mode : Mode} {slot : Slot} {id : Nat}

theorem results_sequence (hmode : mode = .ordered ∨ mode = .unordered) (qs : List Query) :
    scene.results (.container mode qs) start =
      chain List.eraseDups (qs.map fun q => scene.sibling mode start (scene.results q)) start := by
  rcases hmode with rfl | rfl
  · exact results_ordered scene qs start
  · exact results_unordered scene qs start

/-- A state in which a container that starts at `start` has bound just the names. -/
structure Listed (scene : Scene) (mode : Mode) (start : State) (names : List String)
    (r : State) : Prop where
  advances : start.Advances scene.tree r
  bindings_eq : r.bindings = .ofList (names.zip (r.bindings.tuple names))
  length_eq : (r.bindings.tuple names).length = names.length
  reached : ∀ id ∈ r.bindings.tuple names, start.Reaches scene.tree id
  cursor_eq : mode = .ordered → r.cursor =
    ((r.bindings.tuple names).getLast?).elim start.cursor (scene.tree.neighborWithin? · start.root)

theorem Listed.nil (hscene : scene.tree = .ofTree t) (hs : start.WellScoped (.ofTree t))
    (hempty : start.bindings = .empty) : scene.Listed mode start [] start where
  advances := hscene ▸ hs.advances
  bindings_eq := hempty
  length_eq := rfl
  reached := by simp [Bindings.tuple]
  cursor_eq := fun _ => rfl

theorem Listed.get?_eq_none {names : List String} {name : String}
    (h : scene.Listed mode start names s) (hname : name ∉ names) :
    s.bindings.get? name = none := by
  rw [h.bindings_eq]
  refine Bindings.get?_ofList_eq_none fun hmem => hname ?_
  obtain ⟨e, he, rfl⟩ := List.mem_map.mp hmem
  exact (List.of_mem_zip he).1

theorem Listed.concat {names : List String} {name : String}
    (h : scene.Listed mode start names s) (hname : name ∉ names)
    (hid : start.Reaches scene.tree id) (hadvances : start.Advances scene.tree r)
    (hbindings : r.bindings = s.bindings.insert name id)
    (hcursor : mode = .ordered → r.cursor = scene.tree.neighborWithin? id start.root) :
    scene.Listed mode start (names ++ [name]) r := by
  have htuple : r.bindings.tuple (names ++ [name]) = s.bindings.tuple names ++ [id] := by
    rw [hbindings, Bindings.tuple_insert_concat hname]
  refine ⟨hadvances, ?_, ?_, ?_, ?_⟩
  · rw [htuple, List.zip_append h.length_eq.symm, List.zip_cons_cons, List.zip_nil_left,
      Bindings.ofList_concat, ← h.bindings_eq, hbindings]
  · rw [htuple, List.length_append, List.length_append, h.length_eq]
    rfl
  · rw [htuple]
    intro i hi
    rcases List.mem_append.mp hi with hi | hi
    · exact h.reached i hi
    · exact List.mem_singleton.mp hi ▸ hid
  · intro hordered
    rw [htuple, List.getLast?_concat, hcursor hordered]
    rfl

theorem exists_place {names : List String} (hmode : mode = .ordered ∨ mode = .unordered)
    (h : scene.Listed mode start names s) (hignores : scene.IgnoresBindings)
    (hname : slot.name ∉ names) :
    ∃ place : Nat → State,
      scene.sibling mode start (scene.results slot.query) s =
        (scene.fitting slot (origin mode start s)).map place ∧
      (∀ id, (place id).bindings = s.bindings.insert slot.name (scene.tree.node id)) ∧
      (mode = .ordered → ∀ id, (place id).cursor = scene.tree.neighborWithin? id start.root) := by
  have hnew := h.get?_eq_none hname
  rcases hmode with rfl | rfl
  · refine ⟨_, results_slot hignores hnew, fun _ => rfl, fun _ id => ?_⟩
    rw [← h.advances.root_eq]
    rfl
  · let moved (id : Nat) : State := ((s.startAt start).past scene.tree id).withBindings
      (s.bindings.insert slot.name (scene.tree.node id))
    have hresults : scene.results slot.query (s.startAt start) =
        (scene.fitting slot (s.startAt start)).map moved := results_slot hignores hnew
    refine ⟨fun id => (moved id).notBefore scene.tree s, ?_,
      fun id => State.bindings_notBefore scene.tree (moved id) s, by simp⟩
    rw [sibling, anywhere, hresults, List.map_map]
    rfl

/-- The states found from `s` for one more slot: one for each node that fits and may come next. -/
structure Continues (scene : Scene) (t : Tree Nat) (mode : Mode) (start : State)
    (names : List String) (slot : Slot) (s : State) (found : List State) : Prop where
  listed : ∀ r ∈ found, scene.Listed mode start (names ++ [slot.name]) r ∧
    ∃ id, r.bindings.tuple (names ++ [slot.name]) = s.bindings.tuple names ++ [id]
  increasing : found.Pairwise fun r r' =>
    r.bindings.tuple (names ++ [slot.name]) < r'.bindings.tuple (names ++ [slot.name])
  mem_iff : ∀ id,
    (∃ r ∈ found, r.bindings.tuple (names ++ [slot.name]) = s.bindings.tuple names ++ [id]) ↔
      scene.Fits start slot id ∧
        (mode = .ordered → ∀ last ∈ (s.bindings.tuple names).getLast?, t.stop last ≤ id)

section Sibling

variable {names : List String} (hscene : scene.tree = .ofTree t)
  (hmode : mode = .ordered ∨ mode = .unordered) (h : scene.Listed mode start names s)

include hscene hmode h

/-- In order, only what begins after the last node has ended is reached. -/
theorem origin_reaches_iff :
    (origin mode start s).Reaches (.ofTree t) id ↔ start.Reaches (.ofTree t) id ∧
      (mode = .ordered → ∀ last ∈ (s.bindings.tuple names).getLast?, t.stop last ≤ id) := by
  have hadvances := hscene ▸ h.advances
  rcases hmode with rfl | rfl
  · have hcursor := h.cursor_eq rfl
    rw [hscene] at hcursor
    simp only [origin, forall_const]
    cases hlast : (s.bindings.tuple names).getLast? with
    | none =>
      rw [hlast, Option.elim_none] at hcursor
      simp [State.Reaches, hcursor, hadvances.root_eq]
    | some last =>
      rw [hlast, Option.elim_some, LinkedTree.neighborWithin?_of_mem_ancestors
        (hscene ▸ h.reached last (List.mem_of_mem_getLast? hlast)).1] at hcursor
      constructor
      · intro hid
        refine ⟨hadvances.reaches hid, fun _ hl => ?_⟩
        obtain rfl := Option.some.inj hl
        obtain ⟨_, c, hc, hle⟩ := hid
        rw [hcursor] at hc
        split at hc
        · exact Option.some.inj hc ▸ hle
        · simp at hc
      · rintro ⟨hid, hstop⟩
        have hle := hstop last rfl
        have hlt := (LinkedTree.mem_ancestors_iff_lt_stop.mp hid.1).2
        refine ⟨hadvances.root_eq ▸ hid.1, t.stop last, ?_, hle⟩
        rw [hcursor, if_pos (Nat.lt_of_le_of_lt hle hlt)]
  · simp [origin, State.Reaches, State.startAt, hadvances.root_eq]

variable (hs : start.WellScoped (.ofTree t))

include hs

theorem origin_wellScoped : (origin mode start s).WellScoped (.ofTree t) := by
  have hadvances := hscene ▸ h.advances
  rcases hmode with rfl | rfl
  · exact hadvances.wellScoped
  · exact (hadvances.startAt hs).wellScoped

theorem advances_of_mem_sibling {q : Query}
    (hr : r ∈ scene.sibling mode start (scene.results q) s) :
    start.Advances (.ofTree t) r := by
  have hadvances := hscene ▸ h.advances
  rcases hmode with rfl | rfl
  · exact hadvances.trans (advances_of_mem_results hscene q hadvances.wellScoped hr)
  · exact advances_of_mem_anywhere_results hscene q hs hadvances hr

theorem mem_fitting_origin_iff :
    id ∈ scene.fitting slot (origin mode start s) ↔ scene.Fits start slot id ∧
      (mode = .ordered → ∀ last ∈ (s.bindings.tuple names).getLast?, t.stop last ≤ id) := by
  have hroot : (origin mode start s).root = start.root := by
    rcases hmode with rfl | rfl <;> exact h.advances.root_eq
  rw [mem_fitting_iff hscene (origin_wellScoped hscene hmode h hs)]
  constructor
  · rintro ⟨hreached, hdirect, haccepted, hnested⟩
    obtain ⟨hstart, hstop⟩ :=
      (origin_reaches_iff hscene hmode h).mp (hscene ▸ hreached)
    exact ⟨⟨hscene ▸ hstart, hroot ▸ hdirect, haccepted, hnested⟩, hstop⟩
  · rintro ⟨⟨hreached, hdirect, haccepted, hnested⟩, hstop⟩
    have horigin := (origin_reaches_iff hscene hmode h).mpr ⟨hscene ▸ hreached, hstop⟩
    exact ⟨hscene ▸ horigin, hroot ▸ hdirect, haccepted, hnested⟩

/-- One more slot goes on from a listed state with each node that fits and comes next. -/
theorem sibling_continues (hignores : scene.IgnoresBindings)
    (hnode : ∀ id, start.Reaches (.ofTree t) id → scene.tree.node id = id)
    (hname : slot.name ∉ names) :
    scene.Continues t mode start names slot s
      (scene.sibling mode start (scene.results slot.query) s) := by
  obtain ⟨place, hplaced, hbindings, hcursor⟩ := exists_place hmode h hignores hname
  have hmem (id : Nat) : id ∈ scene.fitting slot (origin mode start s) ↔ _ :=
    mem_fitting_origin_iff hscene hmode h hs
  have hbound : ∀ id ∈ scene.fitting slot (origin mode start s),
      (place id).bindings = s.bindings.insert slot.name id := by
    intro id hid
    rw [hbindings, hnode id (hscene ▸ ((hmem id).mp hid).1.reached)]
  have htuple : ∀ id ∈ scene.fitting slot (origin mode start s),
      (place id).bindings.tuple (names ++ [slot.name]) = s.bindings.tuple names ++ [id] := by
    intro id hid
    rw [hbound id hid, Bindings.tuple_insert_concat hname]
  have hlisted : ∀ id ∈ scene.fitting slot (origin mode start s),
      scene.Listed mode start (names ++ [slot.name]) (place id) := by
    intro id hid
    have hfound : place id ∈ scene.sibling mode start (scene.results slot.query) s :=
      hplaced ▸ List.mem_map_of_mem hid
    have hadvances := advances_of_mem_sibling hscene hmode h hs hfound
    exact h.concat hname ((hmem id).mp hid).1.reached (hscene ▸ hadvances) (hbound id hid)
      fun hordered => hcursor hordered id
  rw [hplaced]
  refine ⟨List.forall_mem_map.mpr fun id hid => ⟨hlisted id hid, id, htuple id hid⟩, ?_,
    fun id => ?_⟩
  · rw [List.pairwise_map]
    refine (pairwise_fitting hscene (origin_wellScoped hscene hmode h hs)).imp_of_mem ?_
    intro a b ha hb hab
    rw [htuple a ha, htuple b hb]
    exact List.append_left_lt (List.cons_lt_cons_iff.mpr (.inl hab))
  · rw [← hmem id]
    constructor
    · rintro ⟨r, hr, he⟩
      obtain ⟨a, ha, rfl⟩ := List.mem_map.mp hr
      rw [htuple a ha, List.append_cancel_left_eq, List.cons.injEq] at he
      exact he.1 ▸ ha
    · intro hid
      exact ⟨place id, List.mem_map_of_mem hid, htuple id hid⟩

end Sibling

/-- The states found stand for the tuples that fit, each once, in their order. -/
structure Enumerates (scene : Scene) (t : Tree Nat) (mode : Mode) (start : State)
    (slots : List Slot) (found : List State) : Prop where
  listed : ∀ r ∈ found, scene.Listed mode start (slots.map Slot.name) r
  increasing : found.Pairwise fun r r' =>
    r.bindings.tuple (slots.map Slot.name) < r'.bindings.tuple (slots.map Slot.name)
  mem_iff : ∀ ids, (∃ r ∈ found, r.bindings.tuple (slots.map Slot.name) = ids) ↔
    List.Forall₂ (scene.Fits start) slots ids ∧
      (mode = .ordered → ids.IsChain fun a b => t.stop a ≤ b)

theorem Enumerates.nodup {slots : List Slot} {found : List State}
    (h : scene.Enumerates t mode start slots found) : found.Nodup := by
  refine h.increasing.imp ?_
  rintro r _ hlt rfl
  exact List.lt_irrefl _ hlt

theorem Enumerates.concat {slots : List Slot} {found : List State} {part : Find}
    (h : scene.Enumerates t mode start slots found)
    (hpart : ∀ s ∈ found,
      scene.Continues t mode start (slots.map Slot.name) slot s (part s)) :
    scene.Enumerates t mode start (slots ++ [slot]) (found.flatMap part) := by
  have hnames : (slots ++ [slot]).map Slot.name = slots.map Slot.name ++ [slot.name] := by
    rw [List.map_append, List.map_singleton]
  refine ⟨?_, ?_, fun ids => ?_⟩
  · rw [hnames]
    intro r hr
    obtain ⟨s, hs, hr⟩ := List.mem_flatMap.mp hr
    exact ((hpart s hs).listed r hr).1
  · rw [hnames]
    refine List.pairwise_flatMap.mpr ⟨fun s hs => (hpart s hs).increasing, ?_⟩
    refine h.increasing.imp_of_mem fun {s s'} hs hs' hlt r hr r' hr' => ?_
    obtain ⟨id, hid⟩ := ((hpart s hs).listed r hr).2
    obtain ⟨id', hid'⟩ := ((hpart s' hs').listed r' hr').2
    rw [hid, hid']
    refine append_lt_append hlt ?_ [id] [id']
    rw [(h.listed s hs).length_eq, (h.listed s' hs').length_eq]
  · rw [hnames, forall₂_concat_iff]
    constructor
    · rintro ⟨r, hr, rfl⟩
      obtain ⟨s, hs, hr⟩ := List.mem_flatMap.mp hr
      obtain ⟨id, hid⟩ := ((hpart s hs).listed r hr).2
      obtain ⟨hfits, hstop⟩ := ((hpart s hs).mem_iff id).mp ⟨r, hr, hid⟩
      obtain ⟨hfront, hchain⟩ := (h.mem_iff _).mp ⟨s, hs, rfl⟩
      refine ⟨⟨_, id, hid, hfront, hfits⟩, fun hordered => ?_⟩
      rw [hid, List.isChain_append]
      refine ⟨hchain hordered, .singleton id, fun a ha b hb => ?_⟩
      obtain rfl : id = b := by simpa using hb
      exact hstop hordered a ha
    · rintro ⟨⟨front, id, rfl, hfront, hfits⟩, hchain⟩
      have hparts (hordered : mode = .ordered) := List.isChain_append.mp (hchain hordered)
      obtain ⟨s, hs, rfl⟩ := (h.mem_iff front).mpr ⟨hfront, fun ho => (hparts ho).1⟩
      obtain ⟨r, hr, hid⟩ := ((hpart s hs).mem_iff id).mpr
        ⟨hfits, fun ho last hlast => (hparts ho).2.2 last hlast id rfl⟩
      exact ⟨r, List.mem_flatMap.mpr ⟨s, hs, hr⟩, hid⟩

theorem results_enumerates (hscene : scene.tree = .ofTree t) (hignores : scene.IgnoresBindings)
    (hnode : ∀ id, start.Reaches (.ofTree t) id → scene.tree.node id = id)
    (hmode : mode = .ordered ∨ mode = .unordered) (hs : start.WellScoped (.ofTree t))
    (hempty : start.bindings = .empty) {slots : List Slot}
    (hnames : (slots.map Slot.name).Nodup) :
    scene.Enumerates t mode start slots
      (scene.results (.container mode (slots.map Slot.query)) start) := by
  rw [results_sequence hmode, List.map_map]
  induction slots using List.reverseRecOn with
  | nil =>
    refine ⟨by simpa [chain] using Listed.nil hscene hs hempty, by simp [chain], fun ids => ?_⟩
    cases ids <;> simp [chain, Bindings.tuple]
  | append_singleton slots slot ih =>
    rw [List.map_append, List.map_singleton] at hnames ⊢
    rw [chain_concat]
    have hfront := ih (hnames.sublist (List.sublist_append_left _ _))
    have hname : slot.name ∉ slots.map Slot.name := fun hmem =>
      (List.nodup_append.mp hnames).2.2 _ hmem _ (List.mem_singleton_self _) rfl
    have hall := hfront.concat fun s hmem =>
      sibling_continues hscene hmode (hfront.listed s hmem) hs hignores hnode hname
    exact (eraseDups_eq_self hall.nodup).symm ▸ hall

end Scene

/-- Matching a subject of plain nodes against slots with a name for each: the matches bind the names
to the tuples of nodes that fit one by one, in order if the container is, each node of a tuple then
after the whole subtree of the one before. No match comes twice, and they come in the lexicographic
order of their tuples. -/
theorem Matcher.search_enumerates (config : MatchConfig) (traced : Bool) (n : Node) {mode : Mode}
    (hmode : mode = .ordered ∨ mode = .unordered) (slots : List Slot)
    (hnames : (slots.map Slot.name).Nodup) :
    let m : Matcher := { config, traced }
    let found := (m.search (.container mode (slots.map Slot.query)) (.ofNode n)).items
    ∃ tuples : List (List Nat),
      found = tuples.map (fun ids => .ofList ((slots.map Slot.name).zip ids)) ∧
      found.Nodup ∧ tuples.Pairwise (· < ·) ∧
      ∀ ids, ids ∈ tuples ↔ List.Forall₂ (fun slot id => slot.Matches m n id) slots ids ∧
        (mode = .ordered → ids.IsChain fun a b => n.places.stop a ≤ b) := by
  intro m found
  let scene := m.scene (.ofNode n) (.ofTree n.places)
  let start := State.initial (.ofTree n.places)
  have hnode : ∀ id, start.Reaches (.ofTree n.places) id → scene.tree.node id = id :=
    fun id hid => LinkedTree.node_places_of_mem_ancestors hid.1
  have hall : scene.Enumerates n.places mode start slots
      (scene.results (.container mode (slots.map Slot.query)) start) :=
    Scene.results_enumerates rfl (fun _ _ _ _ => rfl) hnode hmode State.initial_wellScoped rfl
      hnames
  have hfound : found =
      ((scene.results (.container mode (slots.map Slot.query)) start).map
        State.bindings).eraseDups :=
    m.items_search_ofNode _ n
  have hnodup : ((scene.results (.container mode (slots.map Slot.query)) start).map
      State.bindings).Nodup := by
    refine List.pairwise_map.mpr (hall.increasing.imp fun {r r'} hlt he => ?_)
    rw [he] at hlt
    exact List.lt_irrefl _ hlt
  rw [eraseDups_eq_self hnodup] at hfound
  refine ⟨found.map (·.tuple (slots.map Slot.name)), ?_, hfound ▸ hnodup, ?_, fun ids => ?_⟩
  · rw [hfound, List.map_map, List.map_map]
    exact List.map_congr_left fun r hr => (hall.listed r hr).bindings_eq
  · rw [hfound, List.map_map, List.pairwise_map]
    exact hall.increasing
  · have hfits : (fun slot id => slot.Matches m n id) = scene.Fits start :=
      funext fun slot => funext fun id => propext (slot.fits_iff config traced n id).symm
    rw [hfits, ← hall.mem_iff, hfound, List.map_map, List.mem_map]
    rfl

/-- A node with something below it, then a child of the root: of the two that come later and have
the type, the one further down is no child of the root. -/
theorem Matcher.search_enumerates_nested_and_direct :
    let n : Node := .addChildren (.ofType "root")
      [.addChildren (.ofType "a") [.ofType "b"], .ofType "a",
        .addChildren (.ofType "b") [.ofType "a"]]
    let outer : Slot :=
      { name := "X", type := some "a", nested := .leaf { type := some "b" }, captureFree := rfl }
    let child : Slot := { name := "Y", type := some "a", direct := true, captureFree := rfl }
    let slots := [outer, child]
    let m : Matcher := {}
    (slots.map Slot.name).Nodup ∧
      ∃ tuples : List (List Nat),
        (m.search (.container .ordered (slots.map Slot.query)) (.ofNode n)).items =
          tuples.map (fun ids => .ofList (["X", "Y"].zip ids)) ∧
        [1, 3] ∈ tuples ∧ [1, 5] ∉ tuples ∧ [3, 1] ∉ tuples := by
  intro n outer child slots m
  have hnames : (slots.map Slot.name).Nodup := by decide
  obtain ⟨tuples, hfound, _, _, hmem⟩ :=
    Matcher.search_enumerates {} false n (.inl rfl) slots hnames
  have htree (u : Tree Nat) (hu : n.places.subtrees[u.label]? = some u) :
      (Subject.ofNode n).tree? u.label = some u :=
    Subject.tree?_of_subtrees (Subject.tree?_ofNode n) hu
  have houter : outer.Matches m n 1 := by
    refine ⟨by decide, by rintro _ ⟨⟩; rfl, by rintro _ ⟨⟩, by rintro ⟨⟩, ?_⟩
    rw [Matcher.items_searchBelow, show (Subject.ofNode n).tree? 1 = _ from
      htree (.node 1 [.node 2 []]) rfl, Option.toList_some, List.flatMap_singleton,
      Scene.results_eq_find]
    decide +kernel
  have hchild : child.Matches m n 3 := by
    refine ⟨by decide, by rintro _ ⟨⟩; rfl, by rintro _ ⟨⟩, fun _ => by decide +kernel, ?_⟩
    rw [Matcher.items_searchBelow, show (Subject.ofNode n).tree? 3 = _ from
      htree (.node 3 []) rfl, Option.toList_some, List.flatMap_singleton, Scene.results_eq_find]
    decide +kernel
  refine ⟨hnames, tuples, hfound, (hmem _).mpr ⟨.cons houter (.cons hchild .nil), ?_⟩, ?_, ?_⟩
  · decide +kernel
  · intro h
    have hlast := (List.forall₂_cons.mp (List.forall₂_cons.mp ((hmem _).mp h).1).2).1
    exact absurd (hlast.direct rfl) (by decide +kernel)
  · intro h
    have hchain := ((hmem _).mp h).2 rfl
    exact absurd hchain (by decide +kernel)

end TreeQuery
