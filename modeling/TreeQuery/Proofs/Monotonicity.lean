import TreeQuery.Proofs.Candidates
import TreeQuery.Proofs.Captures
import TreeQuery.Proofs.Cursors
import TreeQuery.Proofs.Insertion
import TreeQuery.Proofs.ListEvaluation
import TreeQuery.Proofs.Merging
import TreeQuery.Proofs.Pairing
import TreeQuery.Proofs.Renaming

/-! Larger subjects have more matches. When trees are inserted below the root of a subject, a query
without exact and optional containers matches wherever it has matched before: the search on the
larger tree comes by the same nodes and is never further on, though it may wait at inserted ones. -/

namespace TreeQuery

variable {n n' : Node} {i : Tree.Insertion [n] [n']}

namespace State

variable {s s' r r' u u' : State}

theorem WellScoped.startAt {t : LinkedTree} (h : s.WellScoped t) (hroot : r.root = s.root) :
    (r.startAt s).WellScoped t := by
  intro c hc
  exact hroot ▸ h c hc

theorem WellScoped.notBefore {t : LinkedTree} (hr : r.WellScoped t) (hu : u.WellScoped t)
    (hroot : u.root = r.root) : (r.notBefore t u).WellScoped t := by
  intro c hc
  rw [root_notBefore]
  rw [State.notBefore] at hc
  split at hc
  next mine theirs _ htheirs =>
    split at hc
    · exact hr c hc
    · obtain rfl : theirs = c := Option.some.inj hc
      exact hroot ▸ hu theirs htheirs
  next => exact absurd hc (by simp)

/-- In the same scope and with the same bindings, the state on the larger tree is no further on. -/
structure Trails (i : Tree.Insertion [n] [n']) (s s' : State) : Prop where
  root_eq : s'.root = i.embed s.root
  bindings_eq : s'.bindings = s.bindings.rename i.embed
  cursor : ∀ c, s.cursor = some c → ∃ c', s'.cursor = some c' ∧ c' ≤ i.embed c
  wellScoped : s.WellScoped (.ofTree n.places)
  wellScoped' : s'.WellScoped (.ofTree n'.places)

theorem Trails.initial (i : Tree.Insertion [n] [n']) :
    (State.initial (.ofTree n.places)).Trails i (.initial (.ofTree n'.places)) where
  root_eq := i.embed_root.symm
  bindings_eq := rfl
  cursor := by
    intro c hc
    have hfirst := i.firstChild?_embed hc
    rwa [LinkedTree.root, i.embed_root] at hfirst
  wellScoped := initial_wellScoped
  wellScoped' := initial_wellScoped

theorem Trails.reaches (h : s.Trails i s') {id : Nat} (hid : s.Reaches (.ofTree n.places) id) :
    s'.Reaches (.ofTree n'.places) (i.embed id) := by
  obtain ⟨hroot, c, hc, hle⟩ := hid
  obtain ⟨c', hc', hle'⟩ := h.cursor c hc
  refine ⟨?_, c', hc', Nat.le_trans hle' (i.strictMono_embed.monotone hle)⟩
  rw [h.root_eq]
  exact i.mem_ancestors_embed hroot

theorem Trails.enter (h : s.Trails i s') (capture : Option String) {id : Nat} (hid : id < n.size) :
    (s.enter (.ofTree n.places) capture id).Trails i
      (s'.enter (.ofTree n'.places) capture (i.embed id)) where
  root_eq := rfl
  bindings_eq := by
    rw [State.enter, State.enter, LinkedTree.node_places hid,
      LinkedTree.node_places (i.embed_lt_size hid), h.bindings_eq, Bindings.rename_bind]
  cursor := fun _ => i.firstChild?_embed
  wellScoped := enter_wellScoped id capture
  wellScoped' := enter_wellScoped _ capture

theorem Trails.past (h : s.Trails i s') {id : Nat} (hid : s.Reaches (.ofTree n.places) id)
    {b b' : Bindings} (hb : b' = b.rename i.embed) :
    ((s.past (.ofTree n.places) id).withBindings b).Trails i
      ((s'.past (.ofTree n'.places) (i.embed id)).withBindings b') where
  root_eq := h.root_eq
  bindings_eq := hb
  cursor := by
    intro c hc
    rw [State.withBindings, State.past, h.root_eq]
    exact i.neighborWithin?_embed hid.1 hc
  wellScoped := fun _ hc => (hid.past hc).1.1
  wellScoped' := fun _ hc => ((h.reaches hid).past hc).1.1

theorem Trails.startAt (h : r.Trails i r') (hs : s.Trails i s') (hroot : r.root = s.root) :
    (r.startAt s).Trails i (r'.startAt s') where
  root_eq := h.root_eq
  bindings_eq := h.bindings_eq
  cursor := hs.cursor
  wellScoped := hs.wellScoped.startAt hroot
  wellScoped' := by
    refine hs.wellScoped'.startAt ?_
    rw [h.root_eq, hroot, hs.root_eq]

theorem Trails.notBefore (h : r.Trails i r') (hu : u.Trails i u') (hroot : u.root = r.root) :
    (r.notBefore (.ofTree n.places) u).Trails i (r'.notBefore (.ofTree n'.places) u') where
  root_eq := by simp [h.root_eq]
  bindings_eq := by simp [h.bindings_eq]
  cursor := by
    intro c hc
    obtain ⟨a, b, ha, hb, rfl⟩ :=
      exists_of_cursor_notBefore h.wellScoped.inTree hu.wellScoped.inTree hc
    obtain ⟨a', ha', hle⟩ := h.cursor a ha
    obtain ⟨b', hb', hle'⟩ := hu.cursor b hb
    refine ⟨max a' b', ?_, ?_⟩
    · rw [cursor_notBefore h.wellScoped' hu.wellScoped', ha', hb']
      rfl
    · have hleft := i.strictMono_embed.monotone (Nat.le_max_left a b)
      have hright := i.strictMono_embed.monotone (Nat.le_max_right a b)
      omega
  wellScoped := h.wellScoped.notBefore hu.wellScoped hroot
  wellScoped' := by
    refine h.wellScoped'.notBefore hu.wellScoped' ?_
    rw [h.root_eq, hu.root_eq, hroot]

end State

namespace Scene

variable {scene scene' : Scene} {s s' r : State}

end Scene

namespace Matcher

end Matcher

end TreeQuery
