import SchemaAccess.Proofs.Table.Entries
import SchemaAccess.Proofs.Graph.KnownFields
import SchemaAccess.Proofs.Session.Execution

/-!
# What may be attached to a model

A model is built once and has accessors, fragments and hooks attached to it afterwards.  This file
says which attachments are sound and shows that each way of attaching something keeps them so.

* `Accessor.Paired` — every listing accessor is followed by the iterating one of its operation, and
  no iterating accessor stands anywhere else.
* `Model.IsSound` — the attachments of a model are sound in a graph.
* `ModelGraph.KeepsBuild` — a graph has the models of another one, with sound attachments.
* `KeepsBuild.update` — a change of one model that attaches something sound keeps all that.
-/

namespace SchemaAccess

/-! ## Accessors

Listing and iterating accessors come in pairs, made from one operation.  Accessors are only ever
attached behind those that are there, so the pairs stay together. -/

/-- A listing accessor is followed by an iterating one with its operation and parameters, and an
iterating accessor stands nowhere else. -/
inductive Accessor.Paired : List Accessor → Prop
  | nil : Paired []
  | single {a : Accessor} {rest : List Accessor} (kind : a.kind = .get ∨ a.kind = .mutate)
      (tail : Paired rest) : Paired (a :: rest)
  | pair {operation : String} {params : Table String} {rest : List Accessor}
      (tail : Paired rest) :
      Paired (⟨.list, operation, params⟩ :: ⟨.iterate, operation, params⟩ :: rest)

/-- Paired accessors behind paired ones are paired, since no pair is cut. -/
theorem Accessor.Paired.append {as bs : List Accessor} (ha : Paired as) (hb : Paired bs) :
    Paired (as ++ bs) := by
  induction ha with
  | nil => exact hb
  | single kind _ ih => exact .single kind ih
  | pair _ ih => exact .pair ih

/-- What an operation becomes is paired. -/
theorem Session.paired_accessorsOf (root : OperationRoot) (shape : Session.ReturnShape)
    (operation : OperationDeclaration) : Accessor.Paired (accessorsOf root shape operation) := by
  cases root with
  | mutation => exact .single (.inr rfl) .nil
  | query =>
    cases shape with
    | single => exact .single (.inl rfl) .nil
    | page => exact .pair .nil
    | list => exact .single (.inl rfl) .nil

/-! ## Sound attachments

What must hold of a model's attachments mentions the graph in one place: the names in its
fragments are fields of models of the graph.  So soundness must be shown to outlive changes of
other models. -/

/-- The attachments of a model are sound in a graph. -/
structure Model.IsSound (g : ModelGraph) (model : Model) : Prop where
  /-- The default fragment may be replaced, but is always there. -/
  hasDefault : Model.defaultFragment ∈ model.fragments.keys
  /-- Every name in a fragment exists. -/
  fragments : ∀ fragment ∈ model.fragments.entries, g.Knows model fragment.2
  /-- No hook is blank, nor is what it refers to. -/
  hooks : ∀ hook ∈ model.hooks.entries,
    Model.isBlankText hook.1 = false ∧ Model.isBlankText hook.2 = false
  accessors : Accessor.Paired model.accessors

/-- The graph `g` has the models that `start` has, in the order of their names, with sound
attachments. -/
structure ModelGraph.KeepsBuild (start g : ModelGraph) : Prop where
  /-- Apart from attachments, the models are the same in the same order. -/
  bare : g.models.map Model.bare = start.models.map Model.bare
  discovered : g.discovered = start.discovered
  ordered : g.models.Pairwise fun a b => a.name ≤ b.name
  sound : ∀ model ∈ g.models, model.IsSound g

/-! ## Attaching to a model

Each way of attaching something changes one of the three attachments and leaves the bare model as it
is.  It keeps the model sound if what is attached is sound itself. -/

namespace Model

variable (model : Model)

@[simp]
theorem bare_addAccessors (accessors : List Accessor) :
    (model.addAccessors accessors).bare = model.bare := rfl

@[simp]
theorem bare_setFragment (key : String) (selection : List Selection) :
    (model.setFragment key selection).bare = model.bare := rfl

/-- A hook is added to a model only if neither it nor its reference is blank. -/
theorem addHook_eq_ok_iff {model after : Model} {hook reference : String} :
    model.addHook hook reference = .ok after ↔
      isBlankText hook = false ∧ isBlankText reference = false ∧
        after = { model with hooks := model.hooks.insert hook reference } := by
  rw [addHook]
  cases isBlankText hook with
  | true => simp
  | false =>
    cases isBlankText reference with
    | true => simp
    | false => simp [eq_comm]

/-- A hook that is added is attached, and nothing else changes. -/
theorem bare_addHook {model after : Model} {hook reference : String}
    (h : model.addHook hook reference = .ok after) : after.bare = model.bare := by
  obtain ⟨-, -, rfl⟩ := addHook_eq_ok_iff.1 h
  rfl

end Model

namespace Model.IsSound

variable {g : ModelGraph} {model : Model}

/-- Soundness depends on the bare models of the graph alone, so it outlives whatever is attached to
other models. -/
theorem of_bare_eq {h : ModelGraph} (hs : model.IsSound g)
    (hb : g.models.map Model.bare = h.models.map Model.bare) : model.IsSound h where
  hasDefault := hs.hasDefault
  fragments fragment hf := (hs.fragments fragment hf).of_bare_eq hb rfl
  hooks := hs.hooks
  accessors := hs.accessors

theorem addAccessors (hs : model.IsSound g) {accessors : List Accessor}
    (hp : Accessor.Paired accessors) : (model.addAccessors accessors).IsSound g where
  hasDefault := hs.hasDefault
  fragments fragment hf := (hs.fragments fragment hf).of_bare_eq rfl (by rw [bare_addAccessors])
  hooks := hs.hooks
  accessors := hs.accessors.append hp

/-- A fragment that the graph knows may be set; the default fragment may be replaced by it, but
stays there. -/
theorem setFragment (hs : model.IsSound g) {selection : List Selection}
    (hk : g.Knows model selection) (key : String) :
    (model.setFragment key selection).IsSound g where
  hasDefault := by
    rw [Model.setFragment, Table.keys_insert]
    split
    · exact hs.hasDefault
    · exact List.mem_append_left _ hs.hasDefault
  fragments fragment hf := by
    rcases Entries.mem_insert hf with rfl | hf
    · exact hk.of_bare_eq rfl (by rw [bare_setFragment])
    · exact (hs.fragments fragment hf).of_bare_eq rfl (by rw [bare_setFragment])
  hooks := hs.hooks
  accessors := hs.accessors

/-- A hook that is added is not blank, for a blank one is refused. -/
theorem addHook {after : Model} {hook reference : String} (hs : model.IsSound g)
    (h : model.addHook hook reference = .ok after) : after.IsSound g := by
  have hbare := bare_addHook h
  obtain ⟨hhook, href, rfl⟩ := addHook_eq_ok_iff.1 h
  exact {
    hasDefault := hs.hasDefault
    fragments := fun fragment hf => (hs.fragments fragment hf).of_bare_eq rfl hbare.symm
    hooks := by
      intro entry he
      rcases Entries.mem_insert he with rfl | he
      · exact ⟨hhook, href⟩
      · exact hs.hooks entry he
    accessors := hs.accessors }

end Model.IsSound

/-! ## Changing one model of a graph

A change applies to the first model of a name.  It keeps the others as they are, so a property of
all models only has to be shown of what it makes of one. -/

namespace ModelGraph

/-- Changing the first model of a name changes the one that is found under the name. -/
theorem mem_updateFirst {name : String} {f : Model → Model} {model : Model} :
    ∀ {models : List Model}, model ∈ updateFirst name f models →
      model ∈ models ∨ ∃ owner, models.find? (fun m => m.name = name) = some owner ∧ model = f owner
  | [], h => absurd h List.not_mem_nil
  | first :: rest, h => by
      rw [updateFirst] at h
      split at h
      · next hname =>
        rcases List.mem_cons.1 h with rfl | h
        · exact Or.inr ⟨first, by simp [hname], rfl⟩
        · exact Or.inl (List.mem_cons_of_mem _ h)
      · next hname =>
        rcases List.mem_cons.1 h with rfl | h
        · exact Or.inl List.mem_cons_self
        · rcases mem_updateFirst h with h | ⟨owner, howner, rfl⟩
          · exact Or.inl (List.mem_cons_of_mem _ h)
          · exact Or.inr ⟨owner, by simp [hname, howner], rfl⟩

/-- A change that attaches something leaves the bare models as they are, in their order. -/
theorem map_bare_updateFirst {name : String} {f : Model → Model} :
    ∀ {models : List Model},
      (∀ owner, models.find? (fun m => m.name = name) = some owner → (f owner).bare = owner.bare) →
      (updateFirst name f models).map Model.bare = models.map Model.bare
  | [], _ => rfl
  | first :: rest, h => by
      rw [updateFirst]
      split
      · next hname => rw [List.map_cons, List.map_cons, h first (by simp [hname])]
      · next hname =>
        rw [List.map_cons, List.map_cons, map_bare_updateFirst fun owner ho => h owner (by
          simpa [hname] using ho)]

/-- Models that are bare alike are in the same order of names. -/
theorem pairwise_name_of_bare_eq {as bs : List Model} (hb : as.map Model.bare = bs.map Model.bare)
    (ho : as.Pairwise fun a b => a.name ≤ b.name) : bs.Pairwise fun a b => a.name ≤ b.name := by
  rw [← List.pairwise_map] at ho ⊢
  rwa [← map_name_eq_of_bare_eq hb]

/-- **A change of the model of a name keeps a graph sound** if it attaches something sound to it and
does nothing else.  The other models stay sound by `Model.IsSound.of_bare_eq`, since the graph
around them has the same bare models. -/
theorem KeepsBuild.update {start g : ModelGraph} (hg : KeepsBuild start g) {name : String}
    {f : Model → Model}
    (hf : ∀ owner, g.find? name = some owner →
      (f owner).bare = owner.bare ∧ (owner.IsSound g → (f owner).IsSound g)) :
    KeepsBuild start (g.update name f) := by
  have hbare : (g.update name f).models.map Model.bare = g.models.map Model.bare :=
    map_bare_updateFirst fun owner ho => (hf owner ho).1
  refine ⟨hbare.trans hg.bare, hg.discovered, pairwise_name_of_bare_eq hbare.symm hg.ordered, ?_⟩
  intro model hm
  rcases mem_updateFirst hm with hm | ⟨owner, ho, rfl⟩
  · exact (hg.sound model hm).of_bare_eq hbare.symm
  · have hs : owner.IsSound g := hg.sound owner (List.mem_of_find?_eq_some ho)
    exact ((hf owner ho).2 hs).of_bare_eq hbare.symm

end ModelGraph

end SchemaAccess
