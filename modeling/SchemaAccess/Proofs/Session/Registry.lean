import SchemaAccess.Proofs.Graph.Attachments
import SchemaAccess.Proofs.Session.Execution

/-!
# Which fragments a model has in the end

Overrides put fragments into the registries of models, one after the other.  This file says which
keys are in the registries when all overrides have gone through: those that were there, and those
that the document has for the model.  Operations and hooks put nothing there.

* `ModelGraph.find?_update` — what is found after a change of one model.
* `HasFragment` — a built model has a fragment of a key.
* `Registers` — what a session adds to the registries; `Registers.trans` puts sessions together.
* `registers_mergeFragments`, `registers_mergeHooks`, `registers_classify` — the three sessions.
-/

namespace SchemaAccess

namespace ModelGraph

variable {name other key : String} {f : Model → Model}

/-- A change of the model of a name is found under that name and under no other. -/
theorem find?_updateFirst (hf : ∀ model : Model, model.name = name → (f model).name = name) :
    ∀ models : List Model,
      (updateFirst name f models).find? (fun model => model.name = other) =
        if other = name then (models.find? fun model => model.name = name).map f
        else models.find? fun model => model.name = other
  | [] => by simp [updateFirst]
  | model :: models => by
      have ih := find?_updateFirst hf models
      rw [updateFirst]
      by_cases hm : model.name = name
      · rw [if_pos hm]
        by_cases ho : other = name
        · simp [ho, hm, hf model hm]
        · have hne : name ≠ other := Ne.symm ho
          simp [ho, hm, hf model hm, hne]
      · rw [if_neg hm, List.find?_cons, ih]
        by_cases ho : other = name
        · simp [ho, hm]
        · by_cases hmo : model.name = other
          · simp [ho, hmo]
          · simp [ho, hmo]

/-- What is found in a graph after a change of one model. -/
theorem find?_update (hf : ∀ model : Model, model.name = name → (f model).name = name)
    (g : ModelGraph) :
    (g.update name f).find? other =
      if other = name then (g.find? name).map f else g.find? other :=
  find?_updateFirst hf g.models

/-- The built model of a name has a fragment of a key. -/
def HasFragment (g : ModelGraph) (name key : String) : Prop :=
  ∃ model, g.find? name = some model ∧ key ∈ model.fragments.keys

/-- Between two graphs the same models are built, and the built ones have new fragments. -/
structure Registers (new : String → String → Prop) (before after : ModelGraph) : Prop where
  isBuilt : ∀ name, after.isBuilt name = before.isBuilt name
  hasFragment : ∀ name key, after.HasFragment name key ↔
    before.HasFragment name key ∨ before.isBuilt name = true ∧ new name key

namespace Registers

variable {before middle after : ModelGraph} {new more : String → String → Prop}

/-- Nothing is added. -/
theorem refl (g : ModelGraph) : Registers (fun _ _ => False) g g where
  isBuilt _ := rfl
  hasFragment _ _ := by simp

/-- What two changes add, one after the other. -/
theorem trans (h : Registers new before middle) (h' : Registers more middle after) :
    Registers (fun name key => new name key ∨ more name key) before after where
  isBuilt name := (h'.isBuilt name).trans (h.isBuilt name)
  hasFragment name key := by
    rw [h'.hasFragment, h.hasFragment, h.isBuilt, and_or_left, or_assoc]

/-- Only what is said about built models counts. -/
theorem congr (h : Registers new before after)
    (hiff : ∀ name key, before.isBuilt name = true → (new name key ↔ more name key)) :
    Registers more before after where
  isBuilt := h.isBuilt
  hasFragment name key := by
    rw [h.hasFragment]
    exact or_congr_right (and_congr_right fun hbuilt => hiff name key hbuilt)

/-- A change of one model adds the keys that it adds to the registry of that model. -/
theorem update (g : ModelGraph) {added : String → Prop}
    (hf : ∀ model : Model, model.name = name → (f model).name = name)
    (hkeys : ∀ model, g.find? name = some model →
      ∀ key, key ∈ (f model).fragments.keys ↔ key ∈ model.fragments.keys ∨ added key) :
    Registers (fun other key => other = name ∧ added key) g (g.update name f) where
  isBuilt other := by
    rw [ModelGraph.isBuilt, find?_update hf, ModelGraph.isBuilt]
    split
    · next ho => rw [ho, Option.isSome_map]
    · rfl
  hasFragment other key := by
    rw [HasFragment, HasFragment, ModelGraph.isBuilt, find?_update hf]
    by_cases ho : other = name
    · subst ho
      cases hm : g.find? other with
      | none => simp
      | some model => simp [hkeys model hm]
    · simp [ho]

/-- A change of one model that leaves its registry alone adds nothing. -/
theorem update_of_fragments_eq (g : ModelGraph)
    (hf : ∀ model : Model, model.name = name → (f model).name = name)
    (hkeys : ∀ model, g.find? name = some model → (f model).fragments = model.fragments) :
    Registers (fun _ _ => False) g (g.update name f) := by
  have hnothing : Registers (fun other _ => other = name ∧ False) g (g.update name f) :=
    update g hf fun model hm key => by simp [hkeys model hm]
  exact hnothing.congr fun _ _ _ => by simp

/-- A fragment that is accepted adds its key to the registry of its model. -/
theorem addFragment {model key : String} {selection : List Selection}
    (h : before.addFragment model key selection = .ok after) :
    Registers (fun name other => name = model ∧ other = key) before after := by
  obtain ⟨owner, -, -, rfl⟩ := addFragment_eq_ok_iff.1 h
  refine update before (fun _ hname => hname) fun model _ other => ?_
  rw [Model.setFragment, Table.keys_insert]
  split
  · next hmem =>
    refine ⟨.inl, fun hother => hother.elim id ?_⟩
    rintro rfl
    exact hmem
  · rw [List.mem_append, List.mem_singleton]

end Registers

end ModelGraph

namespace Session

open ModelGraph (Registers)

variable {state after : State}

/-! ## Operations -/

/-- Attaching operations adds accessors only. -/
theorem registers_attachAll (owners : ModelGraph) (root : OperationRoot) :
    ∀ (operations : List OperationDeclaration) (state : State),
      Registers (fun _ _ => False) state.graph (attachAll owners root operations state).graph
  | [], state => .refl state.graph
  | operation :: operations, state => by
      have hfirst : Registers (fun _ _ => False) state.graph
          (attach owners root state operation).graph := by
        rw [attach]
        split
        · exact .refl state.graph
        · exact .update_of_fragments_eq state.graph (fun _ hname => hname) fun _ _ => rfl
      exact (hfirst.trans (registers_attachAll owners root operations _)).congr fun _ _ _ => by simp

theorem registers_classify {view : SchemaView}
    (h : (classify view).execute state = (.ok (), after)) :
    Registers (fun _ _ => False) state.graph after.graph := by
  rw [execute_classify] at h
  split at h
  · cases h
  · next queries _ =>
    split at h
    · cases h
    · next mutations _ =>
      cases h
      exact ((registers_attachAll state.graph .query queries state).trans
        (registers_attachAll state.graph .mutation mutations _)).congr fun _ _ _ => by simp

/-! ## Overrides

Fragments and hooks are merged by one traversal of the document.  `registers_merge` is its
induction, with what one model adds as an assumption, and the two sessions are instances. -/

/-- **The overrides of one model add their keys**, by induction on the overrides. -/
theorem registers_addFragments (model : String) :
    ∀ (fragments : List (String × List Selection)) {state : State},
      (addFragments model fragments).execute state = (.ok (), after) →
      Registers (fun name key => name = model ∧ key ∈ Entries.keys fragments)
        state.graph after.graph
  | [], _, h => by
      cases h
      exact (Registers.refl _).congr fun _ _ _ => by simp [Entries.keys]
  | (key, selection) :: fragments, _, h => by
      obtain ⟨graph, hgraph, hafter⟩ := execute_addFragments_cons_eq_ok_iff.1 h
      refine ((Registers.addFragment hgraph).trans
        (registers_addFragments model fragments hafter)).congr fun name other _ => ?_
      rw [← and_or_left, Entries.keys, Entries.keys, List.map_cons, List.mem_cons]

/-- The hooks of a model are no fragments. -/
theorem registers_addHooks (model : String) :
    ∀ (hooks : List (String × String)) {state : State},
      (addHooks model hooks).execute state = (.ok (), after) →
      Registers (fun _ _ => False) state.graph after.graph
  | [], _, h => by
      cases h
      exact .refl _
  | (hook, reference) :: hooks, state, h => by
      rcases execute_addHooks_cons_eq_ok_iff.1 h with
        ⟨-, rfl⟩ | ⟨owner, changed, howner, hchanged, hafter⟩
      · exact .refl _
      · obtain ⟨-, -, rfl⟩ := Model.addHook_eq_ok_iff.1 hchanged
        have hname : owner.name = model := ModelGraph.name_eq_of_find? howner
        have hfirst := Registers.update_of_fragments_eq state.graph
          (f := fun _ => { owner with hooks := owner.hooks.insert hook reference })
          (fun _ _ => hname) fun other hother => by
            rw [Option.some.inj (howner.symm.trans hother)]
        exact (hfirst.trans (registers_addHooks model hooks hafter)).congr fun _ _ _ => by simp

/-- The overrides of a document add what those of each built model add. -/
theorem registers_merge {α : Type} (kind : OverrideKind) (keys : List (String × α) → List String)
    {attach : String → List (String × α) → Session Unit}
    (hattach : ∀ model overrides {state after : State},
      (attach model overrides).execute state = (.ok (), after) →
      Registers (fun name key => name = model ∧ key ∈ keys overrides) state.graph after.graph) :
    ∀ (document : List (String × Table α)) {state after : State},
      (merge kind attach document).execute state = (.ok (), after) →
      Registers (fun name key => ∃ overrides, (name, overrides) ∈ document ∧
        key ∈ keys overrides.entries) state.graph after.graph
  | [], _, _, h => by
      cases h
      exact (Registers.refl _).congr fun _ _ _ => by simp
  | (model, overrides) :: document, state, after, h => by
      cases hbuilt : state.graph.isBuilt model with
      | false =>
        -- The overrides of this model are passed over, but `new` is not asked about it either.
        rw [execute_merge_cons_of_unbuilt hbuilt] at h
        refine (registers_merge kind keys hattach document h).congr fun name key hname => ?_
        have hne : name ≠ model := by
          rintro rfl
          rw [hbuilt] at hname
          cases hname
        simp [hne]
      | true =>
        rw [execute_merge_cons_of_built hbuilt] at h
        obtain ⟨_, middle, hmiddle, hafter⟩ := execute_bind_eq_ok_iff.1 h
        refine ((hattach model overrides.entries hmiddle).trans
          (registers_merge kind keys hattach document hafter)).congr fun name key _ => ?_
        simp only [List.mem_cons, Prod.mk.injEq, or_and_right, exists_or, and_assoc,
          exists_and_left, exists_eq_left]

/-- Merging fragments adds, to every built model, the keys that the document has for it. -/
theorem registers_mergeFragments {fragments : FragmentOverrides}
    (h : (mergeFragments fragments).execute state = (.ok (), after)) :
    Registers (fun name key => ∃ overrides, (name, overrides) ∈ fragments.entries ∧
      key ∈ overrides.keys) state.graph after.graph :=
  registers_merge .fragment Entries.keys
    (fun model overrides _ _ => registers_addFragments model overrides) fragments.entries h

/-- Merging hooks adds no fragments. -/
theorem registers_mergeHooks {hooks : HookOverrides}
    (h : (mergeHooks hooks).execute state = (.ok (), after)) :
    Registers (fun _ _ => False) state.graph after.graph :=
  (registers_merge .hook (fun _ => []) (fun model overrides _ _ hrun =>
    (registers_addHooks model overrides hrun).congr fun _ _ _ => by simp)
    hooks.entries h).congr fun _ _ _ => by simp

end Session

end SchemaAccess
