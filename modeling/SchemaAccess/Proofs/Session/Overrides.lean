import SchemaAccess.Proofs.Graph.References

/-!
# Overrides stay with their model

A document has overrides for one model after the other, and each is checked against a graph that the
earlier ones have changed.  What is checked, however, is never what is attached.  So whether a
document goes through can be told from the graph at the beginning, a model gets what the document
has for it and nothing else, and the order of the entries does not matter, nor which of two
documents is merged first.

* `OverrideRule` — one kind of overrides: what is attached, what is accepted, what comes of it.
* `OverrideRule.Lawful` — attaching to one model; `lawful_fragmentRule`, `lawful_hookRule`.
* `execute_merge_eq_ok_iff` — a whole document, if it goes through.
* `Overridden`, `overridden_iff` — the registries of a graph after a document, by their keys and by
  what is looked up in them.
* `execute_merge_restrict` — entries of models that are not built, whether it does or not.
* `OverrideRule.MergesLocally`, `merges_locally` — all of it, for both kinds of overrides.
-/

namespace SchemaAccess

/-! ## One change after another

Changing the built model of a name is a function on graphs.  Two changes of the same model are one,
and changes of models with distinct names do not meet. -/

namespace ModelGraph

variable {name : String} {f f' : Model → Model}

/-- Two changes of the first model of a name are one change, if the first keeps the name. -/
theorem updateFirst_updateFirst (hf : ∀ model : Model, model.name = name → (f model).name = name) :
    ∀ models : List Model, updateFirst name f' (updateFirst name f models) =
      updateFirst name (fun model => f' (f model)) models
  | [] => rfl
  | model :: models => by
      rw [updateFirst, updateFirst]
      by_cases h : model.name = name
      · rw [if_pos h, if_pos h, updateFirst, if_pos (hf model h)]
      · rw [if_neg h, if_neg h, updateFirst, if_neg h, updateFirst_updateFirst hf models]

/-- The same for a graph. -/
theorem update_update (g : ModelGraph)
    (hf : ∀ model : Model, model.name = name → (f model).name = name) :
    (g.update name f).update name f' = g.update name fun model => f' (f model) := by
  rw [update, update, update, updateFirst_updateFirst hf]

/-- A change depends on what it makes of the built model of the name. -/
theorem update_congr {g : ModelGraph} {owner : Model} (h : g.find? name = some owner)
    (hf : f owner = f' owner) : g.update name f = g.update name f' := by
  obtain ⟨hown, before, after, hmodels, hbefore⟩ := List.find?_eq_some_iff_append.1 h
  have hbefore : ∀ other ∈ before, other.name ≠ name := by simpa using hbefore
  have hown := of_decide_eq_true hown
  rw [update, update, hmodels, updateFirst_append f hown after hbefore,
    updateFirst_append f' hown after hbefore, hf]

/-- The change that changes nothing leaves the graph as it is. -/
theorem update_id (g : ModelGraph) (name : String) : g.update name (fun model => model) = g := by
  have hid : ∀ models : List Model, updateFirst name (fun model => model) models = models := by
    intro models
    induction models with
    | nil => rfl
    | cons model models ih => rw [updateFirst, ih, ite_self]
  rw [update, hid]

/-- Among models with distinct names the first of a name is the only one. -/
theorem updateFirst_eq_map : ∀ {models : List Model}, (models.map Model.name).Nodup →
    updateFirst name f models = models.map fun model => if model.name = name then f model else model
  | [], _ => rfl
  | model :: models, h => by
      obtain ⟨hmodel, hmodels⟩ := List.nodup_cons.1 h
      rw [updateFirst, List.map_cons]
      split
      · next hname =>
        have hothers : ∀ other ∈ models, (if other.name = name then f other else other) = other :=
          fun other ho => if_neg fun hother => by
            rw [← hname] at hother
            exact hmodel (hother ▸ List.mem_map_of_mem ho)
        rw [List.map_congr_left hothers, List.map_id']
      · rw [updateFirst_eq_map hmodels]

/-- Graphs with the same models, apart from what is attached to them, have the same models built. -/
theorem isBuilt_of_bare_eq {g h : ModelGraph}
    (hb : g.models.map Model.bare = h.models.map Model.bare) (name : String) :
    g.isBuilt name = h.isBuilt name := by
  have hmap := g.map_bare_find? name
  rw [hb, ← map_bare_find?] at hmap
  have hsome := congrArg Option.isSome hmap
  rwa [Option.isSome_map, Option.isSome_map] at hsome

end ModelGraph

/-- The part of a table with keys of a class. -/
def Table.restrict {α : Type} (p : String → Bool) (t : Table α) : Table α where
  entries := t.entries.filter fun entry => p entry.1
  nodup_keys := t.nodup_keys.sublist (List.filter_sublist.map Prod.fst)

/-! ## One kind of overrides

Fragments and hooks are merged by one loop and differ in what is checked and where it is attached.
`OverrideRule` holds the difference, and `Lawful` is all that the loop needs to know of it: what is
accepted does not depend on what is attached. -/

/-- A kind of overrides for models. -/
structure OverrideRule (α : Type) where
  kind : OverrideKind
  /-- Attaches the overrides of one model in order. -/
  attach : String → List (String × α) → Session Unit
  /-- An override may be attached to the built model of a name. -/
  Accepts : ModelGraph → String → String × α → Prop
  /-- The overrides that a model has. -/
  registry : Model → Table α
  /-- The model with other overrides. -/
  withRegistry : Table α → Model → Model

namespace OverrideRule

variable {α : Type} (rule : OverrideRule α)

/-- The model with overrides attached one after the other. -/
def put (entries : List (String × α)) (model : Model) : Model :=
  rule.withRegistry ((rule.registry model).insertAll entries) model

/-- Attaches the overrides of a document model by model. -/
def merge (document : ModelTable α) : Session Unit :=
  Session.merge rule.kind rule.attach document.entries

/-- What the rule says of attaching to one model. -/
structure Lawful : Prop where
  put_nil : ∀ model, rule.put [] model = model
  bare_put : ∀ entries model, (rule.put entries model).bare = model.bare
  /-- What is accepted depends on nothing that is attached. -/
  accepts_congr : ∀ {g h : ModelGraph} {model : String} {entry : String × α},
    g.models.map Model.bare = h.models.map Model.bare →
      rule.Accepts g model entry → rule.Accepts h model entry
  /-- Attaching goes through exactly if every override is accepted at the beginning. -/
  execute_eq_ok_iff : ∀ {model : String} {entries} {state after : Session.State},
    state.graph.isBuilt model = true →
      ((rule.attach model entries).execute state = (.ok (), after) ↔
        (∀ entry ∈ entries, rule.Accepts state.graph model entry) ∧
          after = { state with graph := state.graph.update model (rule.put entries) })
  /-- Whether it does or not, warnings have no part in it, and the bare models stay. -/
  execute_warnings : ∀ (model : String) entries (state : Session.State) warnings,
    (rule.attach model entries).execute { state with warnings } =
      (((rule.attach model entries).execute state).1,
        ⟨((rule.attach model entries).execute state).2.graph, warnings⟩)
  bare_execute : ∀ (model : String) entries (state : Session.State),
    ((rule.attach model entries).execute state).2.graph.models.map Model.bare =
      state.graph.models.map Model.bare

end OverrideRule

namespace Session

variable {state after : State} {model : String}

/-! ## Fragments and hooks

The two rules are shown to be lawful.  For each, attaching to one model is an induction on its
overrides in which every step changes the same model. -/

/-- Fragments are accepted if they can be added. -/
def fragmentRule : OverrideRule (List Selection) where
  kind := .fragment
  attach := addFragments
  Accepts g model fragment := ∃ after, g.addFragment model fragment.1 fragment.2 = .ok after
  registry model := model.fragments
  withRegistry fragments model := { model with fragments }

/-- Hooks are accepted if neither they nor their references are blank. -/
def hookRule : OverrideRule String where
  kind := .hook
  attach := addHooks
  Accepts _ _ hook := Model.isBlankText hook.1 = false ∧ Model.isBlankText hook.2 = false
  registry model := model.hooks
  withRegistry hooks model := { model with hooks }

/-- A fragment that is added changes nothing of the models but what is attached. -/
theorem map_bare_addFragment {g after : ModelGraph} {key : String} {selection : List Selection}
    (h : g.addFragment model key selection = .ok after) :
    after.models.map Model.bare = g.models.map Model.bare := by
  obtain ⟨_, -, -, rfl⟩ := ModelGraph.addFragment_eq_ok_iff.1 h
  exact ModelGraph.map_bare_updateFirst fun _ _ => rfl

/-- Whether a fragment is accepted depends on the bare models alone: the check of its selection
reads names and fields, and never a fragment. -/
theorem accepts_fragment_congr {g h : ModelGraph} {fragment : String × List Selection}
    (hb : g.models.map Model.bare = h.models.map Model.bare)
    (haccepts : fragmentRule.Accepts g model fragment) :
    fragmentRule.Accepts h model fragment := by
  obtain ⟨_, hadd⟩ := haccepts
  obtain ⟨owner, howner, hknows, -⟩ := ModelGraph.addFragment_eq_ok_iff.1 hadd
  obtain ⟨other, hother, hbare⟩ := ModelGraph.find?_of_bare_eq hb.symm howner
  exact ⟨_, ModelGraph.addFragment_eq_ok_iff.2
    ⟨other, hother, hknows.of_bare_eq hb hbare.symm, rfl⟩⟩

/-- **The fragments of one model are attached exactly if each is accepted at the beginning**, and
then all of them are in its registry.  By induction on the fragments: the first leaves the bare
models as they are, so the rest is accepted behind it exactly if it is before it. -/
theorem execute_addFragments_eq_ok_iff :
    ∀ {fragments : List (String × List Selection)} {state : State},
      (addFragments model fragments).execute state = (.ok (), after) ↔
        (∀ fragment ∈ fragments, fragmentRule.Accepts state.graph model fragment) ∧
          after = { state with graph := state.graph.update model (fragmentRule.put fragments) }
  | [], state => by
      have hput : fragmentRule.put [] = fun model => model := rfl
      rw [hput, ModelGraph.update_id, addFragments, execute_pure]
      simp [eq_comm]
  | (key, selection) :: fragments, state => by
      rw [execute_addFragments_cons_eq_ok_iff, List.forall_mem_cons]
      -- what the first fragment leaves behind accepts what the graph accepts
      have hstep : ∀ graph, state.graph.addFragment model key selection = .ok graph →
          ((addFragments model fragments).execute { state with graph } = (.ok (), after) ↔
            (∀ fragment ∈ fragments, fragmentRule.Accepts state.graph model fragment) ∧
              after = { state with
                graph := state.graph.update model
                  (fragmentRule.put ((key, selection) :: fragments)) }) := by
        intro graph hgraph
        have hbare := map_bare_addFragment hgraph
        rw [execute_addFragments_eq_ok_iff]
        refine and_congr (forall₂_congr fun fragment _ =>
          ⟨accepts_fragment_congr hbare, accepts_fragment_congr hbare.symm⟩) ?_
        obtain ⟨_, -, -, rfl⟩ := ModelGraph.addFragment_eq_ok_iff.1 hgraph
        have htwice := @ModelGraph.update_update model (·.setFragment key selection)
          (fragmentRule.put fragments) state.graph fun _ hname => hname
        rw [htwice]
        rfl
      constructor
      · rintro ⟨graph, hgraph, hrun⟩
        obtain ⟨hrest, hafter⟩ := (hstep graph hgraph).1 hrun
        exact ⟨⟨⟨graph, hgraph⟩, hrest⟩, hafter⟩
      · rintro ⟨⟨⟨graph, hgraph⟩, hrest⟩, hafter⟩
        exact ⟨graph, hgraph, (hstep graph hgraph).2 ⟨hrest, hafter⟩⟩

/-- **The hooks of one model**, in the same way.  The model must be built, since hooks of a model
that is not there are passed over. -/
theorem execute_addHooks_eq_ok_iff :
    ∀ {hooks : List (String × String)} {state : State}, state.graph.isBuilt model = true →
      ((addHooks model hooks).execute state = (.ok (), after) ↔
        (∀ hook ∈ hooks, hookRule.Accepts state.graph model hook) ∧
          after = { state with graph := state.graph.update model (hookRule.put hooks) })
  | [], state, _ => by
      have hput : hookRule.put [] = fun model => model := rfl
      rw [hput, ModelGraph.update_id, addHooks, execute_pure]
      simp [eq_comm]
  | (hook, reference) :: hooks, state, hbuilt => by
      obtain ⟨owner, howner⟩ := Option.isSome_iff_exists.1 hbuilt
      rw [execute_addHooks_cons_eq_ok_iff, howner, List.forall_mem_cons]
      have hstep : ∀ changed, owner.addHook hook reference = .ok changed →
          ((addHooks model hooks).execute
              { state with graph := state.graph.update model fun _ => changed } = (.ok (), after) ↔
            (∀ hook ∈ hooks, hookRule.Accepts state.graph model hook) ∧
              after = { state with
                graph := state.graph.update model
                  (hookRule.put ((hook, reference) :: hooks)) }) := by
        intro changed hchanged
        obtain ⟨-, -, rfl⟩ := Model.addHook_eq_ok_iff.1 hchanged
        have hinsert : (state.graph.update model fun _ =>
            { owner with hooks := owner.hooks.insert hook reference }) =
            state.graph.update model (hookRule.put [(hook, reference)]) :=
          ModelGraph.update_congr howner rfl
        have hbare : (state.graph.update model (hookRule.put [(hook, reference)])).models.map
            Model.bare = state.graph.models.map Model.bare :=
          ModelGraph.map_bare_updateFirst fun _ _ => rfl
        have htwice := @ModelGraph.update_update model (hookRule.put [(hook, reference)])
          (hookRule.put hooks) state.graph fun _ hname => hname
        rw [hinsert, execute_addHooks_eq_ok_iff
          ((ModelGraph.isBuilt_of_bare_eq hbare model).trans hbuilt), htwice]
        rfl
      constructor
      · rintro (⟨hnone, -⟩ | ⟨_, changed, hfound, hchanged, hrun⟩)
        · cases hnone
        · obtain rfl := Option.some.inj hfound
          obtain ⟨hrest, hafter⟩ := (hstep changed hchanged).1 hrun
          obtain ⟨hhook, hreference, -⟩ := Model.addHook_eq_ok_iff.1 hchanged
          exact ⟨⟨⟨hhook, hreference⟩, hrest⟩, hafter⟩
      · rintro ⟨⟨⟨hhook, hreference⟩, hrest⟩, hafter⟩
        have hchanged : owner.addHook hook reference =
            .ok { owner with hooks := owner.hooks.insert hook reference } :=
          Model.addHook_eq_ok_iff.2 ⟨hhook, hreference, rfl⟩
        exact .inr ⟨owner, _, rfl, hchanged, (hstep _ hchanged).2 ⟨hrest, hafter⟩⟩

/-- Adding fragments neither reads the warnings nor adds any. -/
theorem execute_addFragments_warnings (model : String) (warnings : List Warning) :
    ∀ (fragments : List (String × List Selection)) (state : State),
      (addFragments model fragments).execute { state with warnings } =
        (((addFragments model fragments).execute state).1,
          ⟨((addFragments model fragments).execute state).2.graph, warnings⟩)
  | [], _ => rfl
  | (key, selection) :: fragments, state => by
      rw [execute_addFragments_cons, execute_addFragments_cons]
      cases state.graph.addFragment model key selection with
      | error e => rfl
      | ok graph => exact execute_addFragments_warnings model warnings fragments ⟨graph, _⟩

/-- Adding hooks neither reads the warnings nor adds any. -/
theorem execute_addHooks_warnings (model : String) (warnings : List Warning) :
    ∀ (hooks : List (String × String)) (state : State),
      (addHooks model hooks).execute { state with warnings } =
        (((addHooks model hooks).execute state).1,
          ⟨((addHooks model hooks).execute state).2.graph, warnings⟩)
  | [], _ => rfl
  | (hook, reference) :: hooks, state => by
      rw [execute_addHooks_cons, execute_addHooks_cons]
      cases state.graph.find? model with
      | none => rfl
      | some owner =>
        dsimp only
        cases owner.addHook hook reference with
        | error e => rfl
        | ok changed => exact execute_addHooks_warnings model warnings hooks ⟨_, _⟩

/-- The rule of fragments is lawful. -/
theorem lawful_fragmentRule : fragmentRule.Lawful where
  put_nil _ := rfl
  bare_put _ _ := rfl
  accepts_congr := accepts_fragment_congr
  execute_eq_ok_iff _ := execute_addFragments_eq_ok_iff
  execute_warnings model fragments state warnings :=
    execute_addFragments_warnings model warnings fragments state
  bare_execute _ fragments state :=
    keeps_addFragments (P := fun g => g.models.map Model.bare = state.graph.models.map Model.bare)
      (fun hbare hadd => (map_bare_addFragment hadd).trans hbare) fragments rfl

theorem lawful_hookRule : hookRule.Lawful where
  put_nil _ := rfl
  bare_put _ _ := rfl
  accepts_congr _ haccepts := haccepts
  execute_eq_ok_iff := execute_addHooks_eq_ok_iff
  execute_warnings model hooks state warnings :=
    execute_addHooks_warnings model warnings hooks state
  bare_execute model hooks state :=
    keeps_addHooks (P := fun g => g.models.map Model.bare = state.graph.models.map Model.bare)
      (fun hbare hfind hadd => by
        refine (ModelGraph.map_bare_updateFirst fun owner howner => ?_).trans hbare
        obtain rfl := Option.some.inj (howner.symm.trans hfind)
        exact Model.bare_addHook hadd) hooks rfl

/-! ## Documents

A document has each model once, so its entries change different models.  What it does is therefore
told entry by entry from the graph at the beginning: which overrides are accepted, what each model
gets, and which entries leave a warning. -/

section Documents

variable {α : Type} {rule : OverrideRule α}

/-- Every override of a built model is accepted. -/
def Accepted (rule : OverrideRule α) (g : ModelGraph) (document : List (String × Table α)) : Prop :=
  ∀ entry ∈ document, g.isBuilt entry.1 = true →
    ∀ override ∈ entry.2.entries, rule.Accepts g entry.1 override

/-- What a document has for a model. -/
def own (document : List (String × Table α)) (model : String) : List (String × α) :=
  ((Entries.get? model document).map Table.entries).getD []

/-- What a document has for a model has distinct keys, because it is a table. -/
theorem nodup_own (document : List (String × Table α)) (model : String) :
    (Entries.keys (own document model)).Nodup := by
  rw [own]
  cases Entries.get? model document with
  | none => exact List.nodup_nil
  | some overrides => exact overrides.nodup_keys

/-- **What a document makes of a graph**: every model has in its registry what the document has for
it, inserted into what was there, and is unchanged otherwise. -/
structure Overridden (rule : OverrideRule α) (document : List (String × Table α))
    (before after : ModelGraph) : Prop where
  models : List.Forall₂ (fun model changed => ∃ registry,
    Table.Inserts (own document model.name) (rule.registry model) registry ∧
      changed = rule.withRegistry registry model) before.models after.models
  discovered : after.discovered = before.discovered

/-- The graph whose models have got what a document has for them. -/
def withOverrides (rule : OverrideRule α) (document : List (String × Table α)) (g : ModelGraph) :
    ModelGraph :=
  { g with models := g.models.map fun model => rule.put (own document model.name) model }

/-- **The relation says which graph it is.**  By `Table.inserts_iff` each registry is told by what
is said of it, and the rest of a model stays, so that the models leave no choice. -/
theorem overridden_iff {document : List (String × Table α)} {before after : ModelGraph} :
    Overridden rule document before after ↔ after = withOverrides rule document before := by
  have hput : ∀ model changed : Model, (∃ registry,
      Table.Inserts (own document model.name) (rule.registry model) registry ∧
        changed = rule.withRegistry registry model) ↔
      rule.put (own document model.name) model = changed := by
    intro model changed
    simp only [Table.inserts_iff (nodup_own document model.name), exists_eq_left, eq_comm,
      OverrideRule.put]
  have hmodels : List.Forall₂ (fun model changed => rule.put (own document model.name) model =
      changed) before.models after.models ↔
      before.models.map (fun model => rule.put (own document model.name) model) = after.models := by
    rw [← List.forall₂_map_left_iff, List.forall₂_eq_eq_eq]
  constructor
  · rintro ⟨hafter, hdiscovered⟩
    simp only [hput] at hafter
    rw [withOverrides, hmodels.1 hafter, ← hdiscovered]
  · rintro rfl
    refine ⟨?_, rfl⟩
    simp only [hput]
    exact hmodels.2 rfl

/-- The warnings of the entries of models that are not built, in order. -/
def outside (rule : OverrideRule α) (g : ModelGraph) (document : List (String × Table α)) :
    List Warning :=
  (document.filter fun entry => !g.isBuilt entry.1).map fun entry =>
    .unknownOverride rule.kind entry.1

theorem accepted_cons {g : ModelGraph} {overrides : Table α} {document : List (String × Table α)} :
    Accepted rule g ((model, overrides) :: document) ↔
      (g.isBuilt model = true → ∀ override ∈ overrides.entries, rule.Accepts g model override) ∧
        Accepted rule g document := List.forall_mem_cons

/-- An entry of a built model leaves no warning. -/
theorem outside_cons_of_built {g : ModelGraph} (hbuilt : g.isBuilt model = true)
    (overrides : Table α) (document : List (String × Table α)) :
    outside rule g ((model, overrides) :: document) = outside rule g document := by
  rw [outside, List.filter_cons_of_neg (by simp [hbuilt]), outside]

/-- An entry of any other leaves one. -/
theorem outside_cons_of_unbuilt {g : ModelGraph} (hbuilt : g.isBuilt model = false)
    (overrides : Table α) (document : List (String × Table α)) :
    outside rule g ((model, overrides) :: document) =
      .unknownOverride rule.kind model :: outside rule g document := by
  rw [outside, List.filter_cons_of_pos (by simp [hbuilt])]
  rfl

/-- Whether a document is accepted depends on the bare models alone. -/
theorem accepted_congr (hrule : rule.Lawful) {g h : ModelGraph}
    (hb : g.models.map Model.bare = h.models.map Model.bare)
    {document : List (String × Table α)} (haccepted : Accepted rule g document) :
    Accepted rule h document := fun entry he hbuilt override ho =>
  hrule.accepts_congr hb (haccepted entry he
    ((ModelGraph.isBuilt_of_bare_eq hb entry.1).trans hbuilt) override ho)

/-- So does which warnings it leaves. -/
theorem outside_congr {g h : ModelGraph}
    (hb : g.models.map Model.bare = h.models.map Model.bare) (document : List (String × Table α)) :
    outside rule g document = outside rule h document := by
  simp only [outside, ModelGraph.isBuilt_of_bare_eq hb]

/-- A document has for the model of its first entry what that entry has, and for any other what the
rest has. -/
theorem own_cons (model other : String) (overrides : Table α)
    (document : List (String × Table α)) :
    own ((model, overrides) :: document) other =
      if model = other then overrides.entries else own document other := by
  rw [own, Entries.get?]
  split <;> rfl

theorem own_of_not_mem {model : String} {document : List (String × Table α)}
    (h : model ∉ Entries.keys document) : own document model = [] := by
  rw [own, (Entries.get?_eq_none_iff model document).2 h]
  rfl

theorem map_bare_put (hrule : rule.Lawful) (entries : List (String × α)) (g : ModelGraph)
    (model : String) :
    (g.update model (rule.put entries)).models.map Model.bare = g.models.map Model.bare :=
  ModelGraph.map_bare_updateFirst fun _ _ => hrule.bare_put _ _

/-- The first entry of a document changes the model of its name, which no later one does.  Here both
kinds of distinctness are used: of the models of the graph, and of the keys of the document. -/
theorem withOverrides_cons (hrule : rule.Lawful) {g : ModelGraph}
    (hnodup : (g.models.map Model.name).Nodup) {overrides : Table α}
    {document : List (String × Table α)} (hmodel : model ∉ Entries.keys document) :
    withOverrides rule document (g.update model (rule.put overrides.entries)) =
      withOverrides rule ((model, overrides) :: document) g := by
  rw [withOverrides, withOverrides, ModelGraph.update, ModelGraph.updateFirst_eq_map hnodup,
    List.map_map]
  congr 1
  refine List.map_congr_left fun other _ => ?_
  rw [Function.comp_apply, own_cons]
  by_cases hname : other.name = model
  · rw [if_pos hname, if_pos hname.symm,
      Model.name_eq_of_bare_eq (hrule.bare_put overrides.entries other), hname,
      own_of_not_mem hmodel, hrule.put_nil]
  · rw [if_neg hname, if_neg (Ne.symm hname)]

/-- An entry of a model that is not built changes nothing. -/
theorem withOverrides_cons_of_unbuilt {g : ModelGraph} (hbuilt : g.isBuilt model = false)
    (overrides : Table α) (document : List (String × Table α)) :
    withOverrides rule ((model, overrides) :: document) g = withOverrides rule document g := by
  rw [withOverrides, withOverrides]
  congr 1
  refine List.map_congr_left fun other ho => ?_
  have hne : model ≠ other.name := by
    rintro rfl
    rw [ModelGraph.isBuilt, ModelGraph.find?, List.find?_isSome.2 ⟨other, ho, by simp⟩] at hbuilt
    cases hbuilt
  rw [own_cons, if_neg hne]

/-- **A document goes through exactly if every override of a built model is accepted at the
beginning**, and then every model has got what the document has for it.  By induction on the
entries.  Each leaves the bare models as they are, so acceptance, warnings and distinct names carry
over to the graph behind it. -/
theorem execute_merge_eq_ok_iff (hrule : rule.Lawful) :
    ∀ {document : List (String × Table α)} {state : State}, (Entries.keys document).Nodup →
      (state.graph.models.map Model.name).Nodup →
      ((Session.merge rule.kind rule.attach document).execute state = (.ok (), after) ↔
        Accepted rule state.graph document ∧
          after = ⟨withOverrides rule document state.graph,
            state.warnings ++ outside rule state.graph document⟩)
  | [], state, _, _ => by
      have hnone : withOverrides rule [] state.graph = state.graph := by
        have hput : ∀ model : Model, rule.put (own [] model.name) model = model :=
          fun model => hrule.put_nil model
        rw [withOverrides]
        simp only [hput, List.map_id']
      have haccepted : Accepted rule state.graph [] := fun _ h => absurd h List.not_mem_nil
      rw [hnone, outside, List.filter_nil, List.map_nil, List.append_nil, Session.merge,
        execute_pure]
      constructor
      · rintro ⟨⟩
        exact ⟨haccepted, rfl⟩
      · rintro ⟨-, rfl⟩
        rfl
  | (model, overrides) :: document, state, hkeys, hnodup => by
      obtain ⟨hmodel, hrest⟩ := List.nodup_cons.1 hkeys
      rw [accepted_cons]
      cases hbuilt : state.graph.isBuilt model with
      | false =>
        have htail := @execute_merge_eq_ok_iff hrule document
          { state with warnings := state.warnings ++ [.unknownOverride rule.kind model] } hrest
          hnodup
        rw [execute_merge_cons_of_unbuilt hbuilt, htail, withOverrides_cons_of_unbuilt hbuilt,
          outside_cons_of_unbuilt hbuilt, List.append_assoc, List.singleton_append]
        exact and_congr_left fun _ => ⟨fun h => ⟨fun hfalse => absurd hfalse Bool.false_ne_true, h⟩,
          And.right⟩
      | true =>
        have hbare := map_bare_put hrule overrides.entries state.graph model
        have hnames := ModelGraph.map_name_eq_of_bare_eq hbare
        have htail := @execute_merge_eq_ok_iff hrule document
          { state with graph := state.graph.update model (rule.put overrides.entries) } hrest
          (hnames ▸ hnodup)
        rw [withOverrides_cons hrule hnodup hmodel, outside_congr hbare,
          ← outside_cons_of_built hbuilt overrides] at htail
        rw [execute_merge_cons_of_built hbuilt, execute_bind_eq_ok_iff]
        constructor
        · rintro ⟨_, middle, hattach, hrun⟩
          obtain ⟨haccepts, rfl⟩ := (hrule.execute_eq_ok_iff hbuilt).1 hattach
          obtain ⟨hothers, hafter⟩ := htail.1 hrun
          exact ⟨⟨fun _ => haccepts, accepted_congr hrule hbare hothers⟩, hafter⟩
        · rintro ⟨⟨haccepts, hothers⟩, hafter⟩
          exact ⟨(), _, (hrule.execute_eq_ok_iff hbuilt).2 ⟨haccepts rfl, rfl⟩,
            htail.2 ⟨accepted_congr hrule hbare.symm hothers, hafter⟩⟩

/-- **Entries of models that are not built do nothing but warn.**  Whether a document goes through
or not, it does what its entries of built models do, and adds warnings of the others: of all of
them, or of those before the one at which it ends. -/
theorem execute_merge_restrict (hrule : rule.Lawful) {p : String → Bool} :
    ∀ (document : List (String × Table α)) {state : State},
      (∀ name, state.graph.isBuilt name = p name) → ∀ warnings,
      ∃ passed, passed <+: outside rule state.graph document ∧
        (((Session.merge rule.kind rule.attach document).execute state).1 = .ok () →
          passed = outside rule state.graph document) ∧
        (Session.merge rule.kind rule.attach document).execute state =
          (((Session.merge rule.kind rule.attach
              (document.filter fun entry => p entry.1)).execute ⟨state.graph, warnings⟩).1,
            ⟨((Session.merge rule.kind rule.attach
              (document.filter fun entry => p entry.1)).execute ⟨state.graph, warnings⟩).2.graph,
              state.warnings ++ passed⟩)
  | [], state, _, _ => ⟨[], List.prefix_rfl, fun _ => rfl, by
      rw [List.append_nil]
      rfl⟩
  | (model, overrides) :: document, state, hp, warnings => by
      cases hbuilt : state.graph.isBuilt model with
      | false =>
        obtain ⟨passed, hprefix, hall, hrun⟩ := @execute_merge_restrict hrule p document
          { state with warnings := state.warnings ++ [.unknownOverride rule.kind model] } hp
          warnings
        refine ⟨.unknownOverride rule.kind model :: passed, ?_, ?_, ?_⟩
        · rw [outside_cons_of_unbuilt hbuilt]
          exact List.cons_prefix_cons.2 ⟨rfl, hprefix⟩
        · rw [outside_cons_of_unbuilt hbuilt, execute_merge_cons_of_unbuilt hbuilt]
          exact fun hok => congrArg _ (hall hok)
        · rw [execute_merge_cons_of_unbuilt hbuilt, hrun,
            List.filter_cons_of_neg (by rw [← hp, hbuilt]; exact Bool.false_ne_true),
            List.append_assoc]
          rfl
      | true =>
        have hbare := hrule.bare_execute model overrides.entries state
        have hbuilt' : (⟨state.graph, warnings⟩ : State).graph.isBuilt model = true := hbuilt
        have hwarnings := hrule.execute_warnings model overrides.entries state
        rw [outside_cons_of_built hbuilt, execute_merge_cons_of_built hbuilt,
          List.filter_cons_of_pos (by rw [← hp, hbuilt]), execute_merge_cons_of_built hbuilt',
          execute_bind, execute_bind, hwarnings warnings]
        have hown := hwarnings state.warnings
        generalize (rule.attach model overrides.entries).execute state = run at hown hbare ⊢
        obtain ⟨outcome, graph, warned⟩ := run
        obtain rfl : warned = state.warnings := congrArg (·.2.warnings) hown
        cases outcome with
        | error e => exact ⟨[], List.nil_prefix, nofun, by rw [List.append_nil]⟩
        | ok _ =>
          obtain ⟨passed, hprefix, hall, hrun⟩ := @execute_merge_restrict hrule p document
            ⟨graph, state.warnings⟩
            (fun name => (ModelGraph.isBuilt_of_bare_eq hbare name).trans (hp name)) warnings
          rw [outside_congr hbare] at hprefix hall
          exact ⟨passed, hprefix, hall, hrun⟩

/-- A document in another order has the same for every model. -/
theorem withOverrides_of_perm {document other : List (String × Table α)} (h : document.Perm other)
    (hkeys : (Entries.keys document).Nodup) (g : ModelGraph) :
    withOverrides rule document g = withOverrides rule other g := by
  simp only [withOverrides, own, Entries.get?_of_perm h hkeys]

/-- A document in another order is accepted if it is. -/
theorem accepted_of_perm {document other : List (String × Table α)} (h : document.Perm other)
    (g : ModelGraph) : Accepted rule g document ↔ Accepted rule g other :=
  forall_congr' fun _ => imp_congr_left h.mem_iff

/-- What a document attaches leaves the bare models as they are, so a second document is checked
against the same. -/
theorem map_bare_withOverrides (hrule : rule.Lawful) (document : List (String × Table α))
    (g : ModelGraph) :
    (withOverrides rule document g).models.map Model.bare = g.models.map Model.bare := by
  rw [withOverrides, List.map_map]
  exact List.map_congr_left fun model _ => hrule.bare_put _ model

end Documents

end Session

/-- A merge of documents treats every model by itself. -/
structure OverrideRule.MergesLocally {α : Type} (rule : OverrideRule α)
    (merge : ModelTable α → Session Unit) (state : Session.State) : Prop where
  /-- Entries of models that are not built only add a warning each, in order.  After a failure
  those behind it are not looked at. -/
  outside : ∀ document : ModelTable α, ∃ passed,
    passed <+: Session.outside rule state.graph document.entries ∧
      (((merge document).execute state).1 = .ok () →
        passed = Session.outside rule state.graph document.entries) ∧
      (merge document).execute state =
        (((merge (document.restrict state.graph.isBuilt)).execute state).1,
          ⟨((merge (document.restrict state.graph.isBuilt)).execute state).2.graph,
            state.warnings ++ passed⟩)
  /-- Whether a document goes through is a matter of the graph before the merge. -/
  succeeds : ∀ document : ModelTable α, ((merge document).execute state).1 = .ok () ↔
    Session.Accepted rule state.graph document.entries
  /-- Every model gets its own overrides and nothing else, and this says what the graph is. -/
  graph : ∀ document : ModelTable α, ((merge document).execute state).1 = .ok () → ∀ after,
    Session.Overridden rule document.entries state.graph after ↔
      after = ((merge document).execute state).2.graph
  /-- The order of the models in a document does not matter. -/
  perm : ∀ document other : ModelTable α, document.entries.Perm other.entries →
    (((merge document).execute state).1 = .ok () ↔ ((merge other).execute state).1 = .ok ()) ∧
      (((merge document).execute state).1 = .ok () →
        ((merge document).execute state).2.graph = ((merge other).execute state).2.graph)

namespace Session

variable {state : State}

/-- When a document goes through, and what it makes of the graph.  The keys of a document are
distinct because it is a table, so only the models of the graph need to be. -/
theorem merge_eq_ok_iff {α : Type} {rule : OverrideRule α} (hrule : rule.Lawful)
    (hnodup : (state.graph.models.map Model.name).Nodup) (document : ModelTable α) :
    (((rule.merge document).execute state).1 = .ok () ↔
        Accepted rule state.graph document.entries) ∧
      (((rule.merge document).execute state).1 = .ok () →
        (rule.merge document).execute state =
          (.ok (), ⟨withOverrides rule document.entries state.graph,
            state.warnings ++ outside rule state.graph document.entries⟩)) := by
  have hiff := fun after =>
    @execute_merge_eq_ok_iff after _ rule hrule document.entries state document.nodup_keys hnodup
  have hrun : ((rule.merge document).execute state).1 = .ok () →
      (rule.merge document).execute state =
        (.ok (), ((rule.merge document).execute state).2) := fun hok => by rw [← hok]
  refine ⟨⟨fun hok => ((hiff _).1 (hrun hok)).1, fun haccepted => ?_⟩, fun hok => ?_⟩
  · exact congrArg Prod.fst ((hiff _).2 ⟨haccepted, rfl⟩)
  · rw [hrun hok, ((hiff _).1 (hrun hok)).2]

/-- **A lawful rule merges locally.**  The parts of the conclusion are those of
`execute_merge_restrict` and of `execute_merge_eq_ok_iff`. -/
theorem mergesLocally_of_lawful {α : Type} {rule : OverrideRule α} (hrule : rule.Lawful)
    (hnodup : (state.graph.models.map Model.name).Nodup) :
    rule.MergesLocally rule.merge state where
  outside document :=
    execute_merge_restrict hrule document.entries (fun _ => rfl) state.warnings
  succeeds document := (merge_eq_ok_iff hrule hnodup document).1
  graph document hok after := by
    rw [(merge_eq_ok_iff hrule hnodup document).2 hok]
    exact overridden_iff
  perm document other hperm := by
    have hiff : ((rule.merge document).execute state).1 = .ok () ↔
        ((rule.merge other).execute state).1 = .ok () := by
      rw [(merge_eq_ok_iff hrule hnodup document).1, (merge_eq_ok_iff hrule hnodup other).1]
      exact accepted_of_perm hperm state.graph
    refine ⟨hiff, fun hok => ?_⟩
    rw [(merge_eq_ok_iff hrule hnodup document).2 hok,
      (merge_eq_ok_iff hrule hnodup other).2 (hiff.1 hok)]
    exact withOverrides_of_perm hperm document.nodup_keys state.graph

/-- Two documents of different kinds go through one after the other exactly if both would go through
alone, and then every model has what both have for it. -/
theorem execute_merge_bind_eq_ok_iff {α β : Type} {rule : OverrideRule α} {next : OverrideRule β}
    (hrule : rule.Lawful) (hnext : next.Lawful)
    (hnodup : (state.graph.models.map Model.name).Nodup) (document : ModelTable α)
    (other : ModelTable β) {after : State} :
    (rule.merge document >>= fun _ => next.merge other).execute state = (.ok (), after) ↔
      (Accepted rule state.graph document.entries ∧ Accepted next state.graph other.entries) ∧
        after = ⟨withOverrides next other.entries
            (withOverrides rule document.entries state.graph),
          state.warnings ++ outside rule state.graph document.entries ++
            outside next state.graph other.entries⟩ := by
  have hbare := map_bare_withOverrides hrule document.entries state.graph
  have hnames := ModelGraph.map_name_eq_of_bare_eq hbare
  have hsecond := @execute_merge_eq_ok_iff after _ next hnext other.entries
    ⟨withOverrides rule document.entries state.graph,
      state.warnings ++ outside rule state.graph document.entries⟩ other.nodup_keys
      (hnames ▸ hnodup)
  rw [outside_congr hbare] at hsecond
  rw [execute_bind_eq_ok_iff]
  constructor
  · rintro ⟨_, middle, hfirst, hrun⟩
    obtain ⟨haccepted, rfl⟩ :=
      (execute_merge_eq_ok_iff hrule document.nodup_keys hnodup).1 hfirst
    obtain ⟨hothers, hafter⟩ := hsecond.1 hrun
    exact ⟨⟨haccepted, accepted_congr hnext hbare hothers⟩, hafter⟩
  · rintro ⟨⟨haccepted, hothers⟩, hafter⟩
    exact ⟨(), _, (execute_merge_eq_ok_iff hrule document.nodup_keys hnodup).2 ⟨haccepted, rfl⟩,
      hsecond.2 ⟨accepted_congr hnext hbare.symm hothers, hafter⟩⟩

/-- Fragments and hooks do not get in each other's way. -/
theorem withOverrides_comm (fragments : List (String × Table (List Selection)))
    (hooks : List (String × Table String)) (g : ModelGraph) :
    withOverrides hookRule hooks (withOverrides fragmentRule fragments g) =
      withOverrides fragmentRule fragments (withOverrides hookRule hooks g) := by
  rw [withOverrides, withOverrides, withOverrides, withOverrides, List.map_map, List.map_map]
  rfl

/-- On a graph whose models have distinct names, overrides stay with their model: both merges treat
every model by itself, and it does not matter which of the two comes first. -/
theorem merges_locally (hnodup : (state.graph.models.map Model.name).Nodup) :
    fragmentRule.MergesLocally mergeFragments state ∧ hookRule.MergesLocally mergeHooks state ∧
      ∀ fragments hooks,
        (((mergeFragments fragments >>= fun _ => mergeHooks hooks).execute state).1 = .ok () ↔
          ((mergeHooks hooks >>= fun _ => mergeFragments fragments).execute state).1 = .ok ()) ∧
        (((mergeFragments fragments >>= fun _ => mergeHooks hooks).execute state).1 = .ok () →
          ((mergeFragments fragments >>= fun _ => mergeHooks hooks).execute state).2.graph =
            ((mergeHooks hooks >>= fun _ => mergeFragments fragments).execute state).2.graph) := by
  refine ⟨mergesLocally_of_lawful lawful_fragmentRule hnodup,
    mergesLocally_of_lawful lawful_hookRule hnodup, fun fragments hooks => ?_⟩
  have hone := fun after => @execute_merge_bind_eq_ok_iff state _ _ fragmentRule hookRule
    lawful_fragmentRule lawful_hookRule hnodup fragments hooks after
  have hother := fun after => @execute_merge_bind_eq_ok_iff state _ _ hookRule fragmentRule
    lawful_hookRule lawful_fragmentRule hnodup hooks fragments after
  have hone' : ((fragmentRule.merge fragments >>= fun _ => hookRule.merge hooks).execute
      state).1 = .ok () ↔ Accepted fragmentRule state.graph fragments.entries ∧
        Accepted hookRule state.graph hooks.entries :=
    ⟨fun hok => ((hone _).1 (Prod.ext hok rfl)).1,
      fun haccepted => congrArg Prod.fst ((hone _).2 ⟨haccepted, rfl⟩)⟩
  have hother' : ((hookRule.merge hooks >>= fun _ => fragmentRule.merge fragments).execute
      state).1 = .ok () ↔ Accepted hookRule state.graph hooks.entries ∧
        Accepted fragmentRule state.graph fragments.entries :=
    ⟨fun hok => ((hother _).1 (Prod.ext hok rfl)).1,
      fun haccepted => congrArg Prod.fst ((hother _).2 ⟨haccepted, rfl⟩)⟩
  refine ⟨hone'.trans (and_comm.trans hother'.symm), fun hok => ?_⟩
  have haccepted := hone'.1 hok
  have hgraph := congrArg (·.2.graph) ((hone _).2 ⟨haccepted, rfl⟩)
  have hgraph' := congrArg (·.2.graph) ((hother _).2 ⟨haccepted.symm, rfl⟩)
  exact hgraph.trans ((withOverrides_comm _ _ _).trans hgraph'.symm)

/-- Two models that lead to each other. -/
def pairedState : State where
  graph := ⟨[.ofFields "Blog" (Table.ofList [("id", "ID!"), ("posts", "[Post]")]) [],
    .ofFields "Post" (Table.ofList [("id", "ID!"), ("blog", "Blog")]) []], ["Blog", "Post"]⟩
  warnings := []

/-- Fragments for one of them, of which the second takes the place of one that is there, and for a
model that is not built. -/
def pairedFragments : FragmentOverrides :=
  Table.ofList [("Author", Table.ofList [("Short", [.field "name"])]),
    ("Blog", Table.ofList [("Posts", [.nested [("posts", [.field "id"])]]),
      (Model.defaultFragment, [.field "posts"])])]

theorem merges_locally_paired :
    (pairedState.graph.models.map Model.name).Nodup ∧
      fragmentRule.MergesLocally mergeFragments pairedState ∧
      hookRule.MergesLocally mergeHooks pairedState ∧
      ((mergeFragments pairedFragments).execute pairedState).1 = .ok () ∧
      ((mergeFragments pairedFragments).execute pairedState).2.graph.models.map
          (·.fragments.entries) =
        [[(Model.defaultFragment, [.field "posts"]),
            ("Posts", [.nested [("posts", [.field "id"])]])],
          [(Model.defaultFragment, [.field "id"])]] ∧
      ((mergeFragments pairedFragments).execute pairedState).2.warnings =
        [.unknownOverride .fragment "Author"] :=
  have hnodup : (pairedState.graph.models.map Model.name).Nodup := by decide
  ⟨hnodup, (merges_locally hnodup).1, (merges_locally hnodup).2.1, rfl, rfl, rfl⟩

end Session

end SchemaAccess
