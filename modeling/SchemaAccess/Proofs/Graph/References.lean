import SchemaAccess.Proofs.Graph.Runs

/-!
# What a refused fragment is told

A selection refers to fields: by the bare names in it and by the keys above other selections.  A
reference is the path of keys that leads to a name, with the name at its end.  Adding a fragment
tells all references that do not exist, not only the first, and then nothing has happened; or it
sets one entry of one model.

* `Selection.references` — all references of a selection, in the order in which it is written.
* `ModelGraph.level?` — the model that the names below a path of keys belong to.
* `ModelGraph.offends` — a reference whose level is there, but without a field of its name.
* `unknownFields_eq_map` — the unknown names are the offending references of the whole selection.
* `SetsEntry`, `ModelGraph.SetsFragment` — one entry of a table, of one model of a graph, is set.
* `execute_addFragment` — what adding a fragment does to any state.
-/

namespace SchemaAccess

/-! ## References

A selection is a list of names and of branches below keys.  The functions follow the three types
that make it up, and so do the lemmas about them. -/

namespace Selection

mutual

/-- The references of a selection.  A key stands before what is selected below it. -/
def references : List Selection → List (List String)
  | [] => []
  | entry :: entries => entryReferences entry ++ references entries

/-- The references of one entry. -/
def entryReferences : Selection → List (List String)
  | .field name => [[name]]
  | .nested branches => branchReferences branches

/-- The references of branches. -/
def branchReferences : List (String × List Selection) → List (List String)
  | [] => []
  | (key, below) :: branches =>
    [key] :: (references below).map (key :: ·) ++ branchReferences branches

end

mutual

/-- A reference has at least the name that it leads to.  The three lemmas go through the parts of a
selection together. -/
theorem ne_nil_of_mem_references {path : List String} :
    ∀ {selection}, path ∈ references selection → path ≠ []
  | [], h => by simp [references] at h
  | entry :: entries, h => by
      rw [references, List.mem_append] at h
      exact h.elim ne_nil_of_mem_entryReferences ne_nil_of_mem_references

theorem ne_nil_of_mem_entryReferences {path : List String} :
    ∀ {entry}, path ∈ entryReferences entry → path ≠ []
  | .field _, h => by
      rw [entryReferences, List.mem_singleton] at h
      exact h ▸ List.cons_ne_nil _ _
  | .nested _, h => by
      rw [entryReferences] at h
      exact ne_nil_of_mem_branchReferences h

theorem ne_nil_of_mem_branchReferences {path : List String} :
    ∀ {branches}, path ∈ branchReferences branches → path ≠ []
  | [], h => by simp [branchReferences] at h
  | (key, below) :: branches, h => by
      rw [branchReferences, List.cons_append, List.mem_cons, List.mem_append] at h
      obtain rfl | h | h := h
      · exact List.cons_ne_nil _ _
      · obtain ⟨rest, -, rfl⟩ := List.mem_map.1 h
        exact List.cons_ne_nil _ _
      · exact ne_nil_of_mem_branchReferences h

end

/-- A reference as it is told. -/
def dotted (path : List String) : String := ".".intercalate path

/-- A key is told in front of what stands below it, with a dot between them. -/
theorem dotted_cons (key : String) {path : List String} (h : path ≠ []) :
    dotted (key :: path) = key ++ "." ++ dotted path := by
  obtain ⟨name, rest, rfl⟩ := List.exists_cons_of_ne_nil h
  exact String.intercalate_cons_cons

end Selection

namespace ModelGraph

/-! ## Levels

A path of keys leads from model to model.  It stops being checked at a model that is not built, so a
reference behind such a model never offends. -/

/-- The model that a field of a model leads to, if it is built. -/
def target? (g : ModelGraph) (model : Model) (key : String) : Option Model :=
  (model.fieldType? key).bind fun type => g.find? (TypeText.baseName type)

/-- The model of the names below a path of keys, if every key on the way leads to a built one. -/
def level? (g : ModelGraph) (model : Model) : List String → Option Model
  | [] => some model
  | key :: keys => (g.target? model key).bind fun target => g.level? target keys

/-- True of a reference whose level is there, but has no field of its name. -/
def offends (g : ModelGraph) (model : Model) (path : List String) : Bool :=
  path.getLast?.any fun name =>
    (g.level? model path.dropLast).any fun level => !level.fields.contains name

variable (g : ModelGraph) (model : Model)

/-- A bare name offends if the model has no field of it. -/
@[simp]
theorem offends_singleton (name : String) :
    g.offends model [name] = !model.fields.contains name := rfl

/-- **Below a key, what offends is what offends at the level that the key leads to.**  If it leads
to no built model, nothing does. -/
theorem offends_cons (key : String) {path : List String} (h : path ≠ []) :
    g.offends model (key :: path) =
      (g.target? model key).any fun target => g.offends target path := by
  obtain ⟨name, rest, rfl⟩ := List.exists_cons_of_ne_nil h
  rw [offends, List.getLast?_cons_cons, List.dropLast_cons_cons, level?]
  cases g.target? model key with
  | none => simp
  | some target => rfl

/-- A field without a type is no field. -/
theorem contains_eq_isSome (name : String) :
    model.fields.contains name = (model.fieldType? name).isSome := by
  rw [Bool.eq_iff_iff, Table.contains_iff, Option.isSome_iff_ne_none, Ne, Model.fieldType?,
    Table.get?_eq_none_iff, not_not]

/-! ## What is told

The check goes through a selection and collects the names that are unknown, with the path that leads
to them.  It is compared with a filter on all references, so that it is seen that none is missing,
none is added and none is moved. -/

/-- The offending references at and below one key. -/
theorem filter_offends_branch (key : String) {paths : List (List String)}
    (h : ∀ path ∈ paths, path ≠ []) :
    ([key] :: paths.map (key :: ·)).filter (g.offends model) =
      match model.fieldType? key with
      | none => [[key]]
      | some type =>
        match g.find? (TypeText.baseName type) with
        | none => []
        | some target => (paths.filter (g.offends target)).map (key :: ·) := by
  have hbelow : (paths.map (key :: ·)).filter (g.offends model) =
      (paths.filter fun path => (g.target? model key).any (g.offends · path)).map (key :: ·) := by
    rw [List.filter_map]
    exact congrArg _ (List.filter_congr fun path hp => g.offends_cons model key (h path hp))
  rw [List.filter_cons, offends_singleton, contains_eq_isSome, hbelow, target?]
  cases model.fieldType? key with
  | none => simp
  | some type => cases htarget : g.find? (TypeText.baseName type) <;> simp [htarget]

mutual

/-- **The unknown names of a selection are its offending references**: all of them, in their order,
as often as they stand there.  The induction is on the selection, for all models and paths at once,
because a branch is checked at another model and behind a longer path. -/
theorem unknownFields_eq_map (model : Model) (path : String) : ∀ selection,
    g.unknownFields model path selection =
      ((Selection.references selection).filter (g.offends model)).map
        fun names => path ++ Selection.dotted names
  | [] => rfl
  | entry :: entries => by
      rw [unknownFields, unknownInEntry_eq_map model, unknownFields_eq_map model,
        Selection.references, List.filter_append, List.map_append]

theorem unknownInEntry_eq_map (model : Model) (path : String) : ∀ entry,
    g.unknownInEntry model path entry =
      ((Selection.entryReferences entry).filter (g.offends model)).map
        fun names => path ++ Selection.dotted names
  | .field name => by
      rw [unknownInEntry, Selection.entryReferences, List.filter_singleton, offends_singleton]
      cases model.fields.contains name <;> simp [Selection.dotted]
  | .nested branches => by
      rw [unknownInEntry, Selection.entryReferences, unknownInBranches_eq_map model]

theorem unknownInBranches_eq_map (model : Model) (path : String) : ∀ branches,
    g.unknownInBranches model path branches =
      ((Selection.branchReferences branches).filter (g.offends model)).map
        fun names => path ++ Selection.dotted names
  | [] => rfl
  | (key, below) :: branches => by
      have hpaths : ∀ names ∈ Selection.references below, names ≠ [] :=
        fun _ => Selection.ne_nil_of_mem_references
      rw [unknownInBranches, unknownInBranches_eq_map model, Selection.branchReferences,
        List.filter_append, List.map_append, filter_offends_branch g model key hpaths]
      congr 1
      cases model.fieldType? key with
      | none => simp [Selection.dotted]
      | some type =>
        dsimp only
        cases g.find? (TypeText.baseName type) with
        | none => rfl
        | some target =>
          simp only [unknownFields_eq_map target, List.map_map]
          refine List.map_congr_left fun names hn => ?_
          have hne := hpaths names (List.mem_filter.1 hn).1
          simp [Selection.dotted_cons key hne, String.append_assoc]

end

end ModelGraph

/-! ## One entry is set

What adding a fragment does to a graph is said without the functions that do it, as a relation
between two lists of models that differ in one entry of one registry. -/

/-- The second list is the first with the value of one key set: in the old place of the key, or at
the end if there was no such key. -/
inductive SetsEntry {α : Type} (key : String) (a : α) :
    List (String × α) → List (String × α) → Prop
  | inPlace {before after : List (String × α)} {old : α} (first : key ∉ Entries.keys before) :
    SetsEntry key a (before ++ (key, old) :: after) (before ++ (key, a) :: after)
  | atEnd {entries : List (String × α)} (fresh : key ∉ Entries.keys entries) :
    SetsEntry key a entries (entries ++ [(key, a)])

/-- Inserting into a list of entries sets one of them, and touches no other. -/
theorem setsEntry_insert {α : Type} (key : String) (a : α) :
    ∀ entries, SetsEntry key a entries (Entries.insert key a entries)
  | [] => @SetsEntry.atEnd _ key a [] List.not_mem_nil
  | (k, b) :: rest => by
      rw [Entries.insert]
      split
      · next h =>
        subst h
        exact @SetsEntry.inPlace _ k a [] rest b List.not_mem_nil
      · next h =>
        have hkey : ∀ {keys : List String}, key ∉ keys → key ∉ k :: keys :=
          fun hk => List.not_mem_cons_of_ne_of_not_mem (Ne.symm h) hk
        generalize hinsert : Entries.insert key a rest = inserted
        have ih : SetsEntry key a rest inserted := hinsert ▸ setsEntry_insert key a rest
        cases ih with
        | inPlace first => exact @SetsEntry.inPlace _ key a ((k, b) :: _) _ _ (hkey first)
        | atEnd fresh => exact @SetsEntry.atEnd _ key a ((k, b) :: rest) (hkey fresh)

/-- The second graph is the first but for one fragment of the built model of a name. -/
structure ModelGraph.SetsFragment (model key : String) (selection : List Selection)
    (g h : ModelGraph) : Prop where
  discovered : h.discovered = g.discovered
  /-- The built model is the first of its name. -/
  models : ∃ before owner after fragments,
    g.models = before ++ owner :: after ∧ owner.name = model ∧
    (∀ other ∈ before, other.name ≠ model) ∧
    h.models = before ++ { owner with fragments } :: after ∧
    SetsEntry key selection owner.fragments.entries fragments.entries

/-- The first model of a name is changed, and those before and behind it stay. -/
theorem ModelGraph.updateFirst_append {model : String} (f : Model → Model) {owner : Model}
    (hown : owner.name = model) (after : List Model) :
    ∀ {before : List Model}, (∀ other ∈ before, other.name ≠ model) →
      updateFirst model f (before ++ owner :: after) = before ++ f owner :: after
  | [], _ => if_pos hown
  | other :: before, h => by
      rw [List.cons_append, updateFirst, if_neg (h other List.mem_cons_self),
        updateFirst_append f hown after fun m hm => h m (List.mem_cons_of_mem _ hm)]
      rfl

/-- Setting a fragment of the built model of a name changes that fragment alone. -/
theorem ModelGraph.setsFragment_update {g : ModelGraph} {model : String} {owner : Model}
    (h : g.find? model = some owner) (key : String) (selection : List Selection) :
    SetsFragment model key selection g (g.update model (·.setFragment key selection)) where
  discovered := rfl
  models := by
    obtain ⟨hown, before, after, hmodels, hbefore⟩ := List.find?_eq_some_iff_append.1 h
    have hbefore : ∀ other ∈ before, other.name ≠ model := by simpa using hbefore
    have hown := of_decide_eq_true hown
    refine ⟨before, owner, after, owner.fragments.insert key selection, hmodels, hown, hbefore,
      ?_, setsEntry_insert key selection _⟩
    rw [update, hmodels, updateFirst_append _ hown after hbefore]
    rfl

/-! ## Adding a fragment

The three outcomes of adding a fragment, each with the state that it leaves. -/

/-- **Adding a fragment to any state.**  Without a built model of the name it is refused; otherwise
it is added exactly if no reference of its selection offends, and then it is all that changes.  If
some do, it is refused, all of them are told, and nothing changes. -/
theorem execute_addFragment (model key : String) (selection : List Selection)
    (state : Session.State) :
    match state.graph.find? model with
    | none =>
      (Change.addFragment model key selection).session.execute state =
        (.error (.config (.modelNotBuilt model)), state)
    | some owner =>
      match (Selection.references selection).filter (state.graph.offends owner) with
      | [] => ∃ graph, state.graph.SetsFragment model key selection graph ∧
        (Change.addFragment model key selection).session.execute state =
          (.ok (), { state with graph })
      | offending =>
        (Change.addFragment model key selection).session.execute state =
          (.error (.unknownFields model key (offending.map Selection.dotted)), state) := by
  simp only [Change.session, Session.execute_bind, Session.execute_get, Session.execute_lift,
    Session.setGraph, Session.execute_modify]
  cases hfind : state.graph.find? model with
  | none => simp [ModelGraph.addFragment, hfind]
  | some owner =>
    have htold := state.graph.unknownFields_eq_map owner "" selection
    simp only [String.empty_append] at htold
    dsimp only
    cases hoff : (Selection.references selection).filter (state.graph.offends owner) with
    | nil =>
      refine ⟨_, ModelGraph.setsFragment_update hfind key selection, ?_⟩
      simp [ModelGraph.addFragment, hfind, htold, hoff]
    | cons path paths => simp [ModelGraph.addFragment, hfind, htold, hoff]

/-- Names are told with the keys above them and as often as they stand there; nothing is checked
below a field that leads to no built model. -/
example :
    let blog := Model.ofFields "Blog" (Table.ofList [("id", "ID!"), ("posts", "[Post]")]) []
    let post := Model.ofFields "Post" (Table.ofList [("id", "ID!"), ("blog", "Blog")]) []
    (Selection.references
      [.field "titel", .nested [("posts", [.field "id", .nested [("blog", [.field "nam"])]])],
        .nested [("id", [.field "any"]), ("none", [.field "any"])], .field "titel"]).filter
      (ModelGraph.offends ⟨[blog, post], []⟩ blog) =
    [["titel"], ["posts", "blog", "nam"], ["none"], ["titel"]] := by decide +kernel

end SchemaAccess
