import Mathlib.Data.List.Pairwise
import Mathlib.Data.List.Nodup
import SchemaAccess.Emission
import SchemaAccess.Proofs.Generation.Run
import SchemaAccess.Proofs.Loose.Chunks

/-!
# One module for each model

A model has a file of its own, whose path is made of the name of the model alone.  So the modules
are as many as the names, and a type that the schema declares as a model twice loses one of them.

* `Shelf` — where files are put by their paths and read back.
* `run_emitFiles` — what emitting writes if every file can be rendered.
* `nodup_paths_iff` — no two files have one path exactly if no two models have one name.
* `Generation.HasOneModuleEach` — the models come out in order, each with a file of its own.
* `hasOneModuleEach_iff` — this holds exactly if no model is declared twice.
* `not_hasOneModuleEach_blogsTwice` — a schema that declares a model twice.
-/

namespace SchemaAccess

/-! ## Writing to a shelf -/

/-- A place where files are put by their paths and read back. -/
structure Shelf (σ : Type) where
  /-- Gives the file at a path a text. -/
  put : String → String → σ → σ
  /-- The text of the file at a path. -/
  text? : σ → String → Option String
  text?_put : ∀ path contents state other, text? (put path contents state) other =
    if other = path then some contents else text? state other

/-- A renderer has these texts for planned files. -/
def Renderer.Renders (renderer : Renderer) (textOf : PlannedFile → String)
    (files : List PlannedFile) : Prop :=
  ∀ file ∈ files, renderer.render file.template file.bindings = .ok (textOf file)

namespace Shelf

variable {σ : Type} (shelf : Shelf σ) {textOf : PlannedFile → String}

/-- Writes a file; this never fails. -/
def write (path contents : String) : ExceptT Error (StateM σ) Unit :=
  modify (shelf.put path contents)

/-- The state in which the files have been put in order. -/
def putAll (textOf : PlannedFile → String) (files : List PlannedFile) (state : σ) : σ :=
  files.foldl (fun state file => shelf.put file.path (textOf file) state) state

/-- A path that no file has keeps its text. -/
theorem text?_putAll_of_not_mem {path : String} : ∀ {files : List PlannedFile} (state : σ),
    path ∉ files.map PlannedFile.path →
      shelf.text? (shelf.putAll textOf files state) path = shelf.text? state path
  | [], _, _ => rfl
  | file :: files, state, h => by
      rw [List.map_cons, List.mem_cons, not_or] at h
      rw [putAll, List.foldl_cons, ← putAll, text?_putAll_of_not_mem _ h.2, shelf.text?_put,
        if_neg h.1]

/-- Where no two files have one path, each has its own text in the end. -/
theorem text?_putAll_of_mem {file : PlannedFile} : ∀ {files : List PlannedFile} (state : σ),
    (files.map PlannedFile.path).Nodup → file ∈ files →
      shelf.text? (shelf.putAll textOf files state) file.path = some (textOf file)
  | first :: files, state, hnodup, hm => by
      rw [List.map_cons, List.nodup_cons] at hnodup
      rw [putAll, List.foldl_cons, ← putAll]
      rcases List.mem_cons.1 hm with rfl | hm
      · rw [shelf.text?_putAll_of_not_mem _ hnodup.1, shelf.text?_put, if_pos rfl]
      · exact text?_putAll_of_mem _ hnodup.2 hm

end Shelf

section Emission

variable {σ : Type} (shelf : Shelf σ) {renderer : Renderer} {textOf : PlannedFile → String}

/-- Files that can be rendered are put on the shelf in order, and all of them are counted. -/
theorem run_emitFiles : ∀ {files : List PlannedFile} (written : Nat) (state : σ),
    renderer.Renders textOf files →
      (emitFiles renderer.run shelf.write written files).run.run state =
        (.ok (written + files.length), shelf.putAll textOf files state)
  | [], _, _, _ => rfl
  | file :: files, written, state, h => by
      have hfirst : (renderer.run file.template file.bindings : ExceptT Error (StateM σ) String) =
          pure (textOf file) :=
        congrArg (fun rendered => ExceptT.mk (pure rendered)) (h file List.mem_cons_self)
      have hrest := run_emitFiles (written + 1) (shelf.put file.path (textOf file) state)
        fun other hother => h other (List.mem_cons_of_mem _ hother)
      rw [Nat.add_assoc, Nat.add_comm 1] at hrest
      rw [emitFiles, hfirst]
      exact hrest

/-- There is one file for each collection, and three more. -/
theorem length_plan (g : Generation) (fileExtension : String) (useESM : Bool) :
    (plan g fileExtension useESM).length = g.collections.length + 3 := by
  rw [plan, List.length_append, List.length_map]
  rfl

/-- A generation that can be rendered is put on the shelf file by file. -/
theorem run_emit {g : Generation} {useESM : Bool}
    (h : renderer.Renders textOf (plan g renderer.fileExtension useESM)) (state : σ) :
    (emit renderer shelf.write g useESM).run.run state =
      (.ok (g.collections.length + 3),
        shelf.putAll textOf (plan g renderer.fileExtension useESM) state) := by
  have hfiles := run_emitFiles shelf 0 state h
  rw [Nat.zero_add, length_plan] at hfiles
  exact hfiles

end Emission

/-! ## Paths -/

/-- The file of a collection stands in the folder of the collections, unless its name is a path from
the root. -/
theorem collectionPath_eq (name fileExtension : String) :
    collectionPath name fileExtension =
      if Path.isAbsolute (name ++ "." ++ fileExtension) then name ++ "." ++ fileExtension
      else "collections/" ++ (name ++ "." ++ fileExtension) := by
  rw [collectionPath, Path.join]
  split
  · rfl
  · rw [if_neg (by decide), String.append_assoc]
    rfl

/-- The path of the file of a collection begins at the root or with the name of the folder. -/
theorem collectionPath_ne {path : String} {c : Char} (h : path.toList.head? = some c)
    (hc : c ≠ '/' ∧ c ≠ 'c') (name fileExtension : String) :
    collectionPath name fileExtension ≠ path := by
  rintro rfl
  rw [collectionPath_eq] at h
  split at h
  · next habsolute =>
    rw [Path.isAbsolute, decide_eq_true_eq, h] at habsolute
    exact hc.1 (Option.some.inj habsolute)
  · rw [String.toList_append] at h
    exact hc.2 (Option.some.inj h).symm

/-- The path of the file of a collection tells its name. -/
theorem collectionPath_injective (fileExtension : String) :
    Function.Injective (collectionPath · fileExtension) := by
  have hname : ∀ name other : String,
      name ++ "." ++ fileExtension = other ++ "." ++ fileExtension → name = other :=
    fun name other h => (String.append_left_inj ".").1 ((String.append_left_inj fileExtension).1 h)
  have hfolder : ∀ path : String, ¬ Path.isAbsolute ("collections/" ++ path) = true := by
    intro path
    rw [Path.isAbsolute, String.toList_append]
    exact Bool.false_ne_true
  intro name other h
  simp only [collectionPath_eq] at h
  split at h <;> split at h
  · exact hname name other h
  · next habsolute _ => exact absurd (h ▸ habsolute) (hfolder _)
  · next habsolute => exact absurd (h ▸ habsolute) (hfolder _)
  · exact hname name other ((String.append_right_inj _).1 h)

/-- No collection is called like the index of all collections. -/
theorem collectionName_ne_index (model : Model) : model.collectionName ≠ "index" := by
  intro h
  have hlast := congrArg (fun name : String => name.toList.getLast?) h
  simp [Model.collectionName] at hlast

/-- No two files of a generation have one path exactly if no two models have one name. -/
theorem nodup_paths_iff (g : Generation) (fileExtension : String) (useESM : Bool) :
    ((plan g fileExtension useESM).map PlannedFile.path).Nodup ↔ g.modelNames.Nodup := by
  have hpaths : (plan g fileExtension useESM).map PlannedFile.path =
      g.modelNames.map (fun name => collectionPath (name ++ "s") fileExtension) ++
        [collectionPath "index" fileExtension, "queryInputs." ++ fileExtension,
          "inputTypes." ++ fileExtension] := by
    rw [plan, List.map_append, List.map_map, Generation.modelNames, List.map_map]
    rfl
  have hinjective : Function.Injective fun name => collectionPath (name ++ "s") fileExtension :=
    fun _ _ h => (String.append_left_inj "s").1 (collectionPath_injective fileExtension h)
  have hqueries : ∀ name, collectionPath name fileExtension ≠ "queryInputs." ++ fileExtension :=
    fun name => collectionPath_ne (c := 'q') (by rw [String.toList_append]; rfl) (by decide) name _
  have htypes : ∀ name, collectionPath name fileExtension ≠ "inputTypes." ++ fileExtension :=
    fun name => collectionPath_ne (c := 'i') (by rw [String.toList_append]; rfl) (by decide) name _
  have hothers : "queryInputs." ++ fileExtension ≠ "inputTypes." ++ fileExtension :=
    fun h => absurd ((String.append_left_inj fileExtension).1 h) (by decide)
  rw [hpaths, List.nodup_append, List.nodup_map_iff hinjective]
  refine and_iff_left ⟨?_, ?_⟩
  · simp [hqueries, htypes, hothers]
  · intro path hpath other hother
    obtain ⟨name, hname, rfl⟩ := List.mem_map.1 hpath
    obtain ⟨collection, -, rfl⟩ := List.mem_map.1 hname
    simp only [List.mem_cons, List.not_mem_nil, or_false] at hother
    rcases hother with rfl | rfl | rfl
    · exact fun h =>
        collectionName_ne_index collection.model (collectionPath_injective fileExtension h)
    · exact hqueries _
    · exact htypes _

/-! ## One module for each model -/

/-- However the files are rendered and wherever they are put, all of them are written, and in the
end the file of each collection has its own text. -/
def Generation.KeepsModules (generation : Generation) : Prop :=
  ∀ {σ : Type} (shelf : Shelf σ) (renderer : Renderer) (useESM : Bool)
    (textOf : PlannedFile → String),
    renderer.Renders textOf (plan generation renderer.fileExtension useESM) →
    ∀ state, ∃ after,
      (emit renderer shelf.write generation useESM).run.run state =
        (.ok (generation.modelNames.length + 3), after) ∧
      ∀ collection ∈ generation.collections,
        shelf.text? after (collectionPath collection.name renderer.fileExtension) =
          some (textOf (collectionFile renderer.fileExtension useESM collection))

/-- The models of a generation have these names, each once and in order, and each has a file of its
own. -/
structure Generation.HasOneModuleEach (generation : Generation) (names : List String) : Prop where
  ascending : generation.modelNames.Pairwise (· < ·)
  mem_modelNames_iff : ∀ name, name ∈ generation.modelNames ↔ name ∈ names
  nodup_paths : ∀ fileExtension useESM,
    ((plan generation fileExtension useESM).map PlannedFile.path).Nodup
  keepsModules : generation.KeepsModules

/-- Where no two models have one name, no file is written over. -/
theorem Generation.keepsModules_of_nodup {generation : Generation}
    (h : generation.modelNames.Nodup) : generation.KeepsModules := by
  intro σ shelf renderer useESM textOf hrenders state
  refine ⟨shelf.putAll textOf (plan generation renderer.fileExtension useESM) state, ?_, ?_⟩
  · rw [Generation.modelNames, List.length_map]
    exact run_emit shelf hrenders state
  · intro collection hc
    exact shelf.text?_putAll_of_mem state ((nodup_paths_iff ..).2 h)
      (List.mem_append_left _ (List.mem_map_of_mem hc))

/-- The models come out in order with a module each exactly if no model of the build set is declared
twice. -/
theorem hasOneModuleEach_iff {view : SchemaView} {buildSet : List String}
    {fragments : FragmentOverrides} {hooks : HookOverrides} {declarations : List ModelDeclaration}
    {generation : Generation} (hmodels : view.models = .ok declarations)
    (h : generate view buildSet fragments hooks = .ok generation) :
    generation.HasOneModuleEach (selectedNames buildSet declarations) ↔
      (selectedNames buildSet declarations).Nodup := by
  have hperm := modelNames_perm_of_generate hmodels h
  constructor
  · intro hall
    refine hperm.nodup_iff.1 (hall.ascending.imp fun {name other} hlt heq => ?_)
    exact String.lt_irrefl other (heq ▸ hlt)
  · intro hnodup
    have hnames := hperm.nodup_iff.2 hnodup
    exact {
      ascending := (pairwise_modelNames_of_generate h).imp₂
        (fun _ _ hle hne => Std.lt_of_le_of_ne hle hne) hnames
      mem_modelNames_iff := fun _ => hperm.mem_iff
      nodup_paths := fun fileExtension useESM => (nodup_paths_iff ..).2 hnames
      keepsModules := Generation.keepsModules_of_nodup hnames }

/-! ## Blogs that are declared twice -/

section Texts

open Loose

/-- A schema that declares each of its models once. -/
def blogsAndPostsText : String := "\n".intercalate [postType, blogType]

/-- A schema that declares a model twice. -/
def blogsTwiceText : String := "\n".intercalate [blogType, blogType]

theorem blocks_blogsAndPosts :
    blocks (clean blogsAndPostsText.toList) = [blockOf "Post", blockOf "Blog"] := by
  rw [blogsAndPostsText, blocks_clean_intercalate (by simp [isChunk_blogType, isChunk_postType]),
    List.flatMap_cons, List.flatMap_cons, List.flatMap_nil, blocks_blogType, blocks_postType]
  rfl

theorem blocks_blogsTwice :
    blocks (clean blogsTwiceText.toList) = [blockOf "Blog", blockOf "Blog"] := by
  rw [blogsTwiceText, blocks_clean_intercalate (by simp [isChunk_blogType]),
    List.flatMap_cons, List.flatMap_cons, List.flatMap_nil, blocks_blogType]
  rfl

theorem fields_blockOf (name : String) :
    fields (blockOf name).body = [⟨"id".toList, none, "ID!".toList, []⟩] := by
  have hrun : directiveRun [' '] = ([], [' ']) := directiveRun_of_head (by decide)
  have hfield := @field?_append "id".toList [] [' '] "ID!".toList [' '] (by decide)
    (List.forall_mem_nil _) (List.forall_mem_singleton.2 (by decide)) (by decide)
    (List.all_eq_true.1 (by decide)) (Text.stops_cons (by decide) _)
  rw [hrun] at hfield
  -- White space before the field and behind it begins no other.
  change fields (' ' :: "id: ID! ".toList) = _
  rw [fields, occurrences_of_none (show field? (' ' :: "id: ID! ".toList) = none from rfl)]
  change occurrences _ ("id".toList ++ ([] ++ ':' :: ([' '] ++ ("ID!".toList ++ [' '])))) = _
  rw [occurrences_of_some hfield, occurrences_of_none (show field? [' '] = none from rfl),
    occurrences]

theorem modelOf_blockOf (name : String) : modelOf (blockOf name) = ⟨name, []⟩ := by
  rw [modelOf, fields_blockOf]
  exact congrArg (ModelDeclaration.mk · []) String.ofList_toList

variable {source : String} {names : List String}

/-- Every such type is a model. -/
theorem models_of_blocks (h : blocks (clean source.toList) = names.map blockOf) :
    models (clean source.toList) = names.map fun name => ⟨name, []⟩ := by
  have hmodel : ∀ block ∈ names.map blockOf,
      decide (block.keyword = .type) && isModelHeader block.header := by
    rintro _ hblock
    obtain ⟨name, -, rfl⟩ := List.mem_map.1 hblock
    show isModelHeader " @model ".toList = true
    decide
  rw [models, h, List.filter_eq_self.2 hmodel, List.map_map]
  exact List.map_congr_left fun name _ => modelOf_blockOf name

theorem fields_blogsAndPosts {name : String} (h : name = "Blog" ∨ name = "Post") :
    (Loose.view source blogsAndPostsText).fields name = .ok [.ofRaw "id" "ID!"] := by
  have hfound : fieldsOf? (clean blogsAndPostsText.toList) name = some [.ofRaw "id" "ID!"] := by
    have hfind : [blockOf "Post", blockOf "Blog"].find? (fun block =>
        block.keyword = .type && String.ofList block.name = name) = some (blockOf name) := by
      rcases h with rfl | rfl <;> rfl
    rw [fieldsOf?, blocks_blogsAndPosts, hfind, Option.map_some, fields_blockOf]
    rfl
  rw [Loose.view]
  simp only [hfound]

theorem enums_blogsAndPosts : (Loose.view source blogsAndPostsText).enums = .ok [] := by
  show Except.ok (enums (clean blogsAndPostsText.toList)) = _
  rw [enums, blocks_blogsAndPosts]
  rfl

theorem inputs_blogsAndPosts : (Loose.view source blogsAndPostsText).inputs = .ok [] := by
  show Except.ok (inputs (clean blogsAndPostsText.toList)) = _
  rw [inputs, blocks_blogsAndPosts]
  rfl

theorem operations_blogsAndPosts (root : OperationRoot) :
    (Loose.view source blogsAndPostsText).operations root = .ok [] := by
  show Except.ok (operations (clean blogsAndPostsText.toList) root) = _
  rw [operations, blocks_blogsAndPosts]
  cases root <;> rfl

/-- Such types can be generated as models. -/
theorem exists_generate_of_blocks (h : blocks (clean source.toList) = names.map blockOf)
    (hnames : ∀ name ∈ names, name = "Blog" ∨ name = "Post") :
    ∃ generation, generate (Loose.view source blogsAndPostsText) [] Table.empty Table.empty =
      .ok generation := by
  have hmodels : (Loose.view source blogsAndPostsText).models =
      .ok (names.map fun name => ⟨name, []⟩) := congrArg Except.ok (models_of_blocks h)
  have hbuilt : List.Forall₂ (ModelGraph.BuiltFrom (Loose.view source blogsAndPostsText) [])
      ((names.map fun name => ⟨name, []⟩).filter (ModelGraph.isSelected []))
      (names.map fun name => ModelGraph.modelOf ⟨name, []⟩ [] [.ofRaw "id" "ID!"]) := by
    rw [ModelGraph.filter_isSelected_nil, List.forall₂_map_left_iff, List.forall₂_map_right_iff,
      List.forall₂_same]
    exact fun name hname => ⟨_, fields_blogsAndPosts (hnames name hname), rfl⟩
  have hgraph := ModelGraph.build_eq_ok_iff.2
    ⟨fun _ hname => absurd hname List.not_mem_nil, _, hbuilt, rfl⟩
  have hrun : ∀ g, (prepare (Loose.view source blogsAndPostsText) Table.empty Table.empty).execute
      ⟨g, []⟩ = (.ok (), ⟨g, []⟩) := by
    intro g
    rw [prepare, Session.execute_bind, Session.execute_classify, operations_blogsAndPosts,
      operations_blogsAndPosts]
    rfl
  exact ⟨_, generate_eq_ok_iff.2 ⟨_, [], _, _, [], hmodels, enums_blogsAndPosts, hgraph, hrun _,
    inputs_blogsAndPosts, rfl⟩⟩

/-- A model that is declared twice comes out twice, with one file for both. -/
theorem not_hasOneModuleEach_blogsTwice :
    ∃ generation, generate (Loose.view blogsTwiceText blogsAndPostsText) [] Table.empty
        Table.empty = .ok generation ∧
      ∀ names, ¬ generation.HasOneModuleEach names := by
  have hblocks : blocks (clean blogsTwiceText.toList) = ["Blog", "Blog"].map blockOf :=
    blocks_blogsTwice
  obtain ⟨generation, hg⟩ := exists_generate_of_blocks hblocks (by simp)
  refine ⟨generation, hg, fun names hall => ?_⟩
  have hperm := modelNames_perm_of_generate (congrArg Except.ok (models_of_blocks hblocks)) hg
  have hnodup := (nodup_paths_iff generation "json" false).1 (hall.nodup_paths "json" false)
  exact absurd (hperm.nodup_iff.1 hnodup) (by decide)

theorem hasOneModuleEach_blogsAndPosts :
    (Loose.view blogsAndPostsText blogsAndPostsText).models = .ok [⟨"Post", []⟩, ⟨"Blog", []⟩] ∧
      ∃ generation,
        generate (Loose.view blogsAndPostsText blogsAndPostsText) [] Table.empty Table.empty =
          .ok generation ∧
        generation.HasOneModuleEach ["Post", "Blog"] := by
  have hblocks : blocks (clean blogsAndPostsText.toList) = ["Post", "Blog"].map blockOf :=
    blocks_blogsAndPosts
  have hmodels : (Loose.view blogsAndPostsText blogsAndPostsText).models =
      .ok [⟨"Post", []⟩, ⟨"Blog", []⟩] := congrArg Except.ok (models_of_blocks hblocks)
  obtain ⟨generation, hg⟩ := exists_generate_of_blocks hblocks (by simp)
  exact ⟨hmodels, generation, hg, (hasOneModuleEach_iff hmodels hg).2 (by decide)⟩

end Texts

end SchemaAccess
