import SchemaAccess.Proofs.Emission.Modules
import SchemaAccess.Proofs.Json.KeyOrder
import SchemaAccess.Proofs.Table.Entries

/-!
# The order of entries on the way out

The tables of a generation reach its user on two ways: as bindings of the emitted files, and in the
generation as a whole.  The second way keeps the order of every table.  On the first way the keys of
all objects are sorted, so that a table keeps its order only if it is ascending by chance.

* `ShownTable`, `Json.Shows` — a table at a place in a value, with its keys in order.
* `Collection.tables`, `Generation.fileTables`, `Generation.tables` — the tables of a collection, of
  each file, and of the whole generation.
* `Generation.OrdersTables`, `ordersTables` — what becomes of the order of each.
-/

namespace SchemaAccess

/-! ## Tables in a value -/

/-- A table as it is to be seen: the place where a value has it, and its keys in order. -/
structure ShownTable where
  path : List Json.Step
  keys : List String

namespace ShownTable

/-- The table at a place behind other steps. -/
def behind (steps : List Json.Step) (table : ShownTable) : ShownTable :=
  ⟨steps ++ table.path, table.keys⟩

/-- The table with its keys in ascending order. -/
def sorted (table : ShownTable) : ShownTable := ⟨table.path, Json.ascending table.keys⟩

/-- A table of tables, and the tables in it. -/
def ofTables (tables : Table (Table String)) : List ShownTable :=
  ⟨[], tables.keys⟩ :: tables.entries.map fun entry => ⟨[.key entry.1], entry.2.keys⟩

end ShownTable

/-- The value has the table at its place, with the keys in this order. -/
def Json.Shows (value : Json) (table : ShownTable) : Prop :=
  value.keysAt? table.path = some table.keys

namespace Json.Shows

variable {value inner : Json} {table : ShownTable} {step : Json.Step}

/-- What a part of a value shows, the value shows behind the step to that part. -/
theorem behind (h : inner.Shows table) (hstep : value.step? step = some inner) :
    value.Shows (table.behind [step]) := by
  show value.keysAt? (step :: table.path) = _
  rw [Json.keysAt?_cons, hstep]
  exact h

/-- A value with sorted keys shows the keys of each table in ascending order. -/
theorem sortKeys (h : value.Shows table) : value.sortKeys.Shows table.sorted := by
  show value.sortKeys.keysAt? table.path = _
  rw [Json.keysAt?_sortKeys, h]
  rfl

/-- Sorting keeps the order of the tables that are ascending, and of no others. -/
theorem sortKeys_iff (h : value.Shows table) :
    value.sortKeys.Shows table ↔ table.keys.Pairwise (· ≤ ·) := by
  have hsorted : value.sortKeys.keysAt? table.path = some (Json.ascending table.keys) := h.sortKeys
  rw [Json.Shows, hsorted, Option.some.injEq]
  exact Json.ascending_eq_self_iff

end Json.Shows

namespace Table

/-- A table is shown in order. -/
theorem shows_toJson {α : Type} (value : α → Json) (table : Table α) :
    (table.toJson value).Shows ⟨[], table.keys⟩ := by
  show some (Entries.keys (table.entries.map _)) = _
  rw [Entries.keys, List.map_map]
  rfl

theorem step?_toJson {α : Type} (value : α → Json) {table : Table α} {key : String} {a : α}
    (h : (key, a) ∈ table.entries) : (table.toJson value).step? (.key key) = some (value a) := by
  have hget : Entries.get? key (table.entries.map fun entry => (entry.1, value entry.2)) =
      some (value a) :=
    Entries.get?_of_mem ((table.map value).nodup_keys)
      (List.mem_map_of_mem (f := fun entry : String × α => (entry.1, value entry.2)) h)
  exact hget

/-- Tables of tables are shown in order. -/
theorem shows_tablesToJson (tables : Table (Table String)) :
    ∀ table ∈ ShownTable.ofTables tables, tables.tablesToJson.Shows table := by
  intro table hmem
  rcases List.mem_cons.1 hmem with rfl | hmem
  · exact shows_toJson _ tables
  · obtain ⟨⟨key, inner⟩, hentry, rfl⟩ := List.mem_map.1 hmem
    exact (shows_toJson .string inner).behind (step?_toJson textsToJson hentry)

end Table

/-! ## The tables of a generation -/

/-- The fields, connections and hooks of a model and the parameters of its accessors. -/
def Collection.tables (c : Collection) : List ShownTable :=
  [⟨[.key "fields"], c.model.fields.keys⟩, ⟨[.key "connections"], c.model.connections.keys⟩,
    ⟨[.key "hooks"], c.model.hooks.keys⟩] ++
    c.model.accessors.mapIdx fun place a =>
      ⟨[.key "queries", .index place, .key "params"], a.params.keys⟩

namespace Generation

variable (g : Generation)

/-- The parameters of all operations. -/
def operationTables : List ShownTable :=
  (ShownTable.ofTables g.queryInputs).map (·.behind [.key "queryInputs"])

/-- The inputs with their fields, and the enums. -/
def typeTables : List ShownTable :=
  (ShownTable.ofTables g.inputs).map (·.behind [.key "inputs"]) ++ [⟨[.key "enums"], g.enums.keys⟩]

/-- The tables that each file shows, file by file. -/
def fileTables : List (List ShownTable) :=
  g.collections.map (fun c => c.tables.map (·.behind [.key "model"])) ++
    [[], g.operationTables, g.typeTables]

/-- All tables of a generation. -/
def tables : List ShownTable :=
  (g.collections.mapIdx fun place c =>
    c.tables.map (·.behind [.key "models", .index place])).flatten ++
    g.operationTables ++ g.typeTables

end Generation

/-- A collection is shown in order. -/
theorem Collection.shows_toJson (c : Collection) : ∀ table ∈ c.tables, c.toJson.Shows table := by
  intro table hmem
  rcases List.mem_append.1 hmem with hmem | hmem
  · simp only [List.mem_cons, List.not_mem_nil, or_false] at hmem
    rcases hmem with rfl | rfl | rfl
    · exact (Table.shows_toJson .string c.model.fields).behind rfl
    · exact (Table.shows_toJson .string c.model.connections).behind rfl
    · exact (Table.shows_toJson .string c.model.hooks).behind rfl
  · obtain ⟨place, hplace, rfl⟩ := List.mem_mapIdx.1 hmem
    have hitem : (Json.array (c.model.accessors.map Accessor.toJson)).step? (.index place) =
        some c.model.accessors[place].toJson := by
      rw [Json.step?, List.getElem?_map, List.getElem?_eq_getElem hplace, Option.map_some]
    have hparams : c.model.accessors[place].toJson.Shows
        ⟨[.key "params"], c.model.accessors[place].params.keys⟩ :=
      (Table.shows_toJson .string c.model.accessors[place].params).behind rfl
    exact (hparams.behind hitem).behind rfl

namespace Generation

variable {g : Generation} {table : ShownTable}

theorem shows_operationTables {value : Json} (h : table ∈ g.operationTables)
    (hvalue : value.step? (.key "queryInputs") = some g.queryInputs.tablesToJson) :
    value.Shows table := by
  obtain ⟨inner, hinner, rfl⟩ := List.mem_map.1 h
  exact (Table.shows_tablesToJson g.queryInputs inner hinner).behind hvalue

theorem shows_typeTables {value : Json} (h : table ∈ g.typeTables)
    (hinputs : value.step? (.key "inputs") = some g.inputs.tablesToJson)
    (henums : value.step? (.key "enums") = some (g.enums.toJson .strings)) :
    value.Shows table := by
  rcases List.mem_append.1 h with h | h
  · obtain ⟨inner, hinner, rfl⟩ := List.mem_map.1 h
    exact (Table.shows_tablesToJson g.inputs inner hinner).behind hinputs
  · obtain rfl := List.mem_singleton.1 h
    exact (Table.shows_toJson .strings g.enums).behind henums

/-- The generation as a whole shows all tables in order. -/
theorem shows_toJson (h : table ∈ g.tables) : g.toJson.Shows table := by
  rcases List.mem_append.1 h with h | h
  · rcases List.mem_append.1 h with h | h
    · obtain ⟨shown, hshown, h⟩ := List.mem_flatten.1 h
      obtain ⟨place, hplace, rfl⟩ := List.mem_mapIdx.1 hshown
      obtain ⟨inner, hinner, rfl⟩ := List.mem_map.1 h
      have hitem : (Json.array (g.collections.map Collection.toJson)).step? (.index place) =
          some g.collections[place].toJson := by
        rw [Json.step?, List.getElem?_map, List.getElem?_eq_getElem hplace, Option.map_some]
      exact (((g.collections[place]).shows_toJson inner hinner).behind hitem).behind rfl
    · exact shows_operationTables h rfl
  · exact shows_typeTables h rfl rfl

/-- The bindings of the files of a generation before their keys are sorted, with the tables that
each of them shows. -/
theorem exists_unsorted (g : Generation) (fileExtension : String) (useESM : Bool) :
    List.Forall₂ (fun file tables => ∃ value : Json, file.bindings = value.sortKeys ∧
      ∀ table ∈ tables, value.Shows table) (plan g fileExtension useESM) g.fileTables := by
  refine List.rel_append ?_ (.cons ⟨_, rfl, ?_⟩ (.cons ⟨_, rfl, ?_⟩ (.cons ⟨_, rfl, ?_⟩ .nil)))
  · rw [List.forall₂_map_left_iff, List.forall₂_map_right_iff, List.forall₂_same]
    intro c _
    refine ⟨_, rfl, fun table hmem => ?_⟩
    obtain ⟨inner, hinner, rfl⟩ := List.mem_map.1 hmem
    exact (c.shows_toJson inner hinner).behind rfl
  · exact fun _ hmem => absurd hmem List.not_mem_nil
  · exact fun table hmem => shows_operationTables hmem rfl
  · exact fun table hmem => shows_typeTables hmem rfl rfl

/-- The text of a file as the bindings are written: entry by entry. -/
def writtenText (file : PlannedFile) : String :=
  (Json.object [("bindings", file.bindings), ("template", .string file.template)]).pretty

/-- What becomes of the order of the tables of a generation. -/
structure OrdersTables (g : Generation) (fileExtension : String) (useESM : Bool) : Prop where
  /-- The bindings of each file show its tables with their keys in ascending order. -/
  ascending : List.Forall₂ (fun file tables => ∀ table ∈ tables, file.bindings.Shows table.sorted)
    (plan g fileExtension useESM) g.fileTables
  /-- So they keep the order of those tables that are ascending, and of no others. -/
  kept : List.Forall₂ (fun file tables => ∀ table ∈ tables,
      (file.bindings.Shows table ↔ table.keys.Pairwise (· ≤ ·)))
    (plan g fileExtension useESM) g.fileTables
  /-- What is written of the bindings has their entries in the order in which they stand. -/
  written : ∀ {σ : Type} (shelf : Shelf σ) (state : σ),
    (emit Renderer.json shelf.write g useESM).run.run state =
      (.ok (g.collections.length + 3), shelf.putAll writtenText (plan g "json" useESM) state)
  /-- The generation as a whole shows every table in order. -/
  dumped : ∀ table ∈ g.tables, g.toJson.Shows table

/-- Bindings whose keys are sorted are written in the order in which they stand. -/
theorem bindingsText_sortKeys (template : String) (value : Json) :
    bindingsText template value.sortKeys =
      (Json.object [("bindings", value.sortKeys), ("template", .string template)]).pretty := by
  have htemplate : (Json.string template).sortKeys = .string template := rfl
  have hentries : Json.inKeyOrder [("bindings", value.sortKeys), ("template", .string template)] =
      [("bindings", value.sortKeys), ("template", .string template)] :=
    List.mergeSort_of_pairwise (by simp)
  rw [bindingsText, Json.sortKeys, Json.sortKeysEntries_eq_map, List.map_cons, List.map_cons,
    List.map_nil, Json.sortKeys_sortKeys, htemplate, hentries]

theorem exists_bindings_eq_sortKeys {fileExtension : String} {useESM : Bool} {file : PlannedFile}
    (h : file ∈ plan g fileExtension useESM) : ∃ value : Json, file.bindings = value.sortKeys := by
  rcases List.mem_append.1 h with h | h
  · obtain ⟨c, -, rfl⟩ := List.mem_map.1 h
    exact ⟨_, rfl⟩
  · simp only [List.mem_cons, List.not_mem_nil, or_false] at h
    rcases h with rfl | rfl | rfl <;> exact ⟨_, rfl⟩

theorem renders_writtenText (g : Generation) (useESM : Bool) :
    Renderer.json.Renders writtenText (plan g "json" useESM) := by
  intro file hfile
  obtain ⟨value, hvalue⟩ := exists_bindings_eq_sortKeys hfile
  rw [writtenText, hvalue]
  exact congrArg Except.ok (bindingsText_sortKeys file.template value)

/-- The files of every generation show ascending tables, whatever order these had; the generation as
a whole shows them as they are. -/
theorem ordersTables (g : Generation) (fileExtension : String) (useESM : Bool) :
    g.OrdersTables fileExtension useESM where
  ascending := (g.exists_unsorted fileExtension useESM).imp fun file tables h table hmem => by
    obtain ⟨value, hvalue, hshows⟩ := h
    rw [hvalue]
    exact (hshows table hmem).sortKeys
  kept := (g.exists_unsorted fileExtension useESM).imp fun file tables h table hmem => by
    obtain ⟨value, hvalue, hshows⟩ := h
    rw [hvalue]
    exact (hshows table hmem).sortKeys_iff
  written shelf state := run_emit shelf (g.renders_writtenText useESM) state
  dumped _ hmem := shows_toJson hmem

end Generation

/-! ## Blogs with titles -/

/-- A schema of blogs, whose fields are not declared in ascending order. -/
def titledBlogSchema : SchemaView :=
  .ofLists [⟨"Blog", []⟩] [("Blog", [("title", "String"), ("id", "ID!")])] (fun _ => []) [] []

/-- The model of blogs with titles. -/
def titledBlog : Model :=
  ModelGraph.modelOf ⟨"Blog", []⟩ [] [.ofRaw "title" "String", .ofRaw "id" "ID!"]

/-- The file of the blogs shows their fields in another order than the generation. -/
theorem not_shows_fields_titledBlog :
    ∃ generation, generate titledBlogSchema [] Table.empty Table.empty = .ok generation ∧
      ∃ c ∈ generation.collections, c.model.fields.keys = ["title", "id"] ∧
        generation.toJson.Shows
          ⟨[.key "models", .index 0, .key "fields"], c.model.fields.keys⟩ ∧
        ∀ fileExtension useESM, ¬ (collectionFile fileExtension useESM c).bindings.Shows
          ⟨[.key "model", .key "fields"], c.model.fields.keys⟩ := by
  have hbuild : ModelGraph.build titledBlogSchema [] [⟨"Blog", []⟩] [] =
      .ok ⟨[titledBlog], ["Blog"]⟩ := by
    refine ModelGraph.build_eq_ok_iff.2
      ⟨by simp, [titledBlog], .cons ⟨_, rfl, rfl⟩ .nil, ?_⟩
    exact congrArg (ModelGraph.mk · ["Blog"]) (List.mergeSort_singleton _).symm
  have hgenerate : generate titledBlogSchema [] Table.empty Table.empty =
      .ok (.ofState ⟨⟨[titledBlog], ["Blog"]⟩, []⟩ [] []) :=
    generate_eq_ok_iff.2 ⟨_, [], _, _, [], rfl, rfl, hbuild, rfl, rfl, rfl⟩
  refine ⟨_, hgenerate, _, List.mem_cons_self, rfl, rfl, fun fileExtension useESM hshows => ?_⟩
  have hfields : (Json.object [("model", (collectionOf ⟨[titledBlog], ["Blog"]⟩ titledBlog).toJson),
      ("useESM", .bool useESM)]).Shows
        ⟨[.key "model", .key "fields"], titledBlog.fields.keys⟩ := rfl
  exact absurd (hfields.sortKeys_iff.1 hshows) (by decide)

end SchemaAccess
