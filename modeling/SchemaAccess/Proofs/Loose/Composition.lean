import SchemaAccess.Proofs.Loose.Chunks

/-!
# Schemas with more text behind them

A chunk leaves nothing open, so what stands on the lines below it, well formed or not, is cleaned
and searched for itself.  What was declared in the chunk stays declared.

* `SchemaView.append` — what one view declares, and then what another does.
* `clean_append_string` — a chunk and the text below it are cleaned one after the other.
* `models_append_line`, `fieldsOf?_append_line`, `operations_append_line`, `inputs_append_line`,
  `enums_append_line` — one question to a text below a chunk.
* `view_append_line` — the view of schemas with text below them.
-/

namespace SchemaAccess

/-- The view that declares what the first does and then what the second does.  A model has the
fields that the first has for it, if that has any. -/
def SchemaView.append (first second : SchemaView) : SchemaView where
  models := return (← first.models) ++ (← second.models)
  fields model :=
    match first.fields model with
    | .ok fields => .ok fields
    | .error _ => second.fields model
  operations root := return (← first.operations root) ++ (← second.operations root)
  inputs := return (← first.inputs) ++ (← second.inputs)
  enums := return (← first.enums) ++ (← second.enums)

namespace Loose

/-- A chunk and the text below it are cleaned one after the other. -/
theorem clean_append_string {text : String} (h : IsChunk text) (more : String) :
    clean (text ++ "\n" ++ more).toList = clean text.toList ++ '\n' :: clean more.toList := by
  rw [String.toList_append, String.toList_append, List.append_assoc]
  exact clean_append_line h.closes more.toList

section Questions

variable {text : String} (h : IsChunk text) (rest : List Char)

include h

/-- The models of the chunk, and then those of the text below it, for the blocks of the two follow
each other. -/
theorem models_append_line :
    models (clean text.toList ++ '\n' :: rest) = models (clean text.toList) ++ models rest := by
  rw [models, h.blocks_append, List.filter_append, List.map_append]
  rfl

/-- The fields of a type are those that the chunk has for it; only if it has none are they looked
for in the text below. -/
theorem fieldsOf?_append_line (model : String) :
    fieldsOf? (clean text.toList ++ '\n' :: rest) model =
      (fieldsOf? (clean text.toList) model).or (fieldsOf? rest model) := by
  rw [fieldsOf?, h.blocks_append, List.find?_append, Option.map_or]
  rfl

theorem operations_append_line (root : OperationRoot) :
    operations (clean text.toList ++ '\n' :: rest) root =
      operations (clean text.toList) root ++ operations rest root := by
  rw [operations, h.blocks_append, List.filter_append, List.flatMap_append]
  rfl

theorem inputs_append_line :
    inputs (clean text.toList ++ '\n' :: rest) = inputs (clean text.toList) ++ inputs rest := by
  rw [inputs, h.blocks_append, List.filter_append, List.map_append]
  rfl

theorem enums_append_line :
    enums (clean text.toList ++ '\n' :: rest) = enums (clean text.toList) ++ enums rest := by
  rw [enums, h.blocks_append, List.filter_append, List.map_append]
  rfl

end Questions

/-- **Any text below a chunk is cleaned for itself**, and what is scanned from the whole is what is
scanned from the chunk and then what is scanned from the text.  The text may be anything: where it
is cut off or malformed, that is no concern of the chunk above it. -/
theorem view_append_line {source build : String} (hs : IsChunk source) (hb : IsChunk build)
    (moreSource moreBuild : String) :
    clean (source ++ "\n" ++ moreSource).toList =
      clean source.toList ++ '\n' :: clean moreSource.toList ∧
    clean (build ++ "\n" ++ moreBuild).toList =
      clean build.toList ++ '\n' :: clean moreBuild.toList ∧
    view (source ++ "\n" ++ moreSource) (build ++ "\n" ++ moreBuild) =
      (view source build).append (view moreSource moreBuild) := by
  have hsource := clean_append_string hs moreSource
  have hbuild := clean_append_string hb moreBuild
  refine ⟨hsource, hbuild, ?_⟩
  rw [view, hsource, hbuild]
  simp only [models_append_line hs, fieldsOf?_append_line hb, operations_append_line hb,
    inputs_append_line hb, enums_append_line hb]
  simp only [view, SchemaView.append, SchemaView.mk.injEq]
  refine ⟨rfl, funext fun model => ?_, rfl, rfl, rfl⟩
  cases fieldsOf? (clean build.toList) model <;> rfl

/-- Below the models of two types stand a string that is not closed, and braces without blocks. -/
theorem view_append_line_unclosed :
    IsChunk blogType ∧ IsChunk postType ∧
    clean (blogType ++ "\n" ++ "\"\"\" type").toList =
      clean blogType.toList ++ '\n' :: clean "\"\"\" type".toList ∧
    clean (postType ++ "\n" ++ "\x7d type \x7b(").toList =
      clean postType.toList ++ '\n' :: clean "\x7d type \x7b(".toList ∧
    view (blogType ++ "\n" ++ "\"\"\" type") (postType ++ "\n" ++ "\x7d type \x7b(") =
      (view blogType postType).append (view "\"\"\" type" "\x7d type \x7b(") :=
  ⟨isChunk_blogType, isChunk_postType, view_append_line isChunk_blogType isChunk_postType _ _⟩

end Loose

end SchemaAccess
