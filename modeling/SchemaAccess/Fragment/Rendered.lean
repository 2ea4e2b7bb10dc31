import SchemaAccess.Fragment.Outline

/-!
# Rendered fragments

* `RenderedFragment` — a fragment as it is handed to a renderer.
* `renderFragment` — one fragment of a model; `renderFragments` — all fragments of a model.
-/

namespace SchemaAccess

/-- A fragment as it is handed to a renderer. -/
structure RenderedFragment where
  /-- The key under which the model has the fragment. -/
  key : String
  /-- The name in the generated code. -/
  identifier : String
  /-- The selection, indented by one level. -/
  body : String
  /-- The whole definition. -/
  text : String
  deriving DecidableEq

/-- The name of a fragment in the generated code: the model's name in front of the key. -/
def fragmentIdentifier (model key : String) : String := model ++ key

/-- A fragment of a model as it is handed to a renderer. -/
def renderFragment (g : ModelGraph) (model key : String) (selection : List Selection) :
    RenderedFragment :=
  let body := selectionText g model selection 1
  { key := key
    identifier := fragmentIdentifier model key
    body := body
    text := "fragment " ++ fragmentIdentifier model key ++ " on " ++ model ++ " \x7b\n" ++ body ++
      "\n\x7d" }

/-- The fragments that a built model has, in order. -/
def fragmentsOf (g : ModelGraph) (model : String) : List (String × List Selection) :=
  match g.find? model with
  | some owner => owner.fragments.entries
  | none => []

/-- All fragments of a model. -/
def renderFragments (g : ModelGraph) (model : String) : List RenderedFragment :=
  (fragmentsOf g model).map fun fragment => renderFragment g model fragment.1 fragment.2

/-- The warnings that come up when all fragments of a model are rendered. -/
def fragmentWarnings (g : ModelGraph) (model : String) : List Warning :=
  (fragmentsOf g model).flatMap fun fragment => (compose g model fragment.2).warnings

end SchemaAccess
