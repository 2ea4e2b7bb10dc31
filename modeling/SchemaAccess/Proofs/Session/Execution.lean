import Mathlib.Tactic.Common
import SchemaAccess.Model.Session

/-!
# What a session does to its state

Every computation of `SchemaAccess.Model.Session`, as an equation between outcomes and states.  The
equations say which parts of a computation are kept when a later part fails, and no other proof
has to open the monad.

* `execute_bind` — a failure ends the rest and keeps the state that it was met in.
* `execute_classify` — the queries stay attached when the mutations cannot be had.
* `execute_addFragments_cons`, `execute_addHooks_cons`, `execute_merge_cons` — the overrides before
  a failing one stay attached.
* `execute_bind_eq_ok_iff`, `execute_addFragments_cons_eq_ok_iff`,
  `execute_addHooks_cons_eq_ok_iff` — what has gone through when the whole has.
* `keeps_mergeFragments`, `keeps_mergeHooks` — what each override keeps about the graph, all of them
  keep, also when one fails.
-/

namespace SchemaAccess.Session

variable {α β : Type} (state : State)

/-! ## The monad

A session may fail and has a state, and the state outlives a failure.  These equations say once
what that means for each way of putting computations together. -/

@[simp]
theorem execute_pure (a : α) : execute (pure a) state = (.ok a, state) := rfl

@[simp]
theorem execute_get : execute get state = (.ok state, state) := rfl

@[simp]
theorem execute_modify (f : State → State) : execute (modify f) state = (.ok (), f state) := rfl

@[simp]
theorem execute_lift (x : Except Error α) : execute (liftM x : Session α) state = (x, state) := by
  cases x <;> rfl

/-- **A failure ends the rest and keeps the state that it was met in.**  What a computation has done
before it fails is therefore not undone. -/
theorem execute_bind (x : Session α) (f : α → Session β) :
    (x >>= f).execute state =
      match x.execute state with
      | (.ok a, state) => (f a).execute state
      | (.error e, state) => (.error e, state) := by
  simp only [execute, ExceptT.run_bind, StateT.run_bind]
  show (match (ExceptT.run x).run state with | (a, s) => _) = _
  cases (ExceptT.run x).run state with
  | mk outcome after => cases outcome <;> rfl

/-! ## Operations

The operations are asked for root by root.  If the mutations cannot be had, the queries have been
attached already. -/

/-- The owners are those of the graph at the beginning, in both steps, so what the queries attach
does not change who owns the mutations. -/
theorem execute_classify (view : SchemaView) :
    (classify view).execute state =
      match view.operations .query with
      | .error e => (.error e, state)
      | .ok queries =>
        match view.operations .mutation with
        | .error e => (.error e, attachAll state.graph .query queries state)
        | .ok mutations =>
          (.ok (), attachAll state.graph .mutation mutations
            (attachAll state.graph .query queries state)) := by
  simp only [classify, execute_bind, execute_get, execute_lift, execute_modify]
  cases view.operations .query with
  | error e => rfl
  | ok queries => cases view.operations .mutation <;> rfl

/-! ## Overrides

One step of each loop over overrides.  A step that fails ends the loop with everything attached so
far in the state. -/

/-- A fragment that is refused ends the loop; one that is accepted is in the graph that the next is
checked against. -/
theorem execute_addFragments_cons (model key : String) (selection : List Selection)
    (rest : List (String × List Selection)) :
    (addFragments model ((key, selection) :: rest)).execute state =
      match state.graph.addFragment model key selection with
      | .ok graph => (addFragments model rest).execute { state with graph := graph }
      | .error e => (.error e, state) := by
  simp only [addFragments, execute_bind, execute_get, execute_lift, setGraph, execute_modify]
  cases state.graph.addFragment model key selection <;> rfl

/-- A hook of a model that is not there is passed over together with all behind it, and one that is
refused ends the loop. -/
theorem execute_addHooks_cons (model hook reference : String) (rest : List (String × String)) :
    (addHooks model ((hook, reference) :: rest)).execute state =
      match state.graph.find? model with
      | none => (.ok (), state)
      | some owner =>
        match owner.addHook hook reference with
        | .ok owner =>
          (addHooks model rest).execute
            { state with graph := state.graph.update model fun _ => owner }
        | .error e => (.error e, state) := by
  simp only [addHooks, execute_bind, execute_get]
  cases state.graph.find? model with
  | none => rfl
  | some owner =>
    simp only [execute_bind, execute_lift, setGraph, execute_modify]
    cases owner.addHook hook reference <;> rfl

/-- The overrides of a model that is not built leave a warning, and the document goes on behind
them. -/
theorem execute_merge_cons (kind : OverrideKind)
    (attach : String → List (String × α) → Session Unit) (model : String) (overrides : Table α)
    (rest : List (String × Table α)) :
    (merge kind attach ((model, overrides) :: rest)).execute state =
      if state.graph.isBuilt model then
        match (attach model overrides.entries).execute state with
        | (.ok _, state) => (merge kind attach rest).execute state
        | (.error e, state) => (.error e, state)
      else (merge kind attach rest).execute
        { state with warnings := state.warnings ++ [.unknownOverride kind model] } := by
  simp only [merge, execute_bind, execute_get]
  cases state.graph.isBuilt model with
  | false => rfl
  | true =>
    simp only [if_true, execute_bind]
    cases (attach model overrides.entries).execute state with
    | mk outcome after => cases outcome <;> rfl

/-! ## What goes through

The same steps for computations that succeed.  Here every step has succeeded, so an outcome is told
by the outcomes of the steps in between. -/

section Success

variable {state} {after : State} {model : String}

/-- A sequence succeeds exactly if both parts do, the second from the state that the first has
left. -/
theorem execute_bind_eq_ok_iff {x : Session α} {f : α → Session β} {b : β} :
    (x >>= f).execute state = (.ok b, after) ↔
      ∃ a middle, x.execute state = (.ok a, middle) ∧ (f a).execute middle = (.ok b, after) := by
  rw [execute_bind]
  cases x.execute state with
  | mk outcome middle => cases outcome <;> simp

/-- Fragments are attached exactly if the first is and the rest are, to the graph with the first
attached. -/
theorem execute_addFragments_cons_eq_ok_iff {key : String} {selection : List Selection}
    {rest : List (String × List Selection)} :
    (addFragments model ((key, selection) :: rest)).execute state = (.ok (), after) ↔
      ∃ graph, state.graph.addFragment model key selection = .ok graph ∧
        (addFragments model rest).execute { state with graph := graph } = (.ok (), after) := by
  rw [execute_addFragments_cons]
  cases state.graph.addFragment model key selection <;> simp

theorem execute_addHooks_cons_eq_ok_iff {hook reference : String}
    {rest : List (String × String)} :
    (addHooks model ((hook, reference) :: rest)).execute state = (.ok (), after) ↔
      (state.graph.find? model = none ∧ state = after) ∨
        ∃ owner changed, state.graph.find? model = some owner ∧
          owner.addHook hook reference = .ok changed ∧
          (addHooks model rest).execute
            { state with graph := state.graph.update model fun _ => changed } =
          (.ok (), after) := by
  rw [execute_addHooks_cons]
  cases state.graph.find? model with
  | none => simp
  | some owner => cases ha : owner.addHook hook reference <;> simp [ha]

variable {kind : OverrideKind} {attach : String → List (String × α) → Session Unit}
  {overrides : Table α} {rest : List (String × Table α)}

/-- The overrides of a model that is built are attached before the rest of the document. -/
theorem execute_merge_cons_of_built (h : state.graph.isBuilt model = true) :
    (merge kind attach ((model, overrides) :: rest)).execute state =
      (attach model overrides.entries >>= fun _ => merge kind attach rest).execute state := by
  rw [merge, execute_bind, execute_get]
  simp only [h, if_true]

theorem execute_merge_cons_of_unbuilt (h : state.graph.isBuilt model = false) :
    (merge kind attach ((model, overrides) :: rest)).execute state =
      (merge kind attach rest).execute
        { state with warnings := state.warnings ++ [.unknownOverride kind model] } := by
  rw [execute_merge_cons, if_neg (Bool.not_eq_true _ ▸ h)]

end Success

/-! ## What is kept

A property of graphs that one override keeps is kept by a whole document, and so it holds of the
graph in which a failing override was met.  The loops are nested, models outside and overrides
inside, and each has its induction. -/

section Keeping

variable {P : ModelGraph → Prop} {state}

/-- What one fragment keeps, the fragments of a model keep, whether they all go through or not. -/
theorem keeps_addFragments {model : String}
    (hone : ∀ {g after key selection}, P g → g.addFragment model key selection = .ok after →
      P after) :
    ∀ (fragments : List (String × List Selection)) {state : State}, P state.graph →
      P ((addFragments model fragments).execute state).2.graph
  | [], _, hg => hg
  | (key, selection) :: fragments, state, hg => by
      rw [execute_addFragments_cons]
      split
      · next graph hgraph => exact keeps_addFragments hone fragments (hone hg hgraph)
      · exact hg

/-- The same for hooks. -/
theorem keeps_addHooks {model : String}
    (hone : ∀ {g owner changed hook reference}, P g → g.find? model = some owner →
      owner.addHook hook reference = .ok changed → P (g.update model fun _ => changed)) :
    ∀ (hooks : List (String × String)) {state : State}, P state.graph →
      P ((addHooks model hooks).execute state).2.graph
  | [], _, hg => hg
  | (hook, reference) :: hooks, state, hg => by
      rw [execute_addHooks_cons]
      split
      · exact hg
      · next owner howner =>
        split
        · next changed hchanged => exact keeps_addHooks hone hooks (hone hg howner hchanged)
        · exact hg

/-- The overrides of a document keep what those of one model keep; passing over a model leaves the
graph as it is. -/
theorem keeps_merge (kind : OverrideKind) {attach : String → List (String × α) → Session Unit}
    (hone : ∀ model overrides {state : State}, P state.graph →
      P ((attach model overrides).execute state).2.graph) :
    ∀ (document : List (String × Table α)) {state : State}, P state.graph →
      P ((merge kind attach document).execute state).2.graph
  | [], _, hg => hg
  | (model, overrides) :: rest, state, hg => by
      rw [execute_merge_cons]
      split
      · have hmodel := hone model overrides.entries hg
        split
        · next after hafter =>
          rw [hafter] at hmodel
          exact keeps_merge kind hone rest hmodel
        · next e after hafter =>
          rw [hafter] at hmodel
          exact hmodel
      · exact keeps_merge kind hone rest hg

theorem keeps_mergeFragments
    (hone : ∀ {g after model key selection}, P g → g.addFragment model key selection = .ok after →
      P after) (fragments : FragmentOverrides) (hg : P state.graph) :
    P ((mergeFragments fragments).execute state).2.graph :=
  keeps_merge .fragment (fun _ overrides _ => keeps_addFragments hone overrides)
    fragments.entries hg

theorem keeps_mergeHooks
    (hone : ∀ {g model owner changed hook reference}, P g → g.find? model = some owner →
      owner.addHook hook reference = .ok changed → P (g.update model fun _ => changed))
    (hooks : HookOverrides) (hg : P state.graph) :
    P ((mergeHooks hooks).execute state).2.graph :=
  keeps_merge .hook (fun _ overrides _ => keeps_addHooks hone overrides) hooks.entries hg

end Keeping

end SchemaAccess.Session
