import SchemaAccess.Emission
import SchemaAccess.Proofs.Emission.Modules

/-!
# What an emission asks of its renderer and its writer

A renderer and a writer may have a state that they share, and each may fail at any call.  So that
one can see what they are asked and how it goes, every call is noted down in the order in which it
is made.

* `Call` — a call, with what came of it.
* `Noting`, `noteRender`, `noteWrite` — a renderer and a writer whose calls are noted down.
* `note_emitFiles` — noting changes nothing else.
* `Emits` — the calls for planned files: up to the first failure, each file is rendered and then
  written.
* `IsPrefixSafe` — what the calls say about the files that are written.
* `isPrefixSafe_emitThrough` — every emission is so.
-/

namespace SchemaAccess

/-! ## Calls -/

/-- A call of the renderer or the writer, with what came of it. -/
inductive Call where
  | render (template : String) (bindings : Json) (result : Except Error String)
  | write (path contents : String) (result : Except Error Unit)

namespace Call

/-- The error that a call ended with. -/
def error? : Call → Option Error
  | render _ _ (.error error) | write _ _ (.error error) => some error
  | _ => none

/-- The path of the file that a call wrote. -/
def written? : Call → Option String
  | write path _ (.ok ()) => some path
  | _ => none

end Call

/-- The paths of the files that were written, in order. -/
def writtenPaths (calls : List Call) : List String := calls.filterMap Call.written?

section Noting

variable {σ : Type}

/-- A computation whose state is kept together with the calls made so far. -/
abbrev Noting (σ α : Type) : Type := ExceptT Error (StateM (σ × List Call)) α

/-- Runs a computation and notes down the call that it stands for. -/
def note {α : Type} (call : Except Error α → Call) (run : ExceptT Error (StateM σ) α) :
    Noting σ α :=
  ExceptT.mk fun (state, calls) =>
    let (result, state) := run.run.run state
    (result, (state, calls ++ [call result]))

variable (render : String → Json → ExceptT Error (StateM σ) String)
  (write : String → String → ExceptT Error (StateM σ) Unit)

def noteRender (template : String) (bindings : Json) : Noting σ String :=
  note (.render template bindings) (render template bindings)

def noteWrite (path contents : String) : Noting σ Unit :=
  note (.write path contents) (write path contents)

end Noting

/-! ## The calls of an emission -/

/-- Planned files, the calls that are made for them, and the error that these end with, if any. -/
inductive Emits : List PlannedFile → List Call → Option Error → Prop where
  | done : Emits [] [] none
  | unrendered (file : PlannedFile) (files : List PlannedFile) (error : Error) :
    Emits (file :: files) [.render file.template file.bindings (.error error)] (some error)
  | unwritten (file : PlannedFile) (files : List PlannedFile) (contents : String) (error : Error) :
    Emits (file :: files) [.render file.template file.bindings (.ok contents),
      .write file.path contents (.error error)] (some error)
  | next (file : PlannedFile) (contents : String) {files : List PlannedFile} {calls : List Call}
      {failure : Option Error} (rest : Emits files calls failure) :
    Emits (file :: files) (.render file.template file.bindings (.ok contents) ::
      .write file.path contents (.ok ()) :: calls) failure

section Runs

variable {σ : Type} {render : String → Json → ExceptT Error (StateM σ) String}
  {write : String → String → ExceptT Error (StateM σ) Unit}

/-- The number of files, unless there was a failure. -/
def outcome (count : Nat) : Option Error → Except Error Nat
  | none => .ok count
  | some error => .error error

section Steps

variable {file : PlannedFile} {state rendered after : σ} {contents : String} {error : Error}
  (files : List PlannedFile) (written : Nat)

/-- An emission ends at a file that cannot be rendered. -/
theorem run_emitFiles_unrendered
    (hrender : (render file.template file.bindings).run.run state = (.error error, after)) :
    (emitFiles render write written (file :: files)).run.run state = (.error error, after) := by
  rw [emitFiles, ExceptT.run_bind, StateT.run_bind, hrender]
  rfl

/-- An emission goes on with the text of a file. -/
theorem run_emitFiles_rendered
    (hrender : (render file.template file.bindings).run.run state = (.ok contents, rendered)) :
    (emitFiles render write written (file :: files)).run.run state =
      (write file.path contents >>= fun _ =>
        emitFiles render write (written + 1) files).run.run rendered := by
  rw [emitFiles, ExceptT.run_bind, StateT.run_bind, hrender]
  rfl

/-- An emission ends at a file that cannot be written. -/
theorem run_emitFiles_unwritten
    (hrender : (render file.template file.bindings).run.run state = (.ok contents, rendered))
    (hwrite : (write file.path contents).run.run rendered = (.error error, after)) :
    (emitFiles render write written (file :: files)).run.run state = (.error error, after) := by
  rw [run_emitFiles_rendered files written hrender, ExceptT.run_bind, StateT.run_bind, hwrite]
  rfl

/-- An emission goes on behind a file that has been written, and counts it. -/
theorem run_emitFiles_written
    (hrender : (render file.template file.bindings).run.run state = (.ok contents, rendered))
    (hwrite : (write file.path contents).run.run rendered = (.ok (), after)) :
    (emitFiles render write written (file :: files)).run.run state =
      (emitFiles render write (written + 1) files).run.run after := by
  rw [run_emitFiles_rendered files written hrender, ExceptT.run_bind, StateT.run_bind, hwrite]
  rfl

end Steps

theorem run_note {α : Type} {run : ExceptT Error (StateM σ) α} {state after : σ}
    {result : Except Error α} (h : run.run.run state = (result, after))
    (call : Except Error α → Call) (calls : List Call) :
    (note call run).run.run (state, calls) = (result, (after, calls ++ [call result])) := by
  have hnote : (note call run).run.run (state, calls) =
      ((run.run.run state).1, ((run.run.run state).2, calls ++ [call (run.run.run state).1])) := rfl
  rw [hnote, h]

/-- The calls for planned files are added to those made before, the files written are counted, and
the state is what it would be if nothing was noted down. -/
theorem note_emitFiles (files : List PlannedFile) (written : Nat) (state : σ)
    (earlier : List Call) : ∃ calls failure after,
      Emits files calls failure ∧
      (emitFiles render write written files).run.run state =
        (outcome (written + files.length) failure, after) ∧
      (emitFiles (noteRender render) (noteWrite write) written files).run.run (state, earlier) =
        (outcome (written + files.length) failure, (after, earlier ++ calls)) := by
  induction files generalizing written state earlier with
  | nil => exact ⟨[], none, state, .done, rfl, by rw [List.append_nil]; rfl⟩
  | cons file files ih =>
    rcases hrender : (render file.template file.bindings).run.run state with
      ⟨error | contents, rendered⟩
    · have hnoted := run_note hrender (.render file.template file.bindings) earlier
      exact ⟨_, some error, rendered, .unrendered file files error,
        run_emitFiles_unrendered files written hrender,
        run_emitFiles_unrendered files written hnoted⟩
    · have hnoted := run_note hrender (.render file.template file.bindings) earlier
      rcases hwrite : (write file.path contents).run.run rendered with ⟨error | ⟨⟩, after⟩
      · have hnoted' := run_note hwrite (.write file.path contents)
          (earlier ++ [.render file.template file.bindings (.ok contents)])
        refine ⟨_, some error, after, .unwritten file files contents error,
          run_emitFiles_unwritten files written hrender hwrite, ?_⟩
        rw [run_emitFiles_unwritten files written hnoted hnoted', List.append_assoc]
        rfl
      · have hnoted' := run_note hwrite (.write file.path contents)
          (earlier ++ [.render file.template file.bindings (.ok contents)])
        obtain ⟨calls, failure, last, hemits, hplain, hnoting⟩ := ih (written + 1) after
          (earlier ++ [.render file.template file.bindings (.ok contents)] ++
            [.write file.path contents (.ok ())])
        have hcount : written + 1 + files.length = written + (file :: files).length := by
          rw [List.length_cons]
          omega
        rw [hcount] at hplain hnoting
        refine ⟨_, failure, last, .next file contents hemits, ?_, ?_⟩
        · rw [run_emitFiles_written files written hrender hwrite, hplain]
        · rw [run_emitFiles_written files written hnoted hnoted', hnoting]
          simp

end Runs

/-! ## What the calls say -/

/-- An emission writes the files of a generation in order up to its first failure, which ends it. -/
structure IsPrefixSafe (g : Generation) (fileExtension : String) (useESM : Bool)
    (calls : List Call) (result : Except Error Nat) : Prop where
  /-- The files that are written are the first of the collections, the index of the collections, the
  query inputs and the input types. -/
  isPrefix : writtenPaths calls <+:
    g.collections.map (fun c => collectionPath c.name fileExtension) ++
      [collectionPath "index" fileExtension, "queryInputs." ++ fileExtension,
        "inputTypes." ++ fileExtension]
  /-- What is to be written is the text of the next file of the plan, which has just been
  rendered. -/
  rendered : ∀ {before behind path contents outcome},
    calls = before ++ .write path contents outcome :: behind →
      ∃ file, (plan g fileExtension useESM)[(writtenPaths before).length]? = some file ∧
        file.path = path ∧ [.render file.template file.bindings (.ok contents)] <:+ before
  /-- A call that fails is the last one, and its error is what is returned. -/
  stops : ∀ {before behind call error}, calls = before ++ call :: behind →
    call.error? = some error → behind = [] ∧ result = .error error
  /-- If no call fails, and only then, a number is returned. -/
  isOk_iff : (∃ count, result = .ok count) ↔ ∀ call ∈ calls, call.error? = none
  /-- The number that is returned is that of all files, and that of the files written. -/
  count : ∀ {count}, result = .ok count →
    count = g.collections.length + 3 ∧ count = (writtenPaths calls).length

/-- A call among others is the first or a later one. -/
theorem eq_append_cons {first call : Call} {calls before behind : List Call}
    (h : first :: calls = before ++ call :: behind) :
    (before = [] ∧ first = call ∧ calls = behind) ∨
      ∃ more, before = first :: more ∧ calls = more ++ call :: behind := by
  cases before with
  | nil => exact .inl ⟨rfl, List.cons.inj h⟩
  | cons other more =>
    obtain ⟨rfl, hmore⟩ := List.cons.inj h
    exact .inr ⟨more, rfl, hmore⟩

theorem ne_append_cons {call : Call} {before behind : List Call} :
    [] ≠ before ++ call :: behind := fun h =>
  List.cons_ne_nil _ _ (List.append_eq_nil_iff.1 h.symm).2

namespace Emits

variable {files : List PlannedFile} {calls : List Call} {failure : Option Error}

/-- The files that are written are the first of the plan. -/
theorem isPrefix (h : Emits files calls failure) :
    writtenPaths calls <+: files.map PlannedFile.path := by
  induction h with
  | done => exact List.nil_prefix
  | unrendered file files error => exact List.nil_prefix
  | unwritten file files contents error => exact List.nil_prefix
  | next file contents rest ih => exact List.cons_prefix_cons.2 ⟨rfl, ih⟩

/-- Without a failure all files are written. -/
theorem length_writtenPaths (h : Emits files calls none) :
    (writtenPaths calls).length = files.length := by
  generalize hnone : (none : Option Error) = failure at h
  induction h with
  | done => rfl
  | unrendered file files error => cases hnone
  | unwritten file files contents error => cases hnone
  | next file contents rest ih => exact congrArg (· + 1) (ih hnone)

/-- Before a file is written it has been rendered. -/
theorem rendered (h : Emits files calls failure) {before behind : List Call}
    {path contents : String} {outcome : Except Error Unit}
    (hcalls : calls = before ++ .write path contents outcome :: behind) :
    ∃ file, files[(writtenPaths before).length]? = some file ∧ file.path = path ∧
      [.render file.template file.bindings (.ok contents)] <:+ before := by
  induction h generalizing before with
  | done => exact absurd hcalls ne_append_cons
  | unrendered file files error =>
    obtain ⟨-, hcall, -⟩ | ⟨more, rfl, hmore⟩ := eq_append_cons hcalls
    · cases hcall
    · exact absurd hmore ne_append_cons
  | unwritten file files text error =>
    obtain ⟨-, hcall, -⟩ | ⟨more, rfl, hmore⟩ := eq_append_cons hcalls
    · cases hcall
    obtain ⟨rfl, hcall, -⟩ | ⟨last, rfl, hlast⟩ := eq_append_cons hmore
    · cases hcall
      exact ⟨file, rfl, rfl, List.suffix_rfl⟩
    · exact absurd hlast ne_append_cons
  | next file text rest ih =>
    obtain ⟨-, hcall, -⟩ | ⟨more, rfl, hmore⟩ := eq_append_cons hcalls
    · cases hcall
    obtain ⟨rfl, hcall, -⟩ | ⟨last, rfl, hlast⟩ := eq_append_cons hmore
    · cases hcall
      exact ⟨file, rfl, rfl, List.suffix_rfl⟩
    · obtain ⟨next, hnext, hpath, hsuffix⟩ := ih hlast
      exact ⟨next, hnext, hpath, hsuffix.trans (List.suffix_append [_, _] last)⟩

/-- The calls end with the first that fails. -/
theorem stops (h : Emits files calls failure) {before behind : List Call} {call : Call}
    {error : Error} (hcalls : calls = before ++ call :: behind)
    (herror : call.error? = some error) : behind = [] ∧ failure = some error := by
  induction h generalizing before with
  | done => exact absurd hcalls ne_append_cons
  | unrendered file files reason =>
    obtain ⟨-, rfl, rfl⟩ | ⟨more, rfl, hmore⟩ := eq_append_cons hcalls
    · exact ⟨rfl, herror⟩
    · exact absurd hmore ne_append_cons
  | unwritten file files text reason =>
    obtain ⟨-, rfl, -⟩ | ⟨more, rfl, hmore⟩ := eq_append_cons hcalls
    · cases herror
    obtain ⟨-, rfl, rfl⟩ | ⟨last, rfl, hlast⟩ := eq_append_cons hmore
    · exact ⟨rfl, herror⟩
    · exact absurd hlast ne_append_cons
  | next file text rest ih =>
    obtain ⟨-, rfl, -⟩ | ⟨more, rfl, hmore⟩ := eq_append_cons hcalls
    · cases herror
    obtain ⟨-, rfl, -⟩ | ⟨last, rfl, hlast⟩ := eq_append_cons hmore
    · cases herror
    · exact ih hlast

/-- There is a failure exactly if a call fails. -/
theorem eq_none_iff (h : Emits files calls failure) :
    failure = none ↔ ∀ call ∈ calls, call.error? = none := by
  induction h with
  | done => simp
  | unrendered file files error => simp [Call.error?]
  | unwritten file files contents error => simp [Call.error?]
  | next file contents rest ih => simpa [Call.error?] using ih

end Emits

variable {σ : Type}

/-- However a renderer and a writer answer, and whatever they remember, an emission renders and
writes file by file, and nothing is asked of them behind the first failure. -/
theorem isPrefixSafe_emitThrough (render : String → Json → ExceptT Error (StateM σ) String)
    (write : String → String → ExceptT Error (StateM σ) Unit) (g : Generation)
    (fileExtension : String) (useESM : Bool) (state : σ) :
    ∃ calls result after,
      (emitThrough render fileExtension write g useESM).run.run state = (result, after) ∧
      (emitThrough (noteRender render) fileExtension (noteWrite write) g useESM).run.run
        (state, []) = (result, (after, calls)) ∧
      IsPrefixSafe g fileExtension useESM calls result := by
  obtain ⟨calls, failure, after, hemits, hplain, hnoting⟩ :=
    @note_emitFiles σ render write (plan g fileExtension useESM) 0 state []
  rw [Nat.zero_add, length_plan] at hplain hnoting
  refine ⟨calls, _, after, hplain, hnoting, ?_⟩
  exact {
    isPrefix := by
      have hpaths := hemits.isPrefix
      rw [plan, List.map_append, List.map_map] at hpaths
      exact hpaths
    rendered := hemits.rendered
    stops := fun hcalls herror => by
      obtain ⟨hbehind, rfl⟩ := hemits.stops hcalls herror
      exact ⟨hbehind, rfl⟩
    isOk_iff := by
      rw [← hemits.eq_none_iff]
      cases failure with
      | none => exact iff_of_true ⟨_, rfl⟩ rfl
      | some error =>
        refine iff_of_false ?_ (Option.some_ne_none error)
        rintro ⟨_, h⟩
        cases h
    count := fun h => by
      cases failure with
      | some error => cases h
      | none =>
        cases h
        exact ⟨rfl, by rw [hemits.length_writtenPaths, length_plan]⟩ }

end SchemaAccess
