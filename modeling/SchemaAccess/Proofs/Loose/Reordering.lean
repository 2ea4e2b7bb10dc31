import SchemaAccess.Proofs.Generation.Reordering
import SchemaAccess.Proofs.Loose.Chunks

/-!
# Schemas with their definitions in another order

A search finds the blocks of a schema one by one, and every question about the schema is about the
blocks of a keyword, of a name or of both.  So if no two blocks have one keyword and one name, the
definitions can stand in any order.

* `Block.label`, `HasDistinctBlocks` — keyword and name of a block; no two blocks have both.
* `filter_label_eq` — a block is found by keyword and name in whatever order the blocks come.
* `view_reorders` — views of the same blocks in some order answer alike up to order.
* `generate_intercalate_perm` — generating from chunks in another order.
-/

namespace SchemaAccess.Loose

/-- Keyword and name of a block. -/
def Block.label (block : Block) : Keyword × List Char := (block.keyword, block.name)

/-- No two blocks of a schema have one keyword and one name. -/
def HasDistinctBlocks (text : String) : Prop :=
  ((blocks (clean text.toList)).map Block.label).Nodup

/-! ## Blocks

Every question asks for the blocks of a keyword, and some for those of a name as well.  With
distinct labels there is at most one block of a keyword and a name, so it does not matter where it
stands. -/

section Blocks

variable {list permuted : List Block}

/-- Blocks of one keyword have distinct names. -/
theorem nodup_name_filter (h : (list.map Block.label).Nodup) (keyword : Keyword)
    {p : Block → Bool} (hp : ∀ block, p block = true → block.keyword = keyword) :
    ((list.filter p).map fun block => String.ofList block.name).Nodup := by
  have hlabels : ((list.filter p).map fun block => String.ofList block.name).map
      (fun name => (keyword, name.toList)) = (list.filter p).map Block.label := by
    rw [List.map_map]
    refine List.map_congr_left fun block hblock => ?_
    rw [Function.comp_apply, String.toList_ofList, Block.label,
      hp block (List.mem_filter.1 hblock).2]
  refine List.Nodup.of_map (fun name => (keyword, name.toList)) ?_
  rw [hlabels]
  exact h.sublist (List.filter_sublist.map Block.label)

/-- **The block of a keyword and a name is found in whatever order the blocks come.**  Filtering
keeps a permutation, and a list with at most one element has only itself as one. -/
theorem filter_label_eq (hperm : list.Perm permuted) (h : (list.map Block.label).Nodup)
    (keyword : Keyword) (name : String) :
    (list.filter fun block => block.keyword = keyword && String.ofList block.name = name) =
      permuted.filter fun block => block.keyword = keyword && String.ofList block.name = name := by
  have hlabel : ∀ block : Block,
      (block.keyword = keyword && String.ofList block.name = name) = true →
        block.label = (keyword, name.toList) := by
    intro block hblock
    simp only [Bool.and_eq_true, decide_eq_true_eq] at hblock
    rw [Block.label, hblock.1, ← hblock.2, String.toList_ofList]
  refine (hperm.filter _).eq_of_pairwise (fun a b ha hb _ _ => ?_)
    (List.pairwise_of_forall fun _ _ => trivial) (List.pairwise_of_forall fun _ _ => trivial)
  obtain ⟨hma, hpa⟩ := List.mem_filter.1 ha
  obtain ⟨hmb, hpb⟩ := List.mem_filter.1 hb
  exact List.inj_on_of_nodup_map h hma (hperm.mem_iff.2 hmb)
    ((hlabel a hpa).trans (hlabel b hpb).symm)

end Blocks

/-! ## Views

Declarations that are listed come in the order of their blocks, and those that are asked for by name
are the same.  This is what `Reorders` asks of two views. -/

section Views

variable {text other : List Char}

/-- The models are declared in the order of their blocks. -/
theorem models_perm (h : (blocks text).Perm (blocks other)) : (models text).Perm (models other) :=
  (h.filter _).map _

theorem inputs_perm (h : (blocks text).Perm (blocks other)) : (inputs text).Perm (inputs other) :=
  (h.filter _).map _

theorem enums_perm (h : (blocks text).Perm (blocks other)) : (enums text).Perm (enums other) :=
  (h.filter _).map _

/-- The models have distinct names, since their blocks have one keyword. -/
theorem nodup_name_models (h : ((blocks text).map Block.label).Nodup) :
    ((models text).map ModelDeclaration.name).Nodup := by
  rw [models, List.map_map]
  exact nodup_name_filter h .type fun block hblock => by
    simp only [Bool.and_eq_true, decide_eq_true_eq] at hblock
    exact hblock.1

theorem nodup_name_inputs (h : ((blocks text).map Block.label).Nodup) :
    ((inputs text).map InputDeclaration.name).Nodup := by
  rw [inputs, List.map_map]
  exact nodup_name_filter h .input fun _ hblock => of_decide_eq_true hblock

theorem nodup_name_enums (h : ((blocks text).map Block.label).Nodup) :
    ((enums text).map EnumDeclaration.name).Nodup := by
  rw [enums, List.map_map]
  exact nodup_name_filter h .enum fun _ hblock => of_decide_eq_true hblock

/-- The fields of a type are those of the only block of its name. -/
theorem fieldsOf?_eq_of_perm (hperm : (blocks text).Perm (blocks other))
    (h : ((blocks text).map Block.label).Nodup) (model : String) :
    fieldsOf? text model = fieldsOf? other model := by
  rw [fieldsOf?, fieldsOf?, ← List.head?_filter, ← List.head?_filter,
    filter_label_eq hperm h .type model]

/-- The operations of a root are those of the only block of its name, in their order. -/
theorem operations_eq_of_perm (hperm : (blocks text).Perm (blocks other))
    (h : ((blocks text).map Block.label).Nodup) (root : OperationRoot) :
    operations text root = operations other root := by
  rw [operations, operations, filter_label_eq hperm h .type root.typeName]

/-- **Views of the same blocks in some order answer alike up to order.** -/
theorem view_reorders {source source' build build' : String}
    (hs : (blocks (clean source.toList)).Perm (blocks (clean source'.toList)))
    (hb : (blocks (clean build.toList)).Perm (blocks (clean build'.toList)))
    (hsource : HasDistinctBlocks source) (hbuild : HasDistinctBlocks build) :
    (view source build).Reorders (view source' build') where
  models := ⟨_, _, rfl, rfl, models_perm hs, nodup_name_models hsource⟩
  fields := by
    funext model
    simp only [view, fieldsOf?_eq_of_perm hb hbuild]
  operations := by
    funext root
    simp only [view, operations_eq_of_perm hb hbuild]
  inputs := ⟨_, _, rfl, rfl, inputs_perm hb, nodup_name_inputs hbuild⟩
  enums := ⟨_, _, rfl, rfl, enums_perm hb, nodup_name_enums hbuild⟩

end Views

/-! ## Chunks in another order

A chunk is found apart from those around it, so a schema that is put together from chunks in another
order has the same blocks in another order. -/

section Chunks

variable {source source' build build' : List String} {buildSet : List String}
  {fragments : FragmentOverrides} {hooks : HookOverrides}

/-- **If no two blocks have one keyword and one name, chunks can stand in any order**: the
generation goes through in one order exactly if it does in the other, and the same comes out, but
for the order of the registries of enums and inputs.  `blocks` of a text made of chunks are those of
the chunks, so the two views reorder each other by `view_reorders`. -/
theorem generate_intercalate_perm (hs : source.Perm source') (hb : build.Perm build')
    (hsource : ∀ chunk ∈ source, IsChunk chunk) (hbuild : ∀ chunk ∈ build, IsChunk chunk)
    (hsdistinct : HasDistinctBlocks ("\n".intercalate source))
    (hbdistinct : HasDistinctBlocks ("\n".intercalate build)) :
    SameOutcome
      (generate (view ("\n".intercalate source) ("\n".intercalate build)) buildSet fragments hooks)
      (generate (view ("\n".intercalate source') ("\n".intercalate build')) buildSet fragments
        hooks) :=
  sameOutcome_generate <| view_reorders (blocks_perm_of_perm hs hsource)
    (blocks_perm_of_perm hb hbuild) hsdistinct hbdistinct

def stateType : String := "enum State { OPEN CLOSED }"

theorem generate_intercalate_perm_blogs :
    [postType, blogType].Perm [blogType, postType] ∧
      [stateType, postType, blogType].Perm [blogType, stateType, postType] ∧
      (∀ chunk ∈ [postType, blogType], IsChunk chunk) ∧
      (∀ chunk ∈ [stateType, postType, blogType], IsChunk chunk) ∧
      HasDistinctBlocks ("\n".intercalate [postType, blogType]) ∧
      HasDistinctBlocks ("\n".intercalate [stateType, postType, blogType]) ∧
      SameOutcome
        (generate (view ("\n".intercalate [postType, blogType])
          ("\n".intercalate [stateType, postType, blogType])) [] Table.empty Table.empty)
        (generate (view ("\n".intercalate [blogType, postType])
          ("\n".intercalate [blogType, stateType, postType])) [] Table.empty Table.empty) := by
  have hclean : clean stateType.toList = stateType.toList :=
    clean_eq_self (List.all_eq_true.1 (by decide))
  have hstate : blocks (clean stateType.toList) =
      [⟨.enum, "State".toList, " ".toList, " OPEN CLOSED ".toList⟩] := by
    rw [hclean]
    exact @blocks_single .enum "State".toList [' '] " OPEN CLOSED ".toList (by decide)
      (Text.stops_cons (by decide) _) (List.all_eq_true.1 (by decide))
      (List.all_eq_true.1 (by decide))
  have hchunk : IsChunk stateType := by
    rw [IsChunk, hclean]
    decide
  have hs : [postType, blogType].Perm [blogType, postType] := .swap _ _ _
  have hb : [stateType, postType, blogType].Perm [blogType, stateType, postType] :=
    .trans (.cons _ (.swap _ _ _)) (.swap _ _ _)
  have hsource : ∀ chunk ∈ [postType, blogType], IsChunk chunk := by
    simp [isChunk_blogType, isChunk_postType]
  have hbuild : ∀ chunk ∈ [stateType, postType, blogType], IsChunk chunk := by
    simp [isChunk_blogType, isChunk_postType, hchunk]
  have hsdistinct : HasDistinctBlocks ("\n".intercalate [postType, blogType]) := by
    rw [HasDistinctBlocks, blocks_clean_intercalate hsource]
    simp [blocks_blogType, blocks_postType, Block.label, blockOf]
  have hbdistinct : HasDistinctBlocks ("\n".intercalate [stateType, postType, blogType]) := by
    rw [HasDistinctBlocks, blocks_clean_intercalate hbuild]
    simp [blocks_blogType, blocks_postType, hstate, Block.label, blockOf]
  exact ⟨hs, hb, hsource, hbuild, hsdistinct, hbdistinct,
    generate_intercalate_perm hs hb hsource hbuild hsdistinct hbdistinct⟩

end Chunks

end SchemaAccess.Loose
