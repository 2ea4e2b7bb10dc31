import SchemaAccess.Proofs.Fragment.Blocks

/-!
# How rendered lines are indented

Every line of an outline stands behind two spaces for each block around it, and a closing brace
stands below the line that it closes.  Which blocks are around a line can be told by counting the
braces in front of it, as long as the texts have no braces of their own.

* `IsWord` — a text without white space and braces.
* `Indented` — lines and blocks one after the other, each block with its lines one level deeper.
* `indented_layoutAll` — the lines of an outline are of that form.
* `layoutAll_add` — a deeper layout has the same lines behind a margin.
* `braces`, `Indented.braces_eq`, `Indented.hasLevels` — as many braces are closed as are opened,
  and the level of each line is the number of braces that are open around it.
-/

namespace SchemaAccess

open Outline (indented layoutAll allTexts toList_indented)

/-! ## Words -/

/-- A text without white space and without braces. -/
def IsWord (text : String) : Prop :=
  ∀ c ∈ text.toList, Text.isBlank c = false ∧ c ≠ '\x7b' ∧ c ≠ '\x7d'

instance (text : String) : Decidable (IsWord text) := List.decidableBAll _ _

/-- A word has neither a brace nor a line feed in it, so it stands on a line of its own. -/
theorem IsWord.isPlain {text : String} (h : IsWord text) : IsPlain text := by
  intro c hc
  obtain ⟨hblank, hopen, hclose⟩ := h c hc
  refine ⟨hopen, hclose, ?_⟩
  rintro rfl
  exact absurd hblank (by decide)

/-- What is written on one line: a word, the head of a block or its closing brace. -/
inductive IsContent : String → Prop
  | word {text : String} (word : IsWord text) : IsContent text
  | head {name : String} (word : IsWord name) : IsContent (name ++ " \x7b")
  | closing : IsContent "\x7d"

/-! ## Indented lines

An outline is a tree, and its layout a list of lines.  `Indented` describes such lists without the
tree, by what may stand behind what, and so says of the lines all that their indentation tells. -/

/-- Lines at a depth: words behind two spaces a level, and blocks whose lines are one level deeper
than their heads and closing braces. -/
inductive Indented : (depth : Nat) → List String → Prop
  | nil {depth : Nat} : Indented depth []
  | line {depth : Nat} {text : String} {rest : List String} (word : IsWord text)
      (tail : Indented depth rest) : Indented depth (indented depth text :: rest)
  | block {depth : Nat} {head : String} {inner rest : List String} (word : IsWord head)
      (inside : Indented (depth + 1) inner) (tail : Indented depth rest) :
      Indented depth
        (indented depth (head ++ " \x7b") :: inner ++ indented depth "\x7d" :: rest)

/-- Indented lines may be put behind each other at the same depth. -/
theorem Indented.append {depth : Nat} {as bs : List String} (ha : Indented depth as)
    (hb : Indented depth bs) : Indented depth (as ++ bs) := by
  induction ha with
  | nil => exact hb
  | line word _ ih => exact .line word (ih hb)
  | @block depth head inner rest word inside _ _ ih =>
    rw [List.append_assoc, List.cons_append, List.cons_append]
    exact .block word inside (ih hb)

namespace Outline

mutual

/-- The lines of one outline are indented, together with those of several: the two inductions go
through the tree at once. -/
theorem indented_layout : ∀ (outline : Outline) (depth : Nat),
    (∀ text ∈ outline.texts, IsWord text) → Indented depth (outline.layout depth)
  | .line text, depth, h => by
      rw [texts] at h
      rw [layout_line]
      exact .line (h text List.mem_cons_self) .nil
  | .block head body, depth, h => by
      rw [texts, List.forall_mem_cons] at h
      rw [layout_block]
      exact .block h.1 (indented_layoutAll body (depth + 1) h.2) .nil

/-- Outlines whose texts are words are laid out as indented lines. -/
theorem indented_layoutAll : ∀ (outlines : List Outline) (depth : Nat),
    (∀ text ∈ allTexts outlines, IsWord text) → Indented depth (layoutAll depth outlines)
  | [], depth, _ => by
      rw [layoutAll_nil]
      exact .nil
  | outline :: outlines, depth, h => by
      rw [allTexts, List.forall_mem_append] at h
      rw [layoutAll_cons]
      exact (indented_layout outline depth h.1).append (indented_layoutAll outlines depth h.2)

end

/-! ## Deeper lines

The depth at which an outline is laid out is a margin in front of every line, and nothing else
depends on it. -/

/-- A margin in front of a margin is one of both depths. -/
theorem indented_indented (depth inner : Nat) (text : String) :
    indented depth (indented inner text) = indented (depth + inner) text := by
  rw [← String.toList_inj, toList_indented, toList_indented, toList_indented, ← List.append_assoc,
    List.replicate_append_replicate, Nat.mul_add]

mutual

/-- For one outline, a deeper layout has the same lines behind a margin. -/
theorem layout_add (depth inner : Nat) : ∀ outline : Outline,
    outline.layout (depth + inner) = (outline.layout inner).map (indented depth)
  | .line text => by
      rw [layout_line, layout_line, List.map_singleton, indented_indented]
  | .block head body => by
      rw [layout_block, layout_block, List.map_append, List.map_cons, List.map_singleton,
        indented_indented, indented_indented, Nat.add_assoc, layoutAll_add depth (inner + 1) body]

/-- A deeper layout has the same lines behind a margin. -/
theorem layoutAll_add (depth inner : Nat) : ∀ outlines : List Outline,
    layoutAll (depth + inner) outlines = (layoutAll inner outlines).map (indented depth)
  | [] => by rw [layoutAll_nil, layoutAll_nil, List.map_nil]
  | outline :: outlines => by
      rw [layoutAll_cons, layoutAll_cons, List.map_append, layout_add depth inner outline,
        layoutAll_add depth inner outlines]

end

end Outline

/-! ## Counting braces

The blocks around a line can be told from the lines alone.  Words have no braces and margins
neither, so every opening brace is the end of a head and every closing one a line of its own. -/

/-- How often a brace occurs in lines. -/
def braces (brace : Char) : List String → Nat
  | [] => 0
  | line :: lines => line.toList.count brace + braces brace lines

@[simp]
theorem braces_nil (brace : Char) : braces brace [] = 0 := rfl

@[simp]
theorem braces_cons (brace : Char) (line : String) (lines : List String) :
    braces brace (line :: lines) = line.toList.count brace + braces brace lines := rfl

/-- Braces are counted list by list. -/
@[simp]
theorem braces_append (brace : Char) (as bs : List String) :
    braces brace (as ++ bs) = braces brace as + braces brace bs := by
  induction as with
  | nil => rw [List.nil_append, braces_nil, Nat.zero_add]
  | cons line as ih => rw [List.cons_append, braces_cons, braces_cons, ih, Nat.add_assoc]

/-- A margin has no braces. -/
theorem count_indented {brace : Char} (h : brace ≠ ' ') (depth : Nat) (text : String) :
    (indented depth text).toList.count brace = text.toList.count brace := by
  have hmargin : (List.replicate (2 * depth) ' ').count brace = 0 :=
    List.count_eq_zero.2 fun hmem => h (List.eq_of_mem_replicate hmem)
  rw [Outline.toList_indented, List.count_append, hmargin, Nat.zero_add]

@[simp]
theorem count_open_indented (depth : Nat) (text : String) :
    (indented depth text).toList.count '\x7b' = text.toList.count '\x7b' :=
  count_indented (by decide) depth text

@[simp]
theorem count_close_indented (depth : Nat) (text : String) :
    (indented depth text).toList.count '\x7d' = text.toList.count '\x7d' :=
  count_indented (by decide) depth text

namespace IsWord

variable {text : String} (h : IsWord text)
include h

theorem count_open : text.toList.count '\x7b' = 0 :=
  List.count_eq_zero.2 fun hmem => (h _ hmem).2.1 rfl

theorem count_close : text.toList.count '\x7d' = 0 :=
  List.count_eq_zero.2 fun hmem => (h _ hmem).2.2 rfl

/-- The head of a block opens one block. -/
theorem count_open_head : (text ++ " \x7b").toList.count '\x7b' = 1 := by
  rw [String.toList_append, List.count_append, h.count_open]
  decide

theorem count_close_head : (text ++ " \x7b").toList.count '\x7d' = 0 := by
  rw [String.toList_append, List.count_append, h.count_close]
  decide

end IsWord

theorem count_open_closing : "\x7d".toList.count '\x7b' = 0 := by decide

theorem count_close_closing : "\x7d".toList.count '\x7d' = 1 := by decide

namespace Indented

variable {depth : Nat} {lines : List String}

/-- As many braces are closed as are opened, by induction on how the lines are indented: each block
opens and closes one. -/
theorem braces_eq (h : Indented depth lines) : braces '\x7b' lines = braces '\x7d' lines := by
  induction h with
  | nil => rfl
  | line word _ ih => simp [word.count_open, word.count_close, ih]
  | block word _ _ inside ih =>
    simp only [List.cons_append, braces_cons, braces_append, count_open_indented,
      count_close_indented, word.count_open_head, word.count_close_head, count_open_closing,
      count_close_closing, inside, ih]
    omega

/-- **Each line stands at a level**: the number of the braces that are opened in front of it and
closed neither there nor by the line itself.  Two spaces for each level, and two for each unit of
the depth, are all that stands in front of its content. -/
def HasLevels (depth : Nat) (lines : List String) : Prop :=
  ∀ before row after, lines = before ++ row :: after → ∃ level text, IsContent text ∧
    row.toList = List.replicate (2 * (depth + level)) ' ' ++ text.toList ∧
      braces '\x7b' before = braces '\x7d' (before ++ [row]) + level

/-- A word in front of lines with levels has the level zero, and the lines behind it keep theirs,
since no brace is in it. -/
theorem hasLevels_line {text : String} {rest : List String} (word : IsWord text)
    (hrest : HasLevels depth rest) : HasLevels depth (indented depth text :: rest) := by
  intro before row after hsplit
  cases before with
  | nil =>
    obtain ⟨rfl, -⟩ := List.cons.inj hsplit
    exact ⟨0, text, .word word, toList_indented depth text, by simp [word.count_close]⟩
  | cons first before =>
    obtain ⟨rfl, htail⟩ := List.cons.inj hsplit
    obtain ⟨level, content, hcontent, hrow, hcount⟩ := hrest before row after htail
    refine ⟨level, content, hcontent, hrow, ?_⟩
    simpa [word.count_open, word.count_close] using hcount

/-- **A block in front of lines with levels.**  Its head and its closing brace have the level zero;
the lines inside have one level more than they have by themselves, because the brace of the head is
open around them. -/
theorem hasLevels_block {head : String} {inner rest : List String} (word : IsWord head)
    (inside : Indented (depth + 1) inner) (hinner : HasLevels (depth + 1) inner)
    (hrest : HasLevels depth rest) :
    HasLevels depth
      (indented depth (head ++ " \x7b") :: inner ++ indented depth "\x7d" :: rest) := by
  intro before row after hsplit
  cases before with
  | nil =>
    obtain ⟨rfl, -⟩ := List.cons.inj hsplit
    refine ⟨0, _, .head word, toList_indented depth (head ++ " \x7b"), ?_⟩
    rw [List.nil_append, braces_cons, braces_nil, braces_nil, count_close_indented,
      word.count_close_head]
  | cons first before =>
    obtain ⟨rfl, htail⟩ := List.cons.inj hsplit
    -- The closing brace stands at the level of the head, since those inside are balanced.
    have hclosing : ∃ level text, IsContent text ∧
        (indented depth "\x7d").toList =
          List.replicate (2 * (depth + level)) ' ' ++ text.toList ∧
        braces '\x7b' (indented depth (head ++ " \x7b") :: inner) =
          braces '\x7d' ((indented depth (head ++ " \x7b") :: inner) ++ [indented depth "\x7d"]) +
            level := by
      refine ⟨0, "\x7d", .closing, toList_indented depth "\x7d", ?_⟩
      simp only [braces_append, braces_cons, braces_nil, count_open_indented, count_close_indented,
        word.count_open_head, word.count_close_head, count_close_closing, inside.braces_eq]
      omega
    rcases List.append_eq_append_iff.1 htail with ⟨middle, rfl, hrow⟩ | ⟨middle, rfl, hrow⟩
    · cases middle with
      | nil =>
        obtain ⟨rfl, -⟩ := List.cons.inj hrow
        rwa [List.append_nil]
      | cons closing middle =>
        obtain ⟨rfl, hlater⟩ := List.cons.inj hrow
        obtain ⟨level, content, hcontent, hrow, hcount⟩ := hrest middle row after hlater
        refine ⟨level, content, hcontent, hrow, ?_⟩
        simp only [List.cons_append, braces_append, braces_cons, braces_nil, count_open_indented,
          count_close_indented, word.count_open_head, word.count_close_head, count_open_closing,
          count_close_closing, inside.braces_eq] at hcount ⊢
        omega
    · cases middle with
      | nil =>
        obtain ⟨rfl, -⟩ := List.cons.inj hrow
        rwa [List.append_nil] at hclosing
      | cons other middle =>
        obtain ⟨rfl, -⟩ := List.cons.inj hrow
        obtain ⟨level, content, hcontent, hrow, hcount⟩ := hinner before row middle rfl
        refine ⟨level + 1, content, hcontent, ?_, ?_⟩
        · rw [hrow, Nat.add_assoc, Nat.add_comm 1 level]
        · simp only [List.cons_append, braces_append, braces_cons, braces_nil, count_open_indented,
            word.count_open_head, count_close_indented, word.count_close_head] at hcount ⊢
          omega

/-- **The level of each indented line is the number of the blocks around it.**  By induction on how
the lines are indented, with one lemma for words and one for blocks. -/
theorem hasLevels (h : Indented depth lines) : HasLevels depth lines := by
  induction h with
  | nil => exact fun before row after hsplit => by simp at hsplit
  | line word _ ih => exact hasLevels_line word ih
  | block word inside _ ihInside ihTail => exact hasLevels_block word inside ihInside ihTail

end Indented

end SchemaAccess
