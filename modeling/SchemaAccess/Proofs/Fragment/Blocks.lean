import Mathlib.Data.List.Basic
import SchemaAccess.Proofs.Fragment.Composition

/-!
# Blocks in rendered lines

A block of a rendered fragment is seen in its lines: one that ends in an opening brace, the lines
inside, and one with the closing brace.  Which line closes a block is decided by counting braces, so
the blocks are found again in the lines alone.

* `Balanced` — every opening line has its closing line.
* `HasNoEmptyBlock` — between an opening line and the line that closes its block there is a line
  other than a closing one.
* `Outline.IsFilled` — every block of an outline has something inside.
* `hasNoEmptyBlock_layoutAll_iff` — for outlines without braces in their texts the two are the same.
-/

namespace SchemaAccess

/-! ## Lines

Lines are looked at from outside, as a reader of the rendered text would: by their last character
and by what stands behind their margin.  Everything in this section holds of any lines, rendered or
not. -/

/-- True of a line that opens a block: it ends in an opening brace. -/
def opensBlock (line : List Char) : Bool := line.getLast? == some '\x7b'

/-- True of a line that closes a block: a closing brace behind spaces. -/
def closesBlock (line : List Char) : Bool := line.dropWhile (· == ' ') == ['\x7d']

/-- Lines in which every opening line has its closing line, and the other way round. -/
inductive Balanced : List (List Char) → Prop
  | nil : Balanced []
  | line {line : List Char} {rest : List (List Char)} (opens : opensBlock line = false)
      (closes : closesBlock line = false) (tail : Balanced rest) : Balanced (line :: rest)
  | block {opening closing : List Char} {inner rest : List (List Char)}
      (opens : opensBlock opening = true) (closes : closesBlock closing = true)
      (inside : Balanced inner) (tail : Balanced rest) :
      Balanced (opening :: inner ++ closing :: rest)

/-- Every opening line is followed, before the line that closes its block, by a line other than a
closing one. -/
def HasNoEmptyBlock (lines : List (List Char)) : Prop :=
  ∀ before opening after, lines = before ++ opening :: after → opensBlock opening = true →
    ∃ inner closing rest, after = inner ++ closing :: rest ∧ Balanced inner ∧
      closesBlock closing = true ∧ ∃ line ∈ inner, closesBlock line = false

/-- A line without an opening brace opens no block. -/
theorem opensBlock_eq_false_of_not_mem {line : List Char} (h : '\x7b' ∉ line) :
    opensBlock line = false :=
  beq_eq_false_iff_ne.2 fun hlast => h (List.mem_of_getLast? hlast)

/-- A line without a closing brace closes none. -/
theorem closesBlock_eq_false_of_not_mem {line : List Char} (h : '\x7d' ∉ line) :
    closesBlock line = false := by
  refine beq_eq_false_iff_ne.2 fun hdrop => h ?_
  have hmem : '\x7d' ∈ line.dropWhile (· == ' ') := hdrop ▸ List.mem_singleton.2 rfl
  exact (List.dropWhile_suffix _).subset hmem

/-- No line opens a block and closes one. -/
theorem closesBlock_of_opensBlock {line : List Char} (h : opensBlock line = true) :
    closesBlock line = false := by
  refine beq_eq_false_iff_ne.2 fun hdrop => ?_
  obtain ⟨front, hfront⟩ := List.dropWhile_suffix (l := line) (· == ' ')
  rw [hdrop] at hfront
  rw [opensBlock, ← hfront, List.getLast?_append] at h
  cases h

/-- Balanced lines behind balanced ones are balanced. -/
theorem Balanced.append {as bs : List (List Char)} (ha : Balanced as) (hb : Balanced bs) :
    Balanced (as ++ bs) := by
  induction ha with
  | nil => exact hb
  | line opens closes _ ih => exact .line opens closes ih
  | @block opening closing inner rest opens closes inside _ _ ih =>
    rw [List.append_assoc, List.cons_append, List.cons_append]
    exact .block opens closes inside ih

/-- Balanced lines do not begin with a closing line. -/
theorem Balanced.closesBlock_eq_false {line : List Char} {rest : List (List Char)}
    (h : Balanced (line :: rest)) : closesBlock line = false := by
  cases h with
  | line _ closes _ => exact closes
  | block opens _ _ _ => exact closesBlock_of_opensBlock opens

namespace HasNoEmptyBlock

variable {as bs : List (List Char)} {line opening closing : List Char}

theorem nil : HasNoEmptyBlock [] := by
  intro before opening after h
  simp at h

/-- Lines without an empty block may be put behind each other. -/
theorem append (ha : HasNoEmptyBlock as) (hb : HasNoEmptyBlock bs) :
    HasNoEmptyBlock (as ++ bs) := by
  intro before opening after h hopens
  rcases List.append_eq_append_iff.1 h with ⟨middle, hbefore, hrest⟩ | ⟨middle, hbefore, hrest⟩
  · exact hb middle opening after hrest hopens
  · cases middle with
    | nil => exact hb [] opening after hrest.symm hopens
    | cons first middle =>
      obtain ⟨rfl, rfl⟩ := List.cons.inj hrest
      obtain ⟨inner, closing, rest, rfl, hinner, hclosing, hline⟩ :=
        ha before opening middle hbefore hopens
      exact ⟨inner, closing, rest ++ bs, by simp, hinner, hclosing, hline⟩

theorem singleton (h : opensBlock line = false) : HasNoEmptyBlock [line] := by
  intro before opening after hsplit hopens
  obtain ⟨rfl, rfl, rfl⟩ : before = [] ∧ opening = line ∧ after = [] := by
    cases before <;> simp_all
  rw [h] at hopens
  cases hopens

/-- **A block around lines without an empty block is not empty if one of them is no closing line.**
The lines inside are balanced, so its closing line is the one behind them. -/
theorem block (hcloses : closesBlock closing = true) (hbalanced : Balanced as)
    (hline : ∃ line ∈ as, closesBlock line = false) (h : HasNoEmptyBlock as) :
    HasNoEmptyBlock (opening :: as ++ [closing]) := by
  intro before other after hsplit hother
  cases before with
  | nil =>
    obtain ⟨rfl, rfl⟩ := List.cons.inj hsplit
    exact ⟨as, closing, [], rfl, hbalanced, hcloses, hline⟩
  | cons first before =>
    have hclosing : opensBlock closing = false := by
      by_contra hopen
      rw [closesBlock_of_opensBlock (Bool.of_not_eq_false hopen)] at hcloses
      cases hcloses
    exact h.append (singleton hclosing) before other after (List.cons.inj hsplit).2 hother

/-- An opening line is not directly followed by a closing one.  This is what is left of the property
when blocks cannot be found any more, and for outlines it is enough. -/
theorem not_infix (h : HasNoEmptyBlock as) (hopens : opensBlock opening = true)
    (hcloses : closesBlock closing = true) : ¬ [opening, closing] <:+: as := by
  rintro ⟨before, after, hsplit⟩
  obtain ⟨inner, other, rest, hafter, hinner, -, hline⟩ :=
    h before opening (closing :: after) (by rw [← hsplit]; simp) hopens
  cases inner with
  | nil =>
    obtain ⟨line, hmem, -⟩ := hline
    exact absurd hmem List.not_mem_nil
  | cons first inner =>
    obtain ⟨rfl, -⟩ := List.cons.inj hafter
    rw [hinner.closesBlock_eq_false] at hcloses
    cases hcloses

end HasNoEmptyBlock

/-! ## Outlines

A block of an outline is a node with a body, and it is empty if the body is.  `IsFilled` says this
of all nodes and does not mention lines. -/

/-- Without braces and line breaks, so that it makes no difference to the blocks around it. -/
def IsPlain (text : String) : Prop := ∀ c ∈ text.toList, c ≠ '\x7b' ∧ c ≠ '\x7d' ∧ c ≠ '\n'

instance (text : String) : Decidable (IsPlain text) := List.decidableBAll _ _

namespace Outline

mutual

/-- Every block has something inside. -/
def IsFilled : Outline → Prop
  | line _ => True
  | block _ body => body ≠ [] ∧ AllFilled body

/-- Every block of each outline has something inside. -/
def AllFilled : List Outline → Prop
  | [] => True
  | outline :: outlines => outline.IsFilled ∧ AllFilled outlines

end

/-- Outlines behind each other are filled if all of them are. -/
theorem allFilled_append {as bs : List Outline} :
    AllFilled (as ++ bs) ↔ AllFilled as ∧ AllFilled bs := by
  induction as with
  | nil => simp [AllFilled]
  | cons a as ih => rw [List.cons_append, AllFilled, AllFilled, ih, and_assoc]

/-- Where there is an outline there is a line. -/
theorem layoutAll_ne_nil (depth : Nat) : ∀ {outlines : List Outline}, outlines ≠ [] →
    layoutAll depth outlines ≠ []
  | [], h => absurd rfl h
  | .line text :: outlines, _ => by
      rw [layoutAll_cons, layout_line]
      exact List.cons_ne_nil _ _
  | .block head body :: outlines, _ => by
      rw [layoutAll_cons, layout_block]
      exact List.cons_ne_nil _ _

/-! ## The lines of outlines

The text of a node might have braces in it, which the lines would not tell from those of blocks.
For texts without, the lines of an outline are balanced, and an empty node is an empty block. -/

/-- The head of a block opens it. -/
theorem opensBlock_indented (depth : Nat) (head : String) :
    opensBlock (indented depth (head ++ " \x7b")).toList = true := by
  rw [toList_indented, String.toList_append, opensBlock, ← List.append_assoc,
    List.getLast?_append]
  rfl

/-- Its closing brace closes it, at any depth. -/
theorem closesBlock_indented (depth : Nat) : closesBlock (indented depth "\x7d").toList = true := by
  rw [toList_indented, closesBlock, List.dropWhile_append_of_pos fun c hc =>
    beq_iff_eq.2 (List.eq_of_mem_replicate hc)]
  decide

/-- What holds of a space and of all of a text holds of all of its line. -/
theorem forall_mem_indented {p : Char → Prop} (hspace : p ' ') (depth : Nat) {text : String}
    (h : ∀ c ∈ text.toList, p c) : ∀ c ∈ (indented depth text).toList, p c := by
  rw [toList_indented, List.forall_mem_append]
  refine ⟨fun c hc => ?_, h⟩
  rwa [List.eq_of_mem_replicate hc]

/-- No line holds a line break. -/
theorem ne_break_of_mem_layoutAll {depth : Nat} {outlines : List Outline}
    (h : ∀ text ∈ allTexts outlines, IsPlain text) :
    ∀ row ∈ layoutAll depth outlines, ∀ c ∈ row.toList, c ≠ '\n' := by
  intro row hrow
  obtain ⟨deeper, text, -, rfl, htext⟩ := exists_indented_of_mem_layoutAll outlines depth row hrow
  refine forall_mem_indented (by decide) deeper ?_
  rcases htext with htext | htext | rfl
  · exact fun c hc => (h text htext c hc).2.2
  · obtain ⟨head, hhead, rfl⟩ := List.mem_map.1 htext
    rw [String.toList_append, List.forall_mem_append]
    refine ⟨fun c hc => (h head hhead c hc).2.2, ?_⟩
    rintro c hc rfl
    exact absurd hc (by decide)
  · rintro c hc rfl
    exact absurd hc (by decide)

/-- The line of a plain text opens no block and closes none. -/
theorem opensBlock_indented_of_plain (depth : Nat) {text : String} (h : IsPlain text) :
    opensBlock (indented depth text).toList = false := by
  refine opensBlock_eq_false_of_not_mem fun hmem => ?_
  exact forall_mem_indented (p := (· ≠ '\x7b')) (by decide) depth (fun c hc => (h c hc).1) _ hmem
    rfl

theorem closesBlock_indented_of_plain (depth : Nat) {text : String} (h : IsPlain text) :
    closesBlock (indented depth text).toList = false := by
  refine closesBlock_eq_false_of_not_mem fun hmem => ?_
  exact forall_mem_indented (p := (· ≠ '\x7d')) (by decide) depth (fun c hc => (h c hc).2.1) _ hmem
    rfl

mutual

theorem balanced_layout : ∀ (outline : Outline) (depth : Nat),
    (∀ text ∈ outline.texts, IsPlain text) →
      Balanced ((outline.layout depth).map String.toList)
  | .line text, depth, h => by
      have hplain : IsPlain text := h text (by simp [texts])
      rw [layout_line]
      exact .line (opensBlock_indented_of_plain depth hplain)
        (closesBlock_indented_of_plain depth hplain) .nil
  | .block head body, depth, h => by
      rw [layout_block, List.map_append, List.map_cons]
      rw [texts] at h
      exact .block (opensBlock_indented depth head) (closesBlock_indented depth)
        (balanced_layoutAll body (depth + 1) fun text ht => h text (List.mem_cons_of_mem _ ht)) .nil

/-- **The lines of outlines are balanced**, by induction on the outlines: each node is a line, or a
block around balanced lines. -/
theorem balanced_layoutAll : ∀ (outlines : List Outline) (depth : Nat),
    (∀ text ∈ allTexts outlines, IsPlain text) →
      Balanced ((layoutAll depth outlines).map String.toList)
  | [], depth, _ => by
      rw [layoutAll_nil]
      exact .nil
  | outline :: outlines, depth, h => by
      rw [allTexts] at h
      rw [layoutAll_cons, List.map_append]
      exact (balanced_layout outline depth fun text ht => h text (List.mem_append_left _ ht)).append
        (balanced_layoutAll outlines depth fun text ht => h text (List.mem_append_right _ ht))

end

mutual

theorem hasNoEmptyBlock_layout : ∀ (outline : Outline) (depth : Nat),
    (∀ text ∈ outline.texts, IsPlain text) → outline.IsFilled →
      HasNoEmptyBlock ((outline.layout depth).map String.toList)
  | .line text, depth, h, _ => by
      rw [layout_line]
      exact .singleton (opensBlock_indented_of_plain depth (h text (by simp [texts])))
  | .block head body, depth, h, hfilled => by
      rw [IsFilled] at hfilled
      rw [texts] at h
      have hbody : ∀ text ∈ allTexts body, IsPlain text := fun text ht =>
        h text (List.mem_cons_of_mem _ ht)
      have hbalanced := balanced_layoutAll body (depth + 1) hbody
      have hline : ∃ line ∈ (layoutAll (depth + 1) body).map String.toList,
          closesBlock line = false := by
        obtain ⟨first, rest, hfirst⟩ := List.exists_cons_of_ne_nil
          (mt List.map_eq_nil_iff.1 (layoutAll_ne_nil (depth + 1) hfilled.1))
        rw [hfirst] at hbalanced ⊢
        exact ⟨first, List.mem_cons_self, hbalanced.closesBlock_eq_false⟩
      rw [layout_block, List.map_append, List.map_cons]
      exact .block (closesBlock_indented depth) hbalanced hline
        (hasNoEmptyBlock_layoutAll body (depth + 1) hbody hfilled.2)

/-- **Filled outlines have lines without an empty block.**  Of the lines inside a block the first is
no closing one, by `Balanced.closesBlock_eq_false`. -/
theorem hasNoEmptyBlock_layoutAll : ∀ (outlines : List Outline) (depth : Nat),
    (∀ text ∈ allTexts outlines, IsPlain text) → AllFilled outlines →
      HasNoEmptyBlock ((layoutAll depth outlines).map String.toList)
  | [], depth, _, _ => by
      rw [layoutAll_nil]
      exact .nil
  | outline :: outlines, depth, h, hfilled => by
      rw [allTexts] at h
      rw [AllFilled] at hfilled
      have hfirst := hasNoEmptyBlock_layout outline depth
        (fun text ht => h text (List.mem_append_left _ ht)) hfilled.1
      have hrest := hasNoEmptyBlock_layoutAll outlines depth
        (fun text ht => h text (List.mem_append_right _ ht)) hfilled.2
      rw [layoutAll_cons, List.map_append]
      exact hfirst.append hrest

end

/-- No opening line stands directly before a closing one. -/
def HasNoEmptyPair (lines : List String) : Prop :=
  ∀ opening closing, opensBlock opening.toList = true → closesBlock closing.toList = true →
    ¬ [opening, closing] <:+: lines

theorem HasNoEmptyPair.of_infix {as bs : List String} (h : HasNoEmptyPair bs) (hab : as <:+: bs) :
    HasNoEmptyPair as :=
  fun opening closing hopens hcloses hpair => h opening closing hopens hcloses (hpair.trans hab)

mutual

/-- An empty node has its closing line directly behind its head, so without such a pair it is
filled. -/
theorem isFilled_of_hasNoEmptyPair : ∀ (outline : Outline) (depth : Nat),
    HasNoEmptyPair (outline.layout depth) → outline.IsFilled
  | .line _, _, _ => by
      rw [IsFilled]
      trivial
  | .block head body, depth, h => by
      rw [layout_block] at h
      rw [IsFilled]
      constructor
      · rintro rfl
        refine h _ _ (opensBlock_indented depth head) (closesBlock_indented depth) ?_
        rw [layoutAll_nil]
        exact List.infix_rfl
      · refine allFilled_of_hasNoEmptyPair body (depth + 1) (h.of_infix ?_)
        exact ⟨[_], [_], rfl⟩

/-- Where no opening line stands directly before a closing one, all outlines are filled. -/
theorem allFilled_of_hasNoEmptyPair : ∀ (outlines : List Outline) (depth : Nat),
    HasNoEmptyPair (layoutAll depth outlines) → AllFilled outlines
  | [], _, _ => by
      rw [AllFilled]
      trivial
  | outline :: outlines, depth, h => by
      rw [layoutAll_cons] at h
      rw [AllFilled]
      exact ⟨isFilled_of_hasNoEmptyPair outline depth (h.of_infix (List.prefix_append _ _).isInfix),
        allFilled_of_hasNoEmptyPair outlines depth (h.of_infix (List.suffix_append _ _).isInfix)⟩

end

/-- **Outlines without braces in their texts have lines without an empty block exactly if every
block of theirs has something inside.** -/
theorem hasNoEmptyBlock_layoutAll_iff {outlines : List Outline} (depth : Nat)
    (hplain : ∀ text ∈ allTexts outlines, IsPlain text) :
    HasNoEmptyBlock ((layoutAll depth outlines).map String.toList) ↔ AllFilled outlines := by
  refine ⟨fun h => allFilled_of_hasNoEmptyPair outlines depth ?_,
    hasNoEmptyBlock_layoutAll outlines depth hplain⟩
  exact fun opening closing hopens hcloses hpair =>
    h.not_infix hopens hcloses (hpair.map String.toList)

end Outline

/-- The lines of a rendered body are those of its outlines, where no text holds a line break. -/
theorem lines_renderFragment_of_plain {g : ModelGraph} {model key : String}
    {selection : List Selection}
    (h : ∀ text ∈ Outline.allTexts (compose g model selection).outlines, IsPlain text) :
    (renderFragment g model key selection).lines =
      (selectionLines g model selection 1).map String.toList := by
  rw [lines_renderFragment, List.map_eq_flatMap]
  exact List.flatMap_congr fun row hrow =>
    Text.lines_of_forall (Outline.toList_ne_nil_of_mem_layoutAll hrow)
      (Outline.ne_break_of_mem_layoutAll h row hrow)

end SchemaAccess
