import SchemaAccess.Proofs.Text.Pieces

/-!
# Lines of a text

* `lines` — the lines of a text; an empty text has none.
* `lines_intercalate`, `splitWhere_intercalate` — lines that are put together are found again.
-/

namespace SchemaAccess.Text

/-- The lines of a text; an empty text has none. -/
def lines (s : List Char) : List (List Char) :=
  if s = [] then [] else splitWhere (· == '\n') s

theorem lines_eq_splitWhere {s : List Char} (h : s ≠ []) : lines s = splitWhere (· == '\n') s :=
  if_neg h

/-- A text without a line break is a line. -/
theorem lines_of_forall {s : List Char} (hs : s ≠ []) (h : ∀ c ∈ s, c ≠ '\n') : lines s = [s] := by
  rw [lines_eq_splitWhere hs]
  exact splitWhere_of_forall fun c hc => beq_eq_false_iff_ne.2 (h c hc)

/-- A line break ends a line. -/
theorem lines_append_break {s rest : List Char} (hs : s ≠ []) (hr : rest ≠ []) :
    lines (s ++ '\n' :: rest) = lines s ++ lines rest := by
  rw [lines_eq_splitWhere (List.append_ne_nil_of_left_ne_nil hs _), lines_eq_splitWhere hs,
    lines_eq_splitWhere hr]
  exact splitWhere_append_cons (p := (· == '\n')) rfl s rest

/-- Behind the first of several texts on lines comes a line break. -/
theorem toList_intercalate_cons (text next : String) (texts : List String) :
    ("\n".intercalate (text :: next :: texts)).toList =
      text.toList ++ '\n' :: ("\n".intercalate (next :: texts)).toList := by
  rw [String.intercalate_cons_cons, String.toList_append, String.toList_append, List.append_assoc]
  rfl

/-- Texts with line breaks between them have the lines of each. -/
theorem lines_intercalate : ∀ {texts : List String}, (∀ text ∈ texts, text.toList ≠ []) →
    lines ("\n".intercalate texts).toList = texts.flatMap fun text => lines text.toList
  | [], _ => rfl
  | [text], _ => by
      rw [List.flatMap_singleton]
      rfl
  | text :: next :: texts, h => by
      have hnext : ("\n".intercalate (next :: texts)).toList ≠ [] := by
        have hfirst := h next (List.mem_cons_of_mem _ List.mem_cons_self)
        cases texts with
        | nil => exact hfirst
        | cons other texts =>
          rw [String.toList_intercalate]
          exact List.append_ne_nil_of_left_ne_nil hfirst _
      rw [toList_intercalate_cons, lines_append_break (h text List.mem_cons_self) hnext,
        List.flatMap_cons, lines_intercalate fun other ho => h other (List.mem_cons_of_mem _ ho)]

/-- Lines without line breaks are found again in their text. -/
theorem splitWhere_intercalate : ∀ {texts : List String}, texts ≠ [] →
    (∀ text ∈ texts, ∀ c ∈ text.toList, c ≠ '\n') →
      splitWhere (· == '\n') ("\n".intercalate texts).toList = texts.map String.toList
  | [], hne, _ => absurd rfl hne
  | [text], _, h => by
      rw [List.map_singleton]
      exact splitWhere_of_forall fun c hc =>
        beq_eq_false_iff_ne.2 (h text List.mem_cons_self c hc)
  | text :: next :: texts, _, h => by
      have hfirst : splitWhere (· == '\n') text.toList = [text.toList] :=
        splitWhere_of_forall fun c hc => beq_eq_false_iff_ne.2 (h text List.mem_cons_self c hc)
      rw [toList_intercalate_cons, splitWhere_append_cons (p := (· == '\n')) rfl, hfirst,
        splitWhere_intercalate (List.cons_ne_nil _ _) fun other ho =>
          h other (List.mem_cons_of_mem _ ho)]
      rfl

end SchemaAccess.Text
