import SchemaAccess.Proofs.Layout.Cleaning

/-!
# What a skip passes over

Cleaning skips strings and argument lists of directives, in well formed texts and in all others.
This file says for every text where a skip ends: a string or list is passed over up to what closes
it, and if nothing closes it up to the line feed or the end of the text.

* `PassedString`, `PassedGroup` — what is passed over, and what may stand behind it.
* `exists_passedString`, `exists_passedGroup` — a skip passes over such a part of any text.
* `PassedString.afterString_append`, `PassedGroup.afterGroup_append` — and over no other.
* `countGroup`, `countGroup_opening` — a counter of the open groups, and why it is never zero where
  it is counted down.
-/

namespace SchemaAccess.Loose

open Text Layout

/-! ## Strings -/

/-- What is passed over behind an opening quote, where `rest` stands behind it. -/
inductive PassedString : List Char → List Char → Prop
  /-- A string or block string with its end.  Behind the empty string no third quote follows. -/
  | literal (l : Literal) {rest : List Char}
      (apart : l.isEmptyString = true → rest.head? ≠ some '"') : PassedString l.afterOpening rest
  /-- A string that a line feed ends. -/
  | line {inside : List Char} (isQuoted : Quoted inside) (rest : List Char) :
      PassedString inside ('\n' :: rest)
  /-- A string that the end of the text ends. -/
  | last {inside : List Char} (isQuoted : Quoted inside) : PassedString inside []
  /-- A string that the end of the text ends behind a backslash. -/
  | backslash {inside : List Char} (isQuoted : Quoted inside) :
      PassedString (inside ++ ['\\']) []
  /-- A block string that the end of the text ends. -/
  | block {inside : List Char} (isOpen : ¬ ['"', '"', '"'] <:+: inside) :
      PassedString ('"' :: '"' :: inside) []

/-- A text has a first end of a block string in it, or none. -/
theorem exists_block (s : List Char) :
    (∃ inside, s = inside ++ '"' :: '"' :: '"' :: afterBlock s ∧
      ¬ ['"', '"', '"'] <:+: inside ++ ['"', '"']) ∨
    (afterBlock s = [] ∧ ¬ ['"', '"', '"'] <:+: s) := by
  fun_induction afterBlock s with
  | case1 rest => exact .inl ⟨[], rfl, by decide⟩
  | case2 c rest hend ih =>
    have hnone : ¬ ['"', '"', '"'] <+: c :: rest := by
      rintro ⟨after, hafter⟩
      obtain ⟨hc, hrest⟩ := List.cons.inj hafter
      exact hend after hc.symm hrest.symm
    rcases ih with ⟨inside, hrest, hopen⟩ | ⟨hnil, hopen⟩
    · refine .inl ⟨c :: inside, congrArg (c :: ·) hrest, ?_⟩
      rw [List.cons_append, List.infix_cons_iff, not_or]
      refine ⟨fun hinside => hnone (hinside.trans ⟨'"' :: afterBlock rest, ?_⟩), hopen⟩
      rw [List.cons_append, List.append_assoc]
      exact congrArg (c :: ·) hrest.symm
    · refine .inr ⟨hnil, ?_⟩
      rw [List.infix_cons_iff, not_or]
      exact ⟨hnone, hopen⟩
  | case3 => exact .inr ⟨rfl, by decide⟩

/-- How a string that is no block string ends. -/
inductive QuotedEnd : List Char → List Char → Prop
  | quote (rest : List Char) : QuotedEnd ['"'] rest
  | line (rest : List Char) : QuotedEnd [] ('\n' :: rest)
  | last : QuotedEnd [] []
  | backslash : QuotedEnd ['\\'] []

theorem exists_quotedEnd (s : List Char) :
    ∃ inside last, s = inside ++ last ++ afterQuoted s ∧ Quoted inside ∧
      QuotedEnd last (afterQuoted s) := by
  fun_induction afterQuoted s with
  | case1 => exact ⟨[], [], rfl, .nil, .last⟩
  | case2 => exact ⟨[], ['\\'], rfl, .nil, .backslash⟩
  | case3 c rest ih =>
    obtain ⟨inside, last, hrest, hinside, hlast⟩ := ih
    exact ⟨'\\' :: c :: inside, last, congrArg ('\\' :: c :: ·) hrest, .escape c hinside, hlast⟩
  | case4 rest => exact ⟨[], ['"'], rfl, .nil, .quote rest⟩
  | case5 rest => exact ⟨[], [], rfl, .nil, .line rest⟩
  | case6 c rest hlone hescape hquote hfeed ih =>
    obtain ⟨inside, last, hrest, hinside, hlast⟩ := ih
    have hbackslash : c ≠ '\\' := by
      rintro rfl
      cases rest with
      | nil => exact hlone rfl rfl
      | cons d rest => exact hescape d rest rfl rfl
    exact ⟨c :: inside, last, congrArg (c :: ·) hrest, .char ⟨hquote, hbackslash, hfeed⟩ hinside,
      hlast⟩

/-- Skipping a string passes over a part of the text. -/
theorem exists_passedString (s : List Char) :
    ∃ inside, s = inside ++ afterString s ∧ PassedString inside (afterString s) := by
  unfold afterString
  split
  · next rest =>
    rcases exists_block rest with ⟨inside, hrest, hopen⟩ | ⟨hnil, hopen⟩
    · refine ⟨(Literal.block inside hopen).afterOpening, ?_, .literal _ nofun⟩
      rw [Literal.afterOpening]
      simpa using hrest
    · rw [hnil]
      exact ⟨'"' :: '"' :: rest, (List.append_nil _).symm, .block hopen⟩
  · next hblock =>
    obtain ⟨inside, last, hs, hinside, hlast⟩ := exists_quotedEnd s
    refine ⟨inside ++ last, hs, ?_⟩
    generalize afterQuoted s = rest at hs hlast
    cases hlast with
    | quote =>
      refine .literal (.quoted inside hinside) fun hempty hhead => ?_
      obtain rfl := List.isEmpty_iff.1 hempty
      obtain ⟨more, rfl⟩ := List.head?_eq_some_iff.1 hhead
      exact hblock more hs
    | line rest => exact (List.append_nil inside).symm ▸ .line hinside rest
    | last => exact (List.append_nil inside).symm ▸ .last hinside
    | backslash => exact .backslash hinside

/-- What a skip passes over is what ends where the skip ends. -/
theorem PassedString.afterString_append {inside rest : List Char} (h : PassedString inside rest) :
    afterString (inside ++ rest) = rest := by
  cases h with
  | literal l apart => exact afterString_literal l apart
  | line isQuoted rest =>
    rw [afterString_of_quoted isQuoted (by simp), afterQuoted]
  | last isQuoted => rw [afterString_of_quoted isQuoted (by simp), afterQuoted]
  | @backslash inside isQuoted =>
    rw [List.append_nil, afterString_of_quoted isQuoted (by simp), afterQuoted]
  | @block inside isOpen =>
    rw [List.append_nil, afterString]
    rcases exists_block inside with ⟨front, hfront, -⟩ | ⟨hnil, -⟩
    · exact absurd ⟨front, afterBlock inside, by rw [List.append_assoc]; exact hfront.symm⟩ isOpen
    · exact hnil

/-! ## Groups -/

/-- What is passed over behind an opening parenthesis with `outer` more groups open around it, where
`rest` stands behind it.  Parentheses in strings do not count. -/
inductive PassedGroup : Nat → List Char → List Char → Prop
  | closed (rest : List Char) : PassedGroup 0 [')'] rest
  /-- The end of the text ends all groups. -/
  | last (outer : Nat) : PassedGroup outer [] []
  | closing {outer : Nat} {inside rest : List Char} (tail : PassedGroup outer inside rest) :
      PassedGroup (outer + 1) (')' :: inside) rest
  | opening {outer : Nat} {inside rest : List Char} (tail : PassedGroup (outer + 1) inside rest) :
      PassedGroup outer ('(' :: inside) rest
  | string {outer : Nat} {quoted inside rest : List Char}
      (passed : PassedString quoted (inside ++ rest)) (tail : PassedGroup outer inside rest) :
      PassedGroup outer ('"' :: quoted ++ inside) rest
  | char {outer : Nat} {c : Char} {inside rest : List Char} (plain : c ∉ ['"', '(', ')'])
      (tail : PassedGroup outer inside rest) : PassedGroup outer (c :: inside) rest

/-- Skipping a group passes over a part of the text. -/
theorem exists_passedGroup (outer : Nat) (s : List Char) :
    ∃ inside, s = inside ++ afterGroup outer s ∧ PassedGroup outer inside (afterGroup outer s) := by
  fun_induction afterGroup outer s with
  | case1 outer => exact ⟨[], rfl, .last outer⟩
  | case2 outer rest ih =>
    obtain ⟨inside, hinside, hpassed⟩ := ih
    obtain ⟨quoted, hquoted, hstring⟩ := exists_passedString rest
    refine ⟨'"' :: quoted ++ inside, ?_, .string (hinside ▸ hstring) hpassed⟩
    rw [List.append_assoc, ← hinside, List.cons_append, ← hquoted]
  | case3 outer rest ih =>
    obtain ⟨inside, hinside, hpassed⟩ := ih
    exact ⟨'(' :: inside, congrArg ('(' :: ·) hinside, .opening hpassed⟩
  | case4 rest => exact ⟨[')'], rfl, .closed rest⟩
  | case5 outer rest ih =>
    obtain ⟨inside, hinside, hpassed⟩ := ih
    exact ⟨')' :: inside, congrArg (')' :: ·) hinside, .closing hpassed⟩
  | case6 outer c rest hquote hopen hclose ih =>
    obtain ⟨inside, hinside, hpassed⟩ := ih
    have hplain : c ∉ ['"', '(', ')'] := by
      simp only [List.mem_cons, List.not_mem_nil, or_false, not_or]
      exact ⟨hquote, hopen, hclose⟩
    exact ⟨c :: inside, congrArg (c :: ·) hinside, .char hplain hpassed⟩

theorem PassedGroup.afterGroup_append {outer : Nat} {inside rest : List Char}
    (h : PassedGroup outer inside rest) : afterGroup outer (inside ++ rest) = rest := by
  induction h with
  | closed rest => rw [List.singleton_append, afterGroup]
  | last outer => rw [List.append_nil, afterGroup]
  | closing tail ih => rw [List.cons_append, afterGroup, ih]
  | opening tail ih => rw [List.cons_append, afterGroup, ih]
  | string passed tail ih =>
    rw [List.append_assoc, List.cons_append, afterGroup, passed.afterString_append, ih]
  | char plain tail ih => rw [List.cons_append, afterGroup_char plain, ih]

/-! ## Counting open groups -/

/-- Skipping a group with a counter of the open ones, from before the parenthesis that opens it:
what the counter is at each closing parenthesis before it is counted down, and the text behind. -/
def countGroup (depth : Nat) : List Char → List Nat × List Char
  | [] => ([], [])
  | '"' :: rest => countGroup depth (afterString rest)
  | '(' :: rest => countGroup (depth + 1) rest
  | ')' :: rest =>
    if depth - 1 = 0 then ([depth], rest)
    else Prod.map (depth :: ·) id (countGroup (depth - 1) rest)
  | _ :: rest => countGroup depth rest
termination_by s => s.length
decreasing_by
  · exact Nat.lt_succ_of_le (length_afterString_le rest)
  all_goals simp

/-- Behind the first parenthesis the counter is one more than the number of groups around the
innermost open one. -/
theorem countGroup_succ (outer : Nat) (s : List Char) :
    (countGroup (outer + 1) s).2 = afterGroup outer s ∧
      ∀ depth ∈ (countGroup (outer + 1) s).1, 1 ≤ depth := by
  fun_induction afterGroup outer s with
  | case1 outer => simp [countGroup]
  | case2 outer rest ih => rwa [countGroup]
  | case3 outer rest ih => rwa [countGroup]
  | case4 rest => simp [countGroup]
  | case5 outer rest ih =>
    obtain ⟨hrest, hdepths⟩ := ih
    rw [countGroup, if_neg (by omega), Nat.add_sub_cancel]
    refine ⟨hrest, fun depth hdepth => ?_⟩
    rcases List.mem_cons.1 hdepth with rfl | hdepth
    · exact Nat.le_add_left 1 _
    · exact hdepths depth hdepth
  | case6 outer c rest hquote hopen hclose ih =>
    rwa [countGroup]
    all_goals assumption

/-- From the parenthesis that opens a group the counter is never zero where it is counted down. -/
theorem countGroup_opening (rest : List Char) :
    (countGroup 0 ('(' :: rest)).2 = afterGroup 0 rest ∧
      ∀ depth ∈ (countGroup 0 ('(' :: rest)).1, 1 ≤ depth := by
  rw [countGroup]
  exact countGroup_succ 0 rest

end SchemaAccess.Loose
