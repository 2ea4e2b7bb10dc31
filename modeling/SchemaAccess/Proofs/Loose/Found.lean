import SchemaAccess.Proofs.Loose.Search

/-!
# What stands where a block is found

A block that a search finds is spelled out in the text: keyword, white space, name, header and body.
So a text is long enough for the names in it, a closing brace keeps the blocks behind it apart from
those before it, and a name is found only behind a keyword.

* `keywordText` — the spelling of a keyword.
* `append_of_block?` — a block and what follows it make up the text.
* `blocksFrom_append_closing` — a closing brace keeps what is before it apart from what is behind.
* `Declares` — a text has a block of a keyword and a name.
* `Declares.length_le`, `Declares.append` — a name in the text, a text behind a closing brace.
* `Declares.keyword_suffix` — the keyword stands before a name that occurs only once.
-/

namespace SchemaAccess.Loose

open Text

/-! ## Keywords -/

def keywordText : Keyword → List Char
  | .type => "type".toList
  | .input => "input".toList
  | .enum => "enum".toList
  | .interface => "interface".toList

theorem isName_keyword (k : Keyword) : IsName (keywordText k) := by
  cases k <;> decide

/-- A keyword is told whatever follows it. -/
theorem keyword?_append (k : Keyword) (rest : List Char) :
    keyword? (keywordText k ++ rest) = some (k, rest) := by
  have hfront : ∀ word : List Char, dropFront? word (word ++ rest) = some rest := fun word =>
    dropFront?_eq_some_iff.2 rfl
  cases k with
  | type =>
    change keyword? ("type".toList ++ rest) = _
    simp only [keyword?, hfront]
  | input =>
    have htype : dropFront? "type".toList ("input".toList ++ rest) = none := rfl
    change keyword? ("input".toList ++ rest) = _
    simp only [keyword?, htype, hfront]
  | enum =>
    have htype : dropFront? "type".toList ("enum".toList ++ rest) = none := rfl
    have hinput : dropFront? "input".toList ("enum".toList ++ rest) = none := rfl
    change keyword? ("enum".toList ++ rest) = _
    simp only [keyword?, htype, hinput, hfront]
  | interface =>
    have htype : dropFront? "type".toList ("interface".toList ++ rest) = none := rfl
    have hinput : dropFront? "input".toList ("interface".toList ++ rest) = none := rfl
    have henum : dropFront? "enum".toList ("interface".toList ++ rest) = none := rfl
    change keyword? ("interface".toList ++ rest) = _
    simp only [keyword?, htype, hinput, henum, hfront, Option.map_some]

/-- A keyword and what follows it make up the text. -/
theorem append_of_keyword? {s rest : List Char} {keyword : Keyword}
    (h : keyword? s = some (keyword, rest)) : keywordText keyword ++ rest = s := by
  rw [keyword?] at h
  split at h
  · next hf => cases h; exact (dropFront?_eq_some_iff.1 hf).symm
  · split at h
    · next hf => cases h; exact (dropFront?_eq_some_iff.1 hf).symm
    · split at h
      · next hf => cases h; exact (dropFront?_eq_some_iff.1 hf).symm
      · obtain ⟨after, hf, he⟩ := Option.map_eq_some_iff.1 h
        cases he
        exact (dropFront?_eq_some_iff.1 hf).symm

/-! ## Blocks

A block that is found is a part of the text, and where it ends depends on its own characters only.
So a search can be cut behind any closing brace: the blocks on both sides of it are found each on
its own. -/

/-- Behind a keyword, white space and a name have been passed. -/
theorem append_of_spacedName? {s name rest : List Char} (h : spacedName? s = some (name, rest)) :
    ∃ blank, blank ≠ [] ∧ (∀ c ∈ blank, isBlank c = true) ∧ IsName name ∧
      blank ++ (name ++ rest) = s := by
  rw [spacedName?] at h
  split at h
  · next hblank =>
    refine ⟨s.takeWhile isBlank, ?_, fun c hc => List.mem_takeWhile_imp hc,
      isName_of_name? h, ?_⟩
    · cases s with
      | nil => cases hblank
      | cons c s =>
        rw [List.head?_cons, Option.any_some] at hblank
        rw [List.takeWhile_cons_of_pos hblank]
        simp
    · rw [append_of_name? h, List.takeWhile_append_dropWhile]
  · cases h

/-- A body is between the opening brace and the first brace of any kind behind it, which
closes it. -/
theorem append_of_braced? {s body rest : List Char} (h : braced? s = some (body, rest)) :
    (∀ c ∈ body, isPlain c = true) ∧ '\x7b' :: (body ++ '\x7d' :: rest) = s := by
  rw [braced?.eq_def] at h
  split at h
  · next inner =>
    split at h
    · next after hs =>
      cases h
      refine ⟨fun c hc => List.mem_takeWhile_imp hc, ?_⟩
      rw [← hs, List.takeWhile_append_dropWhile]
    · cases h
  · cases h

/-- A block and what follows it make up the text. -/
theorem append_of_block? {s rest : List Char} {block : Block} (h : block? s = some (block, rest)) :
    ∃ blank, blank ≠ [] ∧ (∀ c ∈ blank, isBlank c = true) ∧
      IsName block.name ∧ (∀ c ∈ block.header, isPlain c = true) ∧
      (∀ c ∈ block.body, isPlain c = true) ∧
      keywordText block.keyword ++ (blank ++ (block.name ++ (block.header ++
        '\x7b' :: (block.body ++ '\x7d' :: rest)))) = s := by
  simp only [block?, bind, Option.bind_eq_some_iff] at h
  obtain ⟨⟨keyword, afterKeyword⟩, hkeyword, h⟩ := h
  obtain ⟨⟨name, afterName⟩, hname, ⟨body, after⟩, hbody, h⟩ := h
  cases h
  obtain ⟨blank, hne, hblank, hisName, hspaced⟩ := append_of_spacedName? hname
  obtain ⟨hplain, hbraced⟩ := append_of_braced? hbody
  refine ⟨blank, hne, hblank, hisName, fun c hc => List.mem_takeWhile_imp hc,
    hplain, ?_⟩
  rw [hbraced, List.takeWhile_append_dropWhile, hspaced, append_of_keyword? hkeyword]

/-- The name of a block does not go on behind it. -/
theorem stops_of_block? {s rest : List Char} {block : Block} (h : block? s = some (block, rest)) :
    Stops isNameChar (block.header ++ '\x7b' :: (block.body ++ '\x7d' :: rest)) := by
  simp only [block?, bind, Option.bind_eq_some_iff] at h
  obtain ⟨⟨keyword, afterKeyword⟩, hkeyword, h⟩ := h
  obtain ⟨⟨name, afterName⟩, hname, ⟨body, after⟩, hbody, h⟩ := h
  cases h
  rw [(append_of_braced? hbody).2, List.takeWhile_append_dropWhile]
  rw [spacedName?] at hname
  split at hname
  · rw [name?_rest hname]
    exact stops_dropWhile isNameChar _
  · cases hname

/-- The brace at the end of a block is the first closing one. -/
theorem closing_of_block? {s rest : List Char} {block : Block} (h : block? s = some (block, rest)) :
    ∃ front, '\x7d' ∉ front ∧ front ++ '\x7d' :: rest = s := by
  obtain ⟨blank, -, hblank, hname, hheader, hbody, htext⟩ := append_of_block? h
  refine ⟨keywordText block.keyword ++ (blank ++ (block.name ++ (block.header ++
    '\x7b' :: block.body))), ?_, by simpa using htext⟩
  simp only [List.mem_append, List.mem_cons, not_or]
  refine ⟨fun hc => ?_, fun hc => ?_, fun hc => ?_, fun hc => ?_, by decide, fun hc => ?_⟩
  · exact absurd (isNameChar_of_mem (isName_keyword _) hc) (by decide)
  · exact absurd (hblank _ hc) (by decide)
  · exact absurd (isNameChar_of_mem hname hc) (by decide)
  · exact absurd (hheader _ hc) (by decide)
  · exact absurd (hbody _ hc) (by decide)

/-- In a text that is one block, that block is found. -/
theorem blocks_single (keyword : Keyword) {name header body : List Char} (hn : IsName name)
    (hstop : Stops isNameChar (header ++ '\x7b' :: (body ++ ['\x7d'])))
    (hheader : ∀ c ∈ header, isPlain c = true) (hbody : ∀ c ∈ body, isPlain c = true) :
    blocks (keywordText keyword ++ ' ' :: (name ++ (header ++ '\x7b' :: (body ++ ['\x7d'])))) =
      [⟨keyword, name, header, body⟩] := by
  have hblock := @block?_append (keywordText keyword) [' '] name header body [] keyword
    (keyword?_append keyword) (by simp) (List.all_eq_true.1 (by decide)) hn hstop hheader hbody
  rw [List.singleton_append] at hblock
  rw [blocks, blocksFrom_of_some hblock, blocksFrom.eq_1]

/-- What a search finds begins somewhere in the text. -/
theorem exists_of_mem_blocksFrom {inWord : Bool} {s : List Char} {block : Block}
    (h : block ∈ blocksFrom inWord s) :
    ∃ before found rest, before ++ found = s ∧ block? found = some (block, rest) := by
  fun_induction blocksFrom inWord s with
  | case1 => cases h
  | case2 inWord c cs first rest hfound ih =>
    split at hfound
    · cases hfound
    · rcases List.mem_cons.1 h with rfl | h
      · exact ⟨[], c :: cs, rest, rfl, hfound⟩
      · obtain ⟨front, -, hfront⟩ := closing_of_block? hfound
        obtain ⟨before, found, last, rfl, hblock⟩ := ih h
        exact ⟨front ++ '\x7d' :: before, found, last, by rw [← hfront]; simp, hblock⟩
  | case3 inWord c cs hfound ih =>
    obtain ⟨before, found, last, hs, hblock⟩ := ih h
    exact ⟨c :: before, found, last, congrArg (c :: ·) hs, hblock⟩

/-- No block goes on behind a closing brace. -/
theorem block?_append_closing {s rest text : List Char} {block : Block}
    (h : block? (s ++ '\x7d' :: rest) = some (block, text)) :
    text = rest ∨ ∃ tail, text = tail ++ '\x7d' :: rest ∧ tail.length < s.length := by
  obtain ⟨front, hfront, htext⟩ := closing_of_block? h
  rcases List.append_eq_append_iff.1 htext with ⟨more, hs, hrest⟩ | ⟨more, hs, hrest⟩
  · cases more with
    | nil =>
      rw [List.nil_append, List.cons.injEq] at hrest
      exact .inl hrest.2
    | cons c more =>
      rw [List.cons_append, List.cons.injEq] at hrest
      refine .inr ⟨more, hrest.2, ?_⟩
      rw [hs, List.length_append, List.length_cons]
      omega
  · cases more with
    | nil =>
      rw [List.nil_append, List.cons.injEq] at hrest
      exact .inl hrest.2.symm
    | cons c more =>
      rw [List.cons_append, List.cons.injEq] at hrest
      rw [hs, ← hrest.1] at hfront
      exact absurd (List.mem_append_right s List.mem_cons_self) hfront

/-- A block is found whatever follows it. -/
theorem block?_front {front rest : List Char} {block : Block}
    (h : block? (front ++ rest) = some (block, rest)) (other : List Char) :
    block? (front ++ other) = some (block, other) := by
  obtain ⟨blank, hne, hblank, hname, hheader, hbody, htext⟩ := append_of_block? h
  have hfront : front = keywordText block.keyword ++ (blank ++ (block.name ++ (block.header ++
      '\x7b' :: (block.body ++ ['\x7d'])))) := by
    refine (List.append_left_inj rest).1 (htext.symm.trans ?_)
    simp
  have hstop := stops_of_block? h
  have hother : Stops isNameChar (block.header ++ '\x7b' :: (block.body ++ '\x7d' :: other)) := by
    intro c hc
    refine hstop c ?_
    rw [List.head?_append] at hc ⊢
    exact hc
  have hfound := block?_append (keyword?_append block.keyword) hne hblank hname hother hheader hbody
  rw [hfront]
  simpa using hfound

/-- Up to a closing brace a block is found alike, whatever stands behind the brace. -/
theorem block?_append_closing_eq (s rest : List Char) :
    block? (s ++ '\x7d' :: rest) =
      (block? (s ++ ['\x7d'])).map fun found => (found.1, found.2 ++ rest) := by
  cases hshort : block? (s ++ ['\x7d']) with
  | some found =>
    obtain ⟨front, -, hfront⟩ := closing_of_block? hshort
    have hblock : block? ((front ++ ['\x7d']) ++ found.2) = some (found.1, found.2) := by
      rw [List.append_assoc, List.singleton_append, hfront]
      exact hshort
    have htext : (front ++ ['\x7d']) ++ (found.2 ++ rest) = s ++ '\x7d' :: rest := by
      rw [← List.append_assoc, List.append_assoc front, List.singleton_append, hfront,
        List.append_assoc, List.singleton_append]
    rw [← htext, block?_front hblock]
    rfl
  | none =>
    refine Option.eq_none_iff_forall_ne_some.2 fun (block, text) hlong => ?_
    obtain ⟨front, -, hfront⟩ := closing_of_block? hlong
    have hblock : block? ((front ++ ['\x7d']) ++ text) = some (block, text) := by
      rw [List.append_assoc, List.singleton_append, hfront]
      exact hlong
    have hbehind : ∃ behind, text = behind ++ rest := by
      rcases block?_append_closing hlong with htext | ⟨tail, htext, -⟩
      · exact ⟨[], htext⟩
      · exact ⟨tail ++ ['\x7d'], by rw [htext, List.append_assoc, List.singleton_append]⟩
    obtain ⟨behind, rfl⟩ := hbehind
    have htext : (front ++ ['\x7d']) ++ behind = s ++ ['\x7d'] := by
      refine (List.append_left_inj rest).1 ?_
      simpa using hfront
    rw [← htext, block?_front hblock] at hshort
    cases hshort

/-- The blocks before a closing brace and those behind it are found independently. -/
theorem blocksFrom_append_closing (inWord : Bool) (s rest : List Char) :
    blocksFrom inWord (s ++ '\x7d' :: rest) =
      blocksFrom inWord (s ++ ['\x7d']) ++ blocks rest := by
  induction hn : s.length using Nat.strongRecOn generalizing inWord s with
  | ind n ih =>
    subst hn
    cases s with
    | nil =>
      have hclosing : ∀ text, block? ('\x7d' :: text) = none := block?_eq_none (by decide)
      rw [List.nil_append, List.nil_append, blocksFrom_of_none (.inr (hclosing _)),
        blocksFrom_of_none (.inr (hclosing _)), blocksFrom.eq_1, List.nil_append]
      rfl
    | cons c s =>
      have heq := block?_append_closing_eq (c :: s) rest
      rw [List.cons_append, List.cons_append] at heq
      by_cases hnone : inWord = true ∨ block? (c :: (s ++ ['\x7d'])) = none
      · have hlong : inWord = true ∨ block? (c :: (s ++ '\x7d' :: rest)) = none :=
          hnone.imp_right fun hshort => by rw [heq, hshort]; rfl
        rw [List.cons_append, List.cons_append, blocksFrom_of_none hnone, blocksFrom_of_none hlong]
        exact ih s.length (Nat.lt_succ_self _) _ s rfl
      · rw [not_or, Bool.not_eq_true] at hnone
        obtain ⟨rfl, hsome⟩ := hnone
        obtain ⟨found, hshort⟩ := Option.ne_none_iff_exists'.1 hsome
        rw [hshort, Option.map_some] at heq
        rw [List.cons_append, List.cons_append, blocksFrom_of_some heq, blocksFrom_of_some hshort,
          List.cons_append]
        congr 1
        rcases block?_append_closing (s := c :: s) hshort with htext | ⟨tail, htext, hlength⟩
        · rw [htext, List.nil_append, blocksFrom.eq_1, List.nil_append]
          rfl
        · rw [htext, List.append_assoc, List.singleton_append]
          exact ih tail.length hlength false tail rfl

/-! ## Declared names

A name can be read as declared only where its characters stand behind a keyword and before a brace.
This is what bounds the names that a search can find in a text. -/

/-- The text has a block of the keyword and the name. -/
def Declares (keyword : Keyword) (name text : List Char) : Prop :=
  ∃ block ∈ blocks text, block.keyword = keyword ∧ block.name = name

variable {keyword : Keyword} {name s rest : List Char}

/-- A name stays declared behind a closing brace, whatever stands before the brace. -/
theorem Declares.append (h : Declares keyword name rest) (s : List Char) :
    Declares keyword name (s ++ '\x7d' :: rest) := by
  obtain ⟨block, hblock, hkeyword⟩ := h
  refine ⟨block, ?_, hkeyword⟩
  rw [blocks, blocksFrom_append_closing]
  exact List.mem_append_right _ hblock

/-- A declared name stands behind its keyword and white space, and before a body. -/
theorem Declares.exists_append (h : Declares keyword name s) :
    ∃ before blank header body after, blank ≠ [] ∧ (∀ c ∈ blank, isBlank c = true) ∧
      before ++ (keywordText keyword ++ (blank ++ (name ++ (header ++
        '\x7b' :: (body ++ '\x7d' :: after))))) = s := by
  obtain ⟨block, hblock, rfl, rfl⟩ := h
  obtain ⟨before, found, after, rfl, hfound⟩ := exists_of_mem_blocksFrom hblock
  obtain ⟨blank, hne, hblank, -, -, -, rfl⟩ := append_of_block? hfound
  exact ⟨before, blank, block.header, block.body, after, hne, hblank, rfl⟩

theorem Declares.length_le (h : Declares keyword name s) : name.length ≤ s.length := by
  obtain ⟨before, blank, header, body, after, -, -, rfl⟩ := h.exists_append
  simp only [List.length_append]
  omega

theorem Declares.brace_mem (h : Declares keyword name s) : '\x7b' ∈ s := by
  obtain ⟨before, blank, header, body, after, -, -, rfl⟩ := h.exists_append
  simp

/-! ## Names that occur once -/

/-- Within a run of one character, all parts are runs of it. -/
theorem eq_replicate_of_append {c : Char} {n : Nat} {t u r : List Char}
    (h : List.replicate n c ++ r = t ++ u) (hlength : t.length ≤ n) :
    t = List.replicate t.length c := by
  have hrun : List.replicate n c <+: t ++ u := h ▸ List.prefix_append _ r
  have hfront : t <+: List.replicate n c :=
    List.prefix_of_prefix_length_le (List.prefix_append t u) hrun (by simpa using hlength)
  exact List.eq_replicate_of_mem fun d hd => List.eq_of_mem_replicate (hfront.subset hd)

/-- A run of one character stands in a text only once if the text around it is shorter than the
run and does not lengthen it. -/
theorem append_replicate_cancel {c : Char} {n : Nat} {a b r v : List Char}
    (h : a ++ (List.replicate n c ++ r) = b ++ (List.replicate n c ++ v))
    (ha : a.getLast? ≠ some c) (hb : b.getLast? ≠ some c) (halength : a.length < n)
    (hr : r.length < n) : a = b := by
  have hlast : ∀ {t : List Char} (_ : t = List.replicate t.length c) (s : List Char),
      (s ++ t).getLast? ≠ some c → t = [] := by
    intro t ht s hs
    rcases List.eq_nil_or_concat t with rfl | ⟨init, last, rfl⟩
    · rfl
    · refine absurd ?_ hs
      have hmem : last ∈ init.concat last := by simp
      rw [ht] at hmem
      simp [List.eq_of_mem_replicate hmem]
  have htotal := congrArg List.length h
  simp only [List.length_append, List.length_replicate] at htotal
  rcases List.append_eq_append_iff.1 h with ⟨t, rfl, ht⟩ | ⟨t, rfl, ht⟩
  · rw [List.length_append] at htotal
    rw [hlast (eq_replicate_of_append ht (by omega)) a hb, List.append_nil]
  · rw [List.length_append] at halength
    rw [hlast (eq_replicate_of_append ht (by omega)) b ha, List.append_nil]

theorem mem_of_getLast?_append {s t : List Char} (hne : t ≠ []) {c : Char}
    (h : (s ++ t).getLast? = some c) : c ∈ t := by
  rw [List.getLast?_append] at h
  cases ht : t.getLast? with
  | none => exact absurd (List.getLast?_eq_none_iff.1 ht) hne
  | some d =>
    rw [ht, Option.some_or] at h
    exact List.mem_of_getLast? (ht.trans h)

theorem getLast?_append_blanks {blank : List Char} (hne : blank ≠ [])
    (hblank : ∀ c ∈ blank, isBlank c = true) {c : Char} (hc : isBlank c = false) (s : List Char) :
    (s ++ blank).getLast? ≠ some c := fun h =>
  ne_of_class (hblank c (mem_of_getLast?_append hne h)) hc rfl

theorem trimEndWhere_append {p : Char → Bool} {t : List Char} (h : ∀ c ∈ t, p c = true)
    (s : List Char) : trimEndWhere p (s ++ t) = trimEndWhere p s := by
  rw [trimEndWhere, List.reverse_append,
    List.dropWhile_append_of_pos fun c hc => h c (List.mem_reverse.1 hc), trimEndWhere]

/-- Behind an at sign and a word only a keyword at the end of the word declares a name that occurs
nowhere else. -/
theorem Declares.keyword_suffix {n : Nat} {front word blank tail : List Char}
    (h : Declares keyword (List.replicate n 'x')
      (front ++ '@' :: word ++ blank ++ (List.replicate n 'x' ++ tail)))
    (hword : ∀ c ∈ word, isBlank c = false) (hne : blank ≠ [])
    (hblank : ∀ c ∈ blank, isBlank c = true)
    (hlength : (front ++ '@' :: word ++ blank).length < n) (htail : tail.length < n) :
    keywordText keyword <:+ word := by
  obtain ⟨before, space, header, body, after, hspace, hisBlank, htext⟩ := h.exists_append
  have hcut : front ++ '@' :: word ++ blank = before ++ keywordText keyword ++ space := by
    refine append_replicate_cancel (c := 'x') (n := n) (r := tail)
      (v := header ++ '\x7b' :: (body ++ '\x7d' :: after)) ?_ ?_ ?_ hlength htail
    · rw [← htext]
      simp only [List.append_assoc]
    · exact getLast?_append_blanks hne hblank (by decide) _
    · exact getLast?_append_blanks hspace hisBlank (by decide) _
  have hends : front ++ '@' :: word = before ++ keywordText keyword := by
    have htrim := congrArg (trimEndWhere isBlank) hcut
    rw [trimEndWhere_append hblank, trimEndWhere_append hisBlank, trimEndWhere_eq_self,
      trimEndWhere_eq_self] at htrim
    · exact htrim
    · intro c hc
      have hmem := mem_of_getLast?_append (ne_nil_of_isName (isName_keyword keyword)) hc
      exact isBlank_of_isNameChar (isNameChar_of_mem (isName_keyword _) hmem)
    · intro c hc
      rcases List.mem_cons.1 (mem_of_getLast?_append (List.cons_ne_nil _ _) hc) with rfl | hmem
      · decide
      · exact hword c hmem
  have hat : '@' ∉ keywordText keyword := fun hc =>
    absurd (isNameChar_of_mem (isName_keyword _) hc) (by decide)
  have hsuffix : keywordText keyword <:+ front ++ '@' :: word := ⟨before, hends.symm⟩
  have hsuffix' : '@' :: word <:+ front ++ '@' :: word := List.suffix_append _ _
  rcases Nat.le_total (keywordText keyword).length ('@' :: word).length with hle | hle
  · rcases List.suffix_cons_iff.1 (List.suffix_of_suffix_length_le hsuffix hsuffix' hle) with
      heq | hword
    · rw [heq] at hat
      exact absurd List.mem_cons_self hat
    · exact hword
  · have := List.suffix_of_suffix_length_le hsuffix' hsuffix hle
    exact absurd (this.subset List.mem_cons_self) hat

end SchemaAccess.Loose
