import Mathlib.Data.List.Chain
import SchemaAccess.Proofs.Loose.Bodies

/-!
# Schemas that differ before an opening brace

What stands before an opening brace is the end of the header of one block or of none.  Whatever
stands there instead, as long as it begins with no word, has no braces and names no block, the
search finds the same blocks before it and behind it.  So source schemas that differ there have the
same models if the one text marks a model exactly if the other does.

* `Trailer` — a text at the end of a header.
* `block?_trailer` — what a block becomes with another trailer and another body.
* `exists_blocks_trailer` — the blocks of a text, for all trailers before one of its braces and all
  that may stand behind the brace.
* `models_trailer` — the models of texts that differ in one trailer.
-/

namespace SchemaAccess.Loose

open Text

/-- A text at the end of a header: it begins with no word, and no word in it stands directly behind
white space, so no block has its name there. -/
structure Trailer (s : List Char) : Prop where
  isPlain : ∀ c ∈ s, isPlain c = true
  begins : Stops isNameChar s
  nameless : s.IsChain fun c d => isBlank c = true → isNameStart d = false

theorem trailer_nil : Trailer [] where
  isPlain := isPlain_nil
  begins := stops_nil _
  nameless := List.isChain_nil

theorem Trailer.stops {s : List Char} (hs : Trailer s) (rest : List Char) :
    Stops isNameChar (s ++ '\x7b' :: rest) := by
  cases s with
  | nil => exact stops_cons (by decide) rest
  | cons c s => exact stops_cons (hs.begins c rfl) _

section Trailers

variable {s front rest after : List Char} {block : Block}

/-! ## Blocks and trailers

A trailer has no brace and no name behind white space, so no block begins or ends in it. -/

/-- A name behind white space is what a trailer must not have. -/
theorem not_isChain_name {before blank name behind : List Char} (hne : blank ≠ [])
    (hblank : ∀ c ∈ blank, isBlank c = true) (hname : IsName name) :
    ¬ (before ++ (blank ++ (name ++ behind))).IsChain fun c d =>
      isBlank c = true → isNameStart d = false := by
  intro hchain
  obtain ⟨c, more, rfl⟩ := List.exists_cons_of_ne_nil (ne_nil_of_isName hname)
  have hseam := (List.isChain_append.1 (List.isChain_append.1 hchain).2.1).2.2
  have hstart := hseam _ (List.getLast?_eq_some_getLast hne) c rfl (hblank _ (List.getLast_mem hne))
  rw [hname.1] at hstart
  cases hstart

/-- No block begins in a trailer. -/
theorem block?_of_nameless (hplain : ∀ c ∈ s, isPlain c = true)
    (hnameless : s.IsChain fun c d => isBlank c = true → isNameStart d = false) :
    block? (s ++ '\x7b' :: rest) = none := by
  refine Option.eq_none_iff_forall_ne_some.2 fun (block, after) hblock => ?_
  obtain ⟨blank, hne, hblank, hname, hhead, -, htext⟩ := heading_of_block? hblock
  obtain ⟨rfl, -, -⟩ := eq_of_plain_append hhead hplain (by decide) (by decide) htext
  exact not_isChain_name hne hblank hname hnameless

theorem blocksFrom_of_nameless (inWord : Bool) (hplain : ∀ c ∈ s, isPlain c = true)
    (hnameless : s.IsChain fun c d => isBlank c = true → isNameStart d = false) :
    blocksFrom inWord (s ++ '\x7b' :: rest) = blocks rest := by
  induction s generalizing inWord with
  | nil =>
    rw [List.nil_append, blocksFrom_of_none (.inr (block?_eq_none (by decide) rest))]
    rfl
  | cons c s ih =>
    have hnone := @block?_of_nameless (c :: s) rest hplain hnameless
    rw [List.cons_append] at hnone ⊢
    rw [blocksFrom_of_none (.inr hnone)]
    exact ih _ (fun d hd => hplain d (List.mem_cons_of_mem c hd)) hnameless.tail

/-- A text that is not plain, cut at its first brace. -/
theorem exists_brace (h : ¬ ∀ c ∈ s, isPlain c = true) :
    ∃ plain brace more, s = plain ++ brace :: more ∧ (∀ c ∈ plain, isPlain c = true) ∧
      isPlain brace = false := by
  have hne : s.dropWhile isPlain ≠ [] := fun hnil => h (List.dropWhile_eq_nil_iff.1 hnil)
  obtain ⟨brace, more, hmore⟩ := List.exists_cons_of_ne_nil hne
  refine ⟨s.takeWhile isPlain, brace, more, ?_, fun _ => List.mem_takeWhile_imp, ?_⟩
  · rw [← hmore, List.takeWhile_append_dropWhile]
  · exact stops_dropWhile isPlain s brace (by rw [hmore]; rfl)

/-- The name of a block does not reach into a trailer. -/
theorem Trailer.exists_header (hs : Trailer s) {word blank name header : List Char}
    (hne : blank ≠ []) (hblank : ∀ c ∈ blank, isBlank c = true) (hname : IsName name)
    (h : word ++ (blank ++ (name ++ header)) = front ++ s) :
    ∃ more, front = word ++ (blank ++ (name ++ more)) ∧ header = more ++ s := by
  have htext : ((word ++ blank) ++ name) ++ header = front ++ s := by simpa using h
  rcases List.append_eq_append_iff.1 htext with ⟨more, hfront, hheader⟩ | ⟨beyond, hhead, htrailer⟩
  · exact ⟨more, by rw [hfront]; simp, hheader⟩
  · cases beyond with
    | nil => exact ⟨[], by simpa using hhead.symm, by simpa using htrailer.symm⟩
    | cons d beyond =>
      -- the trailer begins before the end of the name, and with no word, so the name is behind it
      exfalso
      have hd : d ∉ name := by
        intro hmem
        have hc := hs.begins d (by rw [htrailer]; rfl)
        rw [isNameChar_of_mem hname hmem] at hc
        cases hc
      rcases List.append_eq_append_iff.1 hhead with ⟨inside, -, hinside⟩ | ⟨behind, hbehind, hover⟩
      · exact hd (by rw [hinside]; simp)
      · rcases List.eq_nil_or_concat behind with rfl | ⟨init, e, rfl⟩
        · exact hd (by rw [← List.nil_append name, ← hover]; exact List.mem_cons_self)
        · have he : e ∈ blank := mem_of_getLast?_append hne (by rw [hbehind]; simp)
          have hsplit : s = init ++ ([e] ++ (name ++ header)) := by
            rw [htrailer, hover]
            simp
          exact not_isChain_name (List.cons_ne_nil e []) (by simpa using hblank e he) hname
            (hsplit ▸ hs.nameless)

def Block.headed (block : Block) (s : List Char) : Block :=
  { block with header := block.header ++ s }

/-- A block that is found across a trailer ends before it, or has it at the end of its header and
what is between the brace and the next one as its body. -/
theorem block?_trailer (hs : Trailer s)
    (h : block? (front ++ (s ++ '\x7b' :: rest)) = some (block, after)) :
    (∃ more, more.length < front.length ∧ ∀ t, block? (front ++ t) = some (block, more ++ t)) ∨
      (∀ c ∈ front, isPlain c = true) ∧ braced? ('\x7b' :: rest) = some (block.body, after) ∧
        ∃ holder : Block, ∀ t, Trailer t → ∀ body, (∀ c ∈ body, isPlain c = true) → ∀ behind,
          block? (front ++ (t ++ '\x7b' :: (body ++ '\x7d' :: behind))) =
            some ((holder.headed t).holding body, behind) := by
  obtain ⟨blank, hne, hblank, hname, hhead, hbody, htext⟩ := heading_of_block? h
  have hstop := stops_of_block? h
  by_cases hfront : ∀ c ∈ front, isPlain c = true
  · right
    have hplain : ∀ c ∈ front ++ s, isPlain c = true := fun c hc =>
      (List.mem_append.1 hc).elim (hfront c) (hs.isPlain c)
    rw [← List.append_assoc front] at htext
    obtain ⟨hheading, -, rfl⟩ := eq_of_plain_append hhead hplain (by decide) (by decide) htext
    obtain ⟨header, rfl, hheader⟩ := hs.exists_header hne hblank hname hheading
    refine ⟨hfront, braced?_append hbody after, { block with header }, ?_⟩
    intro t ht body hplainBody behind
    have hstop' : Stops isNameChar ((header ++ t) ++ '\x7b' :: (body ++ '\x7d' :: behind)) := by
      cases header with
      | nil => exact ht.stops _
      | cons c header => exact stops_cons (hstop c (by rw [hheader]; rfl)) _
    have hplain' : ∀ c ∈ header ++ t, isPlain c = true := by
      intro c hc
      rcases List.mem_append.1 hc with hc | hc
      · exact hfront c (by simp [hc])
      · exact ht.isPlain c hc
    have hblock := block?_append (keyword?_append block.keyword) hne hblank hname hstop' hplain'
      hplainBody
    simpa [Block.headed, Block.holding] using hblock
  · left
    obtain ⟨plain, brace, more, rfl, hplain, hbrace⟩ := exists_brace hfront
    rw [List.append_assoc plain, List.cons_append] at htext
    obtain ⟨rfl, rfl, hmore⟩ := eq_of_plain_append hhead hplain (by decide) hbrace htext
    by_cases hclosed : ∀ c ∈ more, isPlain c = true
    · have hall : ∀ c ∈ more ++ s, isPlain c = true := fun c hc =>
        (List.mem_append.1 hc).elim (hclosed c) (hs.isPlain c)
      rw [← List.append_assoc more] at hmore
      have hbraces := (eq_of_plain_append hbody hall (by decide) (by decide) hmore).2.1
      exact absurd hbraces (by decide)
    · obtain ⟨inside, closing, behind, rfl, hinside, hclosing⟩ := exists_brace hclosed
      rw [List.append_assoc inside, List.cons_append] at hmore
      obtain ⟨rfl, rfl, rfl⟩ := eq_of_plain_append hbody hinside (by decide) hclosing hmore
      refine ⟨behind, by simp; omega, fun t => ?_⟩
      let head := keywordText block.keyword ++ (blank ++ (block.name ++ block.header))
      have hfound := @block?_front (head ++ '\x7b' :: (block.body ++ ['\x7d']))
        (behind ++ (s ++ '\x7b' :: rest)) block (by simpa [head] using h) (behind ++ t)
      simpa [head] using hfound

/-- Before a brace that no brace closes, a text without braces is in no block. -/
theorem blocksFrom_of_unclosed (inWord : Bool) (hplain : ∀ c ∈ s, isPlain c = true)
    (h : braced? ('\x7b' :: rest) = none) :
    blocksFrom inWord (s ++ '\x7b' :: rest) = blocks rest := by
  induction s generalizing inWord with
  | nil =>
    rw [List.nil_append, blocksFrom_of_none (.inr (block?_eq_none (by decide) rest))]
    rfl
  | cons c s ih =>
    have hnone : block? (c :: s ++ '\x7b' :: rest) = none := by
      refine Option.eq_none_iff_forall_ne_some.2 fun (block, after) hblock => ?_
      obtain ⟨blank, -, -, -, hhead, hbody, htext⟩ := heading_of_block? hblock
      obtain ⟨-, -, rfl⟩ := eq_of_plain_append hhead hplain (by decide) (by decide) htext
      rw [braced?_append hbody] at h
      cases h
    rw [List.cons_append] at hnone ⊢
    rw [blocksFrom_of_none (.inr hnone)]
    exact ih _ fun d hd => hplain d (List.mem_cons_of_mem c hd)

/-- What a search finds before an opening brace does not depend on what is behind the brace, nor on
the trailer before it: some blocks, and one or none that has the trailer at the end of its header
and the text up to the next brace as its body, if that closes it. -/
theorem exists_blocks_trailer (front : List Char) (inWord : Bool) :
    ∃ (found : List Block) (holder : Option Block),
      (∀ s, Trailer s → ∀ body, (∀ c ∈ body, isPlain c = true) → ∀ behind,
        blocksFrom inWord (front ++ (s ++ '\x7b' :: (body ++ '\x7d' :: behind))) =
          found ++ ((holder.map fun block => (block.headed s).holding body).toList ++
            blocks behind)) ∧
      ∀ s, Trailer s → ∀ rest, braced? ('\x7b' :: rest) = none →
        blocksFrom inWord (front ++ (s ++ '\x7b' :: rest)) = found ++ blocks rest := by
  induction hn : front.length using Nat.strongRecOn generalizing inWord front with
  | ind n ih =>
    subst hn
    cases front with
    | nil =>
      refine ⟨[], none, fun s hs body hbody behind => ?_, fun s hs rest _ => ?_⟩
      · exact (blocksFrom_of_nameless inWord hs.isPlain hs.nameless).trans (blocks_closing hbody)
      · exact blocksFrom_of_nameless inWord hs.isPlain hs.nameless
    | cons c front =>
      -- whether a block begins here is told by the empty trailer and the empty body
      by_cases hnone : inWord = true ∨
          block? (c :: front ++ ([] ++ '\x7b' :: ([] ++ ['\x7d']))) = none
      · obtain ⟨found, holder, hclosed, hunclosed⟩ :=
          ih front.length (Nat.lt_succ_self _) front (isWord c) rfl
        have hskip : ∀ s, Trailer s → ∀ rest,
            blocksFrom inWord (c :: front ++ (s ++ '\x7b' :: rest)) =
              blocksFrom (isWord c) (front ++ (s ++ '\x7b' :: rest)) := by
          intro s hs rest
          refine blocksFrom_of_none (hnone.imp_right fun h => ?_)
          refine Option.eq_none_iff_forall_ne_some.2 fun (block, after) hblock => ?_
          rcases @block?_trailer s (c :: front) rest _ _ hs hblock with
            ⟨more, -, hall⟩ | ⟨-, -, holder, hall⟩
          · rw [hall] at h
            cases h
          · rw [hall [] trailer_nil [] isPlain_nil []] at h
            cases h
        refine ⟨found, holder, fun s hs body hbody behind => ?_, fun s hs rest hrest => ?_⟩
        · rw [hskip s hs, hclosed s hs body hbody]
        · rw [hskip s hs, hunclosed s hs rest hrest]
      · rw [not_or, Bool.not_eq_true] at hnone
        obtain ⟨rfl, hsome⟩ := hnone
        obtain ⟨⟨block, after⟩, hblock⟩ := Option.ne_none_iff_exists'.1 hsome
        rcases block?_trailer trailer_nil hblock with
          ⟨more, hlength, hall⟩ | ⟨hplain, -, holder, hall⟩
        · obtain ⟨found, holder, hclosed, hunclosed⟩ := ih more.length hlength more false rfl
          refine ⟨block :: found, holder, fun s hs body hbody behind => ?_,
            fun s hs rest hrest => ?_⟩
          · rw [blocksFrom_of_some (hall _), hclosed s hs body hbody, List.cons_append]
          · rw [blocksFrom_of_some (hall _), hunclosed s hs rest hrest, List.cons_append]
        · refine ⟨[], some holder, fun s hs body hbody behind => ?_, fun s hs rest hrest => ?_⟩
          · rw [blocksFrom_of_some (hall s hs body hbody behind)]
            rfl
          · rw [← List.append_assoc]
            refine blocksFrom_of_unclosed false (fun d hd => ?_) hrest
            exact (List.mem_append.1 hd).elim (hplain d) (hs.isPlain d)

/-! ## Models and trailers

Whether a block is a model is asked of its header, the last part of which is the trailer. -/

/-- Behind white space, the end of a header marks a model on its own. -/
theorem isModelHeader_append {c : Char} (hc : isBlank c = true) (header more : List Char) :
    isModelHeader (header ++ c :: more) = (isModelHeader header || isModelHeader (c :: more)) := by
  rw [isModelHeader, isModelHeader, isModelHeader, words, words, words,
    piecesWhere_append_cons hc, piecesWhere_separator hc, List.contains_append]

/-- The header that a text ends with, if it ends with one: that of the last block, when a pair of
braces is put behind the text. -/
def lastHeader? (front : List Char) : Option (List Char) :=
  (blocks (front ++ ['\x7b', '\x7d'])).getLast?.map Block.header

/-- Trailers that mark a model alike at the end of the header make the same models. -/
theorem models_trailer {t : List Char} (hs : Trailer s) (ht : Trailer t)
    (h : ∀ header ∈ lastHeader? front, isModelHeader (header ++ s) = isModelHeader (header ++ t)) :
    models (front ++ (s ++ '\x7b' :: rest)) = models (front ++ (t ++ '\x7b' :: rest)) := by
  obtain ⟨found, holder, hclosed, hunclosed⟩ := exists_blocks_trailer front false
  cases hbraced : braced? ('\x7b' :: rest) with
  | none =>
    rw [models, models, blocks, blocks, hunclosed s hs rest hbraced, hunclosed t ht rest hbraced]
  | some found' =>
    obtain ⟨body, behind⟩ := found'
    obtain ⟨hbody, htext⟩ := append_of_braced? hbraced
    rw [List.cons.injEq] at htext
    obtain ⟨-, rfl⟩ := htext
    rw [models, models, blocks, blocks, hclosed s hs body hbody, hclosed t ht body hbody]
    cases holder with
    | none => rfl
    | some block =>
      have hlast : lastHeader? front = some block.header := by
        have hempty := hclosed [] trailer_nil [] isPlain_nil []
        rw [List.nil_append, List.nil_append] at hempty
        rw [lastHeader?, blocks, hempty, blocks, blocksFrom.eq_1]
        simp [Block.headed, Block.holding]
      have hholder : (decide (((block.headed s).holding body).keyword = .type) &&
          isModelHeader ((block.headed s).holding body).header) =
            (decide (((block.headed t).holding body).keyword = .type) &&
              isModelHeader ((block.headed t).holding body).header) :=
        congrArg (decide (block.keyword = .type) && ·) (h block.header hlast)
      simp only [Option.map_some, Option.toList_some, List.singleton_append, List.filter_append,
        List.map_append, List.filter_cons, hholder]
      split <;> rfl

end Trailers

end SchemaAccess.Loose
