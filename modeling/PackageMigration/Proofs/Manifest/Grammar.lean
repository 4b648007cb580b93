import Mathlib.Data.Nat.Find
import PackageMigration.Proofs.Manifest.LineEnd
import PackageMigration.Proofs.Manifest.Parser
/-
  The grammar of manifests.

  * `IsAttributeLine`: a line that begins an attribute.
  * `Misplaced`: a line that may not stand where it stands; `misplacedError` is the error about it.
  * `Grouped`: the blocks of lines, with blank lines between them.

  Main statements: `parse?_eq_error_iff` (the first misplaced line is the error),
  `parse?_eq_ok_iff_grouped` (the blocks are the sections), `parse?_grammar`.
-/
namespace PackageMigration.Manifest

open Bytes (IsText)

/-- A line that begins an attribute: its first colon stands behind a name, which has no space. -/
def IsAttributeLine (l : Bytes) : Prop :=
  ∃ name value, l = name ++ Byte.colon :: value ∧ Byte.colon ∉ name ∧ name ≠ [] ∧ Byte.space ∉ name

/-- The line with this index, counted from 0, is not blank and may not stand where it stands: it begins
no attribute, and does not continue one either, since it has no space in front or stands behind a
blank line. The line in front of the first one is `before`. -/
def Misplaced (before : Bytes) (ls : List Bytes) (i : Nat) : Prop :=
  ∃ l, ls[i]? = some l ∧ l ≠ [] ∧ ¬ IsAttributeLine l ∧
    (l.head? = some Byte.space → (before :: ls)[i]? = some [])

/-- What is wrong with a misplaced line of this number. -/
def misplacedError (l : Bytes) (number : Nat) : Error :=
  if l.head? = some Byte.space then .orphanContinuation number else .malformedLine number

/-- Lines as blocks of lines that are not blank: the block that the first line begins, which may have
no line, and the others, which have some. -/
inductive Grouped : List Bytes → List Bytes → List (List Bytes) → Prop
  | nil : Grouped [] [] []
  | line {l : Bytes} {ls block : List Bytes} {blocks : List (List Bytes)} :
      l ≠ [] → Grouped ls block blocks → Grouped (l :: ls) (l :: block) blocks
  | blank {ls : List Bytes} {blocks : List (List Bytes)} :
      Grouped ls [] blocks → Grouped ([] :: ls) [] blocks
  | gap {ls block : List Bytes} {blocks : List (List Bytes)} :
      block ≠ [] → Grouped ls block blocks → Grouped ([] :: ls) [] (block :: blocks)

/-! ## Misplaced lines -/

theorem isAttributeLine_iff {l : Bytes} : IsAttributeLine l ↔ ∃ a, Attribute.ofLine? l = some a := by
  simp only [Attribute.ofLine?_eq_some_iff]
  constructor
  · rintro ⟨name, value, hl⟩
    exact ⟨⟨name, (Bytes.after? [Byte.space] value).getD value⟩, value, hl.1, hl.2.1, hl.2.2.1, hl.2.2.2, rfl⟩
  · rintro ⟨a, value, hl⟩
    exact ⟨a.name, value, hl.1, hl.2.1, hl.2.2.1, hl.2.2.2.1⟩

theorem ofLine?_eq_none_iff {l : Bytes} : Attribute.ofLine? l = none ↔ ¬ IsAttributeLine l := by
  rw [isAttributeLine_iff, Option.eq_none_iff_forall_ne_some, not_exists]

theorem IsAttributeLine.ne_nil {l : Bytes} (h : IsAttributeLine l) : l ≠ [] := by
  obtain ⟨name, value, rfl, -⟩ := h
  simp

theorem IsAttributeLine.head?_ne_space {l : Bytes} (h : IsAttributeLine l) : l.head? ≠ some Byte.space := by
  obtain ⟨a, ha⟩ := isAttributeLine_iff.1 h
  exact Attribute.head?_of_ofLine? ha

theorem continuation?_isSome_iff {line : NumberedLine} :
    (continuation? line).isSome ↔ line.1.head? = some Byte.space := by
  rw [Option.isSome_iff_exists, List.head?_eq_some_iff]
  simp only [continuation?_eq_some_iff]

theorem misplaced_zero_iff {before l : Bytes} {ls : List Bytes} : Misplaced before (l :: ls) 0 ↔
    l ≠ [] ∧ ¬ IsAttributeLine l ∧ (l.head? = some Byte.space → before = []) := by
  simp [Misplaced]

theorem misplaced_succ_iff {before l : Bytes} {ls : List Bytes} {i : Nat} :
    Misplaced before (l :: ls) (i + 1) ↔ Misplaced l ls i := by
  simp [Misplaced]

/-- The error about the first misplaced line. The first of the lines has the number `n`. -/
def FirstMisplaced (before : Bytes) (ls : List Bytes) (n : Nat) (e : Error) : Prop :=
  ∃ i l, ls[i]? = some l ∧ Misplaced before ls i ∧ (∀ j < i, ¬ Misplaced before ls j) ∧
    e = misplacedError l (n + i)

section
variable {before l : Bytes} {ls : List Bytes} {n : Nat} {e : Error}

theorem not_firstMisplaced_nil : ¬ FirstMisplaced before [] n e := by
  rintro ⟨i, l, hl, -⟩
  cases hl

theorem firstMisplaced_cons_of_misplaced (h : Misplaced before (l :: ls) 0) :
    FirstMisplaced before (l :: ls) n e ↔ e = misplacedError l n := by
  constructor
  · rintro ⟨i, m, hm, -, hfirst, rfl⟩
    cases i with
    | zero => cases hm; rfl
    | succ i => exact absurd h (hfirst 0 (Nat.succ_pos i))
  · rintro rfl
    exact ⟨0, l, rfl, h, nofun, rfl⟩

theorem firstMisplaced_cons_of_not_misplaced (h : ¬ Misplaced before (l :: ls) 0) :
    FirstMisplaced before (l :: ls) n e ↔ FirstMisplaced l ls (n + 1) e := by
  constructor
  · rintro ⟨i, m, hm, hi, hfirst, rfl⟩
    cases i with
    | zero => exact absurd hi h
    | succ i =>
      refine ⟨i, m, hm, misplaced_succ_iff.1 hi, fun j hj => ?_, by rw [Nat.add_right_comm]; rfl⟩
      exact mt misplaced_succ_iff.2 (hfirst (j + 1) (Nat.succ_lt_succ hj))
  · rintro ⟨i, m, hm, hi, hfirst, rfl⟩
    refine ⟨i + 1, m, hm, misplaced_succ_iff.2 hi, fun j hj => ?_, by rw [Nat.add_right_comm]; rfl⟩
    cases j with
    | zero => exact h
    | succ j => exact mt misplaced_succ_iff.1 (hfirst j (Nat.lt_of_succ_lt_succ hj))

end

/-! ## The error that is found -/

/-- The attributes of lines behind other lines of their block, which the first ones may continue. -/
def Section.ofRest? (rest : List NumberedLine) : Except Error Section :=
  (unfold rest).2.mapM Unfolded.attribute?

/-- The section of the lines of a block that are behind the line `before`. -/
def Section.ofLines? (before : Bytes) (block : List NumberedLine) : Except Error Section :=
  if before = [] then ofBlock? block else ofRest? block

/-- The sections of blocks. The first one is behind the line `before`. -/
def readBlocks? (before : Bytes) : List (List NumberedLine) → Except Error (List Section)
  | [] => pure []
  | block :: blocks => do
    let s ← Section.ofLines? before block
    let ss ← blocks.mapM Section.ofBlock?
    return s :: ss

section
variable {before : Bytes} {line : NumberedLine} {rest : List NumberedLine} {e : Error}

theorem readBlocks?_nil (blocks : List (List NumberedLine)) :
    readBlocks? [] blocks = blocks.mapM Section.ofBlock? := by
  cases blocks with
  | nil => rfl
  | cons block blocks => rw [readBlocks?, List.mapM_cons, Section.ofLines?, if_pos rfl]

theorem readBlocks?_cons_eq_error_iff {block : List NumberedLine} {blocks : List (List NumberedLine)} :
    readBlocks? before (block :: blocks) = .error e ↔ Section.ofLines? before block = .error e ∨
      (∃ s, Section.ofLines? before block = .ok s) ∧ blocks.mapM Section.ofBlock? = .error e := by
  simp only [readBlocks?, bind_eq_error_iff, pure_ne_error, and_false, exists_false, or_false,
    exists_and_right]

theorem ofLines?_nil (before : Bytes) : Section.ofLines? before [] = .ok [] := by
  unfold Section.ofLines?
  split <;> rfl

theorem ofRest?_cons_of_isAttributeLine (rest : List NumberedLine) (h : IsAttributeLine line.1) :
    ∃ a, Section.ofRest? (line :: rest) = (Section.ofRest? rest).map (a :: ·) := by
  obtain ⟨a, ha⟩ := isAttributeLine_iff.1 h
  refine ⟨{ a with value := a.value ++ (unfold rest).1.flatten }, ?_⟩
  have hattribute : Unfolded.attribute? ⟨line, (unfold rest).1⟩ =
      .ok { a with value := a.value ++ (unfold rest).1.flatten } :=
    Unfolded.attribute?_eq_ok_iff.2 ⟨a, ha, rfl⟩
  rw [Section.ofRest?, unfold_cons, consLine, continuation?_of_ofLine? ha, List.mapM_cons, hattribute,
    Section.ofRest?]
  cases (unfold rest).2.mapM Unfolded.attribute? <;> rfl

theorem ofRest?_cons_of_head?_eq_space (h : line.1.head? = some Byte.space) :
    Section.ofRest? (line :: rest) = Section.ofRest? rest := by
  obtain ⟨more, hmore⟩ := Option.isSome_iff_exists.1 (continuation?_isSome_iff.2 h)
  rw [Section.ofRest?, unfold_cons, consLine, hmore, Section.ofRest?]

theorem ofRest?_cons_of_not (h : ¬ IsAttributeLine line.1) (hs : line.1.head? ≠ some Byte.space) :
    Section.ofRest? (line :: rest) = .error (.malformedLine line.2) := by
  have hnone : continuation? line = none :=
    Option.not_isSome_iff_eq_none.1 (mt continuation?_isSome_iff.1 hs)
  rw [Section.ofRest?, unfold_cons, consLine, hnone, List.mapM_cons, Unfolded.attribute?,
    ofLine?_eq_none_iff.2 h]
  rfl

theorem ofLines?_cons (before : Bytes) (line : NumberedLine) (rest : List NumberedLine) :
    Section.ofLines? before (line :: rest) =
      if before = [] ∧ line.1.head? = some Byte.space then .error (.orphanContinuation line.2)
      else Section.ofRest? (line :: rest) := by
  unfold Section.ofLines? Section.ofBlock?
  simp only [continuation?_isSome_iff]
  by_cases hb : before = [] <;> by_cases hs : line.1.head? = some Byte.space <;>
    simp [hb, hs, Section.ofRest?]

/-- A misplaced line is what is wrong with the lines it begins. -/
theorem ofLines?_cons_of_misplaced (h : ¬ IsAttributeLine line.1)
    (hs : line.1.head? = some Byte.space → before = []) :
    Section.ofLines? before (line :: rest) = .error (misplacedError line.1 line.2) := by
  rw [ofLines?_cons, misplacedError]
  by_cases hspace : line.1.head? = some Byte.space
  · rw [if_pos ⟨hs hspace, hspace⟩, if_pos hspace]
  · rw [if_neg fun hb => hspace hb.2, if_neg hspace, ofRest?_cons_of_not h hspace]

/-- Another line leaves what is wrong with the lines behind it. -/
theorem ofLines?_cons_of_not_misplaced (hl : line.1 ≠ [])
    (h : ¬ IsAttributeLine line.1 → line.1.head? = some Byte.space ∧ before ≠ []) :
    ∃ f, Section.ofLines? before (line :: rest) = (Section.ofLines? line.1 rest).map f := by
  have hrest : Section.ofLines? line.1 rest = Section.ofRest? rest := if_neg hl
  rw [ofLines?_cons, hrest]
  by_cases ha : IsAttributeLine line.1
  · obtain ⟨a, hmap⟩ := ofRest?_cons_of_isAttributeLine rest ha
    exact ⟨(a :: ·), by rw [if_neg fun hb => ha.head?_ne_space hb.2, hmap]⟩
  · obtain ⟨hspace, hbefore⟩ := h ha
    refine ⟨id, ?_⟩
    rw [if_neg fun hb => hbefore hb.1, ofRest?_cons_of_head?_eq_space hspace]
    cases Section.ofRest? rest <;> rfl

end

/-- What is wrong with blocks of lines is that there is a misplaced one, and the first one counts. -/
theorem readBlocks?_eq_error_iff {before : Bytes} {ls : List Bytes} {n : Nat} {e : Error} :
    readBlocks? before (splitWhere (fun l => l.1.isEmpty) (ls.zipIdx n)) = .error e ↔
      FirstMisplaced before ls n e := by
  induction ls generalizing before n with
  | nil =>
    refine iff_of_false ?_ not_firstMisplaced_nil
    rw [List.zipIdx_nil, splitWhere_nil, readBlocks?_cons_eq_error_iff, ofLines?_nil, List.mapM_nil]
    rintro (h | ⟨-, h⟩)
    · cases h
    · exact pure_ne_error h
  | cons l ls ih =>
    rw [List.zipIdx_cons, splitWhere_cons]
    by_cases hl : l = []
    · -- The lines behind a blank one are read like those behind no line.
      have hnot : ¬ Misplaced before (l :: ls) 0 := fun h => (misplaced_zero_iff.1 h).1 hl
      subst hl
      rw [firstMisplaced_cons_of_not_misplaced hnot, ← ih, if_pos List.isEmpty_nil,
        readBlocks?_cons_eq_error_iff, ofLines?_nil, readBlocks?_nil]
      simp
    · obtain ⟨block, blocks, hblocks⟩ :=
        List.exists_cons_of_ne_nil (splitWhere_ne_nil (fun l => l.1.isEmpty) (ls.zipIdx (n + 1)))
      rw [if_neg (by simpa using hl), hblocks, consPart]
      by_cases h : Misplaced before (l :: ls) 0
      · obtain ⟨-, hattribute, hspace⟩ := misplaced_zero_iff.1 h
        rw [firstMisplaced_cons_of_misplaced h, readBlocks?_cons_eq_error_iff,
          ofLines?_cons_of_misplaced hattribute hspace]
        simp [eq_comm]
      · have hplaced : ¬ IsAttributeLine l → l.head? = some Byte.space ∧ before ≠ [] := by
          intro ha
          rw [misplaced_zero_iff, not_and, not_and] at h
          exact Classical.not_imp.1 (h hl ha)
        obtain ⟨f, hf⟩ : ∃ f, Section.ofLines? before ((l, n) :: block) =
            (Section.ofLines? l block).map f := ofLines?_cons_of_not_misplaced hl hplaced
        rw [firstMisplaced_cons_of_not_misplaced h, ← ih, hblocks, readBlocks?_cons_eq_error_iff,
          readBlocks?_cons_eq_error_iff, hf]
        cases Section.ofLines? l block <;> simp [Except.map]

theorem mapM_blocks_eq_error_iff {data : Bytes} {e : Error} :
    (blocks data).mapM Section.ofBlock? = .error e ↔ FirstMisplaced [] (lines data) 1 e := by
  rw [← readBlocks?_nil, blocks, readBlocks?_eq_error_iff]

/-- **What is wrong with bytes is that they are no text, or else their first misplaced line.** -/
theorem parse?_eq_error_iff {data : Bytes} {e : Error} : parse? data = .error e ↔
    ¬ IsText data ∧ e = .notUtf8 ∨ IsText data ∧ FirstMisplaced [] (lines data) 1 e := by
  unfold parse?
  by_cases ht : IsText data
  · rw [Bytes.isText, decide_eq_true ht, if_pos rfl, bind_eq_error_iff, mapM_blocks_eq_error_iff]
    constructor
    · rintro (h | ⟨ss, -, h⟩)
      · exact .inr ⟨ht, h⟩
      · cases ss <;> cases h
    · rintro (⟨h, -⟩ | ⟨-, h⟩)
      · exact absurd ht h
      · exact .inl h
  · simp [Bytes.isText, ht, eq_comm]

/-- A manifest is read if no line is misplaced. -/
theorem exists_parse?_iff {data : Bytes} :
    (∃ m, parse? data = .ok m) ↔ IsText data ∧ ∀ i, ¬ Misplaced [] (lines data) i := by
  rw [← not_iff_not, ← exists_error_iff_not_exists_ok]
  simp only [parse?_eq_error_iff]
  constructor
  · rintro ⟨e, ⟨ht, -⟩ | ⟨-, i, l, -, hi, -⟩⟩
    · exact fun h => ht h.1
    · exact fun h => h.2 i hi
  · intro h
    by_cases ht : IsText data
    · obtain ⟨i, hi⟩ := not_forall_not.1 (not_and.1 h ht)
      classical
      obtain ⟨k, hk, hfirst⟩ := Nat.findX ⟨i, hi⟩
      obtain ⟨l, hl, -⟩ := id hk
      exact ⟨_, .inr ⟨ht, k, l, hl, hk, hfirst, rfl⟩⟩
    · exact ⟨.notUtf8, .inl ⟨ht, rfl⟩⟩

/-! ## The sections -/

theorem Grouped.splitWhere_eq {ls block : List Bytes} {blocks : List (List Bytes)}
    (h : Grouped ls block blocks) :
    ∃ rest, splitWhere List.isEmpty ls = block :: rest ∧ blocks = rest.filter fun b => !b.isEmpty := by
  induction h with
  | nil => exact ⟨[], rfl, rfl⟩
  | line hl _ ih =>
    obtain ⟨rest, hsplit, hrest⟩ := ih
    refine ⟨rest, ?_, hrest⟩
    rw [splitWhere_cons, if_neg (by simpa using hl), hsplit, consPart]
  | blank _ ih =>
    obtain ⟨rest, hsplit, hrest⟩ := ih
    exact ⟨[] :: rest, by rw [splitWhere_cons, hsplit]; rfl, hrest⟩
  | @gap ls block blocks hblock _ ih =>
    obtain ⟨rest, hsplit, rfl⟩ := ih
    refine ⟨block :: rest, by rw [splitWhere_cons, hsplit]; rfl, ?_⟩
    rw [List.filter_cons_of_pos (by simpa using hblock)]

theorem grouped_of_splitWhere {ls block : List Bytes} {rest : List (List Bytes)}
    (h : splitWhere List.isEmpty ls = block :: rest) :
    Grouped ls block (rest.filter fun b => !b.isEmpty) := by
  induction ls generalizing block rest with
  | nil =>
    obtain ⟨rfl, rfl⟩ := List.cons.inj h
    exact .nil
  | cons l ls ih =>
    obtain ⟨first, more, hsplit⟩ := List.exists_cons_of_ne_nil (splitWhere_ne_nil List.isEmpty ls)
    rw [splitWhere_cons, hsplit] at h
    split at h
    next hl =>
      obtain rfl := List.isEmpty_iff.1 hl
      obtain ⟨rfl, rfl⟩ := List.cons.inj h
      by_cases hfirst : first = []
      · subst hfirst
        rw [List.filter_cons_of_neg (by simp)]
        exact .blank (ih hsplit)
      · rw [List.filter_cons_of_pos (by simpa using hfirst)]
        exact .gap hfirst (ih hsplit)
    next hl =>
      obtain ⟨rfl, rfl⟩ := List.cons.inj h
      exact .line (by simpa using hl) (ih hsplit)

theorem Section.Spelled.isEmpty_eq {ls : List Bytes} {s : Section} (h : Section.Spelled ls s) :
    ls.isEmpty = s.isEmpty := by
  cases h <;> rfl

/-- Blocks without a line are sections without an attribute. -/
theorem forall₂_spelled_filter_iff {blocks : List (List Bytes)} {kept : List Section} :
    List.Forall₂ Section.Spelled (blocks.filter fun b => !b.isEmpty) kept ↔
      ∃ ss, List.Forall₂ Section.Spelled blocks ss ∧ kept = ss.filter fun s => !s.isEmpty := by
  induction blocks generalizing kept with
  | nil => simp
  | cons block blocks ih =>
    constructor
    · intro h
      rw [List.filter_cons] at h
      split at h
      next hne =>
        obtain ⟨s, kept, hs, hkept, rfl⟩ := List.forall₂_cons_left_iff.1 h
        obtain ⟨ss, hss, rfl⟩ := ih.1 hkept
        refine ⟨s :: ss, .cons hs hss, ?_⟩
        rw [List.filter_cons_of_pos (by rwa [hs.isEmpty_eq] at hne)]
      next he =>
        obtain ⟨ss, hss, rfl⟩ := ih.1 h
        obtain rfl : block = [] := by simpa using he
        exact ⟨[] :: ss, .cons .nil hss, rfl⟩
    · rintro ⟨_, hall, rfl⟩
      obtain ⟨s, ss, hs, hss, rfl⟩ := List.forall₂_cons_left_iff.1 hall
      rw [List.filter_cons, List.filter_cons, hs.isEmpty_eq]
      split
      · exact .cons hs (ih.2 ⟨ss, hss, rfl⟩)
      · exact ih.2 ⟨ss, hss, rfl⟩

/-- **The blocks of lines are the sections**, the one that the first line begins the main section. -/
theorem parse?_eq_ok_iff_grouped {data : Bytes} {m : Manifest} : parse? data = .ok m ↔
    IsText data ∧ ∃ block blocks, Grouped (lines data) block blocks ∧
      Section.Spelled block m.main ∧ List.Forall₂ Section.Spelled blocks m.entries := by
  rw [parse?_eq_ok_iff]
  refine and_congr_right fun _ => ?_
  constructor
  · rintro ⟨main, entries, hss, rfl⟩
    obtain ⟨block, rest, hmain, hrest, hsplit⟩ := List.forall₂_cons_right_iff.1 hss
    exact ⟨block, _, grouped_of_splitWhere hsplit, hmain,
      forall₂_spelled_filter_iff.2 ⟨entries, hrest, rfl⟩⟩
  · rintro ⟨block, blocks, hgrouped, hmain, hentries⟩
    obtain ⟨rest, hsplit, rfl⟩ := hgrouped.splitWhere_eq
    obtain ⟨entries, hrest, he⟩ := forall₂_spelled_filter_iff.1 hentries
    exact ⟨m.main, entries, hsplit ▸ .cons hmain hrest, by rw [← he]⟩

/-! ## The grammar -/

/-- What is read depends on the lines only. -/
theorem parse?_eq_of_hasLines {data data' : Bytes} {ls : List Bytes} (h : HasLines data ls)
    (h' : HasLines data' ls) : parse? data = parse? data' := by
  have ht : IsText data ↔ IsText data' := by
    rw [isText_iff_of_hasLines h, isText_iff_of_hasLines h']
  have hblocks : blocks data = blocks data' := by
    rw [blocks, blocks, ← hasLines_iff.1 h, ← hasLines_iff.1 h']
  have hisText : data.isText = data'.isText := decide_eq_decide.2 ht
  rw [parse?, parse?, hisText, hblocks]

/-- **The grammar of manifests.** Bytes have one list of lines, each of which ends in CR LF, LF or CR.
They are read if they are text and no line is misplaced. Then the sections are the blocks of lines
that are not blank, and the main section is the block of the first line, without an attribute if
that line is blank or missing. Else the error is that they are no text, or it is about the first
misplaced line, with its number. Written with any end throughout, and without the last end if the
last line is not empty, the lines give the same. -/
theorem parse?_grammar (data : Bytes) : ∃ ls, (∀ ls', HasLines data ls' ↔ ls' = ls) ∧
    ((∃ m, parse? data = .ok m) ↔ IsText data ∧ ∀ i, ¬ Misplaced [] ls i) ∧
    (∀ m, parse? data = .ok m ↔ IsText data ∧ ∃ block blocks, Grouped ls block blocks ∧
      Section.Spelled block m.main ∧ List.Forall₂ Section.Spelled blocks m.entries) ∧
    (∀ e, parse? data = .error e ↔ ¬ IsText data ∧ e = .notUtf8 ∨
      IsText data ∧ ∃ i l, ls[i]? = some l ∧ Misplaced [] ls i ∧ (∀ j < i, ¬ Misplaced [] ls j) ∧
        e = misplacedError l (1 + i)) ∧
    ∀ e : LineEnd, parse? (terminated e ls) = parse? data ∧
      (ls.getLast? ≠ some [] → parse? (joined e ls) = parse? data) := by
  have hlines : HasLines data (lines data) := hasLines_iff.2 rfl
  have hisLine : ∀ l ∈ lines data, IsLine l := fun l hl => isLine_of_mem_lines hl
  refine ⟨lines data, fun _ => hasLines_iff, exists_parse?_iff, fun _ => parse?_eq_ok_iff_grouped,
    fun _ => parse?_eq_error_iff, fun e => ⟨?_, fun hlast => ?_⟩⟩
  · exact parse?_eq_of_hasLines (hasLines_terminated e hisLine) hlines
  · exact parse?_eq_of_hasLines (hasLines_joined e hisLine hlast) hlines

example : parse? (PackageMigration.bytes "A: 1\r 2\n\r\n 3\nB") = .error (.orphanContinuation 4) ∧
    parse? (PackageMigration.bytes "A: 1\r 2\n\r\nB : 3\n 4") = .error (.malformedLine 4) := by
  decide +kernel

end PackageMigration.Manifest
