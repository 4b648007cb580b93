import PackageMigration.Manifest.Parser
import PackageMigration.Proofs.Bytes.Cut
import PackageMigration.Proofs.Except
import PackageMigration.Proofs.Manifest.Line
/-
  What the lines of a manifest say.

  * `Section.Spelled`: the lines of a section, each attribute with the lines that continue it.

  Main statements: `Attribute.ofLine?_eq_some_iff`, `Section.ofBlock?_eq_ok_iff`, `parse?_eq_ok_iff`.
-/
namespace PackageMigration.Manifest

open Bytes (IsText)

/-! ## Attributes -/

theorem Attribute.ofLine?_eq_some_iff {line : Bytes} {a : Attribute} :
    Attribute.ofLine? line = some a ↔ ∃ value, line = a.name ++ Byte.colon :: value ∧
      Byte.colon ∉ a.name ∧ a.name ≠ [] ∧ Byte.space ∉ a.name ∧
      a.value = (Bytes.after? [Byte.space] value).getD value := by
  unfold Attribute.ofLine?
  constructor
  · intro h
    split at h
    · cases h
    next name value hc =>
      obtain ⟨hline, hcolon⟩ := Bytes.cutFirst?_eq_some_iff.1 hc
      split at h
      · cases h
      next hn =>
        rw [not_or] at hn
        obtain rfl := Option.some.inj h
        exact ⟨value, hline, hcolon, hn.1, hn.2, rfl⟩
  · rintro ⟨value, hline, hcolon, hne, hspace, hvalue⟩
    rw [Bytes.cutFirst?_eq_some_iff.2 ⟨hline, hcolon⟩]
    simp only [hne, hspace, or_self, if_false, ← hvalue]

theorem continuation?_eq_some_iff {line : NumberedLine} {more : Bytes} :
    continuation? line = some more ↔ line.1 = Byte.space :: more :=
  Bytes.after?_eq_some_iff

/-- A line that begins an attribute does not continue one. -/
theorem Attribute.head?_of_ofLine? {line : Bytes} {a : Attribute}
    (h : Attribute.ofLine? line = some a) : line.head? ≠ some Byte.space := by
  obtain ⟨value, rfl, -, hne, hspace, -⟩ := Attribute.ofLine?_eq_some_iff.1 h
  obtain ⟨b, name, hname⟩ := List.exists_cons_of_ne_nil hne
  rw [hname]
  rintro ⟨⟩
  exact hspace (hname ▸ List.mem_cons_self)

theorem continuation?_of_ofLine? {line : NumberedLine} {a : Attribute}
    (h : Attribute.ofLine? line.1 = some a) : continuation? line = none := by
  rw [Option.eq_none_iff_forall_ne_some]
  intro more hm
  exact Attribute.head?_of_ofLine? h (by rw [continuation?_eq_some_iff.1 hm]; rfl)

/-! ## Sections -/

/-- The lines that continue an attribute, for what they add to it. -/
def continuations (added : List Bytes) : List Bytes := added.map (Byte.space :: ·)

/-- The lines of a section: for each attribute one that begins it and those that continue it. -/
inductive Section.Spelled : List Bytes → Section → Prop
  | nil : Spelled [] []
  | cons {line : Bytes} {added ls : List Bytes} {a : Attribute} {s : Section} :
      Attribute.ofLine? line = some a → Spelled ls s →
      Spelled (line :: (continuations added ++ ls)) ({ a with value := a.value ++ added.flatten } :: s)

/-- The lines of an attribute. -/
def Unfolded.lines (u : Unfolded) : List Bytes := u.line.1 :: continuations u.added

theorem Unfolded.attribute?_eq_ok_iff {u : Unfolded} {a : Attribute} :
    u.attribute? = .ok a ↔ ∃ a', Attribute.ofLine? u.line.1 = some a' ∧
      a = { a' with value := a'.value ++ u.added.flatten } := by
  unfold Unfolded.attribute?
  cases Attribute.ofLine? u.line.1 with
  | none => simp
  | some a' => simp [eq_comm]

theorem unfold_cons (line : NumberedLine) (block : List NumberedLine) :
    unfold (line :: block) = consLine line (unfold block) := rfl

/-- No line is lost by unfolding. -/
theorem map_fst_eq_unfold (block : List NumberedLine) :
    block.map Prod.fst =
      continuations (unfold block).1 ++ (unfold block).2.flatMap Unfolded.lines := by
  induction block with
  | nil => rfl
  | cons line block ih =>
    rw [List.map_cons, ih, unfold_cons, consLine]
    cases h : continuation? line with
    | none => rfl
    | some more =>
      rw [continuation?_eq_some_iff.1 h]
      rfl

/-- Lines that continue an attribute are unfolded together. -/
theorem unfold_append {block : List NumberedLine} {added : List Bytes}
    (h : block.map Prod.fst = continuations added) (rest : List NumberedLine) :
    unfold (block ++ rest) = (added ++ (unfold rest).1, (unfold rest).2) := by
  induction block generalizing added with
  | nil =>
    obtain rfl := List.map_eq_nil_iff.1 h.symm
    rfl
  | cons line block ih =>
    cases added with
    | nil => cases h
    | cons more added =>
      obtain ⟨hline, hblock⟩ := List.cons.inj h
      rw [List.cons_append, unfold_cons, ih hblock, consLine, continuation?_eq_some_iff.2 hline]
      rfl

/-- The lines of a section are those that unfold to its attributes. -/
theorem Section.spelled_iff_unfold {block : List NumberedLine} {s : Section} :
    Section.Spelled (block.map Prod.fst) s ↔ (unfold block).1 = [] ∧
      List.Forall₂ (fun u a => u.attribute? = .ok a) (unfold block).2 s := by
  constructor
  · intro h
    generalize hls : block.map Prod.fst = ls at h
    induction h generalizing block with
    | nil =>
      obtain rfl := List.map_eq_nil_iff.1 hls
      exact ⟨rfl, .nil⟩
    | @cons line added ls a s ha _ ih =>
      obtain ⟨first, block, rfl, rfl, hblock⟩ := List.map_eq_cons_iff.1 hls
      obtain ⟨block, rest, rfl, hb, hrest⟩ := List.map_eq_append_iff.1 hblock
      obtain ⟨hnil, hus⟩ := ih hrest
      rw [unfold_cons, unfold_append hb, hnil, List.append_nil, consLine, continuation?_of_ofLine? ha]
      exact ⟨rfl, .cons (Unfolded.attribute?_eq_ok_iff.2 ⟨a, ha, rfl⟩) hus⟩
  · rintro ⟨hnil, hus⟩
    rw [map_fst_eq_unfold, hnil]
    generalize (unfold block).2 = us at hus
    induction hus with
    | nil => exact .nil
    | cons ha _ ih =>
      obtain ⟨a', ha', rfl⟩ := Unfolded.attribute?_eq_ok_iff.1 ha
      exact .cons ha' ih

/-- **A block is read as the section whose lines it has.** -/
theorem Section.ofBlock?_eq_ok_iff {block : List NumberedLine} {s : Section} :
    Section.ofBlock? block = .ok s ↔ Section.Spelled (block.map Prod.fst) s := by
  rw [Section.spelled_iff_unfold, ← mapM_eq_ok_iff]
  cases block with
  | nil => simp [Section.ofBlock?, unfold, pure_eq_ok_iff]
  | cons first rest =>
    cases hc : continuation? first with
    | none => simp [Section.ofBlock?, hc, unfold_cons, consLine]
    | some more => simp [Section.ofBlock?, hc, unfold_cons, consLine]

/-! ## Manifests -/

/-- The lines between blank lines. -/
theorem map_blocks (s : Bytes) :
    (blocks s).map (List.map Prod.fst) = splitWhere List.isEmpty (lines s) := by
  rw [blocks, ← splitWhere_map, List.zipIdx_map_fst]

/-- **A manifest is text whose blocks of lines are its sections**, the first one its main section.
Blocks without a line are no sections of their own. -/
theorem parse?_eq_ok_iff {data : Bytes} {m : Manifest} :
    parse? data = .ok m ↔ IsText data ∧ ∃ main entries,
      List.Forall₂ Section.Spelled (splitWhere List.isEmpty (lines data)) (main :: entries) ∧
      m = ⟨main, entries.filter fun s => !s.isEmpty⟩ := by
  have hblocks : ∀ {ss : List Section}, (blocks data).mapM Section.ofBlock? = .ok ss ↔
      List.Forall₂ Section.Spelled (splitWhere List.isEmpty (lines data)) ss := by
    intro ss
    rw [mapM_eq_ok_iff, ← map_blocks, List.forall₂_map_left_iff]
    simp only [Section.ofBlock?_eq_ok_iff]
  unfold parse?
  by_cases ht : IsText data
  · simp only [Bytes.isText, ht, decide_true, if_true, true_and, bind_eq_ok_iff, hblocks]
    constructor
    · rintro ⟨ss, hss, hm⟩
      cases ss with
      | nil => exact absurd (List.forall₂_nil_right_iff.1 hss) (splitWhere_ne_nil _ _)
      | cons main entries => exact ⟨main, entries, hss, (pure_eq_ok_iff.1 hm).symm⟩
    · rintro ⟨main, entries, hss, rfl⟩
      exact ⟨main :: entries, hss, rfl⟩
  · simp [Bytes.isText, ht]

end PackageMigration.Manifest
