import PackageMigration.Proofs.Manifest.Parser
/-
  Manifests that are written and read again.

  * `Attribute.IsProper`, `IsProper`: what can be read.
  * `Attribute.readBack`, `readBack`: an attribute and a manifest after writing and reading them.

  Main statements: `isProper_of_parse?` (what is read can be read), `parse?_bytes_eq_ok_iff`.
-/
namespace PackageMigration.Manifest

open Bytes (IsText)

/-- An attribute that can be read: its name ends at the colon, and both parts are text of one line. -/
structure Attribute.IsProper (a : Attribute) : Prop where
  name_ne_nil : a.name ≠ []
  space_notMem : Byte.space ∉ a.name
  colon_notMem : Byte.colon ∉ a.name
  isLine_name : IsLine a.name
  isLine_value : IsLine a.value
  isText_name : IsText a.name
  isText_value : IsText a.value

/-- A manifest of attributes that can be read. -/
def IsProper (m : Manifest) : Prop := ∀ s ∈ m.sections, ∀ a ∈ s, a.IsProper

/-! ## Reading -/

theorem Attribute.isProper_of_ofLine? {line : Bytes} {a : Attribute} {added : List Bytes}
    (h : Attribute.ofLine? line = some a) (hl : IsLine line ∧ IsText line)
    (hadded : ∀ more ∈ added, IsLine more ∧ IsText more) :
    IsProper { a with value := a.value ++ added.flatten } := by
  obtain ⟨value, rfl, hcolon, hne, hspace, hvalue⟩ := Attribute.ofLine?_eq_some_iff.1 h
  obtain ⟨hline, htext⟩ := hl
  rw [isLine_append_iff] at hline
  rw [Bytes.isText_append_cons (by decide)] at htext
  have hv : IsLine a.value ∧ IsText a.value := by
    have hlv : IsLine value := hline.2.of_subset (List.subset_cons_self _ _)
    cases ha : Bytes.after? [Byte.space] value with
    | none => rw [hvalue, ha]; exact ⟨hlv, htext.2⟩
    | some v =>
      rw [hvalue, ha]
      obtain rfl := Bytes.after?_eq_some_iff.1 ha
      exact ⟨(isLine_append_iff.1 hlv).2, (Bytes.isText_cons_iff (by decide)).1 htext.2⟩
  exact ⟨hne, hspace, hcolon, hline.1,
    isLine_append_iff.2 ⟨hv.1, isLine_flatten fun l hl => (hadded l hl).1⟩, htext.1,
    hv.2.append (Bytes.isText_flatten fun l hl => (hadded l hl).2)⟩

theorem Section.Spelled.isProper {ls : List Bytes} {s : Section} (h : Section.Spelled ls s)
    (hls : ∀ l ∈ ls, IsLine l ∧ IsText l) : ∀ a ∈ s, a.IsProper := by
  induction h with
  | nil => exact nofun
  | @cons line added ls a s ha _ ih =>
    obtain ⟨hline, hrest⟩ := List.forall_mem_cons.1 hls
    obtain ⟨hadded, hls⟩ := List.forall_mem_append.1 hrest
    refine List.forall_mem_cons.2 ⟨Attribute.isProper_of_ofLine? ha hline fun more hm => ?_, ih hls⟩
    obtain ⟨hl, ht⟩ := hadded (Byte.space :: more) (List.mem_map_of_mem hm)
    exact ⟨hl.of_subset (List.subset_cons_self _ _), (Bytes.isText_cons_iff (by decide)).1 ht⟩

/-- What is read can be read. -/
theorem isProper_of_parse? {data : Bytes} {m : Manifest} (h : parse? data = .ok m) : m.IsProper := by
  obtain ⟨ht, main, entries, hss, rfl⟩ := parse?_eq_ok_iff.1 h
  have hproper : ∀ s ∈ main :: entries, ∀ a ∈ s, a.IsProper := by
    intro s hs
    obtain ⟨ls, hls, hspelled⟩ := forall₂_mem_right hss hs
    refine hspelled.isProper fun l hl => ?_
    have hmem := (mem_of_mem_splitWhere hls l hl).1
    exact ⟨isLine_of_mem_lines hmem, isText_of_mem_lines ht hmem⟩
  intro s hs
  rcases List.mem_cons.1 hs with rfl | hs
  · exact hproper s List.mem_cons_self
  · exact hproper s (List.mem_cons_of_mem _ (List.mem_of_mem_filter hs))

/-- A manifest begins with the name of its first attribute. -/
theorem prefix_of_parse? {data : Bytes} {m : Manifest} {a : Attribute} {s : Section}
    (h : parse? data = .ok m) (hm : m.main = a :: s) : a.name <+: data := by
  obtain ⟨-, main, entries, hss, rfl⟩ := parse?_eq_ok_iff.1 h
  obtain rfl : main = a :: s := hm
  obtain ⟨ls, lss, hls, -, hblocks⟩ := List.forall₂_cons_right_iff.1 hss
  cases hls with
  | cons ha _ =>
    obtain ⟨value, rfl, -⟩ := Attribute.ofLine?_eq_some_iff.1 ha
    exact (List.prefix_append _ _).trans
      (prefix_of_head?_lines (head?_of_splitWhere_eq_cons hblocks))

/-! ## Writing -/

/-- The lines of a folded line. -/
def foldedLines : List Bytes → List Bytes
  | [] => []
  | p :: ps => p :: continuations ps

/-- The lines that a section is written in. -/
def Section.written (s : Section) : List Bytes := s.flatMap fun a => foldedLines (fold a.line)

theorem foldedBytes_eq (ps : List Bytes) :
    foldedBytes ps = (foldedLines ps).flatMap fun l => l ++ lineEnd := by
  cases ps with
  | nil => rfl
  | cons p ps => simp [foldedBytes, foldedLines, continuations, List.flatMap_map]

theorem Section.bytes_eq (s : Section) :
    s.bytes = (s.written ++ [[]]).flatMap fun l => l ++ lineEnd := by
  have hattribute : Attribute.bytes =
      fun a => (foldedLines (fold a.line)).flatMap fun l => l ++ lineEnd :=
    funext fun a => foldedBytes_eq (fold a.line)
  rw [Section.bytes, hattribute, List.flatMap_append, List.flatMap_singleton, Section.written,
    List.flatMap_assoc]
  rfl

theorem bytes_eq (m : Manifest) :
    m.bytes = ((m.sections.map Section.written).flatMap fun ls => ls ++ [[]]).flatMap
      fun l => l ++ lineEnd := by
  have hsection : Section.bytes = fun s => (s.written ++ [[]]).flatMap fun l => l ++ lineEnd :=
    funext Section.bytes_eq
  rw [bytes, hsection, List.flatMap_assoc, List.flatMap_map]

theorem Attribute.IsProper.isText_line {a : Attribute} (h : a.IsProper) : IsText a.line :=
  (h.isText_name.append (Bytes.isAscii_of_all (by decide)).isText).append h.isText_value

theorem Attribute.IsProper.isLine_line {a : Attribute} (h : a.IsProper) : IsLine a.line :=
  isLine_append_iff.2 ⟨isLine_append_iff.2 ⟨h.isLine_name, by decide, by decide⟩, h.isLine_value⟩

/-- A written attribute begins with a line that is not blank and does not continue another. -/
theorem Attribute.IsProper.exists_fold_eq {a : Attribute} (h : a.IsProper) :
    ∃ b p ps, fold a.line = (b :: p) :: ps ∧ b ≠ Byte.space := by
  obtain ⟨c, name, hname⟩ := List.exists_cons_of_ne_nil h.name_ne_nil
  obtain ⟨p, ps, hfold, hp⟩ := exists_fold_eq_cons h.isText_line (by simp [Attribute.line])
  obtain ⟨b, p, rfl⟩ := List.exists_cons_of_ne_nil hp
  refine ⟨b, p, ps, hfold, fun hb => h.space_notMem ?_⟩
  have hflat := flatten_fold a.line
  rw [hfold, Attribute.line, hname] at hflat
  obtain ⟨rfl, -⟩ := List.cons.inj hflat
  rw [hname, hb]
  exact List.mem_cons_self

theorem Attribute.IsProper.isLine_written {a : Attribute} (h : a.IsProper) :
    ∀ l ∈ foldedLines (fold a.line), IsLine l ∧ l ≠ [] := by
  obtain ⟨b, p, ps, hfold, -⟩ := h.exists_fold_eq
  have hpiece : ∀ q ∈ fold a.line, IsLine q := by
    intro q hq
    refine h.isLine_line.of_subset fun c hc => ?_
    rw [← flatten_fold a.line]
    exact List.mem_flatten.2 ⟨q, hq, hc⟩
  rw [hfold] at hpiece ⊢
  obtain ⟨hp, hps⟩ := List.forall_mem_cons.1 hpiece
  refine List.forall_mem_cons.2 ⟨⟨hp, List.cons_ne_nil _ _⟩, fun l hl => ?_⟩
  obtain ⟨q, hq, rfl⟩ := List.mem_map.1 hl
  refine ⟨(isLine_append_iff (l := [Byte.space])).2 ⟨⟨by decide, by decide⟩, hps q hq⟩, ?_⟩
  exact List.cons_ne_nil _ _

/-- A written manifest is text. -/
theorem IsProper.isText_bytes {m : Manifest} (h : m.IsProper) : IsText m.bytes := by
  have hends : ∀ {ls : List Bytes}, (∀ l ∈ ls, IsText l) →
      IsText (ls.flatMap fun l => l ++ lineEnd) := by
    intro ls hls
    refine Bytes.isText_flatten fun _ hl => ?_
    obtain ⟨l, hmem, rfl⟩ := List.mem_map.1 hl
    exact (hls l hmem).append (Bytes.isAscii_of_all (by decide)).isText
  rw [bytes_eq]
  refine hends fun l hl => ?_
  obtain ⟨ls, hls, hl⟩ := List.mem_flatMap.1 hl
  obtain ⟨s, hs, rfl⟩ := List.mem_map.1 hls
  rcases List.mem_append.1 hl with hl | hl
  · obtain ⟨a, ha, hl⟩ := List.mem_flatMap.1 hl
    have hpiece := isText_of_mem_fold (h s hs a ha).isText_line
    obtain ⟨b, p, ps, hfold, -⟩ := (h s hs a ha).exists_fold_eq
    rw [hfold] at hl hpiece
    rcases List.mem_cons.1 hl with rfl | hl
    · exact hpiece _ List.mem_cons_self
    · obtain ⟨q, hq, rfl⟩ := List.mem_map.1 hl
      exact (Bytes.isText_cons_iff (by decide)).2 (hpiece q (List.mem_cons_of_mem _ hq))
  · exact List.mem_singleton.1 hl ▸ Bytes.isText_nil

/-- The lines of a written manifest, section by section. -/
theorem splitWhere_lines_bytes {m : Manifest} (h : m.IsProper) :
    splitWhere List.isEmpty (lines m.bytes) = m.sections.map Section.written ++ [[]] := by
  have hwritten : ∀ ls ∈ m.sections.map Section.written, ∀ l ∈ ls, IsLine l ∧ l ≠ [] := by
    intro ls hls l hl
    obtain ⟨s, hs, rfl⟩ := List.mem_map.1 hls
    obtain ⟨a, ha, hl⟩ := List.mem_flatMap.1 hl
    exact (h s hs a ha).isLine_written l hl
  rw [bytes_eq, lines_flatMap, splitWhere_flatMap]
  · exact fun ls hls l hl => by simpa using (hwritten ls hls l hl).2
  · rfl
  · intro l hl
    obtain ⟨ls, hls, hl⟩ := List.mem_flatMap.1 hl
    rcases List.mem_append.1 hl with hl | hl
    · exact (hwritten ls hls l hl).1
    · exact List.mem_singleton.1 hl ▸ isLine_nil

/-! ## Reading again -/

/-- The attribute as it is read after it was written. If its name and the colon fill a line, the space
behind them begins the next one and counts to the value. -/
def Attribute.readBack (a : Attribute) : Attribute :=
  if a.name.length + 2 ≤ width then a else { a with value := Byte.space :: a.value }

@[simp] theorem Attribute.name_readBack (a : Attribute) : a.readBack.name = a.name := by
  unfold readBack
  split <;> rfl

theorem Attribute.value_readBack (a : Attribute) :
    a.readBack.value = a.value ∨ a.readBack.value = Byte.space :: a.value := by
  unfold readBack
  split
  · exact .inl rfl
  · exact .inr rfl

/-- The manifest as it is read after it was written. Sections without an attribute are not seen. -/
def readBack (m : Manifest) : Manifest :=
  ⟨m.main.map Attribute.readBack,
    (m.entries.filter fun s => !s.isEmpty).map (List.map Attribute.readBack)⟩

/-- Lines behind which no line continues an attribute. -/
theorem continuations_append_inj {added added' ls ls' : List Bytes}
    (h : continuations added ++ ls = continuations added' ++ ls')
    (hls : ∀ l ∈ ls.head?, l.head? ≠ some Byte.space)
    (hls' : ∀ l ∈ ls'.head?, l.head? ≠ some Byte.space) : added = added' ∧ ls = ls' := by
  induction added generalizing added' with
  | nil =>
    cases added' with
    | nil => exact ⟨rfl, h⟩
    | cons more added' =>
      rw [show ls = _ from h] at hls
      exact absurd rfl (hls (Byte.space :: more) rfl)
  | cons more added ih =>
    cases added' with
    | nil =>
      rw [show ls' = _ from h.symm] at hls'
      exact absurd rfl (hls' (Byte.space :: more) rfl)
    | cons more' added' =>
      obtain ⟨hmore, hrest⟩ := List.cons.inj h
      obtain ⟨rfl, rfl⟩ := ih hrest
      obtain ⟨-, rfl⟩ := List.cons.inj hmore
      exact ⟨rfl, rfl⟩

theorem Section.Spelled.head? {ls : List Bytes} {s : Section} (h : Section.Spelled ls s) :
    ∀ l ∈ ls.head?, l.head? ≠ some Byte.space := by
  cases h with
  | nil => exact nofun
  | cons ha _ =>
    rintro _ ⟨⟩
    exact Attribute.head?_of_ofLine? ha

namespace Attribute.IsProper

variable {a a' : Attribute} {p : Bytes} {ps : List Bytes}

/-- What follows the name is on the first line too, if it fits. -/
theorem exists_first_eq (h : a.IsProper) (hfold : fold a.line = p :: ps) {mark back : Bytes}
    (hmark : IsText mark) (hback : IsText back) (hline : a.line = a.name ++ mark ++ back)
    (hle : (a.name ++ mark).length ≤ width) : ∃ q, p = a.name ++ mark ++ q := by
  obtain ⟨q, qs, hq⟩ := exists_fold_append (h.isText_name.append hmark) hback hle
  rw [← hline, hfold] at hq
  exact ⟨q, (List.cons.inj hq).1⟩

theorem append_flatten_eq (hfold : fold a.line = p :: ps) :
    p ++ ps.flatten = a.name ++ Byte.colon :: Byte.space :: a.value := by
  have hflat := flatten_fold a.line
  rw [hfold, List.flatten_cons] at hflat
  simpa [Attribute.line] using hflat

/-- The colon is on the first line if it fits, and the space behind it too if that fits. -/
theorem exists_behind_colon (h : a.IsProper) (hfold : fold a.line = p :: ps)
    (hlt : a.name.length < width) :
    ∃ q, p = a.name ++ Byte.colon :: q ∧ q ++ ps.flatten = Byte.space :: a.value ∧
      (q = [] ↔ ¬ a.name.length + 2 ≤ width) := by
  have hvalue : IsText (Byte.space :: a.value) := (Bytes.isText_cons_iff (by decide)).2 h.isText_value
  obtain ⟨q, hq⟩ := h.exists_first_eq hfold (Bytes.isText_singleton (b := Byte.colon) (by decide)) hvalue
    (by simp [Attribute.line]) (by rw [List.length_append]; exact hlt)
  obtain rfl : p = a.name ++ Byte.colon :: q := by simpa using hq
  refine ⟨q, rfl, by simpa using append_flatten_eq hfold, ?_⟩
  constructor
  · rintro rfl hle
    have hmark : IsText [Byte.colon, Byte.space] := (Bytes.isAscii_of_all (by decide)).isText
    obtain ⟨q, hq⟩ := h.exists_first_eq hfold hmark h.isText_value (by simp [Attribute.line])
      (by rw [List.length_append]; exact hle)
    simp at hq
  · intro hroom
    have hlength := length_le_of_fold hfold
    rw [List.length_append, List.length_cons] at hlength
    exact List.eq_nil_of_length_eq_zero (by omega)

/-- What is read on the first line of an attribute and added from the others. -/
theorem exists_ofLine?_eq (h : a.IsProper) (hfold : fold a.line = p :: ps) (hlt : a.name.length < width) :
    ∃ first, ofLine? p = some first ∧
      a.readBack = { first with value := first.value ++ ps.flatten } := by
  obtain ⟨q, rfl, hrest, hnil⟩ := h.exists_behind_colon hfold hlt
  refine ⟨⟨a.name, (Bytes.after? [Byte.space] q).getD q⟩,
    ofLine?_eq_some_iff.2 ⟨q, rfl, h.colon_notMem, h.name_ne_nil, h.space_notMem, rfl⟩, ?_⟩
  unfold readBack
  cases q with
  | nil =>
    rw [if_neg (hnil.1 rfl)]
    exact congrArg (Attribute.mk a.name) hrest.symm
  | cons b q =>
    obtain ⟨rfl, hq⟩ := List.cons.inj hrest
    have hafter : Bytes.after? [Byte.space] (Byte.space :: q) = some q := Bytes.after?_eq_some_iff.2 rfl
    rw [if_pos (not_not.1 (mt hnil.2 (List.cons_ne_nil _ _))), hafter, Option.getD_some]
    exact congrArg (Attribute.mk a.name) hq.symm

theorem lt_width_of_ofLine? (h : a.IsProper) (hfold : fold a.line = p :: ps) {first : Attribute}
    (hfirst : ofLine? p = some first) : a.name.length < width := by
  have hlength := length_le_of_fold hfold
  obtain ⟨value, rfl, hcolon, -⟩ := ofLine?_eq_some_iff.1 hfirst
  obtain ⟨hname, -⟩ := Prod.mk.inj (Option.some.inj
    ((Bytes.cutFirst?_eq_some_iff.2 ⟨rfl, hcolon⟩).symm.trans
      (Bytes.cutFirst?_eq_some_iff.2 ⟨by simpa using append_flatten_eq hfold, h.colon_notMem⟩)))
  rw [List.length_append, hname, List.length_cons] at hlength
  omega

/-- A written attribute begins with its name and the colon, if the colon has room on the first line. -/
theorem name_prefix_bytes (h : a.IsProper) (hlt : a.name.length < width) :
    a.name ++ [Byte.colon] <+: a.bytes := by
  obtain ⟨b, p, ps, hfold, -⟩ := h.exists_fold_eq
  obtain ⟨q, hq, -, -⟩ := h.exists_behind_colon hfold hlt
  rw [Attribute.bytes, hfold, foldedBytes, hq]
  exact ⟨q ++ lineEnd ++ ps.flatMap fun q => Byte.space :: q ++ lineEnd, by simp⟩

/-- An attribute is read if there is room for the colon on its first line. -/
theorem readBack_iff (h : a.IsProper) (hfold : fold a.line = p :: ps) :
    (∃ first, ofLine? p = some first ∧ a' = { first with value := first.value ++ ps.flatten }) ↔
      a.name.length < width ∧ a' = a.readBack := by
  constructor
  · rintro ⟨first, hfirst, rfl⟩
    have hlt := h.lt_width_of_ofLine? hfold hfirst
    obtain ⟨first', hfirst', hread⟩ := h.exists_ofLine?_eq hfold hlt
    obtain rfl := Option.some.inj (hfirst'.symm.trans hfirst)
    exact ⟨hlt, hread.symm⟩
  · rintro ⟨hlt, rfl⟩
    exact h.exists_ofLine?_eq hfold hlt

end Attribute.IsProper

theorem Section.written_cons {a : Attribute} {p : Bytes} {ps : List Bytes} (h : fold a.line = p :: ps)
    (s : Section) : Section.written (a :: s) = p :: (continuations ps ++ Section.written s) := by
  rw [Section.written, List.flatMap_cons, h]
  rfl

/-- The first line of a written section continues nothing. -/
theorem Section.head?_written {s : Section} (hs : ∀ a ∈ s, a.IsProper) :
    ∀ l ∈ s.written.head?, l.head? ≠ some Byte.space := by
  cases s with
  | nil => exact nofun
  | cons a s =>
    obtain ⟨b, p, ps, hfold, hb⟩ := (hs a List.mem_cons_self).exists_fold_eq
    rw [Section.written_cons hfold]
    rintro _ ⟨⟩
    simpa using hb

/-- A section is read with its attributes read back one by one. -/
theorem Section.spelled_written_iff {s s' : Section} (hs : ∀ a ∈ s, a.IsProper) :
    Section.Spelled s.written s' ↔
      (∀ a ∈ s, a.name.length < width) ∧ s' = s.map Attribute.readBack := by
  induction s generalizing s' with
  | nil =>
    constructor
    · intro h
      cases h
      exact ⟨nofun, rfl⟩
    · rintro ⟨-, rfl⟩
      exact .nil
  | cons a s ih =>
    obtain ⟨ha, hs⟩ := List.forall_mem_cons.1 hs
    obtain ⟨b, p, ps, hfold, -⟩ := ha.exists_fold_eq
    rw [Section.written_cons hfold, List.forall_mem_cons, List.map_cons]
    constructor
    · intro h
      generalize hls : (b :: p) :: (continuations ps ++ Section.written s) = ls at h
      cases h with
      | nil => cases hls
      | cons hfirst hs' =>
        obtain ⟨rfl, hrest⟩ := List.cons.inj hls
        obtain ⟨rfl, rfl⟩ := continuations_append_inj hrest (Section.head?_written hs) hs'.head?
        obtain ⟨hlt, hread⟩ := (ha.readBack_iff hfold).1 ⟨_, hfirst, rfl⟩
        obtain ⟨hall, rfl⟩ := (ih hs).1 hs'
        exact ⟨⟨hlt, hall⟩, by rw [hread]⟩
    · rintro ⟨⟨hlt, hall⟩, rfl⟩
      obtain ⟨first, hfirst, hread⟩ := (ha.readBack_iff hfold).2 ⟨hlt, rfl⟩
      rw [hread]
      exact .cons hfirst ((ih hs).2 ⟨hall, rfl⟩)

theorem forall₂_spelled_written_iff {ss ss' : List Section} (hss : ∀ s ∈ ss, ∀ a ∈ s, a.IsProper) :
    List.Forall₂ Section.Spelled (ss.map Section.written ++ [[]]) ss' ↔
      (∀ s ∈ ss, ∀ a ∈ s, a.name.length < width) ∧
        ss' = ss.map (List.map Attribute.readBack) ++ [[]] := by
  induction ss generalizing ss' with
  | nil =>
    constructor
    · intro h
      obtain ⟨s, _, hs, hnil, rfl⟩ := List.forall₂_cons_left_iff.1 h
      obtain rfl := List.forall₂_nil_left_iff.1 hnil
      cases hs
      exact ⟨nofun, rfl⟩
    · rintro ⟨-, rfl⟩
      exact .cons .nil .nil
  | cons s ss ih =>
    obtain ⟨hs, hss⟩ := List.forall_mem_cons.1 hss
    rw [List.map_cons, List.cons_append, List.forall₂_cons_left_iff, List.forall_mem_cons]
    constructor
    · rintro ⟨s', ss', hspelled, hrest, rfl⟩
      obtain ⟨hlt, rfl⟩ := (Section.spelled_written_iff hs).1 hspelled
      obtain ⟨hall, rfl⟩ := (ih hss).1 hrest
      exact ⟨⟨hlt, hall⟩, rfl⟩
    · rintro ⟨⟨hlt, hall⟩, rfl⟩
      exact ⟨_, _, (Section.spelled_written_iff hs).2 ⟨hlt, rfl⟩, (ih hss).2 ⟨hall, rfl⟩, rfl⟩

/-- **What is read of a written manifest.** Every attribute is there in its section, but a space can
get in front of its value. With a name that fills a line the manifest cannot be read. -/
theorem parse?_bytes_eq_ok_iff {m m' : Manifest} (hm : m.IsProper) :
    parse? m.bytes = .ok m' ↔
      (∀ s ∈ m.sections, ∀ a ∈ s, a.name.length < width) ∧ m' = m.readBack := by
  have hread : (⟨m.main.map Attribute.readBack, (m.entries.map (List.map Attribute.readBack) ++
      [[]]).filter fun s => !s.isEmpty⟩ : Manifest) = m.readBack := by
    simp [readBack, List.filter_map, Function.comp_def]
  rw [parse?_eq_ok_iff, splitWhere_lines_bytes hm]
  simp only [forall₂_spelled_written_iff hm]
  constructor
  · rintro ⟨-, main, entries, ⟨hlt, hss⟩, rfl⟩
    obtain ⟨rfl, rfl⟩ := List.cons.inj hss
    exact ⟨hlt, hread⟩
  · rintro ⟨hlt, rfl⟩
    exact ⟨hm.isText_bytes, _, _, ⟨hlt, rfl⟩, hread.symm⟩

theorem Attribute.readBack_eq_self_iff {a : Attribute} :
    a.readBack = a ↔ a.name.length + 2 ≤ width := by
  unfold readBack
  split
  next h => simp [h]
  next h => exact ⟨fun he => absurd (congrArg value he) (List.cons_ne_self _ _), fun hle => absurd hle h⟩

theorem map_eq_self_iff {α : Type} {f : α → α} {l : List α} : l.map f = l ↔ ∀ a ∈ l, f a = a := by
  have h : l.map f = l.map id ↔ ∀ a ∈ l, f a = id a := List.map_inj_left
  rwa [List.map_id] at h

theorem readBack_eq_self_iff {m : Manifest} (hentries : ∀ s ∈ m.entries, s ≠ []) :
    m.readBack = m ↔ ∀ s ∈ m.sections, ∀ a ∈ s, a.name.length + 2 ≤ width := by
  have hfilter : m.entries.filter (fun s => !s.isEmpty) = m.entries :=
    List.filter_eq_self.2 fun s hs => by simpa using hentries s hs
  have hparts : m.readBack = m ↔ m.main.map Attribute.readBack = m.main ∧
      m.entries.map (List.map Attribute.readBack) = m.entries := by
    rw [readBack, hfilter]
    exact Manifest.mk.injEq .. ▸ Iff.rfl
  rw [hparts, sections, List.forall_mem_cons]
  simp only [map_eq_self_iff, Attribute.readBack_eq_self_iff]

/-- **When a manifest is read back as it was written.** The name of every attribute has to leave room
for the colon and the space on its line. If the space has no room there it gets in front of the
value, and if the colon has none the manifest cannot be read. -/
theorem parse?_bytes_of_parse? {data : Bytes} {m : Manifest} (h : parse? data = .ok m) :
    (parse? m.bytes = .ok m ↔ ∀ s ∈ m.sections, ∀ a ∈ s, a.name.length + 2 ≤ width) ∧
    ∀ m', parse? m.bytes = .ok m' ↔
      (∀ s ∈ m.sections, ∀ a ∈ s, a.name.length < width) ∧ m' = m.readBack := by
  have hread : ∀ m', parse? m.bytes = .ok m' ↔
      (∀ s ∈ m.sections, ∀ a ∈ s, a.name.length < width) ∧ m' = m.readBack :=
    fun _ => parse?_bytes_eq_ok_iff (isProper_of_parse? h)
  have hentries : ∀ s ∈ m.entries, s ≠ [] := by
    obtain ⟨-, main, entries, -, rfl⟩ := parse?_eq_ok_iff.1 h
    intro s hs
    simpa using (List.mem_filter.1 hs).2
  refine ⟨?_, hread⟩
  rw [hread, @eq_comm _ m, readBack_eq_self_iff hentries, and_iff_right_iff_imp]
  exact fun hroom s hs a ha => Nat.lt_of_succ_lt (hroom s hs a ha)

end PackageMigration.Manifest

namespace PackageMigration

/-- A manifest with a name that leaves just room enough on its line, and a value of several lines. -/
def wrappedManifest : Manifest where
  main := [⟨List.replicate 70 0x4E, (List.replicate 80 (bytes "é")).flatten⟩]
  entries := [[⟨bytes "Name", bytes " a"⟩]]

theorem parse?_bytes_of_parse?_wrapped :
    let data := List.replicate 70 0x4E ++ bytes ": " ++ (List.replicate 50 (bytes "é")).flatten ++
      bytes "\n " ++ (List.replicate 30 (bytes "é")).flatten ++ bytes "\r\r\n\nName:  a"
    Manifest.parse? data = .ok wrappedManifest ∧
      Manifest.parse? wrappedManifest.bytes = .ok wrappedManifest := by
  intro data
  have hparse : Manifest.parse? data = .ok wrappedManifest := by decide +kernel
  exact ⟨hparse, (Manifest.parse?_bytes_of_parse? hparse).1.2 (by decide +kernel)⟩

/-- A space gets in front of the value behind a name of 71 bytes, and a longer name is not found. -/
theorem parse?_bytes_ne_of_long_name :
    let long := List.replicate 71 0x61
    let longer := List.replicate 72 0x61
    let m : Manifest := ⟨[⟨long, bytes "x"⟩], []⟩
    let m' : Manifest := ⟨[⟨longer, bytes "x"⟩], []⟩
    Manifest.parse? (long ++ bytes ": x\r\n") = .ok m ∧
      Manifest.parse? m.bytes = .ok ⟨[⟨long, bytes " x"⟩], []⟩ ∧
      Manifest.parse? (longer ++ bytes ": x\r\n") = .ok m' ∧
      Manifest.parse? m'.bytes = .error (.malformedLine 1) := by
  decide +kernel

end PackageMigration
