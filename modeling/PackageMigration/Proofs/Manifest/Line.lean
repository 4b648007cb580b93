import PackageMigration.Manifest.Printer
import PackageMigration.Proofs.Bytes.Split
import PackageMigration.Proofs.Text.Utf8
/-
  The lines of a manifest, read and written.

  * `IsLine`: bytes without the end of a line among them.

  Main statements: `lines_flatMap` (lines that are written are read), `characters_flatMap`,
  `exists_fold_append` and `length_le_of_fold` (the first piece of a folded line holds what fits).
-/
namespace PackageMigration.Manifest

open Bytes (IsText)

/-- The bytes have no end of a line among them. -/
structure IsLine (l : Bytes) : Prop where
  cr_notMem : Byte.cr ∉ l
  lf_notMem : Byte.lf ∉ l

section
variable {l s : Bytes}

theorem isLine_nil : IsLine [] := ⟨List.not_mem_nil, List.not_mem_nil⟩

theorem isLine_append_iff : IsLine (l ++ s) ↔ IsLine l ∧ IsLine s := by
  constructor
  · rintro ⟨hc, hl⟩
    rw [List.mem_append, not_or] at hc hl
    exact ⟨⟨hc.1, hl.1⟩, ⟨hc.2, hl.2⟩⟩
  · rintro ⟨h, h'⟩
    exact ⟨by simp [h.cr_notMem, h'.cr_notMem], by simp [h.lf_notMem, h'.lf_notMem]⟩

theorem IsLine.of_subset (h : IsLine s) (hl : l ⊆ s) : IsLine l :=
  ⟨fun hm => h.cr_notMem (hl hm), fun hm => h.lf_notMem (hl hm)⟩

theorem isLine_flatten {ls : List Bytes} (h : ∀ l ∈ ls, IsLine l) : IsLine ls.flatten := by
  constructor
  · intro hm
    obtain ⟨l, hl, hm⟩ := List.mem_flatten.1 hm
    exact (h l hl).cr_notMem hm
  · intro hm
    obtain ⟨l, hl, hm⟩ := List.mem_flatten.1 hm
    exact (h l hl).lf_notMem hm

/-! ## Line ends -/

theorem unifyEnds_append (h : Byte.cr ∉ l) (s : Bytes) : unifyEnds (l ++ s) = l ++ unifyEnds s := by
  induction l with
  | nil => rfl
  | cons b l ih =>
    rw [List.mem_cons, not_or] at h
    rw [List.cons_append, unifyEnds_cons, unifyEnd, if_neg (Ne.symm h.1), ih h.2]
    rfl

theorem unifyEnds_lineEnd_append (s : Bytes) : unifyEnds (lineEnd ++ s) = Byte.lf :: unifyEnds s := by
  rw [lineEnd, List.cons_append, List.singleton_append, unifyEnds_cons, unifyEnds_cons]
  rfl

theorem cr_notMem_unifyEnds (s : Bytes) : Byte.cr ∉ unifyEnds s := by
  induction s with
  | nil => exact List.not_mem_nil
  | cons b s ih =>
    rw [unifyEnds_cons, List.mem_append, not_or]
    refine ⟨?_, ih⟩
    unfold unifyEnd
    split
    · split
      · exact List.not_mem_nil
      · decide
    next h => exact fun hm => h (List.mem_singleton.1 hm).symm

theorem isText_unifyEnds (h : IsText s) : IsText (unifyEnds s) := by
  obtain ⟨cs, rfl⟩ := Bytes.isText_iff.1 h
  clear h
  induction cs with
  | nil => exact Bytes.isText_nil
  | cons c cs ih =>
    rw [List.flatMap_cons]
    by_cases hm : Byte.cr ∈ String.utf8EncodeChar c
    · obtain ⟨t, u, hc⟩ := List.append_of_mem hm
      obtain ⟨rfl, rfl⟩ := Bytes.eq_nil_of_utf8EncodeChar_eq (by decide) hc
      rw [hc, List.nil_append, List.singleton_append, unifyEnds_cons]
      refine IsText.append ?_ ih
      rw [unifyEnd, if_pos rfl]
      split
      · exact Bytes.isText_nil
      · exact Bytes.isText_singleton (by decide)
    · rw [unifyEnds_append hm]
      exact (Bytes.isText_utf8EncodeChar c).append ih

/-! ## Lines -/

/-- **Lines that are written are read.** -/
theorem lines_flatMap {ls : List Bytes} (h : ∀ l ∈ ls, IsLine l) :
    lines (ls.flatMap fun l => l ++ lineEnd) = ls := by
  have hunify : unifyEnds (ls.flatMap fun l => l ++ lineEnd) = ls.flatMap fun l => l ++ [Byte.lf] := by
    induction ls with
    | nil => rfl
    | cons l ls ih =>
      obtain ⟨hl, hls⟩ := List.forall_mem_cons.1 h
      rw [List.flatMap_cons, List.flatMap_cons, List.append_assoc, unifyEnds_append hl.cr_notMem,
        unifyEnds_lineEnd_append, ih hls, List.append_assoc]
      rfl
  have hsplit : Bytes.splitOn Byte.lf (ls.flatMap fun l => l ++ [Byte.lf]) = ls ++ [[]] :=
    splitWhere_flatMap (fun l hl b hb => beq_false_of_ne (ne_of_mem_of_not_mem hb (h l hl).lf_notMem))
      (beq_self_eq_true Byte.lf)
  rw [lines, hunify, hsplit]
  simp

theorem mem_splitOn_of_mem_lines (h : l ∈ lines s) : l ∈ Bytes.splitOn Byte.lf (unifyEnds s) := by
  unfold lines at h
  dsimp only at h
  split at h
  · exact List.dropLast_subset _ h
  · exact h

theorem isLine_of_mem_lines (h : l ∈ lines s) : IsLine l := by
  have hmem := mem_of_mem_splitWhere (mem_splitOn_of_mem_lines h)
  refine ⟨fun hm => ?_, fun hm => ?_⟩
  · exact cr_notMem_unifyEnds s (hmem _ hm).1
  · exact absurd (hmem _ hm).2 (by simp)

theorem isText_of_mem_lines (hs : IsText s) (h : l ∈ lines s) : IsText l :=
  Bytes.isText_of_mem_splitOn (by decide) (isText_unifyEnds hs) (mem_splitOn_of_mem_lines h)

/-- A text begins with its first line. -/
theorem prefix_of_head?_lines (h : (lines s).head? = some l) : l <+: s := by
  have hfirst : (Bytes.splitOn Byte.lf (unifyEnds s)).head? = some l := by
    unfold lines at h
    dsimp only at h
    split at h
    · rw [List.head?_dropLast] at h
      split at h
      · exact h
      · cases h
    · exact h
  rw [Bytes.head?_splitOn, Option.some.injEq] at hfirst
  subst hfirst
  clear h
  induction s with
  | nil => exact List.nil_prefix
  | cons b s ih =>
    rw [unifyEnds_cons, unifyEnd]
    split
    next =>
      split
      next hlf =>
        cases s with
        | nil => exact List.nil_prefix
        | cons c s =>
          obtain rfl : c = Byte.lf := hlf
          rw [unifyEnds_cons]
          exact List.nil_prefix
      next => exact List.nil_prefix
    next =>
      rw [List.singleton_append, List.takeWhile_cons]
      split
      · exact List.cons_prefix_cons.2 ⟨rfl, ih⟩
      · exact List.nil_prefix

end

/-! ## Folding -/

theorem foldr_consCharacter {b : UInt8} {t : Bytes} {cs : List Bytes} (ht : ∀ x ∈ t, isContinuation x)
    (hcs : ∀ c ∈ cs, c.head?.any isContinuation = false) :
    (b :: t).foldr consCharacter cs = (b :: t) :: cs := by
  induction t generalizing b with
  | nil =>
    cases cs with
    | nil => rfl
    | cons c cs => simp [consCharacter, hcs c List.mem_cons_self]
  | cons x t ih =>
    obtain ⟨hx, ht⟩ := List.forall_mem_cons.1 ht
    rw [List.foldr_cons, ih ht, consCharacter, if_pos (by simpa using hx)]

/-- A character does not begin with a byte that continues one. -/
theorem head?_utf8EncodeChar (c : Char) :
    (String.utf8EncodeChar c).head?.any isContinuation = false := by
  rcases Bytes.utf8EncodeChar_cases c with ⟨b, hc, hb⟩ | ⟨b, t, hc, hb, -, -, -⟩
  · rw [hc]
    simp [isContinuation, UInt8.not_le.2 hb]
  · have hlt : 0xBF < b := UInt8.lt_of_lt_of_le (by decide) hb
    rw [hc]
    simp [isContinuation, UInt8.not_le.2 hlt]

/-- **The characters of a text are its characters.** -/
theorem characters_flatMap (cs : List Char) :
    characters (cs.flatMap String.utf8EncodeChar) = cs.map String.utf8EncodeChar := by
  induction cs with
  | nil => rfl
  | cons c cs ih =>
    have hcs : ∀ d ∈ cs.map String.utf8EncodeChar, d.head?.any isContinuation = false := by
      intro d hd
      obtain ⟨c', -, rfl⟩ := List.mem_map.1 hd
      exact head?_utf8EncodeChar c'
    have hfold : characters (String.utf8EncodeChar c ++ cs.flatMap String.utf8EncodeChar) =
        (String.utf8EncodeChar c).foldr consCharacter (characters (cs.flatMap String.utf8EncodeChar)) :=
      List.foldr_append
    rw [List.flatMap_cons, hfold, ih, List.map_cons]
    rcases Bytes.utf8EncodeChar_cases c with ⟨b, hc, -⟩ | ⟨b, t, hc, -, -, -, ht⟩
    · rw [hc, foldr_consCharacter (List.forall_mem_nil _) hcs]
    · rw [hc, foldr_consCharacter (fun x hx => by simpa [isContinuation] using ht x hx) hcs]

/-- Texts behind each other have the characters of both. -/
theorem characters_append {s s' : Bytes} (h : IsText s) (h' : IsText s') :
    characters (s ++ s') = characters s ++ characters s' := by
  obtain ⟨cs, rfl⟩ := Bytes.isText_iff.1 h
  obtain ⟨cs', rfl⟩ := Bytes.isText_iff.1 h'
  simp only [← List.flatMap_append, characters_flatMap, List.map_append]

theorem characters_utf8EncodeChar (c : Char) :
    characters (String.utf8EncodeChar c) = [String.utf8EncodeChar c] := by
  simpa using characters_flatMap [c]

theorem exists_fill_eq_cons (width room : Nat) (piece : Bytes) (cs : List Bytes) :
    ∃ p ps, fill width room piece cs = (piece ++ p) :: ps ∧ p.length ≤ room := by
  induction cs generalizing room piece with
  | nil => exact ⟨[], [], by rw [fill, List.append_nil], Nat.zero_le _⟩
  | cons c cs ih =>
    rw [fill]
    split
    next hc =>
      obtain ⟨p, ps, h, hp⟩ := ih (room - c.length) (piece ++ c)
      refine ⟨c ++ p, ps, by rw [h, List.append_assoc], ?_⟩
      rw [List.length_append]
      omega
    · exact ⟨[], _, by rw [List.append_nil], Nat.zero_le _⟩

/-- Characters that fit are in the first piece. -/
theorem fill_append {width room : Nat} (piece : Bytes) {cs : List Bytes} (h : cs.flatten.length ≤ room)
    (ds : List Bytes) : fill width room piece (cs ++ ds) =
      fill width (room - cs.flatten.length) (piece ++ cs.flatten) ds := by
  induction cs generalizing room piece with
  | nil => simp
  | cons c cs ih =>
    rw [List.flatten_cons, List.length_append] at h
    rw [List.cons_append, fill, if_pos (by omega), ih (piece ++ c) (by omega), List.flatten_cons,
      List.length_append, List.append_assoc, Nat.sub_sub]

/-- A text that fits is in the first piece. -/
theorem fill_characters_append {width room : Nat} {front back : Bytes} (hfront : IsText front)
    (hback : IsText back) (h : front.length ≤ room) : fill width room [] (characters (front ++ back)) =
      fill width (room - front.length) front (characters back) := by
  have hfits : (characters front).flatten.length ≤ room := by rwa [flatten_characters]
  rw [characters_append hfront hback, fill_append [] hfits, flatten_characters, List.nil_append]

theorem isText_of_mem_fill {width room : Nat} {piece : Bytes} {cs : List Bytes} (hp : IsText piece)
    (hcs : ∀ c ∈ cs, IsText c) : ∀ q ∈ fill width room piece cs, IsText q := by
  induction cs generalizing room piece with
  | nil => exact List.forall_mem_singleton.2 hp
  | cons c cs ih =>
    obtain ⟨hc, hcs⟩ := List.forall_mem_cons.1 hcs
    rw [fill]
    split
    · exact ih (hp.append hc) hcs
    · exact List.forall_mem_cons.2 ⟨hp, ih hc hcs⟩

/-- A line of text is cut between characters. -/
theorem isText_of_mem_fold {line : Bytes} (h : IsText line) : ∀ q ∈ fold line, IsText q := by
  obtain ⟨cs, rfl⟩ := Bytes.isText_iff.1 h
  rw [fold, characters_flatMap]
  refine isText_of_mem_fill Bytes.isText_nil fun c hc => ?_
  obtain ⟨c, -, rfl⟩ := List.mem_map.1 hc
  exact Bytes.isText_utf8EncodeChar c

theorem length_le_of_fold {line p : Bytes} {ps : List Bytes} (h : fold line = p :: ps) :
    p.length ≤ width := by
  obtain ⟨q, qs, hfill, hq⟩ := exists_fill_eq_cons (width - 1) width [] (characters line)
  obtain ⟨rfl, -⟩ := List.cons.inj (h.symm.trans hfill)
  exact hq

/-- The start of a line of text is in its first piece, if it fits. -/
theorem exists_fold_append {front back : Bytes} (hfront : IsText front) (hback : IsText back)
    (h : front.length ≤ width) : ∃ p ps, fold (front ++ back) = (front ++ p) :: ps := by
  rw [fold, fill_characters_append hfront hback h]
  obtain ⟨p, ps, hfill, -⟩ := exists_fill_eq_cons (width - 1) _ front (characters back)
  exact ⟨p, ps, hfill⟩

/-- The first piece of a line of text has at least one character. -/
theorem exists_fold_eq_cons {line : Bytes} (h : IsText line) (hne : line ≠ []) :
    ∃ p ps, fold line = p :: ps ∧ p ≠ [] := by
  obtain ⟨cs, rfl⟩ := Bytes.isText_iff.1 h
  cases cs with
  | nil => exact absurd rfl hne
  | cons c cs =>
    have htext : IsText (cs.flatMap String.utf8EncodeChar) := Bytes.isText_iff.2 ⟨cs, rfl⟩
    obtain ⟨p, ps, hfold⟩ := exists_fold_append (Bytes.isText_utf8EncodeChar c) htext
      (Nat.le_trans (Bytes.length_utf8EncodeChar_le c) (show 4 ≤ width by decide))
    rw [List.flatMap_cons]
    exact ⟨_, ps, hfold, List.append_ne_nil_of_left_ne_nil
      (List.ne_nil_of_length_pos (Bytes.length_utf8EncodeChar_pos c)) p⟩

end PackageMigration.Manifest
