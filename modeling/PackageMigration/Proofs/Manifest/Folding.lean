import PackageMigration.Proofs.Manifest.Reread
/-
  How an attribute is folded.

  * `LeavesNoRoom`: a line of a folded one that could not hold more.
  * `Folding`: a line cut into what its first written line says and what the others add.

  Main statements: `fold_eq_cons_iff` (there is one folding, and it is the one that is written),
  `Attribute.bytes_folding`.
-/
namespace PackageMigration

open Bytes (IsText)

namespace Manifest

/-- The line has no room for the character that the next line begins with, behind its space. -/
def LeavesNoRoom (l next : Bytes) : Prop :=
  ∃ (c : Char) (s : Bytes), next = Byte.space :: (String.utf8EncodeChar c ++ s) ∧
    width < l.length + (String.utf8EncodeChar c).length

/-- A line is folded to a first line and others that continue it. Nothing is lost, no character is
cut, each line keeps the width and is as full as it can be, and says something. -/
structure Folding (line first : Bytes) (added : List Bytes) : Prop where
  append_flatten : first ++ added.flatten = line
  ne_nil : ∀ p ∈ first :: added, p ≠ []
  isText : ∀ l ∈ first :: continuations added, IsText l
  length_le : ∀ l ∈ first :: continuations added, l.length ≤ width
  isChain : List.IsChain LeavesNoRoom (first :: continuations added)

/-! ## What is written is folded -/

/-- Lines are filled one after the other. The line that is being filled has `front` before its piece:
nothing if it is the first one, else a space. -/
theorem exists_fill_isChain (front piece : Bytes) (room : Nat) (cs : List Char)
    (h : (front ++ piece).length + room = width) :
    ∃ p ps, fill (width - 1) room piece (cs.map String.utf8EncodeChar) = (piece ++ p) :: ps ∧
      (∀ q ∈ ps, q ≠ []) ∧
      (∀ l ∈ (front ++ (piece ++ p)) :: continuations ps, l.length ≤ width) ∧
      List.IsChain LeavesNoRoom ((front ++ (piece ++ p)) :: continuations ps) := by
  induction cs generalizing front piece room with
  | nil =>
    refine ⟨[], [], by rw [List.map_nil, fill, List.append_nil], nofun, ?_, .singleton _⟩
    rw [List.append_nil]
    exact List.forall_mem_singleton.2 (by omega)
  | cons c cs ih =>
    have hc := Bytes.length_utf8EncodeChar_le c
    rw [List.map_cons, fill]
    split
    next hfits =>
      obtain ⟨p, ps, hfill, hne, hle, hchain⟩ := ih front
        (piece ++ String.utf8EncodeChar c) (room - (String.utf8EncodeChar c).length)
        (by rw [← List.append_assoc, List.length_append]; omega)
      rw [List.append_assoc] at hfill hle hchain
      exact ⟨String.utf8EncodeChar c ++ p, ps, hfill, hne, hle, hchain⟩
    next hfull =>
      -- The character begins a line of its own, which has room for it.
      obtain ⟨p, ps, hfill, hne, hle, hchain⟩ := ih [Byte.space]
        (String.utf8EncodeChar c) (width - 1 - (String.utf8EncodeChar c).length)
        (by rw [List.singleton_append, List.length_cons, width]; omega)
      refine ⟨[], (String.utf8EncodeChar c ++ p) :: ps, by rw [hfill, List.append_nil], ?_, ?_, ?_⟩
      · have hpos := Bytes.length_utf8EncodeChar_pos c
        exact List.forall_mem_cons.2
          ⟨List.append_ne_nil_of_left_ne_nil (List.ne_nil_of_length_pos hpos) p, hne⟩
      · rw [List.append_nil]
        exact List.forall_mem_cons.2 ⟨by omega, hle⟩
      · rw [List.append_nil]
        exact .cons_cons ⟨c, p, rfl, by omega⟩ hchain

/-- The pieces of a line of text are a folding of it. -/
theorem folding_of_fold {line first : Bytes} {added : List Bytes} (htext : IsText line)
    (hline : line ≠ []) (h : fold line = first :: added) : Folding line first added := by
  obtain ⟨p, ps, hfirst, hp⟩ := exists_fold_eq_cons htext hline
  obtain ⟨rfl, rfl⟩ := List.cons.inj (h.symm.trans hfirst)
  have hflat := flatten_fold line
  have hpieces := isText_of_mem_fold htext
  obtain ⟨cs, rfl⟩ := Bytes.isText_iff.1 htext
  obtain ⟨p, ps, hfill, hne, hle, hchain⟩ :=
    exists_fill_isChain [] [] width cs (Nat.zero_add _)
  rw [fold, characters_flatMap] at h
  obtain ⟨rfl, rfl⟩ := List.cons.inj (h.symm.trans hfill)
  rw [hfirst] at hflat hpieces
  obtain ⟨htextFirst, htextRest⟩ := List.forall_mem_cons.1 hpieces
  refine ⟨hflat, List.forall_mem_cons.2 ⟨hp, hne⟩, List.forall_mem_cons.2 ⟨htextFirst, ?_⟩, hle, hchain⟩
  intro l hl
  obtain ⟨q, hq, rfl⟩ := List.mem_map.1 hl
  exact (Bytes.isText_cons_iff (by decide)).2 (htextRest q hq)

/-! ## A folding is what is written -/

/-- Lines that leave no room are the ones that are filled. -/
theorem fill_eq_of_isChain (front piece : Bytes) {ps : List Bytes} (hfront : front.length ≤ 1)
    (htext : ∀ q ∈ piece :: ps, IsText q)
    (hle : ∀ l ∈ (front ++ piece) :: continuations ps, l.length ≤ width)
    (hchain : List.IsChain LeavesNoRoom ((front ++ piece) :: continuations ps)) :
    fill (width - 1) (width - front.length) [] (characters (piece ++ ps.flatten)) = piece :: ps := by
  induction ps generalizing front piece with
  | nil =>
    have hpiece := htext piece List.mem_cons_self
    have hlength := hle _ List.mem_cons_self
    rw [List.length_append] at hlength
    exact fill_characters_append hpiece Bytes.isText_nil (by omega)
  | cons q qs ih =>
    obtain ⟨hpiece, hrest⟩ := List.forall_mem_cons.1 htext
    obtain ⟨hlength, hle⟩ := List.forall_mem_cons.1 hle
    rw [continuations, List.map_cons, List.isChain_cons_cons] at hchain
    obtain ⟨⟨c, s, hq, hroom⟩, hchain⟩ := hchain
    obtain rfl := (List.cons.inj hq).2
    rw [List.length_append] at hlength hroom
    have hc := Bytes.length_utf8EncodeChar_le c
    have hs : IsText s := Bytes.isText_of_utf8EncodeChar_append (hrest _ List.mem_cons_self)
    have htail : IsText (s ++ qs.flatten) :=
      hs.append (Bytes.isText_flatten fun q hq => hrest q (List.mem_cons_of_mem _ hq))
    have hbehind := ih [Byte.space] _ (Nat.le_refl 1) hrest hle hchain
    rw [List.append_assoc, fill_characters_append (Bytes.isText_utf8EncodeChar c) htail
      (by rw [List.length_singleton, width]; omega)] at hbehind
    rw [List.flatten_cons, List.append_assoc, fill_characters_append hpiece
      ((Bytes.isText_utf8EncodeChar c).append htail) (by omega),
      characters_append (Bytes.isText_utf8EncodeChar c) htail, characters_utf8EncodeChar,
      List.singleton_append, fill, if_neg (by omega)]
    exact congrArg _ hbehind

/-- **There is one folding of a line, and it is the one that is written.** -/
theorem fold_eq_cons_iff {line first : Bytes} {added : List Bytes} (htext : IsText line)
    (hline : line ≠ []) : fold line = first :: added ↔ Folding line first added := by
  refine ⟨folding_of_fold htext hline, fun h => ?_⟩
  have hpieces : ∀ q ∈ first :: added, IsText q := by
    obtain ⟨hfirst, hadded⟩ := List.forall_mem_cons.1 h.isText
    refine List.forall_mem_cons.2 ⟨hfirst, fun q hq => ?_⟩
    exact (Bytes.isText_cons_iff (by decide)).1 (hadded _ (List.mem_map_of_mem hq))
  have hfill := fill_eq_of_isChain [] first (Nat.zero_le 1) hpieces h.length_le h.isChain
  rwa [h.append_flatten] at hfill

/-! ## Attributes -/

/-- **An attribute is written in lines of at most 72 bytes.** Each ends in CR LF, each but the first
begins with a space, and without these spaces they are the name, a colon with a space and the value.
A line ends early only for a character that it has no room for, so each says something of the
attribute, and there is no other way to fold it like that. -/
theorem Attribute.bytes_folding {a : Attribute} (hname : IsText a.name) (hvalue : IsText a.value) :
    ∃ first added, a.bytes = (first :: continuations added).flatMap (fun l => l ++ lineEnd) ∧
      Folding (a.name ++ [Byte.colon, Byte.space] ++ a.value) first added ∧
      ∀ first' added', Folding (a.name ++ [Byte.colon, Byte.space] ++ a.value) first' added' →
        first' = first ∧ added' = added := by
  have htext : IsText a.line :=
    (hname.append (Bytes.isAscii_of_all (by decide)).isText).append hvalue
  have hne : a.line ≠ [] := by simp [Attribute.line]
  obtain ⟨first, added, hfold, -⟩ := exists_fold_eq_cons htext hne
  refine ⟨first, added, ?_, (fold_eq_cons_iff htext hne).1 hfold, fun first' added' h => ?_⟩
  · rw [Attribute.bytes, hfold, foldedBytes_eq]
    rfl
  · exact List.cons.inj (((fold_eq_cons_iff htext hne).2 h).symm.trans hfold)

end Manifest

/-- A value of two-byte characters, of which none fits behind the first 71 bytes of a line. -/
theorem bytes_folding_accents :
    let a : Manifest.Attribute := ⟨bytes "Bundle-Name", (List.replicate 80 (bytes "é")).flatten⟩
    Bytes.IsText a.name ∧ Bytes.IsText a.value ∧
      (Manifest.fold a.line).map List.length = [71, 70, 32] ∧
      ∃ first added, a.bytes = (first :: Manifest.continuations added).flatMap
          (fun l => l ++ Manifest.lineEnd) ∧
        Manifest.Folding (a.name ++ [Byte.colon, Byte.space] ++ a.value) first added ∧
        ∀ first' added', Manifest.Folding (a.name ++ [Byte.colon, Byte.space] ++ a.value) first' added' →
          first' = first ∧ added' = added := by
  intro a
  have hname : Bytes.IsText a.name := by decide +kernel
  have hvalue : Bytes.IsText a.value := by decide +kernel
  exact ⟨hname, hvalue, by decide +kernel, Manifest.Attribute.bytes_folding hname hvalue⟩

end PackageMigration
