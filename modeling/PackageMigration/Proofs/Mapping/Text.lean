import PackageMigration.Proofs.Mapping.Settled
import PackageMigration.Proofs.Text.Utf8
/-
  A converted text is text again.

  Main statements: `isText_convert`, `convertText?_of_isText`.
-/
namespace PackageMigration

open Bytes (IsAscii IsText)

theorem isAscii_of_isIdent {b : UInt8} (h : Name.isIdent b) : b < 0x80 := by
  have hn : ∀ {c : UInt8}, c < 0x80 → b ≤ c → b < 0x80 := fun hc hb => UInt8.lt_of_le_of_lt hb hc
  simp only [Name.isIdent, Byte.isDigit, Byte.isUpper, Byte.isLower, Bool.or_eq_true,
    Bool.and_eq_true, decide_eq_true_eq, beq_iff_eq] at h
  rcases h with (((h | h) | h) | rfl) | rfl
  · exact hn (by decide) h.2
  · exact hn (by decide) h.2
  · exact hn (by decide) h.2
  · decide
  · decide

theorem Chain.IsProper.isAscii {c : Chain} (h : c.IsProper) : IsAscii c.bytes := by
  have hrun : ∀ {s : Bytes}, Name.IsSegment s → IsAscii s := fun hs b hb => isAscii_of_isIdent (hs.2 b hb)
  intro b hb
  rcases List.mem_append.1 hb with hb | hb
  · exact hrun h.first b hb
  · obtain ⟨p, hp, hb⟩ := List.mem_flatMap.1 hb
    rcases List.mem_cons.1 hb with rfl | hb
    · have := (h.rest p hp).1
      simp only [isSeparator, Bool.or_eq_true, beq_iff_eq] at this
      rcases this with h | h <;> rw [h] <;> decide
    · exact hrun (h.rest p hp).2 b hb

theorem Chain.IsProper.bytes_ne_nil {c : Chain} (h : c.IsProper) : c.bytes ≠ [] := by
  simp [Chain.bytes, h.first.1]

namespace Table

variable {t : Table}

/-- Pieces are replaced by text of the same kind. -/
theorem isText_append_flatMap_moved (kept : Bytes) {ps : List Piece} (hp : Proper ps)
    (h : IsText (kept ++ ps.flatMap Piece.bytes)) :
    IsText (kept ++ (ps.map (Piece.moved t)).flatMap Piece.bytes) := by
  induction hp generalizing kept with
  | nil => exact h
  | @other b ps _ _ ih =>
    have := ih (kept ++ [b]) (by simpa [Piece.bytes] using h)
    simpa [Piece.bytes, Piece.moved] using this
  | @name c ps hc _ _ ih =>
    have hc' : ((c.moved? t).getD c).IsProper := by
      cases hm : c.moved? t with
      | none => exact hc
      | some c' => exact hc.moved? hm
    rw [List.flatMap_cons, Piece.bytes, ← List.append_assoc,
      Bytes.isText_append_ascii_append hc.isAscii hc.bytes_ne_nil] at h
    rw [List.map_cons, List.flatMap_cons, Piece.moved, Piece.bytes, ← List.append_assoc,
      Bytes.isText_append_ascii_append hc'.isAscii hc'.bytes_ne_nil]
    exact ⟨h.1, ih [] h.2⟩

/-- **A converted text is text again.** -/
theorem isText_convert {s : Bytes} (h : IsText s) : IsText (t.convert s) := by
  rw [← flatMap_bytes_pieces (t.convert s), pieces_convert]
  refine isText_append_flatMap_moved [] (proper_pieces s) ?_
  rwa [List.nil_append, flatMap_bytes_pieces]

theorem convertText?_of_isText {s : Bytes} (h : IsText s) : t.convertText? s = t.convert? s := by
  cases hs : t.convert? s with
  | none => rw [convertText?, hs]; rfl
  | some s' =>
    have hs' : IsText s' := by
      have := isText_convert (t := t) h
      rwa [convert, hs, Option.getD_some] at this
    rw [convertText?, hs, Option.filter_some, Bytes.isText, decide_eq_true hs', if_pos rfl]

end Table

end PackageMigration
