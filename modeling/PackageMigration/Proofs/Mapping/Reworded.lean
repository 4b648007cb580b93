import PackageMigration.Proofs.Entry.Name
import PackageMigration.Proofs.Mapping.Text
/-
  Byte strings in which names stand for other names, whatever the table.

  * `Reworded s s'`: `s'` is `s` with some chains replaced by others.

  Main statements: `reworded_convert` (a converted text is a reworded one), `Reworded.mem_or`
  (which bytes can be new), `Reworded.isText`, `Reworded.getLast?_iff` (which bytes stay at the end).
-/
namespace PackageMigration

/-- The second text is the first one with some names replaced by names. -/
inductive Reworded : Bytes → Bytes → Prop
  | nil : Reworded [] []
  | keep (b : UInt8) {s s' : Bytes} : Reworded s s' → Reworded (b :: s) (b :: s')
  | word {c c' : Chain} {s s' : Bytes} :
      c.IsProper → c'.IsProper → Reworded s s' → Reworded (c.bytes ++ s) (c'.bytes ++ s')

namespace Reworded

variable {s s' : Bytes}

theorem refl (s : Bytes) : Reworded s s := by
  induction s with
  | nil => exact .nil
  | cons b s ih => exact .keep b ih

theorem append_left (p : Bytes) (h : Reworded s s') : Reworded (p ++ s) (p ++ s') := by
  induction p with
  | nil => exact h
  | cons b p ih => exact .keep b ih

/-- A byte that is new stands in a name. -/
theorem mem_or (h : Reworded s s') {b : UInt8} (hb : b ∈ s') :
    b ∈ s ∨ Name.isIdent b ∨ isSeparator b := by
  induction h with
  | nil => exact .inl hb
  | keep a _ ih =>
    rcases List.mem_cons.1 hb with rfl | hb
    · exact .inl List.mem_cons_self
    · exact (ih hb).imp_left (List.mem_cons_of_mem a)
  | @word c c' _ _ _ hc' _ ih =>
    rcases List.mem_append.1 hb with hb | hb
    · right
      rcases List.mem_append.1 hb with hb | hb
      · exact .inl (hc'.first.2 b hb)
      · obtain ⟨p, hp, hb⟩ := List.mem_flatMap.1 hb
        rcases List.mem_cons.1 hb with rfl | hb
        · exact .inr (hc'.rest p hp).1
        · exact .inl ((hc'.rest p hp).2.2 b hb)
    · exact (ih hb).imp_left (List.mem_append_right c.bytes)

theorem eq_nil_iff (h : Reworded s s') : s = [] ↔ s' = [] := by
  cases h with
  | nil => exact Iff.rfl
  | keep => simp
  | word hc hc' => simp [hc.bytes_ne_nil, hc'.bytes_ne_nil]

theorem isText (h : Reworded s s') (hs : Bytes.IsText s) : Bytes.IsText s' := by
  have hkept : ∀ kept : Bytes, Bytes.IsText (kept ++ s) → Bytes.IsText (kept ++ s') := by
    clear hs
    induction h with
    | nil => exact fun _ => id
    | @keep b s s' _ ih =>
      intro kept hs
      have := ih (kept ++ [b]) (by simpa using hs)
      simpa using this
    | word hc hc' _ ih =>
      intro kept hs
      rw [← List.append_assoc, Bytes.isText_append_ascii_append hc.isAscii hc.bytes_ne_nil] at hs
      rw [← List.append_assoc, Bytes.isText_append_ascii_append hc'.isAscii hc'.bytes_ne_nil]
      exact ⟨hs.1, ih [] hs.2⟩
  exact hkept [] hs

/-- A byte that stands in no name stays at the end. -/
theorem getLast?_iff (h : Reworded s s') {b : UInt8} (hb : Name.isIdent b = false) :
    s.getLast? = some b ↔ s'.getLast? = some b := by
  have hword : ∀ {c : Chain}, c.IsProper → c.bytes.getLast? ≠ some b := by
    intro c hc he
    obtain ⟨u, a, hu, ha⟩ := hc.exists_bytes_eq
    rw [hu, List.getLast?_concat, Option.some.injEq] at he
    rw [he, hb] at ha
    cases ha
  induction h with
  | nil => exact Iff.rfl
  | @keep a s s' h ih =>
    by_cases hs : s = []
    · rw [hs, h.eq_nil_iff.1 hs]
    · rw [List.getLast?_cons_of_ne_nil hs, List.getLast?_cons_of_ne_nil (mt h.eq_nil_iff.2 hs)]
      exact ih
  | @word c c' s s' hc hc' h ih =>
    by_cases hs : s = []
    · rw [hs, h.eq_nil_iff.1 hs, List.append_nil, List.append_nil]
      exact iff_of_false (hword hc) (hword hc')
    · rw [List.getLast?_append_of_ne_nil _ hs,
        List.getLast?_append_of_ne_nil _ (mt h.eq_nil_iff.2 hs)]
      exact ih

end Reworded

/-- **A converted text is the text with some names replaced by names.** -/
theorem Table.reworded_convert (t : Table) (s : Bytes) : Reworded s (t.convert s) := by
  have key : ∀ {ps : List Piece}, Proper ps →
      Reworded (ps.flatMap Piece.bytes) ((ps.map (Piece.moved t)).flatMap Piece.bytes) := by
    intro ps hp
    induction hp with
    | nil => exact .nil
    | @other b ps _ _ ih => exact .keep b ih
    | @name c ps hc _ _ ih =>
      refine .word hc ?_ ih
      cases hm : c.moved? t with
      | none => exact hc
      | some c' => exact hc.moved? hm
  have h := key (proper_pieces s)
  rwa [flatMap_bytes_pieces, ← pieces_convert, flatMap_bytes_pieces] at h

theorem Table.reworded_renameEntry? {t : Table} {name name' : Bytes}
    (h : t.renameEntry? name = some name') : Reworded name name' := by
  obtain ⟨rest, rest', hname, rfl, hr⟩ := Table.renameEntry?_eq_some_iff.1 h
  have hreworded := (t.reworded_convert rest).append_left (EntryName.classRoot name)
  rwa [Table.convert_of_convert? (Table.convertText?_eq_some_iff.1 hr).1, ← hname] at hreworded

end PackageMigration
