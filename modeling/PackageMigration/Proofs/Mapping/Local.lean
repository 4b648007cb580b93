import PackageMigration.Proofs.Mapping.Order
import PackageMigration.Proofs.Mapping.Settled
/-
  Texts that are converted part by part.

  * `IsBreak`: a byte that stands in no name.

  Main statement: `Table.convert?_local` (a text may be divided at such bytes, once or wherever they
  stand, before its parts are converted).
-/
namespace PackageMigration

/-- The byte stands in no name, so none goes on behind it. -/
def IsBreak (b : UInt8) : Prop := Name.isIdent b = false ∧ isSeparator b = false

instance (b : UInt8) : Decidable (IsBreak b) := inferInstanceAs (Decidable (_ ∧ _))

namespace Table

variable {t : Table} {s out : Bytes} {parts : List (UInt8 × Bytes)}

theorem convert?_eq_ite {P : Prop} [Decidable P] (hnone : t.convert? s = none ↔ P)
    (hconvert : t.convert s = out) : t.convert? s = if P then none else some out := by
  split
  next hP => exact hnone.2 hP
  next hP =>
    obtain ⟨out', h⟩ := Option.ne_none_iff_exists'.1 (mt hnone.1 hP)
    rw [h, ← hconvert, convert, h, Option.getD_some]

/-- The parts of a text are converted one by one, and what divides them stays. -/
theorem convert_append_runBytes (h : ∀ p ∈ parts, IsBreak p.1) (s : Bytes) :
    t.convert (s ++ runBytes parts) =
      t.convert s ++ runBytes (parts.map fun p => (p.1, t.convert p.2)) := by
  induction parts generalizing s with
  | nil => simp [runBytes]
  | cons p parts ih =>
    obtain ⟨hp, hparts⟩ := List.forall_mem_cons.1 h
    have hhead := convert_append_cons (t := t) hp.1 hp.2 s (p.2 ++ runBytes parts)
    rw [ih hparts] at hhead
    exact hhead

/-- A text holds a mapped name if one of its parts does. -/
theorem convert?_append_runBytes_eq_none_iff (h : ∀ p ∈ parts, IsBreak p.1) :
    t.convert? (s ++ runBytes parts) = none ↔
      t.convert? s = none ∧ ∀ p ∈ parts, t.convert? p.2 = none := by
  induction parts generalizing s with
  | nil => simp [runBytes]
  | cons p parts ih =>
    obtain ⟨hp, hparts⟩ := List.forall_mem_cons.1 h
    rw [List.forall_mem_cons, ← ih hparts, ← convert?_append_cons_eq_none_iff hp.1 hp.2]
    rfl

theorem convert_intercalate {b : UInt8} (hb : IsBreak b) (lines : List Bytes) (hne : lines ≠ []) :
    t.convert ([b].intercalate lines) = [b].intercalate (lines.map t.convert) := by
  obtain ⟨line, more, rfl⟩ := List.exists_cons_of_ne_nil hne
  rw [List.map_cons, intercalate_eq_append_runBytes, intercalate_eq_append_runBytes,
    convert_append_runBytes, List.map_map, List.map_map]
  · rfl
  · intro p hp
    obtain ⟨line, -, rfl⟩ := List.mem_map.1 hp
    exact hb

theorem convert?_intercalate_eq_none_iff {b : UInt8} (hb : IsBreak b) {lines : List Bytes}
    (hne : lines ≠ []) :
    t.convert? ([b].intercalate lines) = none ↔ ∀ line ∈ lines, t.convert? line = none := by
  obtain ⟨line, more, rfl⟩ := List.exists_cons_of_ne_nil hne
  rw [intercalate_eq_append_runBytes, convert?_append_runBytes_eq_none_iff]
  · simp
  · intro p hp
    obtain ⟨line, -, rfl⟩ := List.mem_map.1 hp
    exact hb

/-- **Conversion is local.** A byte that stands in no name stays, and what is on its two sides is converted
as if it stood alone. So a text is converted line by line, or token by token. -/
theorem convert?_local (t : Table) :
    (∀ a b c, IsBreak c → t.convert? (a ++ [c] ++ b) =
      if t.convert? a = none ∧ t.convert? b = none then none
      else some (t.convert a ++ [c] ++ t.convert b)) ∧
    (∀ c s, IsBreak c → t.convert? s =
      if ∀ line ∈ Bytes.splitOn c s, t.convert? line = none then none
      else some ([c].intercalate ((Bytes.splitOn c s).map t.convert))) ∧
    ∀ token parts, (∀ p ∈ parts, IsBreak p.1) → t.convert? (token ++ runBytes parts) =
      if t.convert? token = none ∧ ∀ p ∈ parts, t.convert? p.2 = none then none
      else some (t.convert token ++ runBytes (parts.map fun p => (p.1, t.convert p.2))) := by
  refine ⟨fun a b c hc => ?_, fun c s hc => ?_, fun token parts hparts => ?_⟩
  · simp only [List.append_assoc, List.singleton_append]
    exact convert?_eq_ite (convert?_append_cons_eq_none_iff hc.1 hc.2)
      (convert_append_cons hc.1 hc.2 a b)
  · have hne := Bytes.splitOn_ne_nil c s
    have hnone := convert?_intercalate_eq_none_iff (t := t) hc hne
    have hconvert := convert_intercalate (t := t) hc _ hne
    rw [Bytes.intercalate_splitOn] at hnone hconvert
    exact convert?_eq_ite hnone hconvert
  · exact convert?_eq_ite (convert?_append_runBytes_eq_none_iff hparts)
      (convert_append_runBytes hparts token)

/-- Whole names in a line are replaced, one that only the end of the line would make whole is not. -/
theorem convert?_local_lines :
    let table := Profile.tomcat.table
    let text := bytes "import javax.servlet.A;\njavax.\nservlet.B (javax/el/)"
    IsBreak 0x0A ∧
      table.convert? text = some (bytes "import jakarta.servlet.A;\njavax.\nservlet.B (jakarta/el/)") := by
  intro table text
  have hbreak : IsBreak 0x0A := by decide
  refine ⟨hbreak, ?_⟩
  rw [(convert?_local table).2.1 0x0A text hbreak]
  show (if ∀ line ∈ Bytes.splitOn 0x0A text, Profile.tomcat.table.convert? line = none then none
    else some ([0x0A].intercalate ((Bytes.splitOn 0x0A text).map Profile.tomcat.table.convert))) = _
  rw [Profile.table_eq_orderedTable]
  decide +kernel

end Table

end PackageMigration
