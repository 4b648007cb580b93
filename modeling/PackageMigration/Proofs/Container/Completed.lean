import Mathlib.Data.Countable.Basic
import Mathlib.Logic.Equiv.List
import PackageMigration.Container.Zip
/-
  Formats that read back what they write.

  * `Format.HoldsBehind`: a format reads back some entries, which it writes without a mark in front.
  * `Format.completedBehind`: a format that holds all entries, and agrees with another one where that
    one holds them without the mark; `Format.completed`: the same with one mark for all formats.

  Main statements: `faithful_completedBehind`, `Zip.localSignature_prefix_write`.
-/
namespace PackageMigration.Container

instance countableUInt8 : Countable UInt8 :=
  Function.Injective.countable (f := UInt8.toNat) fun _ _ => UInt8.toNat_inj.1

instance countableEntry : Countable Entry := by
  refine Function.Injective.countable (f := fun e : Entry =>
    (e.name, Zip.methodCode e.method, e.mode, e.data)) fun e e' h => ?_
  obtain ⟨name, method, mode, data⟩ := e
  obtain ⟨name', method', mode', data'⟩ := e'
  simp only [Prod.mk.injEq] at h
  obtain ⟨rfl, hmethod, rfl, rfl⟩ := h
  cases method <;> cases method' <;> first | rfl | cases hmethod

/-- A number for each list of entries. -/
noncomputable def number : List Entry → Nat := (Countable.exists_injective_nat (List Entry)).choose

theorem number_injective : Function.Injective number :=
  (Countable.exists_injective_nat (List Entry)).choose_spec

/-- The format reads back these entries, and writes for them what does not begin with the mark. -/
def Format.HoldsBehind (format : Format) (mark : Bytes) (entries : List Entry) : Prop :=
  ¬ mark <+: format.write entries ∧ format.read? (format.write entries) = some (entries.map .entry)

instance (format : Format) (mark : Bytes) (entries : List Entry) :
    Decidable (format.HoldsBehind mark entries) :=
  inferInstanceAs (Decidable (_ ∧ _))

/-- The format, and behind the mark the number of entries that it does not hold, counted out. -/
noncomputable def Format.completedBehind (format : Format) (mark : Bytes) : Format where
  read? data :=
    match Bytes.after? mark data with
    | none => format.read? data
    | some s => some ((Function.invFun number s.length).map .entry)
  write entries :=
    if format.HoldsBehind mark entries then format.write entries
    else mark ++ List.replicate (number entries) 0

/-- What the completed format writes in front of entries that the format itself does not hold. -/
def completionMark : Bytes := Zip.signatureStart ++ [0xFF, 0xFF]

/-- The format, and for entries that it does not hold their number. -/
noncomputable def Format.completed (format : Format) : Format :=
  format.completedBehind completionMark

theorem faithful_completedBehind (format : Format) (mark : Bytes) (P : List Entry → Prop) :
    (format.completedBehind mark).Faithful P := by
  intro entries _
  by_cases h : format.HoldsBehind mark entries
  · have hmark : Bytes.after? mark (format.write entries) = none := by
      rw [Option.eq_none_iff_forall_ne_some]
      exact fun s hs => h.1 ⟨s, (Bytes.after?_eq_some_iff.1 hs).symm⟩
    have hwrite : (format.completedBehind mark).write entries = format.write entries := if_pos h
    rw [hwrite, Format.completedBehind]
    simp only [hmark, h.2]
  · have hwrite : (format.completedBehind mark).write entries =
        mark ++ List.replicate (number entries) 0 := if_neg h
    rw [hwrite, Format.completedBehind]
    simp only [Bytes.after?_eq_some_iff.2 rfl, List.length_replicate,
      Function.leftInverse_invFun number_injective entries]

theorem faithful_completed (format : Format) (P : List Entry → Prop) :
    format.completed.Faithful P :=
  faithful_completedBehind format completionMark P

/-- What the completed format writes begins as the format and the mark do. -/
theorem prefix_write_completedBehind {format : Format} {mark start : Bytes} {entries : List Entry}
    (hmark : start <+: mark) (h : start <+: format.write entries) :
    start <+: (format.completedBehind mark).write entries := by
  rw [Format.completedBehind]
  dsimp only
  split
  · exact h
  · exact hmark.trans (List.prefix_append _ _)

namespace Zip

/-- A container begins like its first record. -/
theorem signatureStart_prefix_write (entries : List Entry) : signatureStart <+: write entries := by
  cases entries with
  | nil => exact ⟨_, rfl⟩
  | cons e es => exact ⟨_, rfl⟩

/-- A container that is not empty begins with a local record. -/
theorem localSignature_prefix_write {entries : List Entry} (h : entries ≠ []) :
    localSignature <+: write entries := by
  obtain ⟨e, es, rfl⟩ := List.exists_cons_of_ne_nil h
  exact ⟨_, rfl⟩

end Zip

/-- The completed ZIP format writes containers that begin like containers. -/
theorem signatureStart_prefix_completed (entries : List Entry) :
    Zip.signatureStart <+: zip.completed.write entries :=
  prefix_write_completedBehind (List.prefix_append _ _) (Zip.signatureStart_prefix_write entries)

end PackageMigration.Container
