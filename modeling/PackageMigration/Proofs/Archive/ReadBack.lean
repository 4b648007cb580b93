import PackageMigration.Proofs.Archive.Target
import PackageMigration.Proofs.Container.Name
import PackageMigration.Proofs.Container.ReadBack
/-
  What is written for a ZIP container is read back.

  Main statement: `faithful_writable`.
-/
namespace PackageMigration.Archive

open Bytes (IsText capacity)

theorem writtenMode_bounds (mode : Option Nat) :
    0 < writtenMode mode ∧ writtenMode mode < capacity 2 := by
  refine ⟨Nat.lt_of_lt_of_le (by decide) Nat.left_le_or, ?_⟩
  have hpermissions : mode.getD 0o644 &&& 0o777 < 2 ^ 16 := Nat.and_lt_two_pow _ (by decide)
  exact Nat.or_lt_two_pow (by decide) hpermissions

variable {nested : Nested} {t : Table} {label data : Bytes}

/-- What is written has a name that is text, and a mode. -/
theorem Writes.isText_and_mode {before es ws : List Container.Entry}
    (hw : Writes nested t label before es ws) (h : ∀ e ∈ es, IsText e.name) :
    ∀ w ∈ ws, IsText w.name ∧ ∃ mode, w.mode = some (writtenMode mode) := by
  induction hw with
  | nil => exact nofun
  | leftOut _ _ ih => exact ih (List.forall_mem_cons.1 h).2
  | written _ hwritten _ ih =>
    obtain ⟨he, hes⟩ := List.forall_mem_cons.1 h
    refine List.forall_mem_cons.2 ⟨⟨?_, _, hwritten.mode⟩, ih hes⟩
    rw [hwritten.name]
    exact (reworded_targetOf t _).isText he

/-- The names in a ZIP container, and in one in it, are text. -/
theorem Contains.isText {es : List Container.Entry} (h : Contains Container.zip data es) :
    ∀ e ∈ es, IsText e.name := by
  induction h with
  | own hread => exact fun e he => Container.Zip.isText_of_read? hread (List.mem_map_of_mem he)
  | inner _ _ _ _ ih => exact ih

/-- **What a run over a ZIP container writes is read back**, if there is room for it. -/
theorem faithful_writable
    (hroom : ∀ ws, Writable Container.zip t data ws → Container.Zip.HasRoom ws) :
    Container.zip.Faithful (Writable Container.zip t data) := by
  refine Container.Zip.faithful_fits.mono fun ws hws => ?_
  obtain ⟨depth, label, es, hes, hp, hw⟩ := id hws
  have hwritten := hw.isText_and_mode hes.isText
  refine ⟨hroom ws hws, fun w hmem => (hwritten w hmem).1, fun w hmem m hm => ?_, (hw.nodup hp).1⟩
  obtain ⟨-, mode, hmode⟩ := hwritten w hmem
  rw [hmode] at hm
  obtain rfl := Option.some.inj hm
  exact writtenMode_bounds mode

end PackageMigration.Archive
