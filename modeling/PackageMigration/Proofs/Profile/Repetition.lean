import PackageMigration.Proofs.ClassFile.Conversion
import PackageMigration.Proofs.Mapping.Order
import PackageMigration.Proofs.Mapping.Parts
import PackageMigration.Proofs.Profile
/-
  Texts and class files that are converted a second time, by the same table or by another.

  Main statements: `Table.convert?_eq_none_of_convert?` (once a table has converted a text, it leaves
  it alone), `Profile.ee_absorbs_tomcat` (one of the two built-in tables does all that the other does).
-/
namespace PackageMigration

/-! ## One table -/

/-- **What a settled table has converted it leaves alone**, and the built-in tables are settled. -/
theorem Table.convert?_eq_none_of_convert? :
    (∀ p : Profile, p.table.IsSettled) ∧
      ∀ t : Table, t.IsSettled → ∀ s out, t.convert? s = some out → t.convert? out = none := by
  refine ⟨Profile.isSettled_table, fun t ht s out h => ?_⟩
  have hsettled := ht.convert?_convert s
  rwa [Table.convert, h, Option.getD_some] at hsettled

theorem Table.convert?_eq_none_of_convert?_servlet :
    let table := Profile.tomcat.table
    table.IsSettled ∧ table.convert? (bytes "IILjavax/el/A") = some (bytes "IILjakarta/el/A") ∧
      table.convert? (bytes "IILjakarta/el/A") = none := by
  intro table
  have hsettled : table.IsSettled := Table.convert?_eq_none_of_convert?.1 .tomcat
  have hconvert : table.convert? (bytes "IILjavax/el/A") = some (bytes "IILjakarta/el/A") := by
    show Profile.tomcat.table.convert? _ = _
    rw [Profile.table_eq_orderedTable]
    decide +kernel
  exact ⟨hsettled, hconvert, Table.convert?_eq_none_of_convert?.2 table hsettled _ _ hconvert⟩

/-! ## Two tables -/

namespace ClassFile

variable {c : ClassFile} {f g h : Bytes → Option Bytes}

/-- Texts replaced twice are texts replaced once. -/
theorem mapUtf8_mapUtf8 (hfg : ∀ s, (g ((f s).getD s)).getD ((f s).getD s) = (h s).getD s) :
    (c.mapUtf8 fun _ => f).mapUtf8 (fun _ => g) = c.mapUtf8 fun _ => h := by
  simp only [mapUtf8_const, List.map_map]
  congr 1
  refine List.map_congr_left fun s _ => ?_
  cases s with
  | utf8 payload => exact congrArg Slot.utf8 (hfg payload)
  | unusable => rfl
  | other => rfl

end ClassFile

namespace Table

open ClassFile

variable {t u : Table} {c : ClassFile} {data : Bytes} {new : Option Bytes}

/-- With its names replaced no text constant is too long. -/
theorem firstTooLong?_mapUtf8_eq_none_iff : (c.mapUtf8 fun _ => t.convert?).firstTooLong? = none ↔
    ∀ payload, .utf8 payload ∈ c.pool → (t.convert payload).length ≤ 0xFFFF := by
  rw [firstTooLong?_eq_none_iff, mapUtf8_const]
  constructor
  · intro h payload hp
    have hfits := h _ (List.mem_map_of_mem hp)
    by_contra hlt
    rw [tooLong?_replace_eq_some_iff.2 ⟨payload, rfl, rfl, Nat.lt_of_not_le hlt⟩] at hfits
    cases hfits
  · intro h s hs
    obtain ⟨slot, hslot, rfl⟩ := List.mem_map.1 hs
    refine Option.eq_none_iff_forall_ne_some.2 fun n hn => ?_
    obtain ⟨payload, rfl, rfl, hlt⟩ := tooLong?_replace_eq_some_iff.1 hn
    exact absurd (h payload hslot) (Nat.not_le.2 hlt)

/-- A conversion that gives no error leaves the class file with its names replaced, be there any or not. -/
theorem convertClass?_eq_ok_iff (h : parse? data = .ok c) :
    t.convertClass? data = .ok new ↔
      (∀ payload, .utf8 payload ∈ c.pool → (t.convert payload).length ≤ 0xFFFF) ∧
        new = if c.holdsName t then some (c.mapUtf8 fun _ => t.convert?).bytes else none := by
  rw [convertClass?_of_parse? h, ← firstTooLong?_mapUtf8_eq_none_iff]
  cases (c.mapUtf8 fun _ => t.convert?).firstTooLong? with
  | some x => exact ⟨nofun, fun h => nomatch h.1⟩
  | none => exact ⟨fun h => ⟨rfl, (Except.ok.inj h).symm⟩, fun h => h.2 ▸ rfl⟩

theorem parse?_getD_convertClass? (h : parse? data = .ok c) (hnew : t.convertClass? data = .ok new) :
    parse? (new.getD data) = .ok (c.mapUtf8 fun _ => t.convert?) := by
  obtain ⟨hfits, rfl⟩ := (convertClass?_eq_ok_iff h).1 hnew
  obtain ⟨hw, rfl⟩ := parse?_eq_ok_iff.1 h
  split
  next => exact parse?_eq_ok_iff.2 ⟨hw.mapUtf8 (firstTooLong?_mapUtf8_eq_none_iff.2 hfits), rfl⟩
  next hn =>
    rw [mapUtf8_eq_self_of_not_holdsName hn]
    exact h

namespace IsPartOf

/-- **A class file converted by the part and then by the whole is what the whole makes of it**, and the
part finds no name in that. If the whole can convert a class file at all, so can the part. -/
theorem convertClass? (h : t.IsPartOf u) (hu : u.IsSettled)
    (hlength : ∀ s, (t.convert s).length ≤ (u.convert s).length)
    (hnew : u.convertClass? data = .ok new) :
    ∃ part, t.convertClass? data = .ok part ∧
      (∃ rest, u.convertClass? (part.getD data) = .ok rest ∧
        rest.getD (part.getD data) = new.getD data) ∧
      t.convertClass? (new.getD data) = .ok none := by
  cases hp : parse? data with
  | error => rw [convertClass?_of_parse?_error hp] at hnew; cases hnew
  | ok c =>
    obtain ⟨hfits, -⟩ := (convertClass?_eq_ok_iff hp).1 hnew
    have hpart := (convertClass?_eq_ok_iff (t := t) hp).2
      ⟨fun payload hmem => Nat.le_trans (hlength payload) (hfits payload hmem), rfl⟩
    have hwhole := parse?_getD_convertClass? hp hnew
    have hparsed := parse?_getD_convertClass? hp hpart
    have htwice : ((c.mapUtf8 fun _ => t.convert?).mapUtf8 fun _ => u.convert?) =
        c.mapUtf8 fun _ => u.convert? := mapUtf8_mapUtf8 (h.convert_convert hu)
    have hfits' : ((c.mapUtf8 fun _ => t.convert?).mapUtf8 fun _ => u.convert?).firstTooLong? = none := by
      rw [htwice]
      exact firstTooLong?_mapUtf8_eq_none_iff.2 hfits
    have hrest := (convertClass?_eq_ok_iff (t := u) hparsed).2
      ⟨firstTooLong?_mapUtf8_eq_none_iff.1 hfits', rfl⟩
    have hagain := (parse?_eq_ok_iff.1 (parse?_getD_convertClass? hparsed hrest)).2
    have hdata := (parse?_eq_ok_iff.1 hwhole).2
    exact ⟨_, hpart, ⟨_, hrest, by rw [hagain, htwice, ← hdata]⟩,
      (convertClass?_eq_none_iff hwhole).2 (not_holdsName_mapUtf8 (h.convert?_convert hu))⟩

end IsPartOf

end Table

/-! ## The built-in tables -/

namespace Profile

/-- The rules for a servlet container are a part of those for the platform. -/
theorem isPartOf_table : tomcat.table.IsPartOf ee.table := by
  refine ⟨fun r hr => ?_, fun r hr => ?_, ?_, ?_⟩
  · rw [mem_rules_table] at hr ⊢
    rcases List.mem_append.1 hr with hr | hr
    · exact List.mem_append_left _ hr
    · obtain ⟨package, hmem, rfl⟩ := List.mem_map.1 hr
      exact List.mem_append_right _ (List.mem_map_of_mem (List.mem_append_left _ hmem))
  · obtain ⟨r', hr'⟩ := List.exists_mem_of_ne_nil _ tomcat.table.nonempty
    exact Table.isRoot_iff.2 ⟨r', hr', (root_of_mem hr').trans (root_of_mem hr).symm⟩
  · rw [table_eq_orderedTable, table_eq_orderedTable]
    decide +kernel
  · rw [table_eq_orderedTable, table_eq_orderedTable]
    decide +kernel

theorem length_convert_le (s : Bytes) : (tomcat.table.convert s).length ≤ (ee.table.convert s).length := by
  rw [← isPartOf_table.convert_convert ee.isSettled_table s]
  exact (ee.moved_convert _).length_le (by decide)

/-- **The platform's table does all that the one for a servlet container does.** Whatever the latter has
converted before, the result is that of the former, in which the latter finds no name; and so for class
files, whenever the former can convert them. -/
theorem ee_absorbs_tomcat :
    let t : Table := Profile.tomcat.table
    let u : Table := Profile.ee.table
    (∀ s, u.convert (t.convert s) = u.convert s ∧ t.convert (u.convert s) = u.convert s) ∧
      ∀ data new, u.convertClass? data = .ok new →
        ∃ part, t.convertClass? data = .ok part ∧
          (∃ rest, u.convertClass? (part.getD data) = .ok rest ∧
            rest.getD (part.getD data) = new.getD data) ∧
          t.convertClass? (new.getD data) = .ok none := by
  intro t u
  have hpart : t.IsPartOf u := isPartOf_table
  have hu : u.IsSettled := ee.isSettled_table
  refine ⟨fun s => ⟨hpart.convert_convert hu s, ?_⟩, fun data new hnew => ?_⟩
  · rw [Table.convert, hpart.convert?_convert hu, Option.getD_none]
  · exact hpart.convertClass? hu length_convert_le hnew

/-- A class file with a name for either table. -/
def servletInjectClass : ClassFile where
  header := [0xCA, 0xFE, 0xBA, 0xBE, 0, 0, 0, 52]
  pool := [.unusable, .utf8 (bytes "(Ljavax/servlet/A;)V"), .utf8 (bytes "javax.inject.B")]
  remainder := List.replicate 6 0

theorem ee_absorbs_tomcat_class :
    let t : Table := Profile.tomcat.table
    let u : Table := Profile.ee.table
    let converted : ClassFile := { servletInjectClass with
      pool := [.unusable, .utf8 (bytes "(Ljakarta/servlet/A;)V"), .utf8 (bytes "jakarta.inject.B")] }
    let part : ClassFile := { servletInjectClass with
      pool := [.unusable, .utf8 (bytes "(Ljakarta/servlet/A;)V"), .utf8 (bytes "javax.inject.B")] }
    u.convertClass? servletInjectClass.bytes = .ok (some converted.bytes) ∧
      t.convertClass? servletInjectClass.bytes = .ok (some part.bytes) ∧
      (∃ rest, u.convertClass? part.bytes = .ok rest ∧ rest.getD part.bytes = converted.bytes) ∧
      t.convertClass? converted.bytes = .ok none := by
  intro t u converted part
  have hwhole : u.convertClass? servletInjectClass.bytes = .ok (some converted.bytes) := by
    show ee.table.convertClass? _ = _
    rw [table_eq_orderedTable]
    decide +kernel
  have hpart : t.convertClass? servletInjectClass.bytes = .ok (some part.bytes) := by
    show tomcat.table.convertClass? _ = _
    rw [table_eq_orderedTable]
    decide +kernel
  obtain ⟨part', hpart', hrest, hnone⟩ := ee_absorbs_tomcat.2 _ _ hwhole
  obtain rfl : some part.bytes = part' := Except.ok.inj (hpart.symm.trans hpart')
  exact ⟨hwhole, hpart, hrest, hnone⟩

end Profile

end PackageMigration
