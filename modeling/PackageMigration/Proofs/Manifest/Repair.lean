import Mathlib.Data.List.Find
import PackageMigration.Manifest.Repair
import PackageMigration.Proofs.Manifest.Reread
import PackageMigration.Proofs.Mapping.Reworded
/-
  A manifest that was converted, repaired and written has nothing to convert when it is read again.

  * `Attribute.Repaired`: an attribute after a repair.
  * `IsSettled`: no value holds a mapped name.

  Main statements: `exists_repaired_of_mem` (where repaired attributes come from),
  `convertValues?_eq_none_of_repaired`, `exists_parse?_of_convertValues?` (converted values are read
  back and stay).
-/
namespace PackageMigration.Manifest

open Bytes (IsText)

/-! ## Repaired attributes -/

/-- An attribute after a repair: as it was, with the mark of a migration behind its value, or with
the new name of the entry it names. -/
def Attribute.Repaired (r : Repair) (version : Bytes) (a a' : Attribute) : Prop :=
  a'.name = a.name ∧ (a'.value = a.value ∨ a'.value = a.value ++ marker ++ version ∨
    a.isName ∧ r.renamed a.value = some a'.value)

theorem Section.mem_update {name : Bytes} {f : Bytes → Bytes} {s : Section} {a' : Attribute}
    (h : a' ∈ s.update name f) :
    a' ∈ s ∨ ∃ a ∈ s, (s.find? fun a => a.isNamed name) = some a ∧
      a' = { a with value := f a.value } := by
  induction s with
  | nil => cases h
  | cons a s ih =>
    rw [Section.update] at h
    cases hn : a.isNamed name with
    | true =>
      rw [if_pos hn] at h
      rcases List.mem_cons.1 h with rfl | h
      · exact .inr ⟨a, List.mem_cons_self, List.find?_cons_of_pos hn, rfl⟩
      · exact .inl (List.mem_cons_of_mem a h)
    | false =>
      rw [if_neg (by simp [hn])] at h
      rcases List.mem_cons.1 h with rfl | h
      · exact .inl List.mem_cons_self
      · rcases ih h with h | ⟨a₁, ha₁, hf, rfl⟩
        · exact .inl (List.mem_cons_of_mem a h)
        · exact .inr ⟨a₁, List.mem_cons_of_mem a ha₁,
            (List.find?_cons_of_neg (by simp [hn])).trans hf, rfl⟩

/-- Whether an attribute names an entry is told from its name. -/
theorem Attribute.isName_eq_of_name_eq {a a' : Attribute} (h : a'.name = a.name) :
    a'.isName = a.isName := by
  rw [isName, isName, isNamed, isNamed, h]

/-- The name of an entry is no digest. -/
theorem Attribute.isDigest_eq_false_of_isName {a : Attribute} (h : a.isName) : a.isDigest = false := by
  have hlower : Bytes.lower a.name = Bytes.lower nameAttribute := eq_of_beq h
  rw [isDigest, hlower]
  decide

/-- The first attribute of a name stays the first when all attributes of the name stay. -/
theorem Section.find?_filter_isNamed {p : Attribute → Bool} {name : Bytes}
    (hp : ∀ a : Attribute, a.isNamed name → p a) (s : Section) :
    (s.filter p).find? (fun a => a.isNamed name) = s.find? fun a => a.isNamed name := by
  rw [List.find?_filter]
  refine List.find?_congr fun a _ => ?_
  cases hn : a.isNamed name with
  | false => simp
  | true => simp [hp a hn]

theorem Section.find?_withoutDigests (s : Section) :
    (s.withoutDigests.find? fun a => a.isName) = s.find? fun a => a.isName :=
  s.find?_filter_isNamed fun a hn => by rw [Attribute.isDigest_eq_false_of_isName hn, Bool.not_false]

theorem Section.exists_repaired_of_mem {r : Repair} (version : Bytes) {s : Section} {a' : Attribute}
    (h : a' ∈ s.repair r) : ∃ a ∈ s, a.Repaired r version a' := by
  have hsame : ∀ {a}, a ∈ s.withoutDigests → a ∈ s := fun h => List.mem_of_mem_filter h
  unfold Section.repair at h
  split at h
  · exact ⟨a', h, rfl, .inl rfl⟩
  next name hname =>
    dsimp only at h
    generalize hk : (if (r.signed || r.changed name) = true then s.withoutDigests else s) = kept at h
    have hkept : (∀ a ∈ kept, a ∈ s) ∧ (kept.find? fun a => a.isName) = s.find? fun a => a.isName := by
      rw [← hk]
      split
      · exact ⟨fun _ => hsame, s.find?_withoutDigests⟩
      · exact ⟨fun _ => id, rfl⟩
    split at h
    · exact ⟨a', hkept.1 a' h, rfl, .inl rfl⟩
    next new hnew =>
      rcases Section.mem_update h with h | ⟨a, ha, hf, rfl⟩
      · exact ⟨a', hkept.1 a' h, rfl, .inl rfl⟩
      · have hfind : (s.find? fun a => a.isName) = some a := hkept.2.symm.trans hf
        have hvalue : a.value = name := by
          have hname' : (s.find? fun a => a.isName).map Attribute.value = some name := hname
          rw [hfind] at hname'
          exact Option.some.inj hname'
        exact ⟨a, hkept.1 a ha, rfl, .inr (.inr ⟨List.find?_some hfind, hvalue ▸ hnew⟩)⟩

theorem entries_stamp? (version : Bytes) (m : Manifest) :
    ((m.stamp? version).getD m).entries = m.entries := by
  unfold stamp?
  split
  · rfl
  · split <;> rfl

/-- **Every attribute of a repaired manifest was one before.** -/
theorem exists_repaired_of_mem {r : Repair} {version : Bytes} {m : Manifest} {s' : Section}
    {a' : Attribute} (hs' : s' ∈ (m.repair r version).sections) (ha' : a' ∈ s') :
    ∃ s ∈ m.sections, ∃ a ∈ s, a.Repaired r version a' := by
  have hstamp : ∀ a' ∈ ((m.stamp? version).getD m).main, ∃ a ∈ m.main, a.Repaired r version a' := by
    have hsame : ∀ a' ∈ m.main, ∃ a ∈ m.main, a.Repaired r version a' :=
      fun a' ha' => ⟨a', ha', rfl, .inl rfl⟩
    unfold stamp?
    split
    · exact hsame
    split
    · exact hsame
    intro a' ha'
    rcases Section.mem_update ha' with ha' | ⟨a, ha, -, rfl⟩
    · exact hsame a' ha'
    · exact ⟨a, ha, rfl, .inr (.inl rfl)⟩
  rcases List.mem_cons.1 hs' with rfl | hs'
  · have hmain : a' ∈ ((m.stamp? version).getD m).main := by
      unfold repair at ha'
      dsimp only at ha'
      split at ha'
      · exact List.mem_of_mem_filter ha'
      · exact ha'
    exact ⟨m.main, List.mem_cons_self, hstamp a' hmain⟩
  · obtain ⟨s, hs, rfl⟩ := List.mem_map.1 (List.mem_of_mem_filter hs')
    rw [entries_stamp?] at hs
    exact ⟨s, List.mem_cons_of_mem _ hs, Section.exists_repaired_of_mem version ha'⟩

/-! ## Values without mapped names -/

/-- No value holds a mapped name, apart from names of entries. -/
def IsSettled (t : Table) (m : Manifest) : Prop :=
  ∀ s ∈ m.sections, ∀ a ∈ s, ¬ a.isName → t.convert? a.value = none

section
variable {t : Table} {m m' : Manifest} {p : Profile}

theorem IsSettled.convertValues?_eq_none (h : m.IsSettled t) : m.convertValues? t = none := by
  have hnone : ∀ s ∈ m.sections, ∀ a ∈ s, a.convertValue? t = none := by
    intro s hs a ha
    unfold Attribute.convertValue?
    split
    · rfl
    next hn => rw [Table.convertText?, h s hs a ha hn]; rfl
  unfold convertValues?
  rw [if_neg]
  simp only [List.any_eq_true, not_exists, not_and]
  intro s hs a ha
  rw [hnone s hs a ha]
  exact Bool.false_ne_true

theorem getD_convertValues? (t : Table) (m : Manifest) :
    (m.convertValues? t).getD m = m.mapAttributes (Attribute.converted t) := by
  unfold convertValues?
  split
  · rfl
  next h =>
    have hsame : ∀ s ∈ m.sections, s.map (Attribute.converted t) = s := by
      intro s hs
      refine (List.map_congr_left fun a ha => ?_).trans (List.map_id s)
      simp only [List.any_eq_true, not_exists, not_and, Bool.not_eq_true,
        Option.isSome_eq_false_iff, Option.isNone_iff_eq_none] at h
      rw [Attribute.converted, h s hs a ha]
      rfl
    obtain ⟨hmain, hentries⟩ := List.forall_mem_cons.1 hsame
    have hmap : m.entries.map (List.map (Attribute.converted t)) = m.entries :=
      (List.map_congr_left hentries).trans (List.map_id m.entries)
    rw [mapAttributes, hmain, hmap]
    rfl

theorem exists_of_mem_mapAttributes {f : Attribute → Attribute} {s' : Section} {a' : Attribute}
    (hs' : s' ∈ (m.mapAttributes f).sections) (ha' : a' ∈ s') :
    ∃ s ∈ m.sections, ∃ a ∈ s, a' = f a := by
  have hsections : (m.mapAttributes f).sections = m.sections.map (List.map f) := rfl
  obtain ⟨s, hs, rfl⟩ := List.mem_map.1 (hsections ▸ hs')
  obtain ⟨a, ha, rfl⟩ := List.mem_map.1 ha'
  exact ⟨s, hs, a, ha, rfl⟩

/-- New bytes of a line do not end it. -/
theorem isLine_of_reworded {s s' : Bytes} (h : Reworded s s') (hs : IsLine s) : IsLine s' :=
  ⟨fun hm => (h.mem_or hm).elim hs.cr_notMem (by decide),
    fun hm => (h.mem_or hm).elim hs.lf_notMem (by decide)⟩

theorem Attribute.converted_eq {a : Attribute} (h : a.IsProper) :
    a.converted t = if a.isName then a else { a with value := t.convert a.value } := by
  rw [Attribute.converted, Attribute.convertValue?]
  split
  · rfl
  · rw [Table.convertText?_of_isText h.isText_value, Table.convert]

/-- A value that is converted stays on its line. -/
theorem isProper_convertValues? (h : m.IsProper) : ((m.convertValues? t).getD m).IsProper := by
  rw [getD_convertValues?]
  intro s' hs' a' ha'
  obtain ⟨s, hs, a, ha, rfl⟩ := exists_of_mem_mapAttributes hs' ha'
  have ha := h s hs a ha
  rw [Attribute.converted_eq ha]
  split
  · exact ha
  · exact { ha with
      isLine_value := isLine_of_reworded (t.reworded_convert a.value) ha.isLine_value
      isText_value := Table.isText_convert ha.isText_value }

theorem isSettled_convertValues? (h : m.IsProper) :
    ((m.convertValues? p.table).getD m).IsSettled p.table := by
  rw [getD_convertValues?]
  intro s' hs' a' ha' hn
  obtain ⟨s, hs, a, ha, rfl⟩ := exists_of_mem_mapAttributes hs' ha'
  rw [Attribute.converted_eq (h s hs a ha)] at hn ⊢
  by_cases hname : a.isName
  · rw [if_pos hname] at hn
    exact absurd hname hn
  · rw [if_neg hname]
    exact p.isSettled_table.convert?_convert a.value

/-- A repair keeps to what can be read, if new names of entries and the version do. -/
theorem IsProper.repair {r : Repair} {version : Bytes} (h : m.IsProper)
    (hr : ∀ {name new}, r.renamed name = some new → Reworded name new)
    (hversion : IsLine version ∧ IsText version) : (m.repair r version).IsProper := by
  intro s' hs' a' ha'
  obtain ⟨s, hs, a, ha, hname, hvalue⟩ := exists_repaired_of_mem hs' ha'
  have ha := h s hs a ha
  have hline : IsLine a'.value ∧ IsText a'.value := by
    rcases hvalue with hv | hv | ⟨-, hv⟩
    · exact hv ▸ ⟨ha.isLine_value, ha.isText_value⟩
    · rw [hv]
      have hmarker : IsLine marker ∧ IsText marker := ⟨⟨by decide, by decide⟩, Bytes.isText_bytes _⟩
      exact ⟨isLine_append_iff.2 ⟨isLine_append_iff.2 ⟨ha.isLine_value, hmarker.1⟩, hversion.1⟩,
        (ha.isText_value.append hmarker.2).append hversion.2⟩
    · exact ⟨isLine_of_reworded (hr hv) ha.isLine_value, (hr hv).isText ha.isText_value⟩
  exact ⟨hname ▸ ha.name_ne_nil, hname ▸ ha.space_notMem, hname ▸ ha.colon_notMem,
    hname ▸ ha.isLine_name, hline.1, hname ▸ ha.isText_name, hline.2⟩

/-- A repair brings no mapped name into a value, if there is none in the mark of a migration. -/
theorem IsSettled.repair {r : Repair} {version : Bytes} (h : m.IsSettled t)
    (hversion : ∀ {s}, t.convert? s = none → t.convert? (s ++ marker ++ version) = none) :
    (m.repair r version).IsSettled t := by
  intro s' hs' a' ha' hn
  obtain ⟨s, hs, a, ha, hname, hvalue⟩ := exists_repaired_of_mem hs' ha'
  rw [Attribute.isName_eq_of_name_eq hname] at hn
  rcases hvalue with hv | hv | ⟨ha, -⟩
  · exact hv ▸ h s hs a ha hn
  · exact hv ▸ hversion (h s hs a ha hn)
  · exact absurd ha hn

/-- Writing and reading brings no mapped name into a value. -/
theorem IsSettled.reread (hs : m.IsSettled t) (hm : m.IsProper) (h : parse? m.bytes = .ok m') :
    m'.IsSettled t := by
  obtain ⟨-, rfl⟩ := (parse?_bytes_eq_ok_iff hm).1 h
  have hsection : ∀ s ∈ m.sections, ∀ a' ∈ s.map Attribute.readBack, ¬ a'.isName →
      t.convert? a'.value = none := by
    intro s hmem a' ha' hn
    obtain ⟨a, ha, rfl⟩ := List.mem_map.1 ha'
    rw [Attribute.isName_eq_of_name_eq a.name_readBack] at hn
    have hnone := hs s hmem a ha hn
    rcases a.value_readBack with hv | hv
    · rw [hv, hnone]
    · rw [hv]
      exact (Table.convert?_append_cons_eq_none_iff (s := []) (by decide) (by decide)).2 ⟨rfl, hnone⟩
  intro s' hs'
  rcases List.mem_cons.1 hs' with rfl | hs'
  · exact hsection _ List.mem_cons_self
  · obtain ⟨s, hmem, rfl⟩ := List.mem_map.1 hs'
    exact hsection s (List.mem_cons_of_mem _ (List.mem_of_mem_filter hmem))

/-- Converted values do not change the names. -/
theorem exists_name_eq_of_converted {s' : Section} {a' : Attribute}
    (hs' : s' ∈ ((m.convertValues? t).getD m).sections) (ha' : a' ∈ s') :
    ∃ s ∈ m.sections, ∃ a ∈ s, a'.name = a.name := by
  rw [getD_convertValues?] at hs'
  obtain ⟨s, hs, a, ha, rfl⟩ := exists_of_mem_mapAttributes hs' ha'
  exact ⟨s, hs, a, ha, rfl⟩

/-- **A manifest with converted values has none to convert when it is read again**, if it can be read. -/
theorem exists_parse?_of_convertValues? {data : Bytes} (hm : parse? data = .ok m)
    (hlt : ∀ s ∈ m.sections, ∀ a ∈ s, a.name.length < width) (h : m.convertValues? p.table = some m') :
    ∃ m'', parse? m'.bytes = .ok m'' ∧ m''.convertValues? p.table = none := by
  obtain rfl : (m.convertValues? p.table).getD m = m' := by rw [h, Option.getD_some]
  have hproper := isProper_of_parse? hm
  have hparse := (parse?_bytes_eq_ok_iff (isProper_convertValues? (t := p.table) hproper)).2
    ⟨fun s' hs' a' ha' => by
      obtain ⟨s, hs, a, ha, hname⟩ := exists_name_eq_of_converted hs' ha'
      exact hname ▸ hlt s hs a ha, rfl⟩
  exact ⟨_, hparse, ((isSettled_convertValues? hproper).reread (isProper_convertValues? hproper)
    hparse).convertValues?_eq_none⟩

/-- A word without the bytes that end names and lines stands in front of a manifest with converted values
only if it stood in front of the manifest. -/
theorem prefix_of_prefix_convertValues? {data w : Bytes} (hm : parse? data = .ok m)
    (hlt : ∀ s ∈ m.sections, ∀ a ∈ s, a.name.length < width) (hcolon : Byte.colon ∉ w)
    (hcr : Byte.cr ∉ w) (hw : w <+: ((m.convertValues? t).getD m).bytes) : w <+: data := by
  have hproper := isProper_convertValues? (t := t) (isProper_of_parse? hm)
  have hmain : ((m.convertValues? t).getD m).main = m.main.map (Attribute.converted t) := by
    rw [getD_convertValues?]
    rfl
  generalize (m.convertValues? t).getD m = m' at hmain hproper hw
  rw [bytes, sections, List.flatMap_cons, Section.bytes, hmain] at hw
  cases ha : m.main with
  | nil =>
    rw [ha, List.map_nil, List.flatMap_nil, List.nil_append, lineEnd, List.cons_append] at hw
    cases w with
    | nil => exact List.nil_prefix
    | cons b w =>
      obtain ⟨rfl, -⟩ := List.cons_prefix_cons.1 hw
      exact absurd List.mem_cons_self hcr
  | cons a s =>
    have hname : (a.converted t).name ++ [Byte.colon] <+: (a.converted t).bytes :=
      (hproper m'.main List.mem_cons_self _ (by simp [hmain, ha])).name_prefix_bytes
        (hlt m.main List.mem_cons_self a (by simp [ha]))
    rw [ha, List.map_cons, List.flatMap_cons, List.append_assoc, List.append_assoc] at hw
    rcases List.prefix_or_prefix_of_prefix hw (hname.trans (List.prefix_append _ _)) with hw | hw
    · rcases List.prefix_concat_iff.1 hw with rfl | hw
      · exact absurd (by simp) hcolon
      · have hfirst : a.name <+: data := prefix_of_parse? hm ha
        exact hw.trans hfirst
    · exact absurd (hw.subset (by simp)) hcolon

/-- **A manifest that was repaired has no values to convert when it is read again.** -/
theorem convertValues?_eq_none_of_repaired {data version : Bytes} {r : Repair}
    (hm : parse? data = .ok m)
    (hr : ∀ {name new}, r.renamed name = some new → Reworded name new)
    (hversion : IsLine version ∧ IsText version)
    (hmark : ∀ {s}, p.table.convert? s = none → p.table.convert? (s ++ marker ++ version) = none)
    (h : parse? ((((m.convertValues? p.table).getD m).repair r version).bytes) = .ok m') :
    m'.convertValues? p.table = none := by
  have hproper := isProper_of_parse? hm
  have hsettled := isSettled_convertValues? (p := p) hproper
  have hrepaired := (isProper_convertValues? (t := p.table) hproper).repair hr hversion
  exact ((hsettled.repair hmark).reread hrepaired h).convertValues?_eq_none

end

end PackageMigration.Manifest
