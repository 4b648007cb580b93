import PackageMigration.Proofs.Manifest.Section
/-
  What a repair leaves as it was.

  * `Section.plain`, `Section.digests`, `Section.names`: the attributes of a section by their kind.
  * `Section.Stamped`: a section whose version is marked as migrated.
  * `Section.RepairedMain`, `Section.Repaired`: the main section and one about an entry, before and
    after a repair.

  Main statements: `Section.repairedMain_repair`, `Section.repaired_repair`, `repair_frame`.
-/
namespace PackageMigration

/-- Bytes occur in others if they are a part of them. -/
theorem Bytes.occursIn_iff {needle s : Bytes} : occursIn needle s ↔ needle <:+: s := by
  induction s with
  | nil => rw [occursIn, List.isEmpty_iff, List.infix_nil]
  | cons b s ih => rw [occursIn, Bool.or_eq_true, ih, List.isPrefixOf_iff_prefix, List.infix_cons_iff]

namespace Manifest

namespace Attribute

/-- The attribute is neither the name of an entry nor a digest. -/
def isPlain (a : Attribute) : Bool := !a.isName && !a.isDigest

theorem not_isPlain_of_isName {a : Attribute} (h : a.isName) : ¬ a.isPlain := by
  rw [isPlain, h, Bool.not_true, Bool.false_and]
  exact Bool.false_ne_true

theorem not_isPlain_of_isDigest {a : Attribute} (h : a.isDigest) : ¬ a.isPlain := by
  rw [isPlain, h, Bool.not_true, Bool.and_false]
  exact Bool.false_ne_true

theorem not_isDigest_of_isName {a : Attribute} (h : a.isName) : ¬ a.isDigest := by
  rw [isDigest_eq_false_of_isName h]
  exact Bool.false_ne_true

/-- The version of an archive is told from names and digests by its name. -/
theorem isPlain_of_isNamed_versionAttribute {a : Attribute} (h : a.isNamed versionAttribute) :
    a.isPlain := by
  have hlower : Bytes.lower a.name = Bytes.lower versionAttribute := eq_of_beq h
  rw [isPlain, isName, isNamed, Bytes.sameIgnoringCase, isDigest, hlower]
  decide

end Attribute

namespace Section

/-- What a section says besides names and digests. -/
def plain (s : Section) : Section := s.filter Attribute.isPlain

/-- The digests of a section. -/
def digests (s : Section) : Section := s.filter Attribute.isDigest

/-- The names in a section. It is about the entry of the first one. -/
def names (s : Section) : List Bytes := (s.filter Attribute.isName).map Attribute.value

/-- A section and the one with its version marked as migrated. The first attribute of the name counts,
and a version that is marked already stays. -/
inductive Stamped (version : Bytes) : Section → Section → Prop
  | same {s : Section} : (∀ v, s.value? versionAttribute = some v → marker <:+: v) → Stamped version s s
  | marked {before after : Section} {a : Attribute} :
      (∀ b ∈ before, ¬ b.isNamed versionAttribute) → a.isNamed versionAttribute → ¬ marker <:+: a.value →
      Stamped version (before ++ a :: after)
        (before ++ { a with value := a.value ++ marker ++ version } :: after)

/-- The main section before and after a repair. -/
structure RepairedMain (r : Repair) (version : Bytes) (s s' : Section) : Prop where
  plain : Stamped version s.plain s'.plain
  digests : s'.digests = if r.signed then [] else s.digests
  names : s'.names = s.names
  /-- What stays is in its order. -/
  sublist : (s'.map Attribute.name).Sublist (s.map Attribute.name)

/-- A section about an entry before and after a repair. -/
structure Repaired (r : Repair) (s s' : Section) : Prop where
  plain : s'.plain = s.plain
  digests : s'.digests = if s.name?.any (fun name => r.signed || r.changed name) then [] else s.digests
  name? : s'.name? = s.name?.map fun name => (r.renamed name).getD name
  /-- A section with further names keeps them. -/
  tail_names : s'.names.tail = s.names.tail
  /-- What stays is in its order. -/
  sublist : (s'.map Attribute.name).Sublist (s.map Attribute.name)

section
variable {r : Repair} {version : Bytes} {s : Section}

/-! ## Attributes by kind -/

theorem plain_withoutDigests (s : Section) : s.withoutDigests.plain = s.plain := by
  rw [withoutDigests, plain, plain, List.filter_filter]
  refine List.filter_congr fun a _ => ?_
  rw [Attribute.isPlain, Bool.and_assoc, Bool.and_self]

theorem digests_withoutDigests (s : Section) : s.withoutDigests.digests = [] := by
  rw [digests, List.filter_eq_nil_iff]
  exact fun a ha => not_isDigest_of_mem_withoutDigests ha

theorem names_withoutDigests (s : Section) : s.withoutDigests.names = s.names := by
  rw [names, names, withoutDigests, List.filter_filter]
  refine congrArg _ (List.filter_congr fun a _ => ?_)
  cases hn : a.isName with
  | false => rfl
  | true => rw [Attribute.isDigest_eq_false_of_isName hn]; rfl

/-! ## Sections about entries -/

theorem tail_names_update (f : Bytes → Bytes) (s : Section) :
    (s.update nameAttribute f).names.tail = s.names.tail := by
  rw [names, names, filter_update (p := Attribute.isName) fun _ hn => hn]
  cases hs : s.filter Attribute.isName with
  | nil => rfl
  | cons a s' =>
    have ha : a ∈ s.filter Attribute.isName := hs ▸ List.mem_cons_self
    have hn : a.isNamed nameAttribute := (List.mem_filter.1 ha).2
    rw [update, if_pos hn]
    rfl

/-- **What a repair does to a section about an entry.** A section about no entry stays. -/
theorem repaired_repair (r : Repair) (s : Section) : Repaired r s (s.repair r) := by
  cases h : s.name? with
  | none =>
    have hsame : s.repair r = s := by rw [repair, h]
    rw [hsame]
    exact ⟨rfl, by rw [h]; rfl, by rw [h]; rfl, rfl, .refl _⟩
  | some name =>
    refine ⟨?_, ?_, by rw [h]; exact name?_repair h, ?_, ?_⟩
    · rw [repair_eq h, plain, filter_update_of_not fun _ => Attribute.not_isPlain_of_isName]
      split
      · exact plain_withoutDigests s
      · rfl
    · rw [repair_eq h, digests, filter_update_of_not fun _ => Attribute.not_isDigest_of_isName, h,
        Option.any_some]
      split
      · exact digests_withoutDigests s
      · rfl
    · rw [repair_eq h, tail_names_update]
      split
      · rw [names_withoutDigests]
      · rfl
    · rw [repair_eq h, map_name_update]
      split
      · exact List.filter_sublist.map _
      · exact .refl _

/-! ## The main section -/

theorem value?_plain (s : Section) : s.plain.value? versionAttribute = s.value? versionAttribute :=
  congrArg (Option.map Attribute.value)
    (s.find?_filter_isNamed fun _ => Attribute.isPlain_of_isNamed_versionAttribute)

theorem plain_update (f : Bytes → Bytes) (s : Section) :
    (s.update versionAttribute f).plain = s.plain.update versionAttribute f :=
  filter_update (fun _ => Attribute.isPlain_of_isNamed_versionAttribute) f s

theorem stamped_update {v : Bytes} (h : s.value? versionAttribute = some v) (hv : ¬ marker <:+: v) :
    Stamped version s (Section.update versionAttribute (fun v => v ++ marker ++ version) s) := by
  obtain ⟨before, after, a, hs, hbefore, ha, rfl, hupdate⟩ :=
    exists_update_eq_append h fun v => v ++ marker ++ version
  rw [hupdate, hs]
  exact .marked hbefore ha hv

end

end Section

/-- A version is marked once, and a manifest without a version stays. -/
theorem main_stamp? (version : Bytes) (m : Manifest) :
    ((m.stamp? version).getD m).main = m.main ∧
        (∀ v, m.main.value? versionAttribute = some v → marker <:+: v) ∨
      ((m.stamp? version).getD m).main =
          m.main.update versionAttribute (fun v => v ++ marker ++ version) ∧
        ∃ v, m.main.value? versionAttribute = some v ∧ ¬ marker <:+: v := by
  unfold stamp? implementationVersion?
  cases hv : m.main.value? versionAttribute with
  | none => exact .inl ⟨rfl, nofun⟩
  | some v =>
    dsimp only
    split
    next hmarked =>
      refine .inl ⟨rfl, ?_⟩
      rintro _ ⟨⟩
      exact Bytes.occursIn_iff.1 hmarked
    next hnot => exact .inr ⟨rfl, v, rfl, fun hmarked => hnot (Bytes.occursIn_iff.2 hmarked)⟩

/-- Marking the version changes nothing else in the main section. -/
theorem stamped_stamp? (version : Bytes) (m : Manifest) :
    Section.Stamped version m.main.plain ((m.stamp? version).getD m).main.plain ∧
      ((m.stamp? version).getD m).main.digests = m.main.digests ∧
      ((m.stamp? version).getD m).main.names = m.main.names ∧
      ((m.stamp? version).getD m).main.map Attribute.name = m.main.map Attribute.name := by
  rcases main_stamp? version m with ⟨hsame, hmarked⟩ | ⟨hupdate, v, hv, hnot⟩
  · rw [hsame]
    exact ⟨.same (by rwa [Section.value?_plain]), rfl, rfl, rfl⟩
  · have hplain : ∀ a : Attribute, a.isNamed versionAttribute → a.isPlain :=
      fun _ => Attribute.isPlain_of_isNamed_versionAttribute
    have hdigest : ∀ a : Attribute, a.isNamed versionAttribute → ¬ a.isDigest :=
      fun a ha hd => Attribute.not_isPlain_of_isDigest hd (hplain a ha)
    have hname : ∀ a : Attribute, a.isNamed versionAttribute → ¬ a.isName :=
      fun a ha hn => Attribute.not_isPlain_of_isName hn (hplain a ha)
    rw [hupdate, Section.plain_update]
    exact ⟨Section.stamped_update ((Section.value?_plain _).trans hv) hnot,
      Section.filter_update_of_not hdigest _ _,
      congrArg (List.map Attribute.value) (Section.filter_update_of_not hname _ _),
      Section.map_name_update _ _⟩

/-- **What a repair does to the main section.** -/
theorem Section.repairedMain_repair (r : Repair) (version : Bytes) (m : Manifest) :
    Section.RepairedMain r version m.main (m.repair r version).main := by
  obtain ⟨hplain, hdigests, hnames, hmap⟩ := stamped_stamp? version m
  have hmain : (m.repair r version).main = if r.signed then
      ((m.stamp? version).getD m).main.withoutDigests else ((m.stamp? version).getD m).main := rfl
  rw [hmain]
  by_cases hr : r.signed
  · rw [if_pos hr]
    refine ⟨?_, ?_, ?_, ?_⟩
    · rwa [plain_withoutDigests]
    · rw [digests_withoutDigests, if_pos hr]
    · rwa [names_withoutDigests]
    · exact hmap ▸ List.filter_sublist.map _
  · rw [if_neg hr]
    exact ⟨hplain, by rw [hdigests, if_neg hr], hnames, hmap ▸ .refl _⟩

/-- **A repair loses nothing else.** In the main section the version is marked, and digests go if the
signatures do. A section about an entry loses its digests if the entry changed or the signatures go,
and follows a renamed entry. All else stays in its place, and only sections that are left with names
alone are missing afterwards. -/
theorem repair_frame (r : Repair) (version : Bytes) (m : Manifest) :
    Section.RepairedMain r version m.main (m.repair r version).main ∧
    ∃ ss, List.Forall₂ (Section.Repaired r) m.entries ss ∧
      (m.repair r version).entries = ss.filter fun s => s.any fun a => !a.isName := by
  refine ⟨Section.repairedMain_repair r version m, m.entries.map (Section.repair r), ?_, ?_⟩
  · rw [List.forall₂_map_right_iff]
    exact List.forall₂_same.2 fun s _ => Section.repaired_repair r s
  · rw [entries_repair]
    refine List.filter_congr fun s _ => ?_
    rw [Section.isNameOnly, List.not_all_eq_any_not]

end Manifest

end PackageMigration
