import PackageMigration.Proofs.Manifest.Repair
/-
  What a repair makes of a section about an entry.

  * `Section.SaysMore`: the section says more about its entry than its name and its digests.

  Main statements: `Section.name?_repair` (the section follows its entry),
  `Section.withoutDigests_repair` (the other attributes stay), `Section.mem_repair_of_isDigest` (which
  digests stay), `entries_repair` (which sections are left).
-/
namespace PackageMigration.Manifest

/-! ## Converted attributes -/

namespace Attribute

variable {t : Table} {a : Attribute}

theorem converted_of_isName (h : a.isName) : a.converted t = a := by
  rw [converted, convertValue?, if_pos h]
  rfl

end Attribute

namespace Section

/-- The section says more about its entry than its name and its digests. -/
def SaysMore (s : Section) : Prop := ∃ a ∈ s, ¬ a.isName ∧ ¬ a.isDigest

variable {t : Table} {r : Repair} {s : Section} {a : Attribute} {name value : Bytes}

theorem name?_map_converted (t : Table) (s : Section) :
    Section.name? (s.map (Attribute.converted t)) = s.name? := by
  rw [name?, name?, value?, value?, List.find?_map, Option.map_map]
  have hnamed : ((fun a => a.isNamed nameAttribute) ∘ Attribute.converted t) =
      fun a => a.isNamed nameAttribute := rfl
  rw [hnamed]
  cases hf : s.find? fun a => a.isNamed nameAttribute with
  | none => rfl
  | some a =>
    have hn : a.isName := List.find?_some hf
    rw [Option.map_some, Option.map_some, Function.comp, Attribute.converted_of_isName hn]

theorem withoutDigests_map_converted (t : Table) (s : Section) :
    Section.withoutDigests (s.map (Attribute.converted t)) =
      s.withoutDigests.map (Attribute.converted t) := by
  rw [withoutDigests, List.filter_map]
  rfl

theorem SaysMore.map_converted (h : s.SaysMore) (t : Table) :
    Section.SaysMore (s.map (Attribute.converted t)) := by
  obtain ⟨a, ha, hn, hd⟩ := h
  exact ⟨a.converted t, List.mem_map_of_mem ha, hn, hd⟩

/-! ## Updates -/

theorem value?_cons (a : Attribute) (s : Section) (name : Bytes) :
    Section.value? (a :: s) name = if a.isNamed name then some a.value else s.value? name := by
  rw [value?, List.find?_cons]
  cases a.isNamed name <;> rfl

theorem value?_update (f : Bytes → Bytes) (s : Section) (name : Bytes) :
    (s.update name f).value? name = (s.value? name).map f := by
  induction s with
  | nil => rfl
  | cons a s ih =>
    rw [update, value?_cons]
    by_cases hn : a.isNamed name
    · rw [if_pos hn, if_pos hn, value?_cons]
      exact if_pos hn
    · rw [if_neg hn, if_neg hn, value?_cons, if_neg hn, ih]

/-- An update to the value that is there changes nothing. -/
theorem update_of_value?_eq_some (h : s.value? name = some value) :
    (s.update name fun _ => value) = s := by
  induction s with
  | nil => rfl
  | cons a s ih =>
    rw [value?_cons] at h
    rw [update]
    by_cases hn : a.isNamed name
    · rw [if_pos hn] at h ⊢
      obtain rfl := Option.some.inj h
      rfl
    · rw [if_neg hn] at h ⊢
      rw [ih h]

theorem mem_update_of_not_isNamed (h : a ∈ s) (hn : ¬ a.isNamed name) (f : Bytes → Bytes) :
    a ∈ s.update name f := by
  induction s with
  | nil => cases h
  | cons b s ih =>
    rw [update]
    rcases List.mem_cons.1 h with rfl | h
    · rw [if_neg hn]
      exact List.mem_cons_self
    · split
      · exact List.mem_cons_of_mem _ h
      · exact List.mem_cons_of_mem _ (ih h)

/-- The attribute that an update is about, with what stands before and behind it. -/
theorem exists_update_eq_append (h : s.value? name = some value) (f : Bytes → Bytes) :
    ∃ before after a, s = before ++ a :: after ∧ (∀ b ∈ before, ¬ b.isNamed name) ∧ a.isNamed name ∧
      a.value = value ∧ s.update name f = before ++ { a with value := f a.value } :: after := by
  induction s with
  | nil => cases h
  | cons a s ih =>
    rw [value?_cons] at h
    rw [update]
    by_cases hn : a.isNamed name
    · rw [if_pos hn] at h ⊢
      exact ⟨[], s, a, rfl, List.forall_mem_nil _, hn, Option.some.inj h, rfl⟩
    · rw [if_neg hn] at h ⊢
      obtain ⟨before, after, b, rfl, hbefore, hb, hvalue, hupdate⟩ := ih h
      exact ⟨a :: before, after, b, rfl, List.forall_mem_cons.2 ⟨hn, hbefore⟩, hb, hvalue,
        congrArg _ hupdate⟩

/-- An update commutes with a choice of attributes that takes all of the name. -/
theorem filter_update {p : Attribute → Bool} (hp : ∀ a : Attribute, a.isNamed name → p a)
    (f : Bytes → Bytes) (s : Section) :
    (s.update name f).filter p = Section.update name f (s.filter p) := by
  induction s with
  | nil => rfl
  | cons a s ih =>
    rw [update]
    by_cases hn : a.isNamed name
    · have hn' : ({ a with value := f a.value } : Attribute).isNamed name := hn
      rw [if_pos hn, List.filter_cons_of_pos (hp _ hn'), List.filter_cons_of_pos (hp a hn), update,
        if_pos hn]
    · rw [if_neg hn, List.filter_cons, List.filter_cons, ih]
      split
      · rw [update, if_neg hn]
      · rfl

/-- An update makes no difference to a choice of attributes that takes none of the name. -/
theorem filter_update_of_not {p : Attribute → Bool} (hp : ∀ a : Attribute, a.isNamed name → ¬ p a)
    (f : Bytes → Bytes) (s : Section) : (s.update name f).filter p = s.filter p := by
  induction s with
  | nil => rfl
  | cons a s ih =>
    rw [update]
    by_cases hn : a.isNamed name
    · have hn' : ({ a with value := f a.value } : Attribute).isNamed name := hn
      rw [if_pos hn, List.filter_cons_of_neg (hp _ hn'), List.filter_cons_of_neg (hp a hn)]
    · rw [if_neg hn, List.filter_cons, List.filter_cons, ih]

theorem map_name_update (f : Bytes → Bytes) (s : Section) :
    (s.update name f).map Attribute.name = s.map Attribute.name := by
  induction s with
  | nil => rfl
  | cons a s ih =>
    rw [update]
    split
    · rfl
    · rw [List.map_cons, ih, List.map_cons]

/-- The name of an entry is no digest, so it does not matter which of the two is changed first. -/
theorem withoutDigests_update (f : Bytes → Bytes) (s : Section) :
    (s.update nameAttribute f).withoutDigests = s.withoutDigests.update nameAttribute f :=
  filter_update (fun a hn => by rw [Attribute.isDigest_eq_false_of_isName hn, Bool.not_false]) f s

theorem not_isDigest_of_mem_withoutDigests (h : a ∈ s.withoutDigests) : ¬ a.isDigest := by
  have ha := List.of_mem_filter h
  simpa using ha

theorem name?_withoutDigests (s : Section) : s.withoutDigests.name? = s.name? :=
  congrArg (Option.map Attribute.value) s.find?_withoutDigests

/-! ## Repairs -/

/-- A section about an entry is repaired in two steps: digests go, and it gets the name that the entry
has then. -/
theorem repair_eq (h : s.name? = some name) :
    s.repair r = (if r.signed || r.changed name then s.withoutDigests else s).update nameAttribute
      fun _ => (r.renamed name).getD name := by
  have hkept : (if r.signed || r.changed name then s.withoutDigests else s).name? = some name := by
    split
    · rw [name?_withoutDigests, h]
    · exact h
  rw [repair, h]
  dsimp only
  cases r.renamed name with
  | none => exact (update_of_value?_eq_some hkept).symm
  | some new => rfl

/-- **A repaired section follows its entry.** -/
theorem name?_repair (h : s.name? = some name) :
    (s.repair r).name? = some ((r.renamed name).getD name) := by
  rw [repair_eq h, name?, value?_update]
  split
  · rw [← name?, name?_withoutDigests, h]
    rfl
  · rw [← name?, h]
    rfl

/-- **What a section says besides digests stays**, but for the name of its entry. -/
theorem withoutDigests_repair (h : s.name? = some name) :
    (s.repair r).withoutDigests =
      s.withoutDigests.update nameAttribute fun _ => (r.renamed name).getD name := by
  rw [repair_eq h, withoutDigests_update]
  split
  · rw [withoutDigests, withoutDigests, List.filter_filter]
    simp only [Bool.and_self]
  · rfl

/-- **A digest stays only if its entry did not change** and no signature is given up. -/
theorem mem_repair_of_isDigest (h : s.name? = some name) (ha : a ∈ s.repair r) (hd : a.isDigest) :
    a ∈ s ∧ r.signed = false ∧ r.changed name = false := by
  have hn : ¬ a.isName := fun hn => by rw [Attribute.isDigest_eq_false_of_isName hn] at hd; cases hd
  rw [repair_eq h] at ha
  rcases mem_update ha with ha | ⟨b, -, hb, rfl⟩
  · split at ha
    · exact absurd hd (not_isDigest_of_mem_withoutDigests ha)
    next hkept => exact ⟨ha, by simpa using hkept⟩
  · exact absurd (List.find?_some hb) hn

theorem isNameOnly_repair (h : s.name? = some name) (hmore : s.SaysMore) :
    (s.repair r).isNameOnly = false := by
  obtain ⟨a, ha, hn, hd⟩ := hmore
  rw [isNameOnly, List.all_eq_false]
  refine ⟨a, ?_, hn⟩
  rw [repair_eq h]
  refine mem_update_of_not_isNamed ?_ hn _
  split
  · exact List.mem_filter.2 ⟨ha, by simpa using hd⟩
  · exact ha

end Section

/-- The sections of a repaired manifest. -/
theorem entries_repair (r : Repair) (version : Bytes) (m : Manifest) :
    (m.repair r version).entries = (m.entries.map (Section.repair r)).filter fun s => !s.isNameOnly := by
  rw [repair]
  dsimp only
  rw [entries_stamp?]

end PackageMigration.Manifest
