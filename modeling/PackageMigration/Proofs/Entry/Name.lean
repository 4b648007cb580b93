import Mathlib.Data.List.Find
import PackageMigration.Entry.Name
import PackageMigration.Proofs.Bytes.Cut
import PackageMigration.Proofs.Profile
/-
  What an entry's name says about it does not depend on where packages have moved.

  * `IsRoot`: the words that a built-in table replaces by each other.

  Main statements: `isDirectory_moved`, `isClass_moved`, `isManifest_moved`, `isSignature_moved`,
  `isService_moved`, `hasExtension_of_moved`, `classRoot_moved`, `renameEntry?_renameEntry?`.
-/
namespace PackageMigration

namespace EntryName

open Profile (oldRoot newRoot)

/-- The words that a built-in table replaces by each other. -/
def IsRoot (x : Bytes) : Prop := x = oldRoot ∨ x = newRoot

section
variable {x y s s' : Bytes}

theorem IsRoot.ne_nil (hx : IsRoot x) : x ≠ [] := by
  rcases hx with rfl | rfl <;> decide

theorem IsRoot.slash_notMem (hx : IsRoot x) : Byte.slash ∉ x := by
  rcases hx with rfl | rfl <;> decide

theorem IsRoot.dot_notMem (hx : IsRoot x) : Byte.dot ∉ x := by
  rcases hx with rfl | rfl <;> decide

/-- The byte that both words begin with. -/
abbrev firstByte : UInt8 := 0x6A

theorem IsRoot.head? (hx : IsRoot x) : x.head? = some firstByte := by
  rcases hx with rfl | rfl <;> rfl

/-- What stands in front of all words stays. -/
theorem append_left_of_moved (hx : IsRoot x) {p w : Bytes} (h : Moved x y (p ++ w) s')
    (hp : firstByte ∉ p) : ∃ w', s' = p ++ w' ∧ Moved x y w w' :=
  h.append_left hx.ne_nil fun b hb he => hp (by
    rw [hx.head?, Option.some.injEq] at he
    exact he ▸ hb)

theorem eq_of_firstByte_notMem (hx : IsRoot x) (h : Moved x y s s') (hs : firstByte ∉ s) : s' = s := by
  obtain ⟨w', rfl, hw⟩ := append_left_of_moved hx (w := []) (by simpa using h) hs
  rw [hw.eq_nil hx.ne_nil, List.append_nil]

theorem firstByte_notMem {p q : Bytes} (h : Bytes.lower p = Bytes.lower q)
    (hq : firstByte ∉ Bytes.lower q) : firstByte ∉ p := by
  intro hp
  rw [← h] at hq
  exact hq (List.mem_map_of_mem (f := Byte.lower) hp)

/-! ## Kinds of names -/

theorem isDirectory_of_moved (hx : IsRoot x) (h : Moved x y s s') (hs : isDirectory s) :
    isDirectory s' := by
  simp only [isDirectory, beq_iff_eq] at hs ⊢
  obtain ⟨p, rfl⟩ := List.getLast?_eq_some_iff.1 hs
  obtain ⟨p', w', rfl, -, hw⟩ := h.append_cons hx.slash_notMem
  rw [hw.eq_nil hx.ne_nil]
  simp

theorem isClass_of_moved (hx : IsRoot x) (h : Moved x y s s') (hs : isClass s) : isClass s' := by
  simp only [isClass, List.isSuffixOf_iff_suffix] at hs ⊢
  obtain ⟨p, rfl⟩ := hs
  obtain ⟨p', w', rfl, -, hw⟩ := h.append_cons (w := bytes "class") hx.dot_notMem
  have hclass : ¬ x <:+: bytes "class" := by
    rcases hx with rfl | rfl <;> decide
  rw [hw.eq_of_not_isInfix hclass]
  exact List.suffix_append _ _

/-- A name in which no word can begin stays. -/
theorem sameIgnoringCase_of_moved (hx : IsRoot x) (h : Moved x y s s') {name : Bytes}
    (hname : firstByte ∉ Bytes.lower name) (hs : Bytes.sameIgnoringCase s name) :
    Bytes.sameIgnoringCase s' name := by
  rwa [eq_of_firstByte_notMem hx h (firstByte_notMem (eq_of_beq hs) hname)]

theorem isManifest_of_moved (hx : IsRoot x) (h : Moved x y s s') (hs : isManifest s) :
    isManifest s' :=
  sameIgnoringCase_of_moved hx h (by decide) hs

theorem isPrefixOf_of_moved (hx : IsRoot x) (h : Moved x y s s') {p : Bytes} (hp : firstByte ∉ p)
    (hs : p.isPrefixOf s) : p.isPrefixOf s' := by
  rw [List.isPrefixOf_iff_prefix] at hs ⊢
  obtain ⟨w, rfl⟩ := hs
  obtain ⟨w', rfl, -⟩ := append_left_of_moved hx h hp
  exact List.prefix_append _ _

theorem isService_of_moved (hx : IsRoot x) (h : Moved x y s s') (hs : isService s) : isService s' :=
  isPrefixOf_of_moved hx h (by decide) hs

theorem hasExtension_iff {extensions : List String} {name : Bytes} :
    hasExtension extensions name ↔ ∃ stem extension, stem ≠ [] ∧ Byte.slash ∉ stem ∧
      Byte.slash ∉ extension ∧ Byte.dot ∉ extension ∧
      (∃ e ∈ extensions, Bytes.sameIgnoringCase extension (bytes e)) ∧
      (name = stem ++ Byte.dot :: extension ∨
        ∃ d, name = d ++ Byte.slash :: (stem ++ Byte.dot :: extension)) := by
  unfold hasExtension
  constructor
  · intro h
    split at h
    · cases h
    next stem extension hc =>
      obtain ⟨hlast, hdot⟩ := Bytes.cutLast?_eq_some_iff.1 hc
      obtain ⟨hslash, hname⟩ := Bytes.lastPart_eq_iff.1 hlast
      simp only [Bool.and_eq_true, bne_iff_ne, List.any_eq_true] at h
      simp only [List.mem_append, List.mem_cons, not_or] at hslash
      exact ⟨stem, extension, h.1, hslash.1, hslash.2.2, hdot, h.2, hname⟩
  · rintro ⟨stem, extension, hne, hs, he, hdot, hext, hname⟩
    have hslash : Byte.slash ∉ stem ++ Byte.dot :: extension := by
      simp only [List.mem_append, List.mem_cons, hs, he, false_or, or_false]
      decide
    rw [Bytes.lastPart_eq_iff.2 ⟨hslash, hname⟩, Bytes.cutLast?_eq_some_iff.2 ⟨rfl, hdot⟩]
    simpa [hne] using hext

/-- The extensions of a kind do not have the word in them. -/
def Avoids (x : Bytes) (extensions : List String) : Prop :=
  ∀ e ∈ extensions, ¬ x <:+: Bytes.lower (bytes e)

instance (x : Bytes) (extensions : List String) : Decidable (Avoids x extensions) :=
  inferInstanceAs (Decidable (∀ _ ∈ _, _))

theorem not_infix_of_avoids (hx : IsRoot x) {extensions : List String} (ha : Avoids x extensions)
    {extension : Bytes} (he : ∃ e ∈ extensions, Bytes.sameIgnoringCase extension (bytes e)) :
    ¬ x <:+: extension := by
  obtain ⟨e, he, hs⟩ := he
  intro hi
  have hlower : Bytes.lower x = x := by
    rcases hx with rfl | rfl <;> decide
  refine ha e he ?_
  rw [← eq_of_beq hs, ← hlower]
  exact hi.map Byte.lower

theorem hasExtension_of_moved (hx : IsRoot x) (hy : IsRoot y) (h : Moved x y s s')
    {extensions : List String} (ha : Avoids x extensions) (hs : hasExtension extensions s) :
    hasExtension extensions s' := by
  obtain ⟨stem, extension, hne, hstem, hslash, hdot, hext, hname⟩ := hasExtension_iff.1 hs
  -- the part behind the last full stop stays, the one in front of it keeps its slashes
  have key : ∀ {u : Bytes}, Moved x y (stem ++ Byte.dot :: extension) u →
      ∃ stem', u = stem' ++ Byte.dot :: extension ∧ stem' ≠ [] ∧ Byte.slash ∉ stem' := by
    intro u hu
    obtain ⟨stem', extension', rfl, hstem', hext'⟩ := hu.append_cons hx.dot_notMem
    rw [hext'.eq_of_not_isInfix (not_infix_of_avoids hx ha hext)]
    refine ⟨stem', rfl, fun hnil => hne ?_, fun hm => ?_⟩
    · rw [hnil] at hstem'
      exact hstem'.symm.eq_nil hy.ne_nil
    · exact (hstem'.mem_or_mem hm).elim hstem hy.slash_notMem
  rcases hname with rfl | ⟨d, rfl⟩
  · obtain ⟨stem', rfl, hne', hslash'⟩ := key h
    exact hasExtension_iff.2 ⟨stem', extension, hne', hslash', hslash, hdot, hext, .inl rfl⟩
  · obtain ⟨d', u, rfl, -, hu⟩ := h.append_cons hx.slash_notMem
    obtain ⟨stem', rfl, hne', hslash'⟩ := key hu
    exact hasExtension_iff.2 ⟨stem', extension, hne', hslash', hslash, hdot, hext, .inr ⟨d', rfl⟩⟩

theorem isSignature_iff {name : Bytes} :
    isSignature name ↔ ∃ p file, name = p ++ file ∧ Bytes.lower p = Bytes.lower metaDirectory ∧
      Byte.slash ∉ file ∧
      ((∃ q rest, file = q ++ rest ∧ Bytes.lower q = Bytes.lower (bytes "SIG-") ∧ rest ≠ []) ∨
        hasExtension signatureExtensions file) := by
  have hsig : ∀ file, ((Bytes.afterIgnoringCase? (bytes "SIG-") file).any (· != [])) = true ↔
      ∃ q rest, file = q ++ rest ∧ Bytes.lower q = Bytes.lower (bytes "SIG-") ∧ rest ≠ [] := by
    intro file
    rw [Option.any_eq_true]
    simp only [Bytes.afterIgnoringCase?_eq_some_iff, bne_iff_ne]
    exact ⟨fun ⟨rest, ⟨q, hf, hq⟩, hr⟩ => ⟨q, rest, hf, hq, hr⟩,
      fun ⟨q, rest, hf, hq, hr⟩ => ⟨rest, ⟨q, hf, hq⟩, hr⟩⟩
  unfold isSignature
  constructor
  · intro h
    split at h
    · cases h
    next file hf =>
      obtain ⟨p, hname, hp⟩ := Bytes.afterIgnoringCase?_eq_some_iff.1 hf
      simp only [Bool.and_eq_true, Bool.or_eq_true, decide_eq_true_eq, hsig] at h
      exact ⟨p, file, hname, hp, h⟩
  · rintro ⟨p, file, hname, hp, h⟩
    rw [Bytes.afterIgnoringCase?_eq_some_iff.2 ⟨p, hname, hp⟩]
    simpa only [Bool.and_eq_true, Bool.or_eq_true, decide_eq_true_eq, hsig] using h

theorem isSignature_of_moved (hx : IsRoot x) (hy : IsRoot y) (h : Moved x y s s')
    (hs : isSignature s) : isSignature s' := by
  obtain ⟨p, file, rfl, hp, hslash, hfile⟩ := isSignature_iff.1 hs
  obtain ⟨file', rfl, hf⟩ := append_left_of_moved hx h (firstByte_notMem hp (by decide))
  refine isSignature_iff.2 ⟨p, file', rfl, hp, fun hm => ?_, ?_⟩
  · exact (hf.mem_or_mem hm).elim hslash hy.slash_notMem
  rcases hfile with ⟨q, rest, rfl, hq, hne⟩ | hext
  · obtain ⟨rest', rfl, hr⟩ := append_left_of_moved hx hf (firstByte_notMem hq (by decide))
    refine .inl ⟨q, rest', rfl, hq, fun hnil => hne ?_⟩
    rw [hnil] at hr
    exact hr.symm.eq_nil hy.ne_nil
  · refine .inr (hasExtension_of_moved hx hy hf ?_ hext)
    rcases hx with rfl | rfl <;> decide

theorem not_isDirectory_of_isSignature {name : Bytes} (h : isSignature name) : ¬ isDirectory name := by
  obtain ⟨p, file, rfl, -, hslash, hfile⟩ := isSignature_iff.1 h
  have hne : file ≠ [] := by
    rintro rfl
    rcases hfile with ⟨q, rest, hq, -, hrest⟩ | hext
    · exact hrest (List.append_eq_nil_iff.1 hq.symm).2
    · cases hext
  rw [isDirectory, beq_iff_eq, List.getLast?_append_of_ne_nil p hne]
  exact fun hlast => hslash (List.mem_of_getLast? hlast)

theorem not_isManifest_of_isSignature {name : Bytes} (h : isSignature name) : ¬ isManifest name := by
  obtain ⟨p, file, rfl, hp, -, hfile⟩ := isSignature_iff.1 h
  intro hm
  have hlower : Bytes.lower p ++ Bytes.lower file = Bytes.lower manifest :=
    List.map_append.symm.trans (eq_of_beq hm)
  rw [hp] at hlower
  have hfile' : Bytes.lower file = bytes "manifest.mf" :=
    List.append_cancel_left (hlower.trans (by decide))
  rcases hfile with ⟨q, rest, rfl, hq, -⟩ | hext
  · have hprefix : Bytes.lower q <+: bytes "manifest.mf" := by
      rw [← hfile', Bytes.lower, Bytes.lower, List.map_append]
      exact List.prefix_append _ _
    rw [hq] at hprefix
    revert hprefix
    decide
  · obtain ⟨stem, extension, -, -, -, -, ⟨e, he, hsame⟩, hname⟩ := hasExtension_iff.1 hext
    have hsuffix : Byte.dot :: extension <:+ file := by
      rcases hname with rfl | ⟨d, rfl⟩
      · exact List.suffix_append _ _
      · exact ((List.suffix_append _ _).trans (List.suffix_cons _ _)).trans (List.suffix_append _ _)
    have hlowered := hsuffix.map Byte.lower
    rw [List.map_cons, show file.map Byte.lower = bytes "manifest.mf" from hfile',
      show extension.map Byte.lower = Bytes.lower (bytes e) from eq_of_beq hsame] at hlowered
    clear hsame
    revert e
    decide

/-! ## Moving back and forth -/

/-- What holds of a name holds of it wherever packages have moved, if it stays when they move. -/
theorem eq_of_moved {f : Bytes → Bool}
    (hf : ∀ {x y s s'}, IsRoot x → IsRoot y → Moved x y s s' → f s → f s')
    (hx : IsRoot x) (hy : IsRoot y) (h : Moved x y s s') : f s' = f s :=
  Bool.eq_iff_iff.2 ⟨hf hy hx h.symm, hf hx hy h⟩

theorem isDirectory_moved (hx : IsRoot x) (hy : IsRoot y) (h : Moved x y s s') :
    isDirectory s' = isDirectory s :=
  eq_of_moved (fun hx _ => isDirectory_of_moved hx) hx hy h

theorem isClass_moved (hx : IsRoot x) (hy : IsRoot y) (h : Moved x y s s') : isClass s' = isClass s :=
  eq_of_moved (fun hx _ => isClass_of_moved hx) hx hy h

theorem isManifest_moved (hx : IsRoot x) (hy : IsRoot y) (h : Moved x y s s') :
    isManifest s' = isManifest s :=
  eq_of_moved (fun hx _ => isManifest_of_moved hx) hx hy h

theorem isSignature_moved (hx : IsRoot x) (hy : IsRoot y) (h : Moved x y s s') :
    isSignature s' = isSignature s :=
  eq_of_moved isSignature_of_moved hx hy h

theorem isService_moved (hx : IsRoot x) (hy : IsRoot y) (h : Moved x y s s') :
    isService s' = isService s :=
  eq_of_moved (fun hx _ => isService_of_moved hx) hx hy h

theorem isArchive_moved (hx : IsRoot x) (hy : IsRoot y) (h : Moved x y s s') :
    isArchive s' = isArchive s :=
  eq_of_moved (fun hx hy h => hasExtension_of_moved hx hy h (by rcases hx with rfl | rfl <;> decide))
    hx hy h

theorem isText_moved (hx : IsRoot x) (hy : IsRoot y) (h : Moved x y s s') : isText s' = isText s :=
  eq_of_moved (fun hx hy h => hasExtension_of_moved hx hy h (by rcases hx with rfl | rfl <;> decide))
    hx hy h

/-! ## Class roots -/

theorem versionRoot?_eq_some_iff {name root : Bytes} :
    versionRoot? name = some root ↔ ∃ version rest, root = versionsDirectory ++ version ++ [Byte.slash] ∧
      name = root ++ rest ∧ version ≠ [] ∧ version.all Byte.isDigit := by
  have hslash : ∀ {version : Bytes}, version.all Byte.isDigit → Byte.slash ∉ version := by
    intro version hv hm
    exact absurd (List.all_eq_true.1 hv _ hm) (by decide)
  unfold versionRoot?
  constructor
  · intro h
    split at h
    · cases h
    next version rest hv =>
      obtain ⟨tail, htail, hcut⟩ := Option.bind_eq_some_iff.1 hv
      obtain ⟨rfl, -⟩ := Bytes.cutFirst?_eq_some_iff.1 hcut
      obtain rfl := Bytes.after?_eq_some_iff.1 htail
      split at h
      next hd => cases h; exact ⟨version, rest, rfl, by simp, hd.1, hd.2⟩
      · cases h
  · rintro ⟨version, rest, rfl, rfl, hne, hd⟩
    have htail : Bytes.after? versionsDirectory
        (versionsDirectory ++ version ++ [Byte.slash] ++ rest) = some (version ++ Byte.slash :: rest) :=
      Bytes.after?_eq_some_iff.2 (by simp)
    rw [htail, Option.bind_some, Bytes.cutFirst?_eq_some_iff.2 ⟨rfl, hslash hd⟩]
    simp only [hne, hd, ne_eq, not_false_eq_true, and_self, if_true]

theorem versionRoot?_of_moved (hx : IsRoot x) (h : Moved x y s s') {root : Bytes}
    (hs : versionRoot? s = some root) : versionRoot? s' = some root := by
  obtain ⟨version, rest, hroot, rfl, hne, hd⟩ := versionRoot?_eq_some_iff.1 hs
  have hp : firstByte ∉ root := by
    rw [hroot]
    simp only [List.mem_append, not_or]
    refine ⟨⟨by decide, fun hm => ?_⟩, by decide⟩
    exact absurd (List.all_eq_true.1 hd _ hm) (by decide)
  obtain ⟨rest', rfl, -⟩ := append_left_of_moved hx h hp
  exact versionRoot?_eq_some_iff.2 ⟨version, rest', hroot, rfl, hne, hd⟩

theorem versionRoot?_moved (hx : IsRoot x) (hy : IsRoot y) (h : Moved x y s s') :
    versionRoot? s' = versionRoot? s :=
  Option.ext fun _ => ⟨versionRoot?_of_moved hy h.symm, versionRoot?_of_moved hx h⟩

/-- The class root stays where it is. -/
theorem classRoot_moved (hx : IsRoot x) (hy : IsRoot y) (h : Moved x y s s') :
    classRoot s' = classRoot s := by
  have hfind : (classRoots.find? fun root => root.isPrefixOf s') =
      classRoots.find? fun root => root.isPrefixOf s := by
    refine List.find?_congr fun root hr => ?_
    have hp : firstByte ∉ root := by
      revert root
      decide
    exact eq_of_moved (f := (root.isPrefixOf ·)) (fun hx _ h => isPrefixOf_of_moved hx h hp) hx hy h
  rw [classRoot, classRoot, hfind, versionRoot?_moved hx hy h]

/-- A name begins with its class root. -/
theorem exists_eq_classRoot_append (name : Bytes) : ∃ rest, name = classRoot name ++ rest := by
  unfold classRoot
  split
  next root hr =>
    have hr := List.find?_some hr
    rw [List.isPrefixOf_iff_prefix] at hr
    obtain ⟨rest, h⟩ := hr
    exact ⟨rest, h.symm⟩
  next =>
    cases h : versionRoot? name with
    | none => exact ⟨name, rfl⟩
    | some root =>
      obtain ⟨-, rest, -, hname, -⟩ := versionRoot?_eq_some_iff.1 h
      exact ⟨rest, hname⟩

end

end EntryName

/-! ## New names -/

section
variable {t : Table} {p : Profile} {name name' : Bytes}

theorem Table.renameEntry?_eq_some_iff :
    t.renameEntry? name = some name' ↔ ∃ rest rest', name = EntryName.classRoot name ++ rest ∧
      name' = EntryName.classRoot name ++ rest' ∧ t.convertText? rest = some rest' := by
  obtain ⟨rest, hrest⟩ := EntryName.exists_eq_classRoot_append name
  have hdrop : name.drop (EntryName.classRoot name).length = rest :=
    (congrArg (List.drop (EntryName.classRoot name).length) hrest).trans List.drop_left
  simp only [Table.renameEntry?, hdrop, Option.map_eq_some_iff]
  constructor
  · rintro ⟨rest', hr, rfl⟩
    exact ⟨rest, rest', hrest, rfl, hr⟩
  · rintro ⟨rest'', rest', hr'', rfl, hr⟩
    obtain rfl := List.append_cancel_left (hrest.symm.trans hr'')
    exact ⟨rest', hr, rfl⟩

theorem Table.convertText?_eq_some_iff {s s' : Bytes} :
    t.convertText? s = some s' ↔ t.convert? s = some s' ∧ Bytes.IsText s' := by
  rw [Table.convertText?, Option.filter_eq_some_iff, Bytes.isText, decide_eq_true_eq]

theorem Table.convert_of_convert? {s s' : Bytes} (h : t.convert? s = some s') : t.convert s = s' := by
  rw [Table.convert, h, Option.getD_some]

/-- A new name has `jakarta` for some `javax`. -/
theorem Profile.moved_renameEntry? (h : p.table.renameEntry? name = some name') :
    Moved Profile.oldRoot Profile.newRoot name name' := by
  obtain ⟨rest, rest', hname, rfl, hr⟩ := Table.renameEntry?_eq_some_iff.1 h
  have hmoved := (Moved.refl Profile.oldRoot Profile.newRoot (EntryName.classRoot name)).append
    (p.moved_convert rest)
  rwa [Table.convert_of_convert? (Table.convertText?_eq_some_iff.1 hr).1, ← hname] at hmoved

theorem Profile.moved_getD_renameEntry? (p : Profile) (name : Bytes) :
    Moved Profile.oldRoot Profile.newRoot name ((p.table.renameEntry? name).getD name) := by
  cases h : p.table.renameEntry? name with
  | none => exact .refl _ _ _
  | some name' => exact Profile.moved_renameEntry? h

/-- **An entry moves once.** -/
theorem Profile.renameEntry?_renameEntry? (h : p.table.renameEntry? name = some name') :
    p.table.renameEntry? name' = none := by
  have hroot : EntryName.classRoot name' = EntryName.classRoot name :=
    EntryName.classRoot_moved (.inl rfl) (.inr rfl) (Profile.moved_renameEntry? h)
  obtain ⟨rest, rest', -, hname, hr⟩ := Table.renameEntry?_eq_some_iff.1 h
  rw [Option.eq_none_iff_forall_ne_some]
  intro name'' h'
  obtain ⟨rest₂, rest₂', hname', -, hr'⟩ := Table.renameEntry?_eq_some_iff.1 h'
  rw [hroot] at hname'
  obtain rfl := List.append_cancel_left (hname.symm.trans hname')
  have hsettled := p.isSettled_table.convert?_convert rest
  rw [Table.convert_of_convert? (Table.convertText?_eq_some_iff.1 hr).1,
    (Table.convertText?_eq_some_iff.1 hr').1] at hsettled
  cases hsettled

theorem Profile.renameEntry?_getD (p : Profile) (name : Bytes) :
    p.table.renameEntry? ((p.table.renameEntry? name).getD name) = none := by
  cases h : p.table.renameEntry? name with
  | none => exact h
  | some name' => exact Profile.renameEntry?_renameEntry? h

end

end PackageMigration
