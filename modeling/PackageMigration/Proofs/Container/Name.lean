import PackageMigration.Container.Zip
import PackageMigration.Proofs.Text.Utf8
/-
  The names in ZIP containers are text, whatever the container.

  * `Reading.Gives`: a property of the description that reading a field comes to.

  Main statement: `isText_of_read?`.
-/
namespace PackageMigration.Container.Zip

open Bytes (IsText)

/-- The description that reading a field comes to has the property, if there is one. -/
def Reading.Gives (P : Description → Prop) : Reading → Prop
  | read d _ => P d
  | cutOff d => P d
  | unsound => True

section
variable {d : Description} {size : Nat} {s : Bytes} {P : Description → Prop}

theorem gives_skip (h : P d) (count : Nat) (s : Bytes) : (d.skip count s).Gives P := by
  unfold Description.skip
  split <;> exact h

theorem gives_withLargeNumbers
    (h : ∀ packed, P { d with packed }) : (d.withLargeNumbers size s).Gives P := by
  unfold Description.withLargeNumbers
  dsimp only
  split
  · exact h _
  split
  · exact h _
  split
  · exact h _
  split
  · exact gives_skip (h _) _ _
  · trivial

theorem gives_withFineTimes (h : P d) : (d.withFineTimes size s).Gives P := by
  unfold Description.withFineTimes
  split
  · trivial
  split
  · exact h
  split
  · trivial
  split
  · exact h
  split
  · exact gives_skip h _ _
  · trivial

theorem gives_withTimes (h : P d) : (d.withTimes size s).Gives P := by
  unfold Description.withTimes
  split
  · exact h
  dsimp only
  generalize (if size = 5 then 1 else _) = count
  split
  · exact gives_skip h _ _
  · trivial

theorem gives_withSeal (h : P d)
    (hseal : ∀ method, P { d with packed.method := method, isSealed := true }) :
    (d.withSeal size s).Gives P := by
  unfold Description.withSeal
  split
  · trivial
  split
  · exact h
  dsimp only
  split
  · exact hseal _
  · trivial

theorem gives_withText {replaced : Bytes} {put : Bytes → Description} (h : P d)
    (hput : ∀ text, IsText text → P (put text)) : (d.withText replaced put size s).Gives P := by
  unfold Description.withText
  split
  · exact h
  split
  · trivial
  split
  · exact h
  dsimp only
  split
  next hsound => exact hput _ (of_decide_eq_true hsound.2)
  · trivial

/-- A field keeps the name, or gives another one that is text. -/
theorem gives_withField (h : IsText d.name) (kind size : Nat) (s : Bytes) :
    (d.withField kind size s).Gives fun d => IsText d.name := by
  unfold Description.withField
  split
  · exact gives_withLargeNumbers fun _ => h
  · exact gives_withFineTimes h
  · exact gives_withTimes h
  · exact gives_withText h fun _ _ => h
  · exact gives_withText h fun _ htext => htext
  · exact gives_withSeal h fun _ => h
  · exact gives_skip h _ _

theorem isText_of_withFields? {d' : Description} {fuel : Nat} (h : IsText d.name)
    (hfields : d.withFields? fuel s = some d') : IsText d'.name := by
  induction fuel generalizing d s with
  | zero =>
    cases hfields
    exact h
  | succ fuel ih =>
    rw [Description.withFields?] at hfields
    split at hfields
    next kind _ size s' _ _ =>
      have hfield := gives_withField h kind size s'
      split at hfields
      next hread =>
        rw [hread] at hfield
        exact ih hfield hfields
      next hcut =>
        rw [hcut] at hfield
        cases hfields
        exact hfield
      · cases hfields
    · cases hfields
      exact h

end

/-! ## Directories -/

theorem isText_of_central? {s rest : Bytes} {d : Description} (h : central? s = some (d, rest)) :
    IsText d.name := by
  unfold central? at h
  dsimp only at h
  split at h
  · split at h
    · cases h
    next d' hextra =>
      split at h
      · cases h
        exact isText_of_withFields? (Bytes.isText_bytes _) hextra
      · cases h
  · cases h

theorem isText_of_descriptionsFrom? {dir : Directory} {left : Nat} {found ds : List Description}
    {s : Bytes} (hfound : ∀ d ∈ found, IsText d.name)
    (h : descriptionsFrom? dir left found s = some ds) : ∀ d ∈ ds, IsText d.name := by
  induction left generalizing found s with
  | zero =>
    cases h
    exact fun d hd => hfound d (List.mem_reverse.1 hd)
  | succ left ih =>
    rw [descriptionsFrom?] at h
    split at h
    · cases h
    next d s' hcentral =>
      dsimp only at h
      split at h
      · have hname := isText_of_central? hcentral
        refine ih ?_ h
        exact List.forall_mem_cons.2 ⟨hname, hfound⟩
      · cases h

theorem isText_of_descriptionsAt? {marks : Landmarks} {p : Place} {ds : List Description}
    (h : descriptionsAt? marks p = some ds) : ∀ d ∈ ds, IsText d.name := by
  obtain ⟨e, -, h⟩ := Option.bind_eq_some_iff.1 h
  obtain ⟨dir, -, h⟩ := Option.bind_eq_some_iff.1 h
  exact isText_of_descriptionsFrom? (List.forall_mem_nil _) h

theorem name_of_item {marks : Landmarks} {d : Description} {e : Entry} (h : item marks d = .entry e) :
    e.name = d.name := by
  unfold item at h
  dsimp only at h
  split at h
  · split at h
    · cases h
    split at h
    · cases h
    split at h
    · cases h
      rfl
    · cases h
  · cases h

theorem mem_of_mem_lastOfEach {found : List Description} {d : Description}
    (h : d ∈ lastOfEach found) : d ∈ found := by
  obtain ⟨name, -, h⟩ := List.mem_filterMap.1 h
  exact List.mem_reverse.1 (List.mem_of_find?_eq_some h)

/-- **The names in a container are text.** -/
theorem isText_of_read? {data : Bytes} {items : List Item} {e : Entry}
    (h : Container.zip.read? data = some items) (he : .entry e ∈ items) : IsText e.name := by
  obtain ⟨found, hfound, rfl⟩ := Option.map_eq_some_iff.1 h
  obtain ⟨p, -, hfound⟩ := List.exists_of_findSome?_eq_some hfound
  obtain ⟨d, hd, hitem⟩ := List.mem_map.1 he
  rw [name_of_item hitem]
  exact isText_of_descriptionsAt? hfound d (mem_of_mem_lastOfEach hd)

end PackageMigration.Container.Zip
