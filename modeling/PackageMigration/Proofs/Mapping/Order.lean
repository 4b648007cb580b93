import Mathlib.Data.List.Sort
import PackageMigration.Profile
/-
  The order of the rules of a table.

  * `Profile.orderedTable`: the table of a profile, with its rules sorted one by one.

  Main statements: `sorted_eq_of_pairwise` (there is one order of the rules), `build_eq`,
  `table_eq_orderedTable`.
-/
namespace PackageMigration

namespace Table

/-- The order of rules by their sources. -/
abbrev IsBefore (a b : Rule) : Prop := (compare a.source b.source).isLE

theorem isBefore_trans {a b c : Rule} (h : IsBefore a b) (h' : IsBefore b c) : IsBefore a c :=
  Std.TransCmp.isLE_trans h h'

theorem isBefore_total (a b : Rule) : IsBefore a b ∨ IsBefore b a := by
  by_cases h : IsBefore a b
  · exact .inl h
  · exact .inr (Ordering.isLE_of_eq_lt (Std.OrientedCmp.lt_of_not_isLE h))

instance : Std.Total IsBefore := ⟨isBefore_total⟩

instance : IsTrans Rule IsBefore := ⟨fun _ _ _ => isBefore_trans⟩

theorem pairwise_sorted (rules : List Rule) : (sorted rules).Pairwise IsBefore := by
  simpa only [sorted, Bool.decide_eq_true] using List.pairwise_mergeSort' IsBefore rules

/-- Rules with distinct sources can be in order in one way only. -/
theorem sorted_eq_of_pairwise {rules rules' : List Rule} (hd : (rules.map Rule.source).Nodup)
    (hp : rules'.Perm rules) (hs : rules'.Pairwise IsBefore) : sorted rules = rules' := by
  refine List.Perm.eq_of_pairwise ?_ (pairwise_sorted rules) hs ((List.mergeSort_perm _ _).trans hp.symm)
  intro a b ha hb hab hba
  have hsource : a.source = b.source := by
    have hcompare : compare a.source b.source = .eq :=
      Ordering.eq_eq_of_isLE_of_isLE_swap hab (by rwa [← Std.OrientedCmp.eq_swap])
    exact Std.LawfulEqCmp.eq_of_compare hcompare
  exact List.inj_on_of_nodup_map hd (List.mem_mergeSort.1 ha) (hp.subset hb) hsource

theorem eq_of_rules_eq {t t' : Table} (h : t.rules = t'.rules) : t = t' := by
  have hroots : t.roots = t'.roots := by rw [t.roots_eq, t'.roots_eq, h]
  have hdepth : t.depth = t'.depth := by rw [t.depth_eq, t'.depth_eq, h]
  cases t
  cases t'
  simp only at h hroots hdepth
  subst h hroots hdepth
  rfl

/-- A table with these rules in order is the one that is built from them. -/
theorem build_eq {rules : List Rule} {fault : firstFault [] rules = none} {ne : rules ≠ []} {t : Table}
    (hp : t.rules.Perm rules) (hs : t.rules.Pairwise IsBefore) : build rules fault ne = t :=
  eq_of_rules_eq (sorted_eq_of_pairwise (firstFault_eq_none_iff.1 fault).2.2 hp hs)

end Table

namespace Profile

/-- The table of a profile, its rules sorted one by one. -/
def orderedTable (p : Profile) : Table where
  rules := p.rules.insertionSort Table.IsBefore
  roots := ((p.rules.insertionSort Table.IsBefore).map Rule.root).eraseDups
  depth := ((p.rules.insertionSort Table.IsBefore).map Rule.depth).foldl max 0
  nonempty h := by
    have hperm := List.perm_insertionSort Table.IsBefore p.rules
    rw [h] at hperm
    simp [rules, held] at hperm
  qualified r hr :=
    (Table.firstFault_eq_none_iff.1 p.firstFault_rules).1 r ((List.mem_insertionSort _).1 hr)
  distinct := (((List.perm_insertionSort _ _).map _).nodup_iff).2
    (Table.firstFault_eq_none_iff.1 p.firstFault_rules).2.2
  roots_eq := rfl
  depth_eq := rfl

theorem table_eq_orderedTable (p : Profile) : p.table = p.orderedTable :=
  Table.build_eq (List.perm_insertionSort _ _) (List.pairwise_insertionSort _ _)

end Profile

end PackageMigration
