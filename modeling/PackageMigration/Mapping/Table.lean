import PackageMigration.Mapping.Rule
import PackageMigration.Text.Quoted
import PackageMigration.Text.Utf8
/-
  Mapping tables: sets of rules and the longest match among them.

  * `Table`: rules with qualified names and distinct sources, at least one.
  * `Table.ofRules?`: the table of a list of rules, or what is wrong with it.
  * `Table.longestMatch?`: the rule with the most segments that covers the start of a name.
  * `Table.resolve?`: where a qualified name moves to.

  Main statements: `firstFault_eq_none_iff` (which lists of rules have no fault), `mem_rules_ofRules`
  (the table holds the listed rules), `mem_coverings_iff` (which rules cover the start of a name).
-/
namespace PackageMigration

/-- What can be wrong with a mapping table. -/
inductive Table.Error where
  /-- Two rules have this source. -/
  | duplicateSource (source : Bytes)
  /-- A source or target that is no qualified name. -/
  | malformedPattern (pattern : Bytes)
  /-- No rule at all. -/
  | empty
  /-- The text is no JSON list of rules. -/
  | notRules
  deriving DecidableEq, Repr

/-- The message of a table error. A text that is no list of rules has none. -/
def Table.Error.message? : Table.Error → Option String
  | .duplicateSource s => some ("duplicate source pattern " ++ Text.quoted (Text.ofBytes s))
  | .malformedPattern s =>
    some ("pattern " ++ Text.quoted (Text.ofBytes s) ++ " is not a dotted qualified name")
  | .empty => some "mapping table is empty"
  | .notRules => none

/-- A mapping table: its rules name qualified names and differ in their sources. -/
structure Table where
  rules : List Rule
  /-- The first segments of the sources. -/
  roots : List Bytes
  /-- The number of segments of the longest source. -/
  depth : Nat
  nonempty : rules ≠ []
  qualified : ∀ r ∈ rules, Name.IsQualified r.source ∧ Name.IsQualified r.target
  distinct : (rules.map Rule.source).Nodup
  roots_eq : roots = (rules.map Rule.root).eraseDups
  depth_eq : depth = (rules.map Rule.depth).foldl max 0

namespace Table

/-! ## Building a table -/

/-- The first fault of a list of rules, `seen` being the sources before it. -/
def firstFault (seen : List Bytes) : List Rule → Option Error
  | [] => none
  | r :: rs =>
    if ¬ Name.IsQualified r.source then some (.malformedPattern r.source)
    else if ¬ Name.IsQualified r.target then some (.malformedPattern r.target)
    else if r.source ∈ seen then some (.duplicateSource r.source)
    else firstFault (r.source :: seen) rs

theorem firstFault_eq_none_iff {seen : List Bytes} {rules : List Rule} :
    firstFault seen rules = none ↔
      (∀ r ∈ rules, Name.IsQualified r.source ∧ Name.IsQualified r.target) ∧
        (∀ r ∈ rules, r.source ∉ seen) ∧ (rules.map Rule.source).Nodup := by
  induction rules generalizing seen with
  | nil => simp [firstFault]
  | cons r rs ih =>
    simp only [firstFault]
    split
    next h => simp [h]
    split
    next h => simp [h]
    split
    next h => simp [h]
    next hs ht hm =>
      rw [ih]
      simp only [Decidable.not_not] at hs ht
      simp only [List.mem_cons, forall_eq_or_imp, not_or, List.map_cons, List.nodup_cons,
        List.mem_map, not_exists, not_and]
      constructor
      · rintro ⟨hq, hd, hn⟩
        exact ⟨⟨⟨hs, ht⟩, hq⟩, ⟨hm, fun a ha => (hd a ha).2⟩, fun a ha => (hd a ha).1, hn⟩
      · rintro ⟨⟨-, hq⟩, ⟨-, hd⟩, hne, hn⟩
        exact ⟨hq, fun a ha => ⟨hne a ha, hd a ha⟩, hn⟩

/-- Rules in the order of their sources. -/
def sorted (rules : List Rule) : List Rule :=
  rules.mergeSort fun a b => (compare a.source b.source).isLE

/-- The table of rules without a fault, in the order of their sources. -/
def build (rules : List Rule) (fault : firstFault [] rules = none) (ne : rules ≠ []) : Table where
  rules := sorted rules
  roots := ((sorted rules).map Rule.root).eraseDups
  depth := ((sorted rules).map Rule.depth).foldl max 0
  nonempty := by
    obtain ⟨r, rs, rfl⟩ := List.exists_cons_of_ne_nil ne
    exact List.ne_nil_of_mem (List.mem_mergeSort.2 List.mem_cons_self)
  qualified r hr := (firstFault_eq_none_iff.1 fault).1 r (List.mem_mergeSort.1 hr)
  distinct := ((List.mergeSort_perm rules _).map _).nodup_iff.2 (firstFault_eq_none_iff.1 fault).2.2
  roots_eq := rfl
  depth_eq := rfl

/-- The table of a list of rules, in whatever order they come. -/
def ofRules? (rules : List Rule) : Except Error Table :=
  match h : firstFault [] rules with
  | some e => .error e
  | none => if ne : rules = [] then .error .empty else .ok (build rules h ne)

theorem mem_rules_build {rules : List Rule} {fault : firstFault [] rules = none} {ne : rules ≠ []}
    {r : Rule} : r ∈ (build rules fault ne).rules ↔ r ∈ rules :=
  List.mem_mergeSort

/-- A table holds the rules it was built from. -/
theorem mem_rules_ofRules {rules : List Rule} {t : Table} (h : ofRules? rules = .ok t) {r : Rule} :
    r ∈ t.rules ↔ r ∈ rules := by
  unfold ofRules? at h
  split at h
  · simp at h
  · split at h
    · simp at h
    · cases h; exact mem_rules_build

/-! ## Looking names up -/

/-- Some rule's source has this first segment. -/
def isRoot (t : Table) (segment : Bytes) : Bool := t.roots.contains segment

theorem isRoot_iff {t : Table} {segment : Bytes} :
    t.isRoot segment ↔ ∃ r ∈ t.rules, r.root = segment := by
  simp [isRoot, t.roots_eq]

/-- The rules that cover the start of a name, each with the number of segments it covers. -/
def coverings (t : Table) (segments : List Bytes) : List (Nat × Rule) :=
  t.rules.filterMap fun r => (r.covered? segments).map (·, r)

theorem mem_coverings_iff {t : Table} {segments : List Bytes} {n : Nat} {r : Rule} :
    (n, r) ∈ t.coverings segments ↔
      r ∈ t.rules ∧ 0 < n ∧ n ≤ segments.length ∧ Name.dotted (segments.take n) = r.source := by
  rw [← Rule.covered?_eq_some_iff, coverings, List.mem_filterMap]
  constructor
  · rintro ⟨s, hs, h⟩
    obtain ⟨m, hm, h⟩ := Option.map_eq_some_iff.1 h
    obtain ⟨rfl, rfl⟩ := Prod.mk.inj h
    exact ⟨hs, hm⟩
  · rintro ⟨hr, hn⟩
    exact ⟨r, hr, by simp [hn]⟩

/-- The rule that covers the most segments at the start of a name, and their number. -/
def covering? (t : Table) (segments : List Bytes) : Option (Nat × Rule) :=
  (t.coverings segments).maxOn? Prod.fst

/-- A match at the start of a name. -/
structure Match where
  /-- How many segments it covers. -/
  count : Nat
  /-- The dotted name that takes their place. -/
  target : Bytes
  deriving DecidableEq, Repr

/-- The longest match at the start of a name. An exclusion covers like any other rule and then
changes nothing. -/
def longestMatch? (t : Table) (segments : List Bytes) : Option Match :=
  match t.covering? segments with
  | some (n, r) => if r.isExclusion then none else some ⟨n, r.target⟩
  | none => none

/-- Where a qualified name moves to, in its own separator: a name with a slash is separated by
slashes, any other by full stops. -/
def resolve? (t : Table) (name : Bytes) : Option Bytes :=
  let separator := if Byte.slash ∈ name then Byte.slash else Byte.dot
  let segments := Bytes.splitOn separator name
  (t.longestMatch? segments).map fun m =>
    [separator].intercalate (Name.segments m.target ++ segments.drop m.count)

end Table

end PackageMigration
