import PackageMigration.Proofs.Mapping.Lookup
import PackageMigration.Proofs.Mapping.Order
/-
  Tables that are built from lists of rules.

  * `Name.IsDotted`: segments joined by full stops.
  * `Name.separator`, `Name.parts`: the separator of a name, and its segments.
  * `Rule.IsLongest`: the rule whose source is the longest among those that a name begins with.

  Main statements: `exists_ofRules?_iff` (which lists make a table), `ofRules?_perm` (their order does
  not matter), `resolve?_eq_some_iff`, `resolve?_eq_none_iff`, `ofRules?_outcome`.
-/
namespace PackageMigration

namespace Name

/-- The name joins segments by full stops: one or more, each a letter, a digit, `_` or `$` or several
of these. -/
def IsDotted (name : Bytes) : Prop :=
  ∃ ss, ss ≠ [] ∧ (∀ s ∈ ss, s ≠ [] ∧ ∀ b ∈ s, isIdent b) ∧ name = [Byte.dot].intercalate ss

theorem isQualified_iff {name : Bytes} : IsQualified name ↔ IsDotted name := by
  constructor
  · intro h
    exact ⟨segments name, Bytes.splitOn_ne_nil _ _, h, (Bytes.intercalate_splitOn _ _).symm⟩
  · rintro ⟨ss, hne, hss, rfl⟩
    have hsegments : segments ([Byte.dot].intercalate ss) = ss := segments_dotted hne hss
    intro s hs
    exact hss s (hsegments ▸ hs)

/-- The separator of a name: a slash if it has one, else a full stop. -/
def separator (name : Bytes) : UInt8 := if Byte.slash ∈ name then Byte.slash else Byte.dot

/-- The segments of a name between its separators. -/
def parts (name : Bytes) : List Bytes := Bytes.splitOn (separator name) name

/-- Segments have no full stop if the name does not mix the separators. -/
theorem dot_notMem_of_mem_parts {name s : Bytes} (h : ¬ (Byte.dot ∈ name ∧ Byte.slash ∈ name))
    (hs : s ∈ parts name) : Byte.dot ∉ s := by
  unfold parts separator at hs
  split at hs
  next hslash => exact fun hdot => h ⟨(mem_of_mem_splitWhere hs _ hdot).1, hslash⟩
  · exact Bytes.notMem_of_mem_splitOn hs

end Name

namespace Rule

/-- Of the rules whose source a name begins with, segment by segment, this one has the most segments. -/
structure IsLongest (rules : List Rule) (ss : List Bytes) (r : Rule) : Prop where
  mem : r ∈ rules
  isPrefix : Name.segments r.source <+: ss
  longest : ∀ r' ∈ rules, Name.segments r'.source <+: ss → r' ≠ r → r'.depth < r.depth

theorem IsLongest.unique {rules : List Rule} {ss : List Bytes} {r r' : Rule} (h : IsLongest rules ss r)
    (h' : IsLongest rules ss r') : r = r' := by
  by_contra hne
  exact Nat.lt_asymm (h.longest r' h'.mem h'.isPrefix (Ne.symm hne)) (h'.longest r h.mem h.isPrefix hne)

theorem isLongest_congr {rules rules' : List Rule} (h : ∀ r, r ∈ rules ↔ r ∈ rules') {ss : List Bytes}
    {r : Rule} : IsLongest rules ss r ↔ IsLongest rules' ss r := by
  constructor
  · rintro ⟨hmem, hpre, hlongest⟩
    exact ⟨(h r).1 hmem, hpre, fun r' hr' => hlongest r' ((h r').2 hr')⟩
  · rintro ⟨hmem, hpre, hlongest⟩
    exact ⟨(h r).2 hmem, hpre, fun r' hr' => hlongest r' ((h r').1 hr')⟩

/-- A source that covers segments without full stops is made of them. -/
theorem covers_iff {r : Rule} {ss : List Bytes} {n : Nat} (hss : ∀ s ∈ ss, Byte.dot ∉ s) :
    r.Covers ss n ↔ Name.segments r.source <+: ss ∧ n = r.depth := by
  constructor
  · rintro ⟨hn, hle, hsource⟩
    have hne : ss.take n ≠ [] := by
      rw [Ne, List.take_eq_nil_iff]
      rintro (rfl | rfl)
      · exact Nat.lt_irrefl 0 hn
      · exact absurd hle (Nat.not_le.2 hn)
    have hsegments : Name.segments r.source = ss.take n := by
      rw [← hsource]
      exact Bytes.splitOn_intercalate hne fun s hs => hss s (List.mem_of_mem_take hs)
    refine ⟨hsegments ▸ List.take_prefix n ss, ?_⟩
    rw [depth, hsegments, List.length_take, Nat.min_eq_left hle]
  · rintro ⟨hpre, rfl⟩
    refine ⟨List.length_pos_iff.2 (Bytes.splitOn_ne_nil _ _), hpre.length_le, ?_⟩
    rw [depth, ← List.prefix_iff_eq_take.1 hpre]
    exact Bytes.intercalate_splitOn _ _

end Rule

namespace Table

variable {t : Table} {rules : List Rule} {name : Bytes} {r : Rule}

/-! ## Building -/

theorem exists_ofRules?_iff : (∃ t, ofRules? rules = .ok t) ↔ rules ≠ [] ∧
    (∀ r ∈ rules, Name.IsDotted r.source ∧ Name.IsDotted r.target) ∧ (rules.map Rule.source).Nodup := by
  have hfault : firstFault [] rules = none ↔
      (∀ r ∈ rules, Name.IsDotted r.source ∧ Name.IsDotted r.target) ∧
        (rules.map Rule.source).Nodup := by
    rw [firstFault_eq_none_iff]
    simp [Name.isQualified_iff]
  rw [← hfault]
  unfold ofRules?
  split
  next e he => simp [he]
  next hnone =>
    split
    next hnil => simp [hnil]
    next hne => simp [hne, hnone]

theorem rules_of_ofRules? (h : ofRules? rules = .ok t) : t.rules = sorted rules := by
  unfold ofRules? at h
  split at h
  · cases h
  · split at h
    · cases h
    · cases h
      rfl

/-- Rules in another order make the same table. -/
theorem ofRules?_perm {rules' : List Rule} (hp : rules'.Perm rules) (h : ofRules? rules = .ok t) :
    ofRules? rules' = .ok t := by
  obtain ⟨hne, hdotted, hdistinct⟩ := exists_ofRules?_iff.1 ⟨t, h⟩
  have hok : rules' ≠ [] ∧ (∀ r ∈ rules', Name.IsDotted r.source ∧ Name.IsDotted r.target) ∧
      (rules'.map Rule.source).Nodup :=
    ⟨fun hnil => hne (List.Perm.eq_nil (hnil ▸ hp.symm)), fun r hr => hdotted r (hp.subset hr),
      (hp.map Rule.source).nodup_iff.2 hdistinct⟩
  obtain ⟨t', h'⟩ := exists_ofRules?_iff.2 hok
  have hsorted : sorted rules = sorted rules' :=
    sorted_eq_of_pairwise hdistinct ((List.mergeSort_perm _ _).trans hp) (pairwise_sorted rules')
  have hrules : t'.rules = t.rules := by
    rw [rules_of_ofRules? h', rules_of_ofRules? h, hsorted]
  rw [h', eq_of_rules_eq hrules]

/-! ## Looking up -/

theorem longest_iff {ss : List Bytes} {n : Nat} (hss : ∀ s ∈ ss, Byte.dot ∉ s) :
    t.Longest ss n r ↔ Rule.IsLongest t.rules ss r ∧ n = r.depth := by
  constructor
  · rintro ⟨hmem, hcovers, hlongest⟩
    obtain ⟨hpre, rfl⟩ := (Rule.covers_iff hss).1 hcovers
    refine ⟨⟨hmem, hpre, fun r' hr' hpre' hne => ?_⟩, rfl⟩
    have hle := hlongest r' hr' r'.depth ((Rule.covers_iff hss).2 ⟨hpre', rfl⟩)
    refine Nat.lt_of_le_of_ne hle fun hdepth => hne ?_
    -- Of two sources of one length that begin a name there is only one.
    have hsegments : Name.segments r'.source = Name.segments r.source :=
      (List.prefix_of_prefix_length_le hpre' hpre hle).eq_of_length hdepth
    exact eq_of_source_eq hr' hmem (Bytes.eq_of_splitOn_eq hsegments)
  · rintro ⟨⟨hmem, hpre, hlongest⟩, rfl⟩
    refine ⟨hmem, (Rule.covers_iff hss).2 ⟨hpre, rfl⟩, fun r' hr' n' hcovers => ?_⟩
    obtain ⟨hpre', rfl⟩ := (Rule.covers_iff hss).1 hcovers
    by_cases hr : r' = r
    · rw [hr]
    · exact Nat.le_of_lt (hlongest r' hr' hpre' hr)

theorem exists_isLongest {ss : List Bytes} (hss : ∀ s ∈ ss, Byte.dot ∉ s) (hr : r ∈ t.rules)
    (hpre : Name.segments r.source <+: ss) : ∃ r', Rule.IsLongest t.rules ss r' := by
  have hmem := mem_coverings_iff_covers.2 ⟨hr, (Rule.covers_iff hss).2 ⟨hpre, rfl⟩⟩
  obtain ⟨⟨n, r'⟩, h⟩ := Option.isSome_iff_exists.1 (List.isSome_maxOn?_of_mem (f := Prod.fst) hmem)
  exact ⟨r', ((longest_iff hss).1 (longest_of_covering? h)).1⟩

/-- The name with the longest source that it begins with replaced by the target. -/
theorem resolve?_eq_some_iff (hname : ¬ (Byte.dot ∈ name ∧ Byte.slash ∈ name)) {out : Bytes} :
    t.resolve? name = some out ↔ ∃ r, Rule.IsLongest t.rules (Name.parts name) r ∧
      r.source ≠ r.target ∧ out = [Name.separator name].intercalate
        (Name.segments r.target ++ (Name.parts name).drop r.depth) := by
  have hss : ∀ s ∈ Name.parts name, Byte.dot ∉ s := fun s => Name.dot_notMem_of_mem_parts hname
  have hresolve : t.resolve? name = (t.longestMatch? (Name.parts name)).map fun m =>
      [Name.separator name].intercalate (Name.segments m.target ++ (Name.parts name).drop m.count) := rfl
  rw [hresolve, Option.map_eq_some_iff]
  simp only [longestMatch?_eq_some_iff, longest_iff hss]
  constructor
  · rintro ⟨m, ⟨r, ⟨hlongest, hcount⟩, hne, htarget⟩, rfl⟩
    exact ⟨r, hlongest, hne, by rw [htarget, hcount]⟩
  · rintro ⟨r, hlongest, hne, rfl⟩
    exact ⟨⟨r.depth, r.target⟩, ⟨r, ⟨hlongest, rfl⟩, hne, rfl⟩, rfl⟩

/-- A name stays if no source begins it, or the longest that does is excluded. -/
theorem resolve?_eq_none_iff (hname : ¬ (Byte.dot ∈ name ∧ Byte.slash ∈ name)) :
    t.resolve? name = none ↔ (∀ r ∈ t.rules, ¬ Name.segments r.source <+: Name.parts name) ∨
      ∃ r, Rule.IsLongest t.rules (Name.parts name) r ∧ r.source = r.target := by
  constructor
  · intro hnone
    by_cases hcovered : ∃ r ∈ t.rules, Name.segments r.source <+: Name.parts name
    · obtain ⟨r, hr, hpre⟩ := hcovered
      obtain ⟨r', hlongest⟩ :=
        exists_isLongest (fun s => Name.dot_notMem_of_mem_parts hname) hr hpre
      refine .inr ⟨r', hlongest, ?_⟩
      by_contra hne
      cases hnone.symm.trans ((resolve?_eq_some_iff hname).2 ⟨r', hlongest, hne, rfl⟩)
    · exact .inl fun r hr hpre => hcovered ⟨r, hr, hpre⟩
  · intro h
    rw [Option.eq_none_iff_forall_ne_some]
    intro out hout
    obtain ⟨r, hlongest, hne, -⟩ := (resolve?_eq_some_iff hname).1 hout
    rcases h with hno | ⟨r', hlongest', heq⟩
    · exact hno r hlongest.mem hlongest.isPrefix
    · exact hne (hlongest.unique hlongest' ▸ heq)

/-! ## Lists of rules -/

/-- **What a list of rules makes.** It makes a table if it has a rule, all sources and targets are dotted
names and no source repeats. The table is the same in whatever order the rules come. Its roots are the
first segments of the sources. A name that does not mix full stops and slashes moves by the rule with
the most segments among those whose source it begins with: unless that rule is an exclusion, the
target's segments take the place of the source's, in the name's own separator. -/
theorem ofRules?_outcome (rules : List Rule) :
    ((∃ t, ofRules? rules = .ok t) ↔ rules ≠ [] ∧
      (∀ r ∈ rules, Name.IsDotted r.source ∧ Name.IsDotted r.target) ∧
      (rules.map Rule.source).Nodup) ∧
    ∀ t, ofRules? rules = .ok t →
      (∀ rules', rules'.Perm rules → ofRules? rules' = .ok t) ∧
      (∀ s, t.isRoot s ↔ ∃ r ∈ rules, (Name.segments r.source).head? = some s) ∧
      ∀ name, ¬ (Byte.dot ∈ name ∧ Byte.slash ∈ name) →
        (∀ out, t.resolve? name = some out ↔ ∃ r, Rule.IsLongest rules (Name.parts name) r ∧
          r.source ≠ r.target ∧ out = [Name.separator name].intercalate
            (Name.segments r.target ++ (Name.parts name).drop (Name.segments r.source).length)) ∧
        (t.resolve? name = none ↔ (∀ r ∈ rules, ¬ Name.segments r.source <+: Name.parts name) ∨
          ∃ r, Rule.IsLongest rules (Name.parts name) r ∧ r.source = r.target) := by
  refine ⟨exists_ofRules?_iff, fun t h => ?_⟩
  have hmem : ∀ r, r ∈ t.rules ↔ r ∈ rules := fun r => mem_rules_ofRules h
  have hlongest : ∀ ss r, Rule.IsLongest t.rules ss r ↔ Rule.IsLongest rules ss r :=
    fun ss r => Rule.isLongest_congr hmem
  refine ⟨fun rules' hp => ofRules?_perm hp h, fun s => ?_, fun name hname => ⟨fun out => ?_, ?_⟩⟩
  · simp only [isRoot_iff, hmem, Rule.head?_segments, Option.some.injEq]
  · simp only [resolve?_eq_some_iff hname, hlongest]
    rfl
  · simp only [resolve?_eq_none_iff hname, hlongest, hmem]

end Table

end PackageMigration
