import PackageMigration.Bytes
/-
  Qualified names and the rules that move one package to another.

  * `Name.isIdent`, `Name.segments`, `Name.IsQualified`: names as dotted identifier segments.
  * `Rule`: a source package and its target; an exclusion has the two equal.
  * `Rule.covered?`: how much of a name the source covers.

  Main statement: `covered?_eq_some_iff`.
-/
namespace PackageMigration

namespace Name

/-- An identifier byte: an ASCII letter, a digit, `_` or `$`. -/
def isIdent (b : UInt8) : Bool :=
  Byte.isDigit b || Byte.isUpper b || Byte.isLower b || b == 0x5F || b == 0x24

/-- The segments of a dotted name. -/
def segments (name : Bytes) : List Bytes := Bytes.splitOn Byte.dot name

/-- The dotted name of some segments. -/
def dotted (segments : List Bytes) : Bytes := [Byte.dot].intercalate segments

/-- A non-empty run of identifier bytes. -/
def IsSegment (s : Bytes) : Prop := s ≠ [] ∧ ∀ b ∈ s, isIdent b

instance (s : Bytes) : Decidable (IsSegment s) := inferInstanceAs (Decidable (_ ∧ _))

/-- A dotted qualified name: every segment is a non-empty run of identifier bytes. -/
def IsQualified (name : Bytes) : Prop := ∀ s ∈ segments name, IsSegment s

instance (name : Bytes) : Decidable (IsQualified name) :=
  inferInstanceAs (Decidable (∀ _ ∈ _, _))

/-- How many segments a dotted name covers, from the first one on, behind `done` others. -/
def coveredBehind? (done : Nat) (name : Bytes) : List Bytes → Option Nat
  | [] => none
  | s :: segments =>
    match Bytes.after? s name with
    | none => none
    | some [] => some (done + 1)
    | some (b :: name) => if b = Byte.dot then coveredBehind? (done + 1) name segments else none

/-- The first segment joined by a full stop to the ones behind it. -/
theorem dotted_take_succ (s : Bytes) {segments : List Bytes} {k : Nat} (hk : 0 < k)
    (hl : k ≤ segments.length) :
    dotted ((s :: segments).take (k + 1)) = s ++ Byte.dot :: dotted (segments.take k) := by
  have h : segments.take k ≠ [] := by
    rw [Ne, List.take_eq_nil_iff]
    rintro (rfl | rfl) <;> simp_all
  rw [List.take_succ_cons, dotted, Bytes.intercalate_cons h]
  simp [dotted]

theorem coveredBehind?_eq_some_iff {done n : Nat} {name : Bytes} {segments : List Bytes} :
    coveredBehind? done name segments = some n ↔
      ∃ k, 0 < k ∧ k ≤ segments.length ∧ dotted (segments.take k) = name ∧ n = done + k := by
  induction segments generalizing done name with
  | nil =>
    simp only [coveredBehind?, reduceCtorEq, List.length_nil, false_iff, not_exists]
    omega
  | cons s segments ih =>
    have key : (∃ k, 0 < k ∧ k ≤ (s :: segments).length ∧ dotted ((s :: segments).take k) = name ∧
          n = done + k) ↔
        (name = s ∧ n = done + 1) ∨
          ∃ k, 0 < k ∧ k ≤ segments.length ∧ name = s ++ Byte.dot :: dotted (segments.take k) ∧
            n = done + 1 + k := by
      constructor
      · rintro ⟨k, hk, hl, rfl, rfl⟩
        obtain ⟨k, rfl⟩ := Nat.exists_eq_add_one_of_ne_zero (Nat.ne_of_gt hk)
        rcases Nat.eq_zero_or_pos k with rfl | hk'
        · exact .inl ⟨by simp [dotted, List.intercalate], rfl⟩
        · have hl' : k ≤ segments.length := Nat.le_of_succ_le_succ hl
          exact .inr ⟨k, hk', hl', dotted_take_succ s hk' hl', by omega⟩
      · rintro (⟨rfl, rfl⟩ | ⟨k, hk, hl, rfl, rfl⟩)
        · exact ⟨1, by omega, by simp, by simp [dotted, List.intercalate], rfl⟩
        · exact ⟨k + 1, by omega, Nat.succ_le_succ hl, dotted_take_succ s hk hl, by omega⟩
    rw [key, coveredBehind?]
    split
    next h =>
      simp only [reduceCtorEq, false_iff, not_or, not_exists, not_and]
      refine ⟨?_, ?_⟩
      · rintro rfl
        simp [Bytes.after?_eq_some_iff.2 (List.append_nil name).symm] at h
      · rintro k - - rfl
        simp [Bytes.after?_eq_some_iff.2 rfl] at h
    next h =>
      obtain rfl := Bytes.after?_eq_some_iff.1 h
      simp [@eq_comm _ n]
    next b rest h =>
      obtain rfl := Bytes.after?_eq_some_iff.1 h
      split
      next hb =>
        subst hb
        simp [ih, @eq_comm _ rest]
      next hb => simp [hb]

end Name

/-- Names under `source` are to be found under `target` instead. -/
structure Rule where
  source : Bytes
  target : Bytes
  deriving DecidableEq, Repr

namespace Rule

/-- A rule that keeps a package where it is, against a rule for a shorter name. -/
def exclusion (package : Bytes) : Rule := ⟨package, package⟩

def isExclusion (r : Rule) : Bool := r.source == r.target

/-- The first segment of the source. -/
def root (r : Rule) : Bytes := r.source.takeWhile (· != Byte.dot)

/-- The number of segments of the source. -/
def depth (r : Rule) : Nat := (Name.segments r.source).length

/-- How many segments of a name the source covers, from the first one on. -/
def covered? (r : Rule) (segments : List Bytes) : Option Nat :=
  Name.coveredBehind? 0 r.source segments

/-- The covered segments are those that the source joins by full stops. -/
theorem covered?_eq_some_iff {r : Rule} {segments : List Bytes} {n : Nat} :
    r.covered? segments = some n ↔
      0 < n ∧ n ≤ segments.length ∧ Name.dotted (segments.take n) = r.source := by
  rw [covered?, Name.coveredBehind?_eq_some_iff]
  constructor
  · rintro ⟨k, hk, hl, hd, rfl⟩
    rw [Nat.zero_add]
    exact ⟨hk, hl, hd⟩
  · rintro ⟨hk, hl, hd⟩
    exact ⟨n, hk, hl, hd, (Nat.zero_add n).symm⟩

end Rule

end PackageMigration
