import Mathlib.Data.List.Infix
import PackageMigration.Container.Zip
/-
  Where records are found in a ZIP container.

  * `marked`: the places of a signature.

  Main statements: `mem_placesFrom_iff`, `find?_locals`, `find?_centrals` (the record at a place),
  `exists_marked_eq` (what is behind a place and what is before it).
-/
namespace PackageMigration.Container.Zip

/-- The bytes from a place on are the end of all bytes, and begin like a signature. -/
theorem mem_placesFrom_iff {p : Place} {offset : Nat} {found : List Place} {s : Bytes} :
    p ∈ placesFrom offset found s ↔ p ∈ found ∨
      ∃ before, s = before ++ p.bytes ∧ p.offset = offset + before.length ∧
        signatureStart <+: p.bytes := by
  induction s generalizing offset found with
  | nil =>
    refine (or_iff_left ?_).symm
    rintro ⟨before, h, -, hstart⟩
    rw [(List.append_eq_nil_iff.1 h.symm).2] at hstart
    exact absurd (List.prefix_nil.1 hstart) (by decide)
  | cons b s ih =>
    rw [placesFrom, ih]
    have hhere : p ∈ (if signatureStart.isPrefixOf (b :: s) then ⟨offset, b :: s⟩ :: found
        else found) ↔ p ∈ found ∨ p = ⟨offset, b :: s⟩ ∧ signatureStart <+: b :: s := by
      split
      next h => simp [List.isPrefixOf_iff_prefix.1 h, or_comm]
      next h => simp [mt List.isPrefixOf_iff_prefix.2 h]
    rw [hhere, or_assoc]
    refine or_congr_right ⟨?_, ?_⟩
    · rintro (⟨rfl, h⟩ | ⟨before, rfl, hoffset, h⟩)
      · exact ⟨[], rfl, rfl, h⟩
      · exact ⟨b :: before, rfl, by rw [hoffset, List.length_cons]; omega, h⟩
    · rintro ⟨before, hs, hoffset, h⟩
      cases before with
      | nil =>
        obtain ⟨o, t⟩ := p
        obtain rfl : b :: s = t := hs
        obtain rfl : o = offset := hoffset
        exact .inl ⟨rfl, h⟩
      | cons b' before =>
        obtain ⟨rfl, rfl⟩ := List.cons.inj hs
        exact .inr ⟨before, rfl, by rw [hoffset, List.length_cons]; omega, h⟩

/-- The last place comes first. -/
theorem pairwise_placesFrom {offset : Nat} {found : List Place} (s : Bytes)
    (hfound : found.Pairwise fun p q => q.offset < p.offset) (hlt : ∀ p ∈ found, p.offset < offset) :
    (placesFrom offset found s).Pairwise fun p q => q.offset < p.offset := by
  induction s generalizing offset found with
  | nil => exact hfound
  | cons b s ih =>
    rw [placesFrom]
    split
    · refine ih (List.pairwise_cons.2 ⟨hlt, hfound⟩) (List.forall_mem_cons.2 ⟨Nat.lt_succ_self _, ?_⟩)
      exact fun p hp => Nat.lt_succ_of_lt (hlt p hp)
    · exact ih hfound fun p hp => Nat.lt_succ_of_lt (hlt p hp)

/-- The places of a signature in bytes, the last one first. -/
def marked (signature data : Bytes) : List Place := (placesFrom 0 [] data).filter (·.isMarked signature)

theorem pairwise_marked (signature data : Bytes) :
    (marked signature data).Pairwise fun p q => q.offset < p.offset :=
  (pairwise_placesFrom data .nil (List.forall_mem_nil _)).filter _

variable {s : Bytes}

/-- A signature has a place, between those behind it and those before it. -/
theorem exists_marked_eq {signature : Bytes} (hsignature : signatureStart <+: signature)
    (hs : signature <+: s) (before : Bytes) :
    ∃ behind others, marked signature (before ++ s) = behind ++ ⟨before.length, s⟩ :: others ∧
      (∀ p ∈ behind, before.length < p.offset) ∧ ∀ p ∈ others, p.offset < before.length := by
  have hmem : ⟨before.length, s⟩ ∈ marked signature (before ++ s) := by
    refine List.mem_filter.2 ⟨mem_placesFrom_iff.2 (.inr ?_), List.isPrefixOf_iff_prefix.2 hs⟩
    exact ⟨before, rfl, (Nat.zero_add _).symm, hsignature.trans hs⟩
  obtain ⟨behind, others, h⟩ := List.append_of_mem hmem
  have hsorted := pairwise_marked signature (before ++ s)
  rw [h] at hsorted
  obtain ⟨-, hothers, hbehind⟩ := List.pairwise_append.1 hsorted
  exact ⟨behind, others, h, fun p hp => hbehind p hp _ List.mem_cons_self,
    (List.pairwise_cons.1 hothers).1⟩

/-- Of the places from a signature on, its own is the first. -/
theorem find?_marked {before signature : Bytes} (hsignature : signatureStart <+: signature)
    (hs : signature <+: s) {wanted : Place → Bool} (hwanted : wanted ⟨before.length, s⟩)
    (hle : ∀ p, wanted p → before.length ≤ p.offset) :
    (marked signature (before ++ s)).reverse.find? wanted = some ⟨before.length, s⟩ := by
  obtain ⟨behind, others, h, -, hothers⟩ := exists_marked_eq hsignature hs before
  have hnone : others.reverse.find? wanted = none :=
    List.find?_eq_none.2 fun p hp hw => Nat.not_le_of_lt (hothers p (List.mem_reverse.1 hp)) (hle p hw)
  rw [h, List.reverse_append, List.reverse_cons, List.append_assoc, List.find?_append, hnone,
    Option.none_or, List.singleton_append, List.find?_cons_of_pos hwanted]

/-- A local record is found by its offset. -/
theorem find?_locals (before : Bytes) (hs : localSignature <+: s) :
    (landmarks (before ++ s)).locals.find? (·.offset == before.length) = some ⟨before.length, s⟩ :=
  find?_marked (by decide) hs (beq_self_eq_true _) fun _ h => Nat.le_of_eq (eq_of_beq h).symm

/-- A central record is the first one from its offset on. -/
theorem find?_centrals (before : Bytes) (hs : centralSignature <+: s) :
    (landmarks (before ++ s)).centrals.find? (fun p => before.length ≤ p.offset) =
      some ⟨before.length, s⟩ :=
  find?_marked (by decide) hs (decide_eq_true (Nat.le_refl _)) fun _ => of_decide_eq_true

end PackageMigration.Container.Zip
