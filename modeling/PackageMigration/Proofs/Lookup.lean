import Mathlib.Data.List.Nodup
/-
  Looking up keys in lists of pairs in which no key stands twice.

  Main statements: `lookup_eq_some_iff`, `lookup_eq_of_perm` (the order does not matter).
-/
namespace PackageMigration

variable {α β : Type} [BEq α] [LawfulBEq α] {l l' : List (α × β)}

theorem lookup_eq_some_iff (h : (l.map Prod.fst).Nodup) {a : α} {b : β} :
    l.lookup a = some b ↔ (a, b) ∈ l := by
  induction l with
  | nil => simp
  | cons m l ih =>
    obtain ⟨k, b'⟩ := m
    rw [List.map_cons, List.nodup_cons] at h
    rw [List.lookup_cons, List.mem_cons, Prod.mk.injEq]
    by_cases hk : a = k
    · subst hk
      have hnotMem : (a, b) ∉ l := fun hm => h.1 (List.mem_map.2 ⟨(a, b), hm, rfl⟩)
      simp [hnotMem, eq_comm]
    · simp [hk, beq_eq_false_iff_ne.2 hk, ih h.2]

theorem isSome_lookup_iff {a : α} : (l.lookup a).isSome = true ↔ a ∈ l.map Prod.fst := by
  simp only [List.lookup_isSome_iff, List.mem_map, beq_iff_eq, @eq_comm _ a]

/-- The order of the pairs does not matter. -/
theorem lookup_eq_of_perm (h : (l.map Prod.fst).Nodup) (hp : l.Perm l') (a : α) :
    l.lookup a = l'.lookup a := by
  have h' : (l'.map Prod.fst).Nodup := (hp.map Prod.fst).nodup_iff.1 h
  ext b
  rw [lookup_eq_some_iff h, lookup_eq_some_iff h', hp.mem_iff]

end PackageMigration
