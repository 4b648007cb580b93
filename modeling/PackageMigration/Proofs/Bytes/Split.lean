import PackageMigration.Bytes
/-
  Taking joined parts apart again.

  Main statements: `splitWhere_flatMap` (parts, each with an end behind it), `splitOn_intercalate`
  (parts with separators between them), `mem_of_mem_splitWhere` (what parts hold).
-/
namespace PackageMigration

section
variable {α : Type} {p : α → Bool}

theorem splitWhere_nil : splitWhere p [] = [[]] := rfl

theorem splitWhere_of_forall_not {l : List α} (h : ∀ a ∈ l, p a = false) : splitWhere p l = [l] := by
  induction l with
  | nil => rfl
  | cons a l ih =>
    rw [List.forall_mem_cons] at h
    rw [splitWhere_cons, ih h.2, h.1]
    rfl

/-- The first part ends where `p` holds first. -/
theorem splitWhere_append_cons {l : List α} (h : ∀ a ∈ l, p a = false) {b : α} (hb : p b)
    (l' : List α) : splitWhere p (l ++ b :: l') = l :: splitWhere p l' := by
  induction l with
  | nil => rw [List.nil_append, splitWhere_cons, if_pos hb]
  | cons a l ih =>
    rw [List.forall_mem_cons] at h
    rw [List.cons_append, splitWhere_cons, ih h.2, h.1]
    rfl

theorem splitWhere_map {β : Type} (f : β → α) (l : List β) :
    splitWhere p (l.map f) = (splitWhere (fun b => p (f b)) l).map (List.map f) := by
  induction l with
  | nil => rfl
  | cons b l ih =>
    rw [List.map_cons, splitWhere_cons, splitWhere_cons, ih]
    split
    · rfl
    · cases splitWhere (fun b => p (f b)) l <;> rfl

/-- A part holds items of the list, but none that it is split at. -/
theorem mem_of_mem_splitWhere {l part : List α} (h : part ∈ splitWhere p l) :
    ∀ a ∈ part, a ∈ l ∧ p a = false := by
  induction l generalizing part with
  | nil =>
    obtain rfl := List.mem_singleton.1 (splitWhere_nil (p := p) ▸ h)
    exact nofun
  | cons b l ih =>
    have hcons : ∀ {part : List α}, part ∈ splitWhere p l → ∀ a ∈ part, a ∈ b :: l ∧ p a = false :=
      fun hp a ha => ⟨List.mem_cons_of_mem b (ih hp a ha).1, (ih hp a ha).2⟩
    rw [splitWhere_cons] at h
    split at h
    · rcases List.mem_cons.1 h with rfl | h
      · exact nofun
      · exact hcons h
    next hb =>
      obtain ⟨q, qs, hq⟩ := List.exists_cons_of_ne_nil (splitWhere_ne_nil p l)
      rw [hq, consPart] at h
      rw [hq] at hcons
      rcases List.mem_cons.1 h with rfl | h
      · refine List.forall_mem_cons.2 ⟨⟨List.mem_cons_self, Bool.eq_false_iff.2 hb⟩, ?_⟩
        exact hcons List.mem_cons_self
      · exact hcons (List.mem_cons_of_mem q h)

/-- The first part begins the list. -/
theorem head?_of_splitWhere_eq_cons {l part : List α} {a : α} {parts : List (List α)}
    (h : splitWhere p l = (a :: part) :: parts) : l.head? = some a := by
  cases l with
  | nil => cases h
  | cons b l =>
    rw [splitWhere_cons] at h
    split at h
    · cases h
    · obtain ⟨q, qs, hq⟩ := List.exists_cons_of_ne_nil (splitWhere_ne_nil p l)
      rw [hq] at h
      cases h
      rfl

/-- Behind the last end there is one more part, which is empty. -/
theorem splitWhere_flatMap {ls : List (List α)} (h : ∀ l ∈ ls, ∀ a ∈ l, p a = false) {b : α}
    (hb : p b) : splitWhere p (ls.flatMap fun l => l ++ [b]) = ls ++ [[]] := by
  induction ls with
  | nil => rfl
  | cons l ls ih =>
    rw [List.forall_mem_cons] at h
    rw [List.flatMap_cons, List.append_assoc, List.singleton_append,
      splitWhere_append_cons h.1 hb, ih h.2, List.cons_append]

theorem splitWhere_append_of_forall_not {l : List α} (h : ∀ a ∈ l, p a = false) {l' part : List α}
    {parts : List (List α)} (hl' : splitWhere p l' = part :: parts) :
    splitWhere p (l ++ l') = (l ++ part) :: parts := by
  induction l with
  | nil => exact hl'
  | cons a l ih =>
    rw [List.forall_mem_cons] at h
    rw [List.cons_append, splitWhere_cons, ih h.2, h.1]
    rfl

/-- Items that a list is not split at are in one part, with the same ones around them. -/
theorem exists_splitWhere_append (p : α → Bool) (before behind : List α) :
    ∃ parts front back parts', ∀ l : List α, (∀ a ∈ l, p a = false) →
      splitWhere p (before ++ (l ++ behind)) = parts ++ (front ++ (l ++ back)) :: parts' := by
  induction before with
  | nil =>
    obtain ⟨part, parts, h⟩ := List.exists_cons_of_ne_nil (splitWhere_ne_nil p behind)
    exact ⟨[], [], part, parts, fun l hl => splitWhere_append_of_forall_not hl h⟩
  | cons b before ih =>
    obtain ⟨parts, front, back, parts', h⟩ := ih
    by_cases hb : p b
    · refine ⟨[] :: parts, front, back, parts', fun l hl => ?_⟩
      rw [List.cons_append, splitWhere_cons, if_pos hb, h l hl, List.cons_append]
    cases parts with
    | nil =>
      refine ⟨[], b :: front, back, parts', fun l hl => ?_⟩
      rw [List.cons_append, splitWhere_cons, if_neg hb, h l hl]
      rfl
    | cons part parts =>
      refine ⟨(b :: part) :: parts, front, back, parts', fun l hl => ?_⟩
      rw [List.cons_append, splitWhere_cons, if_neg hb, h l hl]
      rfl

end

namespace Bytes

theorem splitOn_of_notMem {sep : UInt8} {s : Bytes} (h : sep ∉ s) : splitOn sep s = [s] :=
  splitWhere_of_forall_not fun _ hb => beq_false_of_ne (ne_of_mem_of_not_mem hb h)

/-- Bytes are told by their parts. -/
theorem eq_of_splitOn_eq {sep : UInt8} {s s' : Bytes} (h : splitOn sep s = splitOn sep s') : s = s' := by
  rw [← intercalate_splitOn sep s, h, intercalate_splitOn]

theorem splitOn_append_cons {sep : UInt8} {s : Bytes} (h : sep ∉ s) (s' : Bytes) :
    splitOn sep (s ++ sep :: s') = s :: splitOn sep s' :=
  splitWhere_append_cons (fun _ hb => beq_false_of_ne (ne_of_mem_of_not_mem hb h))
    (beq_self_eq_true sep) s'

/-- Every separator is split at. -/
theorem splitOn_append (sep : UInt8) (s s' : Bytes) :
    splitOn sep (s ++ sep :: s') = splitOn sep s ++ splitOn sep s' := by
  induction s with
  | nil => rw [List.nil_append, splitOn_cons, if_pos rfl]; rfl
  | cons b s ih =>
    rw [List.cons_append, splitOn_cons, splitOn_cons, ih]
    split
    · rfl
    · obtain ⟨p, ps, hp⟩ := List.exists_cons_of_ne_nil (splitOn_ne_nil sep s)
      rw [hp]
      rfl

/-- Splitting at the separator gives the joined parts back. -/
theorem splitOn_intercalate {sep : UInt8} {ps : List Bytes} (hne : ps ≠ [])
    (h : ∀ p ∈ ps, sep ∉ p) : splitOn sep ([sep].intercalate ps) = ps := by
  induction ps with
  | nil => exact absurd rfl hne
  | cons p ps ih =>
    rw [List.forall_mem_cons] at h
    cases ps with
    | nil => rw [List.intercalate_singleton, splitOn_of_notMem h.1]
    | cons q ps =>
      rw [List.intercalate_cons_cons, List.append_assoc, List.singleton_append,
        splitOn_append_cons h.1, ih (by simp) h.2]

theorem notMem_of_mem_splitOn {sep : UInt8} {s part : Bytes} (h : part ∈ splitOn sep s) : sep ∉ part :=
  fun hsep => absurd (mem_of_mem_splitWhere h _ hsep).2 (by simp)

/-- Between two of the parts stands the separator. -/
theorem eq_append_cons_of_splitOn {sep : UInt8} {s : Bytes} {front rest : List Bytes}
    (h : splitOn sep s = front ++ rest) (hfront : front ≠ []) (hrest : rest ≠ []) :
    s = [sep].intercalate front ++ sep :: [sep].intercalate rest := by
  have hparts : ∀ p ∈ front ++ rest, sep ∉ p := fun p hp => notMem_of_mem_splitOn (h ▸ hp)
  rw [List.forall_mem_append] at hparts
  rw [← intercalate_splitOn sep s, h, ← splitOn_intercalate hfront hparts.1,
    ← splitOn_intercalate hrest hparts.2, ← splitOn_append, intercalate_splitOn,
    intercalate_splitOn, intercalate_splitOn]

/-- The first part is what stands in front of the first separator. -/
theorem head?_splitOn (sep : UInt8) (s : Bytes) :
    (splitOn sep s).head? = some (s.takeWhile (· != sep)) := by
  induction s with
  | nil => rfl
  | cons b s ih =>
    rw [splitOn_cons]
    split
    next h => simp [h]
    next h =>
      obtain ⟨p, ps, hp⟩ := List.exists_cons_of_ne_nil (splitOn_ne_nil sep s)
      rw [hp, List.head?_cons, Option.some.injEq] at ih
      simp [hp, consPart, ih, h]

end Bytes

end PackageMigration
