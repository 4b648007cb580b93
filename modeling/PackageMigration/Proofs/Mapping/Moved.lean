import Mathlib.Data.List.Forall2
import Mathlib.Data.List.Infix
import PackageMigration.Proofs.Bytes.Split
/-
  Byte strings in which one word stands for another.

  * `Moved x y s s'`: `s'` is `s` with some occurrences of `x` replaced by `y`.

  Main statements: `Moved.append_cons` (a byte that is in no `x` stays where it is),
  `Moved.append_left` (so do the bytes in front of the first `x`), `Moved.eq_of_not_isInfix`,
  `Moved.splitOn` (the parts are moved one by one).
-/
namespace PackageMigration

/-- The second text is the first one with some occurrences of `x` replaced by `y`. -/
inductive Moved (x y : Bytes) : Bytes → Bytes → Prop
  | nil : Moved x y [] []
  | keep (b : UInt8) {s s' : Bytes} : Moved x y s s' → Moved x y (b :: s) (b :: s')
  | swap {s s' : Bytes} : Moved x y s s' → Moved x y (x ++ s) (y ++ s')

namespace Moved

variable {x y s s' : Bytes}

theorem refl (x y s : Bytes) : Moved x y s s := by
  induction s with
  | nil => exact .nil
  | cons b s ih => exact .keep b ih

theorem append {u u' : Bytes} (h : Moved x y s s') (hu : Moved x y u u') :
    Moved x y (s ++ u) (s' ++ u') := by
  induction h with
  | nil => exact hu
  | keep b _ ih => exact .keep b ih
  | swap _ ih => rw [List.append_assoc, List.append_assoc]; exact .swap ih

theorem flatMap {α : Type} {f g : α → Bytes} {l : List α} (h : ∀ a ∈ l, Moved x y (f a) (g a)) :
    Moved x y (l.flatMap f) (l.flatMap g) := by
  induction l with
  | nil => exact .nil
  | cons a l ih =>
    rw [List.forall_mem_cons] at h
    exact h.1.append (ih h.2)

theorem symm (h : Moved x y s s') : Moved y x s' s := by
  induction h with
  | nil => exact .nil
  | keep b _ ih => exact .keep b ih
  | swap _ ih => exact .swap ih

theorem mem_or_mem (h : Moved x y s s') {b : UInt8} (hb : b ∈ s') : b ∈ s ∨ b ∈ y := by
  induction h with
  | nil => exact .inl hb
  | keep c _ ih =>
    rcases List.mem_cons.1 hb with rfl | hb
    · exact .inl List.mem_cons_self
    · exact (ih hb).imp_left (List.mem_cons_of_mem c)
  | swap _ ih =>
    rcases List.mem_append.1 hb with hb | hb
    · exact .inr hb
    · exact (ih hb).imp_left (List.mem_append_right x)

/-- A text gets no shorter if the new word is none. -/
theorem length_le (h : Moved x y s s') (hle : x.length ≤ y.length) : s.length ≤ s'.length := by
  induction h with
  | nil => exact Nat.le_refl 0
  | keep b _ ih => exact Nat.succ_le_succ ih
  | swap _ ih =>
    rw [List.length_append, List.length_append]
    exact Nat.add_le_add hle ih

/-- A text without the word stays. -/
theorem eq_of_not_isInfix (h : Moved x y s s') (hx : ¬ x <:+: s) : s' = s := by
  induction h with
  | nil => rfl
  | keep b _ ih => rw [ih fun hi => hx (hi.trans (List.suffix_cons b _).isInfix)]
  | @swap s s' _ _ => exact absurd (List.prefix_append x s).isInfix hx

/-- A byte that is not in the word divides a text as before. -/
theorem append_cons {p w : Bytes} {b : UInt8} (h : Moved x y (p ++ b :: w) s') (hb : b ∉ x) :
    ∃ p' w', s' = p' ++ b :: w' ∧ Moved x y p p' ∧ Moved x y w w' := by
  generalize hs : p ++ b :: w = s at h
  induction h generalizing p with
  | nil => simp at hs
  | @keep c s s' h ih =>
    cases p with
    | nil =>
      obtain ⟨rfl, rfl⟩ := List.cons.inj hs
      exact ⟨[], s', rfl, .nil, h⟩
    | cons c' p =>
      obtain ⟨rfl, hs'⟩ := List.cons.inj hs
      obtain ⟨p', w', rfl, hp, hw⟩ := ih hs'
      exact ⟨c' :: p', w', rfl, .keep c' hp, hw⟩
  | @swap s s' _ ih =>
    obtain ⟨p, rfl, hs'⟩ : ∃ p', p = x ++ p' ∧ p' ++ b :: w = s := by
      rcases List.append_eq_append_iff.1 hs with ⟨u, hx, hu⟩ | ⟨u, rfl, rfl⟩
      · cases u with
        | nil =>
          rw [List.append_nil] at hx
          exact ⟨[], by rw [hx, List.append_nil], by simpa using hu⟩
        | cons c u =>
          obtain ⟨rfl, -⟩ := List.cons.inj hu
          exact absurd (by simp [hx]) hb
      · exact ⟨u, rfl, rfl⟩
    obtain ⟨p', w', rfl, hp, hw⟩ := ih hs'
    exact ⟨y ++ p', w', by simp, .swap hp, hw⟩

theorem eq_nil (h : Moved x y [] s') (hx : x ≠ []) : s' = [] :=
  h.eq_of_not_isInfix (by simpa using hx)

/-- What stands in front of all bytes that a word can begin with stays. -/
theorem append_left {p w : Bytes} (h : Moved x y (p ++ w) s') (hx : x ≠ [])
    (hp : ∀ b ∈ p, x.head? ≠ some b) : ∃ w', s' = p ++ w' ∧ Moved x y w w' := by
  induction p generalizing s' with
  | nil => exact ⟨s', rfl, h⟩
  | cons b p ih =>
    rw [List.forall_mem_cons] at hp
    generalize hs : b :: p ++ w = s at h
    cases h with
    | nil => cases hs
    | keep c h =>
      obtain ⟨rfl, rfl⟩ := List.cons.inj hs
      obtain ⟨w', rfl, hw⟩ := ih h hp.2
      exact ⟨w', rfl, hw⟩
    | swap h =>
      obtain ⟨c, x, rfl⟩ := List.exists_cons_of_ne_nil hx
      obtain ⟨rfl, -⟩ := List.cons.inj hs
      exact absurd rfl hp.1

/-- **A byte that is in neither word divides both texts into as many parts**, which are moved one by one. -/
theorem splitOn {b : UInt8} (h : Moved x y s s') (hx : b ∉ x) (hy : b ∉ y) :
    List.Forall₂ (Moved x y) (Bytes.splitOn b s) (Bytes.splitOn b s') := by
  induction hlength : s.length using Nat.strong_induction_on generalizing s s' with
  | _ n ih =>
    by_cases hb : b ∈ s
    · obtain ⟨p, w, rfl, hp⟩ := List.eq_append_cons_of_mem hb
      obtain ⟨p', w', rfl, hpp, hww⟩ := h.append_cons hx
      have hp' : b ∉ p' := fun hm => (hpp.mem_or_mem hm).elim hp hy
      rw [Bytes.splitOn_append_cons hp, Bytes.splitOn_append_cons hp']
      refine .cons hpp (ih w.length ?_ hww rfl)
      rw [← hlength, List.length_append, List.length_cons]
      omega
    · have hb' : b ∉ s' := fun hm => (h.mem_or_mem hm).elim hb hy
      rw [Bytes.splitOn_of_notMem hb, Bytes.splitOn_of_notMem hb']
      exact .cons h .nil

end Moved

end PackageMigration
