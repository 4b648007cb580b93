import PackageMigration.Proofs.Manifest.Line
/-
  The lines of a text, whatever they end in.

  * `LineEnd`: the ends that a line can have.
  * `HasLines`: a text taken apart into its lines.
  * `terminated`, `joined`: lines written with one end throughout, behind each or between them.

  Main statements: `hasLines_iff` (a text has the lines that are read), `isText_iff_of_hasLines`,
  `hasLines_terminated`, `hasLines_joined`.
-/
namespace PackageMigration.Manifest

open Bytes (IsText)

/-- The end of a line. -/
inductive LineEnd where
  | crLf
  | lf
  | cr
  deriving DecidableEq, Repr

def LineEnd.bytes : LineEnd → Bytes
  | crLf => [Byte.cr, Byte.lf]
  | lf => [Byte.lf]
  | cr => [Byte.cr]

/-- The end stands in front of a text. A carriage return in front of a line feed is no end of its own. -/
def LineEnd.EndsBefore (e : LineEnd) (s : Bytes) : Prop := e = cr → s.head? ≠ some Byte.lf

/-- A text and its lines. The last line may have no end, unless it is empty. -/
inductive HasLines : Bytes → List Bytes → Prop
  | nil : HasLines [] []
  | last {l : Bytes} : IsLine l → l ≠ [] → HasLines l [l]
  | cons {l s : Bytes} {ls : List Bytes} {e : LineEnd} :
      IsLine l → e.EndsBefore s → HasLines s ls → HasLines (l ++ (e.bytes ++ s)) (l :: ls)

/-- Lines with an end behind each. -/
def terminated (e : LineEnd) (ls : List Bytes) : Bytes := ls.flatMap fun l => l ++ e.bytes

/-- Lines with an end between them. -/
def joined (e : LineEnd) (ls : List Bytes) : Bytes := e.bytes.intercalate ls

section
variable {l s : Bytes} {ls : List Bytes} {e : LineEnd}

theorem isLine_cons_iff {b : UInt8} : IsLine (b :: s) ↔ (b ≠ Byte.cr ∧ b ≠ Byte.lf) ∧ IsLine s := by
  constructor
  · rintro ⟨hc, hl⟩
    rw [List.mem_cons, not_or] at hc hl
    exact ⟨⟨Ne.symm hc.1, Ne.symm hl.1⟩, hc.2, hl.2⟩
  · rintro ⟨⟨hc, hl⟩, h⟩
    exact ⟨by simp [Ne.symm hc, h.cr_notMem], by simp [Ne.symm hl, h.lf_notMem]⟩

namespace LineEnd

theorem isAscii_bytes (e : LineEnd) : Bytes.IsAscii e.bytes :=
  Bytes.isAscii_of_all (by cases e <;> decide)

theorem bytes_ne_nil (e : LineEnd) : e.bytes ≠ [] := by cases e <;> decide

theorem endsBefore_nil (e : LineEnd) : e.EndsBefore [] := fun _ => nofun

theorem endsBefore_bytes_append (e : LineEnd) (s : Bytes) : e.EndsBefore (e.bytes ++ s) := by
  rintro rfl h
  exact absurd (Option.some.inj h) (by decide)

/-- A line does not begin with a line feed. -/
theorem EndsBefore.append (hl : IsLine l) (h : e.EndsBefore s) : e.EndsBefore (l ++ s) := by
  cases l with
  | nil => exact h
  | cons b l => exact fun _ hb => (isLine_cons_iff.1 hl).1.2 (Option.some.inj hb)

end LineEnd

/-! ## What is read -/

theorem unifyEnds_end_append (h : e.EndsBefore s) :
    unifyEnds (e.bytes ++ s) = Byte.lf :: unifyEnds s := by
  cases e with
  | crLf => exact unifyEnds_lineEnd_append s
  | lf => exact unifyEnds_cons Byte.lf s
  | cr =>
    have hnext : s.headD 0 ≠ Byte.lf := by
      cases s with
      | nil => decide
      | cons b s => exact fun hb => h rfl (congrArg some hb)
    rw [LineEnd.bytes, List.singleton_append, unifyEnds_cons, unifyEnd, if_pos rfl, if_neg hnext]
    rfl

theorem lines_append_end (hl : IsLine l) (he : e.EndsBefore s) :
    lines (l ++ (e.bytes ++ s)) = l :: lines s := by
  have hparts : Bytes.splitOn Byte.lf (unifyEnds (l ++ (e.bytes ++ s))) =
      l :: Bytes.splitOn Byte.lf (unifyEnds s) := by
    rw [unifyEnds_append hl.cr_notMem, unifyEnds_end_append he, Bytes.splitOn_append_cons hl.lf_notMem]
  obtain ⟨p, ps, hps⟩ := List.exists_cons_of_ne_nil (Bytes.splitOn_ne_nil Byte.lf (unifyEnds s))
  unfold lines
  dsimp only
  rw [hparts, hps, List.getLast?_cons_cons, List.dropLast_cons_cons]
  split <;> rfl

theorem lines_of_isLine (hl : IsLine l) (hne : l ≠ []) : lines l = [l] := by
  have hparts : Bytes.splitOn Byte.lf (unifyEnds l) = [l] := by
    have hunify := unifyEnds_append hl.cr_notMem []
    rw [List.append_nil, unifyEnds_nil, List.append_nil] at hunify
    rw [hunify, Bytes.splitOn_of_notMem hl.lf_notMem]
  unfold lines
  dsimp only
  rw [hparts, List.getLast?_singleton, if_neg (fun h => hne (Option.some.inj h))]

theorem lines_of_hasLines (h : HasLines s ls) : lines s = ls := by
  induction h with
  | nil => rfl
  | last hl hne => exact lines_of_isLine hl hne
  | cons hl he _ ih => rw [lines_append_end hl he, ih]

/-- A text that is not one line has a first line with an end. -/
theorem exists_first_line (h : ¬ IsLine s) :
    ∃ (l s' : Bytes) (e : LineEnd), IsLine l ∧ e.EndsBefore s' ∧ s = l ++ (e.bytes ++ s') := by
  induction s with
  | nil => exact absurd isLine_nil h
  | cons b s ih =>
    by_cases hlf : b = Byte.lf
    · exact ⟨[], s, .lf, isLine_nil, nofun, by rw [hlf]; rfl⟩
    by_cases hcr : b = Byte.cr
    · by_cases hnext : s.head? = some Byte.lf
      · obtain ⟨s', rfl⟩ := List.head?_eq_some_iff.1 hnext
        exact ⟨[], s', .crLf, isLine_nil, nofun, by rw [hcr]; rfl⟩
      · exact ⟨[], s, .cr, isLine_nil, fun _ => hnext, by rw [hcr]; rfl⟩
    · rw [isLine_cons_iff, not_and] at h
      obtain ⟨l, s', e, hl, he, rfl⟩ := ih (h ⟨hcr, hlf⟩)
      exact ⟨b :: l, s', e, isLine_cons_iff.2 ⟨⟨hcr, hlf⟩, hl⟩, he, rfl⟩

theorem exists_hasLines (s : Bytes) : ∃ ls, HasLines s ls := by
  by_cases hs : IsLine s
  · by_cases hne : s = []
    · exact ⟨[], hne ▸ .nil⟩
    · exact ⟨[s], .last hs hne⟩
  · obtain ⟨l, s', e, hl, he, rfl⟩ := exists_first_line hs
    obtain ⟨ls, h⟩ := exists_hasLines s'
    exact ⟨l :: ls, .cons hl he h⟩
termination_by s.length
decreasing_by
  have hpos := List.length_pos_iff.2 e.bytes_ne_nil
  simp only [*, List.length_append]
  omega

/-- **A text has the lines that are read.** -/
theorem hasLines_iff : HasLines s ls ↔ ls = lines s := by
  refine ⟨fun h => (lines_of_hasLines h).symm, ?_⟩
  rintro rfl
  obtain ⟨ls, h⟩ := exists_hasLines s
  rwa [lines_of_hasLines h]

/-! ## What is written -/

/-- Ends of lines do not matter to what is text. -/
theorem isText_iff_of_hasLines (h : HasLines s ls) : IsText s ↔ ∀ l ∈ ls, IsText l := by
  induction h with
  | nil => exact iff_of_true Bytes.isText_nil nofun
  | last _ _ => exact List.forall_mem_singleton.symm
  | @cons l s ls e _ _ _ ih =>
    rw [List.forall_mem_cons, ← ih, ← List.append_assoc,
      Bytes.isText_append_ascii_append e.isAscii_bytes e.bytes_ne_nil]

theorem hasLines_terminated (e : LineEnd) (h : ∀ l ∈ ls, IsLine l) :
    HasLines (terminated e ls) ls := by
  induction ls with
  | nil => exact .nil
  | cons l ls ih =>
    obtain ⟨hl, hls⟩ := List.forall_mem_cons.1 h
    have hends : e.EndsBefore (terminated e ls) := by
      cases ls with
      | nil => exact e.endsBefore_nil
      | cons l' ls =>
        rw [terminated, List.flatMap_cons, List.append_assoc]
        exact (e.endsBefore_bytes_append _).append (hls l' List.mem_cons_self)
    rw [terminated, List.flatMap_cons, List.append_assoc]
    exact .cons hl hends (ih hls)

theorem hasLines_joined (e : LineEnd) (h : ∀ l ∈ ls, IsLine l) (hlast : ls.getLast? ≠ some []) :
    HasLines (joined e ls) ls := by
  induction ls with
  | nil => exact .nil
  | cons l ls ih =>
    obtain ⟨hl, hls⟩ := List.forall_mem_cons.1 h
    cases ls with
    | nil =>
      rw [joined, List.intercalate_singleton]
      exact .last hl fun hnil => hlast (congrArg some hnil)
    | cons l' ls =>
      have hl' : IsLine l' := hls l' List.mem_cons_self
      have hends : e.EndsBefore (joined e (l' :: ls)) := by
        cases ls with
        | nil =>
          rw [joined, List.intercalate_singleton, ← List.append_nil l']
          exact e.endsBefore_nil.append hl'
        | cons l'' ls =>
          rw [joined, List.intercalate_cons_cons, List.append_assoc]
          exact (e.endsBefore_bytes_append _).append hl'
      rw [joined, List.intercalate_cons_cons, List.append_assoc]
      exact .cons hl hends (ih hls (by rwa [List.getLast?_cons_cons] at hlast))

end

end PackageMigration.Manifest
