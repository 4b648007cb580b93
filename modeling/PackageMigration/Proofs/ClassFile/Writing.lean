import PackageMigration.Proofs.ClassFile.Layout
/-
  What is written for a class file that is asked for other texts.

  * `textsFrom`, `asked`: the texts of slots, and what they are answered one after the other.
  * `Answered`: slots with the texts of the answers, one answer for each text.
  * `ClassFile.Replaced`: the class file with the texts of the answers and all else as it was.

  Main statements: `replacing?_eq` (answers that depend on nothing else can be had all at once),
  `write?_outcome`.
-/
namespace PackageMigration

open ClassFile (writePool?)

/-! ## Answers that depend on nothing else -/

theorem Slot.write?_pure (f : Nat → Bytes → Option Bytes) (index : Nat) (s : Slot) :
    (s.write? (fun i payload => (pure (f i payload) : Id (Option Bytes))) index).run =
      match (s.replace (f index)).tooLong? with
      | some n => pure (.error (.utf8TooLong index n))
      | none => pure (.ok (s.replace (f index))) := by
  cases s with
  | unusable => rfl
  | other => rfl
  | utf8 payload =>
    simp only [Slot.write?, Slot.replace, Slot.tooLong?]
    by_cases h : ((f index payload).getD payload).length ≤ 0xFFFF <;> simp [h]

theorem ClassFile.writePool?_pure (f : Nat → Bytes → Option Bytes) (index : Nat) (ss : List Slot) :
    let ss' := (ss.zipIdx index).map fun (s, i) => s.replace (f i)
    (writePool? (fun i payload => (pure (f i payload) : Id (Option Bytes))) index ss).run =
      match (ss'.zipIdx index).findSome? fun (s, i) => s.tooLong?.map (i, ·) with
      | some (i, n) => pure (.error (.utf8TooLong i n))
      | none => pure (.ok ss') := by
  induction ss generalizing index with
  | nil => rfl
  | cons s ss ih =>
    intro ss'
    simp only [ss', List.zipIdx_cons, List.map_cons, List.findSome?_cons]
    rw [writePool?, ExceptT.run_bind, Slot.write?_pure]
    cases (s.replace (f index)).tooLong? with
    | some n => rfl
    | none =>
      simp only [pure_bind, ExceptT.run_bind, ih, Option.map_none]
      generalize List.findSome? _ (List.zipIdx _ (index + 1)) = first
      rcases first with _ | ⟨i, n⟩ <;> rfl

/-- Answers that depend on nothing else can be had all at once. -/
theorem ClassFile.replacing?_eq (c : ClassFile) (f : Nat → Bytes → Option Bytes) :
    c.replacing? f =
      match (c.mapUtf8 f).firstTooLong? with
      | some (i, n) => .error (.utf8TooLong i n)
      | none => .ok (c.mapUtf8 f).bytes := by
  rw [replacing?, write?, ExceptT.run_bind, writePool?_pure]
  rw [firstTooLong?, mapUtf8]
  dsimp only
  generalize List.findSome? _ (List.zipIdx _) = first
  rcases first with _ | ⟨i, n⟩ <;> rfl

/-! ## Answers one after the other -/

/-- The text constants of slots from an index on. -/
def textsFrom (index : Nat) (ss : List Slot) : List (Nat × Bytes) :=
  (ss.zipIdx index).filterMap fun (s, i) => s.text?.map (i, ·)

@[simp] theorem textsFrom_utf8 (index : Nat) (payload : Bytes) (ss : List Slot) :
    textsFrom index (.utf8 payload :: ss) = (index, payload) :: textsFrom (index + 1) ss := rfl

theorem textsFrom_of_text? {s : Slot} (h : s.text? = none) (index : Nat) (ss : List Slot) :
    textsFrom index (s :: ss) = textsFrom (index + 1) ss := by
  simp [textsFrom, h]

/-- Slots with the texts of the answers, one answer for each text. -/
inductive Answered : List Slot → List (Option Bytes) → List Slot → Prop
  | nil : Answered [] [] []
  | text {payload : Bytes} {new : Option Bytes} {ss ss' : List Slot} {answers : List (Option Bytes)} :
      Answered ss answers ss' →
      Answered (.utf8 payload :: ss) (new :: answers) (.utf8 (new.getD payload) :: ss')
  | other {s : Slot} {ss ss' : List Slot} {answers : List (Option Bytes)} :
      s.text? = none → Answered ss answers ss' → Answered (s :: ss) answers (s :: ss')

/-- None of the answers is longer than a length field can say. -/
def Fit (answers : List (Option Bytes)) : Prop := ∀ new, some new ∈ answers → new.length ≤ 0xFFFF

theorem fit_cons_iff {new : Option Bytes} {answers : List (Option Bytes)} :
    Fit (new :: answers) ↔ (∀ text, new = some text → text.length ≤ 0xFFFF) ∧ Fit answers := by
  simp only [Fit, List.mem_cons, or_imp, forall_and, @eq_comm _ new]

namespace Answered

variable {ss ss' : List Slot} {answers : List (Option Bytes)}

theorem length_eq (h : Answered ss answers ss') : ss'.length = ss.length := by
  induction h with
  | nil => rfl
  | text _ ih => simp [ih]
  | other _ _ ih => simp [ih]

theorem textsFrom_eq (h : Answered ss answers ss') (index : Nat) :
    textsFrom index ss' =
      List.zipWith (fun x new => (x.1, new.getD x.2)) (textsFrom index ss) answers := by
  induction h generalizing index with
  | nil => rfl
  | text _ ih => simp [ih]
  | other hs _ ih => rw [textsFrom_of_text? hs, textsFrom_of_text? hs, ih]

theorem getElem?_eq (h : Answered ss answers ss') {i : Nat} {s : Slot} (hi : ss[i]? = some s)
    (hs : s.text? = none) : ss'[i]? = some s := by
  induction h generalizing i with
  | nil => cases hi
  | text _ ih =>
    cases i with
    | zero => cases hi; cases hs
    | succ i => exact ih hi
  | other _ _ ih =>
    cases i with
    | zero => exact hi
    | succ i => exact ih hi

theorem eq_of_forall_none (h : Answered ss answers ss') (hnone : ∀ new ∈ answers, new = none) :
    ss' = ss := by
  induction h with
  | nil => rfl
  | text _ ih =>
    rw [List.forall_mem_cons] at hnone
    rw [hnone.1, Option.getD_none, ih hnone.2]
  | other _ _ ih => rw [ih hnone]

theorem isConstant_getD {payload : Bytes} {new : Option Bytes} (h : (Slot.utf8 payload).IsConstant)
    (hfit : Fit (new :: answers)) : (Slot.utf8 (new.getD payload)).IsConstant := by
  cases new with
  | none => exact h
  | some text => exact (fit_cons_iff.1 hfit).1 text rfl

/-- Slots are laid out with texts that fit as they were before. -/
theorem laid (h : Answered ss answers ss') (hlaid : Laid ss) (hfit : Fit answers) : Laid ss' := by
  induction hlaid generalizing answers ss' with
  | nil => cases h; exact .nil
  | narrow hs hw _ ih =>
    cases h with
    | text h => exact .narrow (isConstant_getD hs hfit) rfl (ih h (fit_cons_iff.1 hfit).2)
    | other _ h => exact .narrow hs hw (ih h hfit)
  | wide hs hw _ ih =>
    cases h with
    | text => cases hw
    | other _ h => cases h with | other _ h => exact .wide hs hw (ih h hfit)
  | last hs hw =>
    cases h with
    | text => cases hw
    | other _ h => cases h; exact .last hs hw

end Answered

theorem Slot.text?_eq_some_iff {s : Slot} {payload : Bytes} :
    s.text? = some payload ↔ s = .utf8 payload := by
  cases s <;> simp [text?]

section

variable {σ : Type} {f : Nat → Bytes → StateM σ (Option Bytes)} {s s' : σ}

/-- What the texts are answered one after the other. -/
def asked (f : Nat → Bytes → StateM σ (Option Bytes)) (texts : List (Nat × Bytes)) :
    StateM σ (List (Option Bytes)) :=
  texts.mapM fun x => f x.1 x.2

theorem run_asked_cons_iff {x : Nat × Bytes} {texts : List (Nat × Bytes)} {answers : List (Option Bytes)} :
    (asked f (x :: texts)).run s = (answers, s') ↔
      ∃ new s1 answers', (f x.1 x.2).run s = (new, s1) ∧ (asked f texts).run s1 = (answers', s') ∧
        answers = new :: answers' := by
  rw [asked, List.mapM_cons]
  constructor
  · intro h
    exact ⟨_, _, _, rfl, Prod.ext rfl (Prod.ext_iff.1 h).2, (Prod.ext_iff.1 h).1.symm⟩
  · rintro ⟨new, s1, answers', hx, hrest, rfl⟩
    rw [StateT.run_bind, hx]
    show StateT.run (asked f texts >>= fun answers => pure (new :: answers)) s1 = _
    rw [StateT.run_bind, hrest]
    rfl

theorem run_asked_pure_none (texts : List (Nat × Bytes)) (s : σ) :
    (asked (fun _ _ => pure none) texts).run s = (texts.map fun _ => none, s) := by
  induction texts with
  | nil => rfl
  | cons x texts ih => exact run_asked_cons_iff.2 ⟨none, s, _, rfl, ih, rfl⟩

theorem run_slot_write?_of_text? {slot : Slot} (h : slot.text? = none) (index : Nat) :
    (slot.write? f index).run.run s = (.ok slot, s) := by
  cases slot with
  | utf8 => cases h
  | unusable => rfl
  | other => rfl

theorem run_slot_write?_of_le {index : Nat} {payload : Bytes} {new : Option Bytes}
    (h : (f index payload).run s = (new, s')) (hle : (new.getD payload).length ≤ 0xFFFF) :
    ((Slot.utf8 payload).write? f index).run.run s = (.ok (.utf8 (new.getD payload)), s') := by
  rw [Slot.write?, run_bind_of_ok (run_liftM h)]
  simp only [hle, if_true]
  rfl

theorem run_slot_write?_of_lt {index : Nat} {payload : Bytes} {new : Option Bytes}
    (h : (f index payload).run s = (new, s')) (hlt : 0xFFFF < (new.getD payload).length) :
    ((Slot.utf8 payload).write? f index).run.run s =
      (.error (.utf8TooLong index (new.getD payload).length), s') := by
  rw [Slot.write?, run_bind_of_ok (run_liftM h)]
  simp only [Nat.not_le.2 hlt, if_false]
  rfl

theorem run_writePool?_cons_of_ok {index : Nat} {slot slot' : Slot} {ss ss' : List Slot} {s1 : σ}
    (h : (slot.write? f index).run.run s = (.ok slot', s1))
    (hs : (writePool? f (index + 1) ss).run.run s1 = (.ok ss', s')) :
    (writePool? f index (slot :: ss)).run.run s = (.ok (slot' :: ss'), s') := by
  rw [writePool?, run_bind_of_ok h, run_bind_of_ok hs]
  rfl

theorem run_writePool?_cons_of_error {index : Nat} {slot slot' : Slot} {ss : List Slot} {s1 : σ}
    {e : ClassFile.Error} (h : (slot.write? f index).run.run s = (.ok slot', s1))
    (hs : (writePool? f (index + 1) ss).run.run s1 = (.error e, s')) :
    (writePool? f index (slot :: ss)).run.run s = (.error e, s') := by
  rw [writePool?, run_bind_of_ok h, run_bind_of_error hs]

/-- The texts that are there fit. -/
def Slot.Fits (s : Slot) : Prop := ∀ payload, s = .utf8 payload → payload.length ≤ 0xFFFF

theorem Slot.Fits.getD {payload : Bytes} (h : (Slot.utf8 payload).Fits) {new : Option Bytes}
    (hnew : ∀ text, new = some text → text.length ≤ 0xFFFF) : (new.getD payload).length ≤ 0xFFFF := by
  cases new with
  | none => exact h payload rfl
  | some text => exact hnew text rfl

/-- With answers that fit, the slots are written with them. -/
theorem exists_answered {index : Nat} {ss : List Slot} {answers : List (Option Bytes)}
    (hold : ∀ slot ∈ ss, slot.Fits) (h : (asked f (textsFrom index ss)).run s = (answers, s'))
    (hfit : Fit answers) :
    ∃ ss', Answered ss answers ss' ∧ (writePool? f index ss).run.run s = (.ok ss', s') := by
  induction ss generalizing index s answers with
  | nil => cases h; exact ⟨[], .nil, rfl⟩
  | cons slot ss ih =>
    obtain ⟨hslot, hrest⟩ := List.forall_mem_cons.1 hold
    cases htext : slot.text? with
    | none =>
      rw [textsFrom_of_text? htext] at h
      obtain ⟨ss', ha, hrun⟩ := ih hrest h hfit
      exact ⟨slot :: ss', .other htext ha,
        run_writePool?_cons_of_ok (run_slot_write?_of_text? htext index) hrun⟩
    | some payload =>
      obtain rfl := Slot.text?_eq_some_iff.1 htext
      obtain ⟨new, s1, answers, hnew, hasked, rfl⟩ := run_asked_cons_iff.1 h
      obtain ⟨hfirst, hfit⟩ := fit_cons_iff.1 hfit
      obtain ⟨ss', ha, hrun⟩ := ih hrest hasked hfit
      have hwrite := run_slot_write?_of_le hnew (hslot.getD hfirst)
      exact ⟨_, .text ha, run_writePool?_cons_of_ok hwrite hrun⟩

/-- An answer that does not fit is where writing ends, with nothing asked behind it. -/
theorem run_writePool?_of_tooLong {index : Nat} {ss : List Slot} {before answers : List (Option Bytes)}
    {new : Bytes} (hold : ∀ slot ∈ ss, slot.Fits)
    (h : (asked f (textsFrom index ss)).run s = (before ++ some new :: answers, s'))
    (hfit : Fit before) (hlt : 0xFFFF < new.length) :
    ∃ i text s1, (textsFrom index ss)[before.length]? = some (i, text) ∧
      (asked f ((textsFrom index ss).take (before.length + 1))).run s = (before ++ [some new], s1) ∧
      (writePool? f index ss).run.run s = (.error (.utf8TooLong i new.length), s1) := by
  induction ss generalizing index s before with
  | nil => cases before <;> cases h
  | cons slot ss ih =>
    obtain ⟨hslot, hrest⟩ := List.forall_mem_cons.1 hold
    cases htext : slot.text? with
    | none =>
      rw [textsFrom_of_text? htext] at h ⊢
      obtain ⟨i, text, s1, hi, hasked, hrun⟩ := ih hrest h hfit
      exact ⟨i, text, s1, hi, hasked,
        run_writePool?_cons_of_error (run_slot_write?_of_text? htext index) hrun⟩
    | some payload =>
      obtain rfl := Slot.text?_eq_some_iff.1 htext
      obtain ⟨first, s1, answers', hfirst, hbehind, heq⟩ := run_asked_cons_iff.1 h
      rw [textsFrom_utf8]
      cases before with
      | nil =>
        obtain ⟨rfl, rfl⟩ := List.cons.inj heq
        refine ⟨index, payload, s1, rfl, run_asked_cons_iff.2 ⟨_, s1, [], hfirst, rfl, rfl⟩, ?_⟩
        rw [writePool?, run_bind_of_error (run_slot_write?_of_lt hfirst hlt)]
        rfl
      | cons b before =>
        obtain ⟨rfl, rfl⟩ := List.cons.inj heq
        obtain ⟨hfits, hfit⟩ := fit_cons_iff.1 hfit
        obtain ⟨i, text, s2, hi, hasked, hrun⟩ := ih hrest hbehind hfit
        have hwrite := run_slot_write?_of_le hfirst (hslot.getD hfits)
        exact ⟨i, text, s2, hi, run_asked_cons_iff.2 ⟨_, s1, _, hfirst, hasked, rfl⟩,
          run_writePool?_cons_of_error hwrite hrun⟩

end

/-- The first answer that does not fit. -/
theorem exists_of_not_fit {answers : List (Option Bytes)} (h : ¬ Fit answers) :
    ∃ before new after, answers = before ++ some new :: after ∧ Fit before ∧ 0xFFFF < new.length := by
  induction answers with
  | nil => exact absurd nofun h
  | cons first answers ih =>
    by_cases hfirst : ∀ text, first = some text → text.length ≤ 0xFFFF
    · have hrest : ¬ Fit answers := fun hrest => h (fit_cons_iff.2 ⟨hfirst, hrest⟩)
      obtain ⟨before, new, after, rfl, hfit, hlt⟩ := ih hrest
      exact ⟨first :: before, new, after, rfl, fit_cons_iff.2 ⟨hfirst, hfit⟩, hlt⟩
    · simp only [not_forall, exists_prop, Nat.not_le] at hfirst
      obtain ⟨new, rfl, hlt⟩ := hfirst
      exact ⟨[], new, answers, rfl, nofun, hlt⟩

theorem Laid.fits {ss : List Slot} (h : Laid ss) : ∀ s ∈ ss, s.Fits := by
  induction h with
  | nil => simp
  | narrow hs _ _ ih => exact List.forall_mem_cons.2 ⟨fun _ he => by subst he; exact hs, ih⟩
  | wide hs _ _ ih =>
    exact List.forall_mem_cons.2 ⟨fun _ he => by subst he; exact hs, List.forall_mem_cons.2 ⟨nofun, ih⟩⟩
  | last hs _ => exact List.forall_mem_cons.2 ⟨fun _ he => by subst he; exact hs, by simp⟩

namespace ClassFile

/-- `c'` is `c` with the texts of the answers and all else as it was. -/
structure Replaced (c : ClassFile) (answers : List (Option Bytes)) (c' : ClassFile) : Prop where
  header : c'.header = c.header
  count : c'.pool.length = c.pool.length
  remainder : c'.remainder = c.remainder
  texts : c'.texts = List.zipWith (fun x new => (x.1, new.getD x.2)) c.texts answers
  others : ∀ (i : Nat) (s : Slot), c.pool[i]? = some s → s.text? = none → c'.pool[i]? = some s

variable {c : ClassFile} {answers : List (Option Bytes)} {pool : List Slot}

theorem replaced_of_answered (h : Answered c.pool answers pool) :
    c.Replaced answers { c with pool } :=
  ⟨rfl, h.length_eq, rfl, h.textsFrom_eq 0, fun _ _ hi hs => h.getElem?_eq hi hs⟩

theorem WellFormed.fits (h : c.WellFormed) : ∀ s ∈ c.pool, s.Fits := by
  obtain ⟨ss, hp, hlaid⟩ := h.pool
  rw [hp]
  exact List.forall_mem_cons.2 ⟨nofun, hlaid.fits⟩

/-- A class file stays well formed with texts that fit. -/
theorem WellFormed.of_answered (h : c.WellFormed) (ha : Answered c.pool answers pool)
    (hfit : Fit answers) : ({ c with pool } : ClassFile).WellFormed := by
  obtain ⟨ss, hp, hlaid⟩ := h.pool
  refine ⟨h.header, h.magic, ?_, ha.length_eq ▸ h.count, h.remainder⟩
  rw [hp] at ha
  cases ha with
  | other _ ha => exact ⟨_, rfl, ha.laid hlaid hfit⟩

/-- **What is written for a class file that was read.** Without other texts these are the bytes that
were read. Otherwise the texts are asked about once each, in the order of the slots. If the answers
fit, the class file that has them for its texts is written; else the first that does not is
reported, and nothing is asked behind it. -/
theorem write?_outcome {data : Bytes} (h : parse? data = .ok c) (σ : Type) (s : σ) :
    (c.write? fun _ _ => (pure none : StateM σ (Option Bytes))).run.run s = (.ok data, s) ∧
    ∀ (f : Nat → Bytes → StateM σ (Option Bytes)) (answers : List (Option Bytes)) (s' : σ),
      (asked f c.texts).run s = (answers, s') →
      (Fit answers → ∃ out c', (c.write? f).run.run s = (.ok out, s') ∧
        parse? out = .ok c' ∧ c.Replaced answers c') ∧
      (¬ Fit answers → ∃ before new after i text s1,
        answers = before ++ some new :: after ∧ Fit before ∧ 0xFFFF < new.length ∧
        c.texts[before.length]? = some (i, text) ∧
        (asked f (c.texts.take (before.length + 1))).run s = (before ++ [some new], s1) ∧
        (c.write? f).run.run s = (.error (.utf8TooLong i new.length), s1)) := by
  obtain ⟨hw, rfl⟩ := parse?_eq_ok_iff.1 h
  have hwritten : ∀ {f : Nat → Bytes → StateM σ (Option Bytes)} {answers : List (Option Bytes)} {s' : σ},
      (asked f c.texts).run s = (answers, s') → Fit answers →
      ∃ pool, Answered c.pool answers pool ∧
        (c.write? f).run.run s = (.ok ({ c with pool } : ClassFile).bytes, s') := by
    intro f answers s' hasked hfit
    obtain ⟨pool, ha, hrun⟩ := exists_answered hw.fits hasked hfit
    refine ⟨pool, ha, ?_⟩
    rw [write?, run_bind_of_ok hrun]
    rfl
  refine ⟨?_, fun f answers s' hasked => ⟨fun hfit => ?_, fun hfit => ?_⟩⟩
  · have hnone : ∀ new ∈ c.texts.map fun _ => (none : Option Bytes), new = none := by simp
    obtain ⟨pool, ha, hrun⟩ := hwritten (run_asked_pure_none c.texts s) fun new hnew => nomatch hnone _ hnew
    obtain rfl := ha.eq_of_forall_none hnone
    exact hrun
  · obtain ⟨pool, ha, hrun⟩ := hwritten hasked hfit
    exact ⟨_, _, hrun, parse?_eq_ok_iff.2 ⟨hw.of_answered ha hfit, rfl⟩, replaced_of_answered ha⟩
  · obtain ⟨before, new, after, rfl, hbefore, hlt⟩ := exists_of_not_fit hfit
    obtain ⟨i, text, s1, hi, hstart, hrun⟩ := run_writePool?_of_tooLong hw.fits hasked hbefore hlt
    refine ⟨before, new, after, i, text, s1, rfl, hbefore, hlt, hi, hstart, ?_⟩
    rw [write?, run_bind_of_error hrun]

end ClassFile

/-- A class file with two texts, a wide constant between them and another one at the end. -/
def wideClass : ClassFile where
  header := [0xCA, 0xFE, 0xBA, 0xBE, 0, 0, 0, 52]
  pool := [.unusable, .utf8 (bytes "a"), .other 5 (List.replicate 8 1), .unusable, .utf8 (bytes "b"),
    .other 6 (List.replicate 8 2)]
  remainder := List.replicate 6 0

/-- A text for the second slot, with a note of every question. -/
def renameNoting (index : Nat) (text : Bytes) : StateM (List (Nat × Bytes)) (Option Bytes) := do
  modify fun noted => noted ++ [(index, text)]
  return if index = 1 then some (bytes "name") else none

theorem write?_outcome_wideClass :
    ClassFile.parse? wideClass.bytes = .ok wideClass ∧
    (asked renameNoting wideClass.texts).run [] =
      ([some (bytes "name"), none], [(1, bytes "a"), (4, bytes "b")]) ∧
    Fit [some (bytes "name"), none] ∧
    ∃ out c', (wideClass.write? renameNoting).run.run [] =
        (.ok out, [(1, bytes "a"), (4, bytes "b")]) ∧
      ClassFile.parse? out = .ok c' ∧ wideClass.Replaced [some (bytes "name"), none] c' := by
  have hparse : ClassFile.parse? wideClass.bytes = .ok wideClass := by decide +kernel
  have hasked : (asked renameNoting wideClass.texts).run [] =
      ([some (bytes "name"), none], [(1, bytes "a"), (4, bytes "b")]) := rfl
  have hfit : Fit [some (bytes "name"), none] := by
    intro new hnew
    rcases List.mem_pair.1 hnew with hnew | hnew
    · cases hnew; decide
    · cases hnew
  exact ⟨hparse, hasked, hfit, ((ClassFile.write?_outcome hparse _ []).2 _ _ _ hasked).1 hfit⟩

end PackageMigration
