import Mathlib.Logic.Relation
import PackageMigration.Proofs.Manifest.Grammar
/-
  Values that are cut into lines.

  * `ReachesValue`, `InValue`: the places in the value of an attribute.
  * `Cut`, `CharacterCut`: a break and a space are put into a value, anywhere or between characters.

  Main statements: `Section.Spelled.cut` (a section is spelled by its lines, wherever its values are
  cut), `parse?_cuts`.
-/
namespace PackageMigration

open Bytes (IsText)

/-- What stands behind text in a text is text. -/
theorem Bytes.isText_of_append {s s' : Bytes} (h : IsText (s ++ s')) (hs : IsText s) : IsText s' := by
  obtain ⟨cs, rfl⟩ := isText_iff.1 hs
  clear hs
  induction cs with
  | nil => exact h
  | cons c cs ih =>
    rw [List.flatMap_cons, List.append_assoc] at h
    exact ih (isText_of_utf8EncodeChar_append h)

namespace Manifest

/-- What there is of a line reaches into a value: it continues an attribute, or begins one and has its
name and the colon. A space that comes next behind the colon is not in the value. -/
def ReachesValue (line : Bytes) (next : Option UInt8) : Prop :=
  line.head? = some Byte.space ∨ ∃ name value, line = name ++ Byte.colon :: value ∧
    Byte.colon ∉ name ∧ name ≠ [] ∧ Byte.space ∉ name ∧ (value = [] → next ≠ some Byte.space)

/-- Between the two parts of a text, the last line of the first part reaches into a value. -/
def InValue (front back : Bytes) : Prop :=
  ∃ done line, front = done ++ line ∧ (∀ b ∈ done.getLast?, b = Byte.cr ∨ b = Byte.lf) ∧ IsLine line ∧
    ReachesValue line back.head?

/-- A value is cut: the end of a line and a space are put into it. -/
def Cut (data data' : Bytes) : Prop :=
  ∃ front back, InValue front back ∧ data = front ++ back ∧
    ∃ e : LineEnd, data' = front ++ (e.bytes ++ Byte.space :: back)

/-- A value is cut between two characters. -/
def CharacterCut (data data' : Bytes) : Prop :=
  ∃ front back, InValue front back ∧ data = front ++ back ∧ IsText front ∧
    ∃ e : LineEnd, data' = front ++ (e.bytes ++ Byte.space :: back)

theorem CharacterCut.cut {data data' : Bytes} (h : CharacterCut data data') : Cut data data' := by
  obtain ⟨front, back, hin, hdata, -, hend⟩ := h
  exact ⟨front, back, hin, hdata, hend⟩

/-! ## Lines -/

theorem ReachesValue.ne_nil {line : Bytes} {next : Option UInt8} (h : ReachesValue line next) :
    line ≠ [] := by
  rcases h with h | ⟨name, value, rfl, -⟩
  · rintro rfl
    cases h
  · simp

/-- A line may be cut off from the text before it at the end of a line. -/
theorem lines_append {done s : Bytes} (hdone : ∀ b ∈ done.getLast?, b = Byte.cr ∨ b = Byte.lf)
    (hs : s.head? ≠ some Byte.lf) : lines (done ++ s) = lines done ++ lines s := by
  obtain ⟨ls, h⟩ := exists_hasLines done
  rw [lines_of_hasLines h]
  induction h with
  | nil => rfl
  | @last l hl hne =>
    have hlast := List.getLast?_eq_some_getLast hne
    have hmem := List.getLast_mem hne
    rcases hdone _ hlast with hb | hb
    · exact absurd (hb ▸ hmem) hl.cr_notMem
    · exact absurd (hb ▸ hmem) hl.lf_notMem
  | @cons l d ls e hl he _ ih =>
    have hd : ∀ b ∈ d.getLast?, b = Byte.cr ∨ b = Byte.lf := by
      intro b hb
      refine hdone b ?_
      rw [List.getLast?_append, List.getLast?_append, Option.mem_def.1 hb]
      rfl
    have hends : e.EndsBefore (d ++ s) := by
      cases d with
      | nil => exact fun _ => hs
      | cons b d => exact he
    rw [List.append_assoc, List.append_assoc, lines_append_end hl hends, ih hd, List.cons_append]

/-- What stands behind the begun line of a text. -/
theorem exists_lines_append (back : Bytes) : ∃ tail rest, tail <+: back ∧
    ∀ line, IsLine line → line ≠ [] → lines (line ++ back) = (line ++ tail) :: rest := by
  obtain ⟨ls, h⟩ := exists_hasLines back
  cases h with
  | nil =>
    refine ⟨[], [], List.nil_prefix, fun line hline hne => ?_⟩
    rw [List.append_nil, lines_of_isLine hline hne]
  | last hl _ =>
    refine ⟨back, [], List.prefix_rfl, fun line hline hne => ?_⟩
    exact lines_of_isLine (isLine_append_iff.2 ⟨hline, hl⟩) (List.append_ne_nil_of_left_ne_nil hne back)
  | @cons l s ls e hl he _ =>
    refine ⟨l, lines s, List.prefix_append l _, fun line hline hne => ?_⟩
    rw [← List.append_assoc, lines_append_end (isLine_append_iff.2 ⟨hline, hl⟩) he]

/-- A cut makes two lines of one. -/
theorem Cut.exists_lines {data data' : Bytes} (h : Cut data data') :
    ∃ before line tail rest, ReachesValue line tail.head? ∧
      lines data = before ++ (line ++ tail) :: rest ∧
      lines data' = before ++ line :: (Byte.space :: tail) :: rest := by
  obtain ⟨_, back, ⟨done, line, rfl, hdone, hline, hreach⟩, rfl, e, rfl⟩ := h
  obtain ⟨tail, rest, htail, hrest⟩ := exists_lines_append back
  have hhead : ∀ s : Bytes, (line ++ s).head? ≠ some Byte.lf := by
    obtain ⟨b, l, rfl⟩ := List.exists_cons_of_ne_nil hreach.ne_nil
    exact fun s hb => (isLine_cons_iff.1 hline).1.2 (Option.some.inj hb)
  have hends : e.EndsBefore (Byte.space :: back) := fun _ hb => absurd (Option.some.inj hb) (by decide)
  have hsecond : lines (Byte.space :: back) = (Byte.space :: tail) :: rest :=
    hrest [Byte.space] ⟨by decide, by decide⟩ (List.cons_ne_nil _ _)
  refine ⟨lines done, line, tail, rest, ?_, ?_, ?_⟩
  · refine hreach.imp_right ?_
    rintro ⟨name, value, hl, hcolon, hne, hs, hnext⟩
    refine ⟨name, value, hl, hcolon, hne, hs, fun hvalue ht => hnext hvalue ?_⟩
    obtain ⟨t, rfl⟩ := List.head?_eq_some_iff.1 ht
    obtain ⟨s, rfl⟩ := htail
    rfl
  · rw [List.append_assoc, lines_append hdone (hhead _), hrest line hline hreach.ne_nil]
  · rw [List.append_assoc, lines_append hdone (hhead _), lines_append_end hline hends, hsecond]

/-! ## Sections -/

/-- A space that is in front of a text, if there is one, is in front of its first part. -/
theorem getD_after?_append {s tail : Bytes} (h : s = [] → tail.head? ≠ some Byte.space) :
    (Bytes.after? [Byte.space] (s ++ tail)).getD (s ++ tail) =
      (Bytes.after? [Byte.space] s).getD s ++ tail := by
  cases s with
  | nil =>
    have hnone : Bytes.after? [Byte.space] tail = none := by
      rw [Option.eq_none_iff_forall_ne_some]
      intro t ht
      exact h rfl (by rw [Bytes.after?_eq_some_iff.1 ht]; rfl)
    rw [List.nil_append, hnone]
    rfl
  | cons b s =>
    rw [List.cons_append, Bytes.after?_cons, Bytes.after?_cons]
    split <;> rfl

/-- The line that begins an attribute says as much in two lines. -/
theorem Attribute.ofLine?_cut {line tail : Bytes} {a : Attribute}
    (h : ofLine? (line ++ tail) = some a) (hreach : ReachesValue line tail.head?) :
    ∃ first, ofLine? line = some first ∧ a = { first with value := first.value ++ tail } := by
  rcases hreach with hspace | ⟨name, value, rfl, hcolon, hne, hs, hnext⟩
  · obtain ⟨l, rfl⟩ := List.head?_eq_some_iff.1 hspace
    exact absurd rfl (head?_of_ofLine? h)
  · obtain ⟨value', hline, hcolon', -, -, hvalue⟩ := ofLine?_eq_some_iff.1 h
    rw [List.append_assoc, List.cons_append] at hline
    obtain ⟨hname, rfl⟩ := Prod.mk.inj (Option.some.inj
      ((Bytes.cutFirst?_eq_some_iff.2 ⟨rfl, hcolon⟩).symm.trans
        (Bytes.cutFirst?_eq_some_iff.2 ⟨hline, hcolon'⟩)))
    refine ⟨⟨name, (Bytes.after? [Byte.space] value).getD value⟩,
      ofLine?_eq_some_iff.2 ⟨value, rfl, hcolon, hne, hs, rfl⟩, ?_⟩
    rw [getD_after?_append hnext] at hvalue
    obtain ⟨name', text⟩ := a
    exact congrArg₂ Attribute.mk hname.symm hvalue

/-- What a line adds to an attribute is added by two lines. -/
theorem exists_continuations_cut {before behind : List Bytes} {line tail : Bytes} {added : List Bytes}
    {next : Option UInt8} (h : continuations added = before ++ (line ++ tail) :: behind)
    (hreach : ReachesValue line next) : ∃ added',
      continuations added' = before ++ line :: (Byte.space :: tail) :: behind ∧
        added'.flatten = added.flatten := by
  obtain ⟨front, rest, rfl, rfl, hrest⟩ := List.map_eq_append_iff.1 h
  obtain ⟨more, back, rfl, hmore, rfl⟩ := List.map_eq_cons_iff.1 hrest
  obtain ⟨b, l, rfl⟩ := List.exists_cons_of_ne_nil hreach.ne_nil
  obtain ⟨rfl, rfl⟩ := List.cons.inj hmore
  exact ⟨front ++ l :: tail :: back, by simp [continuations], by simp⟩

/-- **Lines spell the same section, wherever its values are cut.** -/
theorem Section.Spelled.cut {before rest : List Bytes} {line tail : Bytes} {s : Section}
    (h : Section.Spelled (before ++ (line ++ tail) :: rest) s) (hreach : ReachesValue line tail.head?) :
    Section.Spelled (before ++ line :: (Byte.space :: tail) :: rest) s := by
  generalize hls : before ++ (line ++ tail) :: rest = ls at h
  induction h generalizing before with
  | nil => exact absurd hls (by simp)
  | @cons first added ls a s ha hspelled ih =>
    cases before with
    | nil =>
      obtain ⟨rfl, rfl⟩ := List.cons.inj hls
      obtain ⟨a', ha', rfl⟩ := Attribute.ofLine?_cut ha hreach
      have hcons : Section.Spelled (_ :: (continuations (tail :: added) ++ ls)) _ := .cons ha' hspelled
      simpa [continuations] using hcons
    | cons l before =>
      obtain ⟨rfl, hrest⟩ := List.cons.inj hls
      rcases List.append_eq_append_iff.1 hrest with ⟨behind, hadded, hbehind⟩ | ⟨front, rfl, hfront⟩
      · cases behind with
        | nil =>
          -- The line begins the next attribute.
          rw [List.append_nil] at hadded
          have hnext : Section.Spelled ([] ++ line :: (Byte.space :: tail) :: rest) s := ih hbehind
          rw [← hadded]
          exact .cons ha hnext
        | cons x behind =>
          obtain ⟨rfl, rfl⟩ := List.cons.inj hbehind
          obtain ⟨added', hcut, hflatten⟩ := exists_continuations_cut hadded hreach
          have hcons : Section.Spelled (_ :: (continuations added' ++ ls)) _ := .cons ha hspelled
          rw [hcut, hflatten] at hcons
          simpa using hcons
      · rw [List.cons_append, List.append_assoc]
        exact .cons ha (ih hfront.symm)

/-! ## Manifests -/

theorem forall₂_append_cons {α β : Type} {R : α → β → Prop} {as as' : List α} {a a' : α} {bs : List β}
    (h : List.Forall₂ R (as ++ a :: as') bs) (ha : ∀ b, R a b → R a' b) :
    List.Forall₂ R (as ++ a' :: as') bs := by
  induction as generalizing bs with
  | nil =>
    obtain ⟨b, bs, hb, hbs, rfl⟩ := List.forall₂_cons_left_iff.1 h
    exact .cons (ha b hb) hbs
  | cons c as ih =>
    obtain ⟨b, bs, hb, hbs, rfl⟩ := List.forall₂_cons_left_iff.1 h
    exact .cons hb (ih hbs)

/-- A cut that leaves text leaves what is read. -/
theorem Cut.parse?_eq {data data' : Bytes} {m : Manifest} (h : Cut data data') (ht : IsText data')
    (hm : parse? data = .ok m) : parse? data' = .ok m := by
  obtain ⟨before, line, tail, rest, hreach, hlines, hlines'⟩ := h.exists_lines
  obtain ⟨-, main, entries, hsections, rfl⟩ := parse?_eq_ok_iff.1 hm
  obtain ⟨blocks, front, back, blocks', hblocks⟩ := exists_splitWhere_append List.isEmpty before rest
  refine parse?_eq_ok_iff.2 ⟨ht, main, entries, ?_, rfl⟩
  have hone : splitWhere List.isEmpty (lines data) =
      blocks ++ (front ++ (line ++ tail) :: back) :: blocks' := by
    rw [hlines]
    refine hblocks [line ++ tail] (List.forall_mem_singleton.2 ?_)
    simpa using fun hline => absurd hline hreach.ne_nil
  have htwo : splitWhere List.isEmpty (lines data') =
      blocks ++ (front ++ line :: (Byte.space :: tail) :: back) :: blocks' := by
    rw [hlines']
    refine hblocks [line, Byte.space :: tail] (List.forall_mem_cons.2 ⟨?_, by simp⟩)
    simpa using hreach.ne_nil
  rw [hone] at hsections
  rw [htwo]
  exact forall₂_append_cons hsections fun s hs => hs.cut hreach

theorem LineEnd.isAscii_append_space (e : LineEnd) : Bytes.IsAscii (e.bytes ++ [Byte.space]) :=
  Bytes.isAscii_of_all (by cases e <;> decide)

/-- A cut leaves text if it is between two characters of a text. -/
theorem isText_cut_iff (front back : Bytes) (e : LineEnd) :
    IsText (front ++ (e.bytes ++ Byte.space :: back)) ↔ IsText front ∧ IsText back := by
  rw [← Bytes.isText_append_ascii_append e.isAscii_append_space (List.concat_ne_nil _ _)]
  simp

theorem CharacterCut.isText {data data' : Bytes} (h : CharacterCut data data') (ht : IsText data) :
    IsText data' := by
  obtain ⟨front, back, -, rfl, hfront, e, rfl⟩ := h
  exact (isText_cut_iff front back e).2 ⟨hfront, Bytes.isText_of_append ht hfront⟩

theorem Cut.of_isText {data data' : Bytes} (h : Cut data data') (ht : IsText data') :
    IsText data ∧ CharacterCut data data' := by
  obtain ⟨front, back, hin, rfl, e, rfl⟩ := h
  obtain ⟨hfront, hback⟩ := (isText_cut_iff front back e).1 ht
  exact ⟨hfront.append hback, front, back, hin, rfl, hfront, e, rfl⟩

/-- **Values may be cut between any two characters.** However often the values of a manifest are cut
and whatever end each cut has, the same manifest is read if every cut is between two characters. If
one is inside of a character there is no text to be read. -/
theorem parse?_cuts {data data' : Bytes} {m : Manifest} (hm : parse? data = .ok m)
    (hcuts : Relation.ReflTransGen Cut data data') :
    (Relation.ReflTransGen CharacterCut data data' → parse? data' = .ok m) ∧
      (¬ Relation.ReflTransGen CharacterCut data data' → parse? data' = .error .notUtf8) := by
  have ht : IsText data := (parse?_eq_ok_iff.1 hm).1
  constructor
  · intro h
    have hread : IsText data' ∧ parse? data' = .ok m := by
      clear hcuts
      induction h with
      | refl => exact ⟨ht, hm⟩
      | tail _ hcut ih =>
        have hnext := hcut.isText ih.1
        exact ⟨hnext, hcut.cut.parse?_eq hnext ih.2⟩
    exact hread.2
  · intro h
    refine parse?_eq_error_iff.2 (.inl ⟨fun ht' => h ?_, rfl⟩)
    clear h
    induction hcuts with
    | refl => exact .refl
    | tail _ hcut ih =>
      obtain ⟨ht, hcut⟩ := hcut.of_isText ht'
      exact (ih ht).tail hcut

end Manifest

/-- Three cuts: in front of a value, in front of a space in it, and in a line that continues one. -/
theorem parse?_cuts_folded :
    let m : Manifest := ⟨[⟨bytes "A", bytes "é b"⟩], [[⟨bytes "Name", bytes "xyz"⟩]]⟩
    let data := bytes "A:é b\n\nName: x\n yz"
    let data' := bytes "A:\r é\r\n  b\n\nName: x\n y\n z"
    Manifest.parse? data = .ok m ∧ Relation.ReflTransGen Manifest.CharacterCut data data' ∧
      Manifest.parse? data' = .ok m := by
  intro m data data'
  have hm : Manifest.parse? data = .ok m := by decide +kernel
  have hfirst : Manifest.CharacterCut data (bytes "A:\r é b\n\nName: x\n yz") := by
    refine ⟨bytes "A:", bytes "é b\n\nName: x\n yz", ⟨[], bytes "A:", by decide, nofun, ?_, ?_⟩,
      by decide, by decide, .cr, by decide⟩
    · exact ⟨by decide, by decide⟩
    · exact .inr ⟨bytes "A", [], by decide, by decide, by decide, by decide, by decide⟩
  have hsecond : Manifest.CharacterCut (bytes "A:\r é b\n\nName: x\n yz")
      (bytes "A:\r é\r\n  b\n\nName: x\n yz") := by
    have hlast : (bytes "A:\r").getLast? = some Byte.cr := by decide
    exact ⟨bytes "A:\r é", bytes " b\n\nName: x\n yz", ⟨bytes "A:\r", bytes " é", by decide,
      fun b hb => .inl (Option.some.inj (hb.symm.trans hlast)), ⟨by decide, by decide⟩, .inl (by decide)⟩,
      by decide, by decide, .crLf, by decide⟩
  have hthird : Manifest.CharacterCut (bytes "A:\r é\r\n  b\n\nName: x\n yz") data' := by
    have hlast : (bytes "A:\r é\r\n  b\n\nName: x\n").getLast? = some Byte.lf := by decide
    exact ⟨bytes "A:\r é\r\n  b\n\nName: x\n y", bytes "z", ⟨bytes "A:\r é\r\n  b\n\nName: x\n",
      bytes " y", by decide, fun b hb => .inr (Option.some.inj (hb.symm.trans hlast)),
      ⟨by decide, by decide⟩, .inl (by decide)⟩, by decide, by decide, .lf, by decide⟩
  have hcuts : Relation.ReflTransGen Manifest.CharacterCut data data' :=
    ((Relation.ReflTransGen.single hfirst).tail hsecond).tail hthird
  have hany : Relation.ReflTransGen Manifest.Cut data data' :=
    Relation.ReflTransGen.mono (fun _ _ h => Manifest.CharacterCut.cut h) _ _ hcuts
  exact ⟨hm, hcuts, (Manifest.parse?_cuts hm hany).1 hcuts⟩

/-- A cut between the two bytes of a character leaves no text. -/
theorem parse?_ne_of_cut_in_character :
    let data := bytes "A: é"
    let data' := bytes "A: " ++ [0xC3] ++ bytes "\r\n " ++ [0xA9]
    Manifest.parse? data = .ok ⟨[⟨bytes "A", bytes "é"⟩], []⟩ ∧ Manifest.Cut data data' ∧
      Manifest.parse? data' = .error .notUtf8 := by
  intro data data'
  refine ⟨by decide +kernel, ?_, by decide +kernel⟩
  refine ⟨bytes "A: " ++ [0xC3], [0xA9], ⟨[], bytes "A: " ++ [0xC3], by decide, nofun,
    ⟨by decide, by decide⟩, ?_⟩, by decide, .crLf, by decide⟩
  exact .inr ⟨bytes "A", [0x20, 0xC3], by decide, by decide, by decide, by decide, by decide⟩

end PackageMigration
