import Mathlib.Algebra.GroupWithZero.Nat
import PackageMigration.Archive.Spool
/-
  A spool keeps what is put away in it, whatever else is put away or read in between.

  * `Spool.payload?`: what stands in a slot, wherever the file was read last.
  * `Spool.Sound`: the spool knows how long its file is.
  * `Spool.Call`, `Spool.call`, `Spool.after`: payloads put away and slots read, one after the other.

  Main statements: `read?_of_payload?`, `Sound.payload?_push_self`, `Sound.payload?_push_of_some`,
  `Sound.toList_after` (the payloads are joined in the file), `after_faithful`.
-/
namespace PackageMigration

namespace Spool

/-- The bytes in a slot, if the file has so many. -/
def payload? (s : Spool) (slot : Slot) : Option Bytes :=
  let p := (s.file.content.toList.drop slot.offset).take slot.length
  if p.length = slot.length then some p else none

/-- The next payload goes to the end of the file. -/
def Sound (s : Spool) : Prop := s.file.content.size = s.size

theorem payload?_eq_some_iff {s : Spool} {slot : Slot} {p : Bytes} :
    s.payload? slot = some p ↔
      (s.file.content.toList.drop slot.offset).take slot.length = p ∧ p.length = slot.length := by
  unfold payload?
  dsimp only
  split
  next h =>
    rw [Option.some.injEq]
    exact ⟨fun hp => ⟨hp, hp ▸ h⟩, And.left⟩
  next h => exact ⟨nofun, fun ⟨hp, hl⟩ => absurd (hp ▸ hl) h⟩

theorem payload?_congr {s s' : Spool} (h : s'.file.content = s.file.content) (slot : Slot) :
    s'.payload? slot = s.payload? slot := by
  rw [payload?, payload?, h]

/-- A slot is read as what stands in it, and the file stays as it is. -/
theorem read?_of_payload? {s : Spool} {slot : Slot} {p : Bytes} (h : s.payload? slot = some p) :
    ∃ s', s.read? slot = some (p, s') ∧ s'.file.content = s.file.content ∧ s'.size = s.size := by
  obtain ⟨hp, hl⟩ := payload?_eq_some_iff.1 h
  have hx : (s.file.content.extract slot.offset (slot.offset + slot.length)).toList = p := by
    rw [Array.toList_extract, List.extract_eq_take_drop, Nat.add_sub_cancel_left, hp]
  have hs : (s.file.content.extract slot.offset (slot.offset + slot.length)).size = slot.length := by
    rw [← Array.length_toList, hx, hl]
  refine ⟨{ s with file := ⟨s.file.content, slot.offset + slot.length⟩ }, ?_, rfl, rfl⟩
  simp [read?, ByteFile.read?, ByteFile.seek, hs, hp]

/-! ## Putting a payload away -/

theorem Sound.toList_push {s : Spool} (h : s.Sound) (p : Bytes) :
    (s.push p).2.file.content.toList = s.file.content.toList ++ p := by
  have hl : s.file.content.toList.length = s.size := by rw [Array.length_toList, h]
  simp only [push, ByteFile.toList_write, ByteFile.seek]
  rw [List.take_of_length_le (Nat.le_of_eq hl), List.drop_eq_nil_of_le (by omega),
    show s.size - s.file.content.size = 0 by rw [h, Nat.sub_self]]
  simp

theorem Sound.push {s : Spool} (h : s.Sound) (p : Bytes) : (s.push p).2.Sound := by
  have hl := congrArg List.length (h.toList_push p)
  rw [Array.length_toList, List.length_append, Array.length_toList, h] at hl
  exact hl

theorem Sound.payload?_push_self {s : Spool} (h : s.Sound) (p : Bytes) :
    (s.push p).2.payload? (s.push p).1 = some p := by
  have hl : s.file.content.toList.length = s.size := by rw [Array.length_toList, h]
  rw [payload?_eq_some_iff, h.toList_push]
  refine ⟨?_, rfl⟩
  rw [show (s.push p).1.offset = s.file.content.toList.length from hl.symm,
    List.drop_left, show (s.push p).1.length = p.length from rfl, List.take_length]

theorem Sound.payload?_push_of_some {s : Spool} (h : s.Sound) {slot : Slot} {q : Bytes}
    (hq : s.payload? slot = some q) (p : Bytes) : (s.push p).2.payload? slot = some q := by
  obtain ⟨rfl, hl⟩ := payload?_eq_some_iff.1 hq
  rw [payload?_eq_some_iff, h.toList_push]
  refine ⟨?_, hl⟩
  rw [List.length_take] at hl
  rw [List.drop_append, List.take_append_of_le_length (hl ▸ Nat.min_le_right _ _)]

/-! ## Reading a slot -/

/-- A read leaves the file as it is, but for its position. -/
theorem eq_of_read? {s s' : Spool} {slot : Slot} {p : Bytes} (h : s.read? slot = some (p, s')) :
    ∃ position, s' = { s with file := s.file.seek position } := by
  obtain ⟨⟨p', file⟩, hread, he⟩ := Option.map_eq_some_iff.1 h
  cases he
  unfold ByteFile.read? at hread
  dsimp only at hread
  split at hread
  · cases hread
    exact ⟨slot.offset + slot.length, rfl⟩
  · cases hread

/-! ## Calls -/

/-- What is asked of a spool. -/
inductive Call where
  | push (payload : Bytes)
  /-- A read that finds too few bytes leaves the file at `position`, of which nothing is known. -/
  | read (slot : Slot) (position : Nat)

/-- The payload that a call puts away. -/
def Call.payload? : Call → Option Bytes
  | push payload => some payload
  | read _ _ => none

/-- The payloads that calls put away. -/
def payloads (calls : List Call) : List Bytes := calls.filterMap Call.payload?

/-- The spool after a call. -/
def call (s : Spool) : Call → Spool
  | .push payload => (s.push payload).2
  | .read slot position =>
    match s.read? slot with
    | some (_, s) => s
    | none => { s with file := s.file.seek position }

/-- The spool after calls. -/
def after (s : Spool) (calls : List Call) : Spool := calls.foldl call s

/-- The slot has this position of the file. -/
def Slot.Holds (slot : Slot) (position : Nat) : Prop :=
  slot.offset ≤ position ∧ position < slot.offset + slot.length

/-- The slots have no position in common. -/
def Slot.IsApart (a b : Slot) : Prop := ∀ position, ¬ (a.Holds position ∧ b.Holds position)

variable {s : Spool} {slot : Slot} {p : Bytes}

theorem after_append (s : Spool) (calls calls' : List Call) :
    s.after (calls ++ calls') = (s.after calls).after calls' :=
  List.foldl_append

theorem payloads_push (p : Bytes) (calls : List Call) :
    payloads (.push p :: calls) = p :: payloads calls :=
  rfl

theorem payloads_append (calls calls' : List Call) :
    payloads (calls ++ calls') = payloads calls ++ payloads calls' :=
  List.filterMap_append

/-- Whether or not it finds its bytes, a read only moves the position. -/
theorem call_read (s : Spool) (slot : Slot) (position : Nat) :
    ∃ position', s.call (.read slot position) = { s with file := s.file.seek position' } := by
  unfold call
  dsimp only
  split
  next hr => exact eq_of_read? hr
  next => exact ⟨position, rfl⟩

theorem Sound.call (h : s.Sound) (c : Call) : (s.call c).Sound := by
  cases c with
  | push payload => exact h.push payload
  | read slot position =>
    obtain ⟨position', hc⟩ := s.call_read slot position
    rw [hc]
    exact h

/-- What stands in a slot stays there. -/
theorem Sound.payload?_call_of_some (h : s.Sound) (hp : s.payload? slot = some p) (c : Call) :
    (s.call c).payload? slot = some p := by
  cases c with
  | push payload => exact h.payload?_push_of_some hp payload
  | read slot' position =>
    obtain ⟨position', hc⟩ := s.call_read slot' position
    rw [hc]
    exact hp

theorem Sound.after (h : s.Sound) (calls : List Call) : (s.after calls).Sound := by
  induction calls generalizing s with
  | nil => exact h
  | cons c calls ih => exact ih (h.call c)

theorem Sound.payload?_after_of_some (h : s.Sound) (hp : s.payload? slot = some p)
    (calls : List Call) : (s.after calls).payload? slot = some p := by
  induction calls generalizing s with
  | nil => exact hp
  | cons c calls ih => exact ih (h.call c) (h.payload?_call_of_some hp c)

/-- A call writes its payload, if it has one, behind all others. -/
theorem Sound.toList_call (h : s.Sound) (c : Call) :
    (s.call c).file.content.toList = s.file.content.toList ++ (payloads [c]).flatten := by
  cases c with
  | push payload =>
    refine (h.toList_push payload).trans ?_
    simp [payloads, Call.payload?]
  | read slot position =>
    obtain ⟨position', hc⟩ := s.call_read slot position
    rw [hc]
    simp [payloads, Call.payload?, ByteFile.seek]

/-- The payloads are joined in the file. -/
theorem Sound.toList_after (h : s.Sound) (calls : List Call) :
    (s.after calls).file.content.toList = s.file.content.toList ++ (payloads calls).flatten := by
  induction calls generalizing s with
  | nil => exact (List.append_nil _).symm
  | cons c calls ih =>
    calc ((s.call c).after calls).file.content.toList
      _ = (s.call c).file.content.toList ++ (payloads calls).flatten := ih (h.call c)
      _ = s.file.content.toList ++ ((payloads [c]).flatten ++ (payloads calls).flatten) := by
        rw [h.toList_call c, List.append_assoc]
      _ = s.file.content.toList ++ (payloads (c :: calls)).flatten := by
        rw [← List.flatten_append, ← payloads_append, List.singleton_append]

theorem sound_empty : empty.Sound :=
  rfl

theorem size_after (calls : List Call) :
    (empty.after calls).size = ((payloads calls).map List.length).sum := by
  rw [← sound_empty.after calls, ← Array.length_toList, sound_empty.toList_after, ← List.length_flatten]
  rfl

/-- What is put away later goes behind what was put away before. -/
theorem size_add_length_le_size_after (before : List Call) (payload : Bytes) (between : List Call) :
    (empty.after before).size + payload.length ≤
      (empty.after (before ++ .push payload :: between)).size := by
  simp only [size_after, payloads_append, payloads_push, List.map_append, List.map_cons,
    List.sum_append, List.sum_cons]
  omega

/-- **A spool is a faithful store that only grows**, whatever payloads are put away and whatever slots
are read, in whatever order: its file is the payloads put away so far, joined, and its size the sum of
their lengths; each of them is read from its slot, and no two of the slots overlap. -/
theorem after_faithful :
    (∀ calls, (empty.after calls).file.content.toList = (payloads calls).flatten ∧
        (empty.after calls).size = ((payloads calls).map List.length).sum) ∧
      ∀ before payload between,
        let slot := ((empty.after before).push payload).1
        let s := empty.after (before ++ .push payload :: between)
        (s.read? slot).map Prod.fst = some payload ∧ ∀ payload', slot.IsApart (s.push payload').1 := by
  refine ⟨fun calls => ⟨sound_empty.toList_after calls, size_after calls⟩, ?_⟩
  intro before payload between slot s
  have hbefore : (empty.after before).Sound := sound_empty.after before
  have hs : s = ((empty.after before).push payload).2.after between :=
    after_append empty before (.push payload :: between)
  constructor
  · have hpayload : s.payload? slot = some payload := by
      rw [hs]
      exact (hbefore.push payload).payload?_after_of_some (hbefore.payload?_push_self payload) between
    obtain ⟨s', hread, -⟩ := read?_of_payload? hpayload
    rw [hread]
    rfl
  · rintro payload' position ⟨⟨-, hlt⟩, ⟨hle, -⟩⟩
    have hend : slot.offset + slot.length ≤ s.size :=
      size_add_length_le_size_after before payload between
    exact Nat.not_le_of_lt hlt (Nat.le_trans hend hle)

end Spool

end PackageMigration
