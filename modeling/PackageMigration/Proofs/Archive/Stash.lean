import PackageMigration.Archive.Stash
import PackageMigration.Proofs.Archive.Spool
/-
  Payloads put away are found again, whatever else is put away or read in between.

  * `Stash.content?`: a payload put away, wherever it is.
  * `Stash.Sound`: its spool, if it has one, is sound.

  Main statements: `content?_put_self`, `content?_put_of_some`, `get?_of_content?`.
-/
namespace PackageMigration

namespace Stash

/-- A payload put away. -/
def content? (s : Stash) : Held → Option Bytes
  | .inMemory payload => some payload
  | .spooled slot => s.spool.bind fun spool => spool.payload? slot

/-- Its spool, if it has one, is sound. -/
def Sound (s : Stash) : Prop := ∀ spool ∈ s.spool, spool.Sound

theorem sound_empty (mode : BufferMode) : (empty mode).Sound := by
  cases mode with
  | inMemory => exact nofun
  | spooled =>
    rintro spool ⟨⟩
    exact rfl

theorem Sound.put {s : Stash} (h : s.Sound) (p : Bytes) : (s.put p).2.Sound := by
  obtain ⟨_ | spool⟩ := s
  · exact nofun
  · rintro _ ⟨⟩
    exact (h spool rfl).push p

/-- What is put away is found. -/
theorem Sound.content?_put_self {s : Stash} (h : s.Sound) (p : Bytes) :
    (s.put p).2.content? (s.put p).1 = some p := by
  obtain ⟨_ | spool⟩ := s
  · rfl
  · exact (h spool rfl).payload?_push_self p

/-- What was put away before is still found. -/
theorem Sound.content?_put_of_some {s : Stash} (h : s.Sound) {held : Held} {q : Bytes}
    (hq : s.content? held = some q) (p : Bytes) : (s.put p).2.content? held = some q := by
  cases held with
  | inMemory => exact hq
  | spooled slot =>
    obtain ⟨_ | spool⟩ := s
    · cases hq
    · exact (h spool rfl).payload?_push_of_some hq p

/-- **What is found is got, and everything is found afterwards as before.** -/
theorem get?_of_content? {s : Stash} {held : Held} {p : Bytes} (h : s.content? held = some p) :
    ∃ s', s.get? held = some (p, s') ∧ s'.content? = s.content? := by
  cases held with
  | inMemory q =>
    cases h
    exact ⟨s, rfl, rfl⟩
  | spooled slot =>
    obtain ⟨_ | spool⟩ := s
    · cases h
    · obtain ⟨spool', hr, hc, -⟩ := Spool.read?_of_payload? (s := spool) h
      refine ⟨⟨some spool'⟩, by simp [get?, hr], funext fun held => ?_⟩
      cases held with
      | inMemory => rfl
      | spooled slot => exact Spool.payload?_congr hc slot

end Stash

end PackageMigration
