import PackageMigration.Migration.Error
/-
  Runs: computations that report their progress and may fail.

  * `Event`: a step of progress.
  * `Run`: the events of a run and how it ends; `Run.report`, `Run.ofExcept`.

  Main statements: `bind_of_ok`, `bind_of_error` (a run that goes on after another, or does not).
-/
namespace PackageMigration.Migration

/-- A step of progress. -/
inductive Event where
  | scanning
  /-- So many of all the entries or files are converted. -/
  | converting (done total : Nat)
  | repairingMetadata
  | writing
  | done
  deriving DecidableEq, Repr

/-- The name of the stage that an event belongs to. -/
def Event.stage : Event → String
  | scanning => "Scanning"
  | converting .. => "Converting"
  | repairingMetadata => "Repairing Metadata"
  | writing => "Writing"
  | done => "Done"

/-- A run: what it reported, up to its end, and how it ended. -/
structure Run (α : Type) where
  events : List Event
  result : Except Error α

namespace Run

/-- One run and, if it succeeds, another one. -/
def andThen {α β : Type} : Run α → (α → Run β) → Run β
  | ⟨events, .error e⟩, _ => ⟨events, .error e⟩
  | ⟨events, .ok a⟩, next =>
    let ⟨more, result⟩ := next a
    ⟨events ++ more, result⟩

instance : Monad Run where
  pure a := ⟨[], .ok a⟩
  bind := andThen

/-- The run that reports an event. -/
def report (e : Event) : Run Unit := ⟨[e], .ok ()⟩

/-- The run that reports nothing. -/
def ofExcept {α : Type} (x : Except Error α) : Run α := ⟨[], x⟩

/-- The run that fails at once. -/
def fail {α : Type} (e : Error) : Run α := ⟨[], .error e⟩

theorem bind_of_ok {α β : Type} {r : Run α} {a : α} (h : r.result = .ok a) (next : α → Run β) :
    r >>= next = ⟨r.events ++ (next a).events, (next a).result⟩ := by
  obtain ⟨events, result⟩ := r
  obtain rfl := h
  rfl

theorem bind_of_error {α β : Type} {r : Run α} {e : Error} (h : r.result = .error e)
    (next : α → Run β) : r >>= next = ⟨r.events, .error e⟩ := by
  obtain ⟨events, result⟩ := r
  obtain rfl := h
  rfl

end Run

end PackageMigration.Migration
