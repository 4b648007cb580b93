import PackageMigration.Migration.Run
import PackageMigration.Proofs.Except
/-
  How runs go on after one another.

  Main statements: `result_bind` (how a run ends does not depend on what it reported),
  `mem_events_bind_iff` (what a run reports that goes on after another).
-/
namespace PackageMigration.Migration.Run

variable {α β : Type}

theorem result_bind (r : Run α) (f : α → Run β) :
    (r >>= f).result = r.result >>= fun a => (f a).result := by
  cases h : r.result with
  | error e => rw [bind_of_error h]; rfl
  | ok a => rw [bind_of_ok h]; rfl

@[simp] theorem result_pure (a : α) : (pure a : Run α).result = .ok a := rfl

@[simp] theorem result_report (e : Event) : (report e).result = .ok () := rfl

@[simp] theorem result_ofExcept (x : Except Error α) : (ofExcept x).result = x := rfl

@[simp] theorem result_fail (e : Error) : (fail e : Run α).result = .error e := rfl

@[simp] theorem events_pure (a : α) : (pure a : Run α).events = [] := rfl

@[simp] theorem events_report (e : Event) : (report e).events = [e] := rfl

@[simp] theorem events_ofExcept (x : Except Error α) : (ofExcept x).events = [] := rfl

@[simp] theorem events_fail (e : Error) : (fail e : Run α).events = [] := rfl

theorem mem_events_bind_iff {r : Run α} {f : α → Run β} {e : Event} :
    e ∈ (r >>= f).events ↔ e ∈ r.events ∨ ∃ a, r.result = .ok a ∧ e ∈ (f a).events := by
  cases h : r.result with
  | error => simp [bind_of_error h]
  | ok a => simp [bind_of_ok h]

theorem ofExcept_ok_bind (a : α) (f : α → Run β) : ofExcept (.ok a) >>= f = f a := rfl

theorem report_bind (e : Event) (f : Unit → Run β) :
    report e >>= f = ⟨e :: (f ()).events, (f ()).result⟩ := rfl

end PackageMigration.Migration.Run
