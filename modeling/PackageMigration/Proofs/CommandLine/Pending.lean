import PackageMigration.Proofs.CommandLine.Grammar
import PackageMigration.Proofs.Except
import PackageMigration.Proofs.Lookup
/-
  The value that was read last is looked at with the next word. It may as well be looked at right away.

  * `Reading.finish?`: all that is left to read.
  * `Reading.SettlesFirst`: a step that looks at the pending value first.

  Main statements: `Reading.exists_settlesFirst`, `Reading.finish?_eq_bind_settle?`.
-/
namespace PackageMigration.CommandLine.Reading

variable {r r' : Reading}

theorem give?_eq_ok_iff {s : Setting} {v : Bytes} :
    r.give? s v = .ok r' ↔
      s ∉ r.given.map Prod.fst ∧ s.accepts v = true ∧ r' = { r with given := (s, v) :: r.given } := by
  unfold give?
  split
  next h =>
    rw [Bool.or_eq_true, isSome_lookup_iff, Bool.not_eq_true', Bool.eq_false_iff] at h
    constructor
    · nofun
    · rintro ⟨hs, ha, -⟩
      exact absurd h (not_or.2 ⟨hs, not_not.2 ha⟩)
  next h =>
    rw [Bool.or_eq_true, isSome_lookup_iff, Bool.not_eq_true', Bool.eq_false_iff, not_or, not_not] at h
    simp [h, eq_comm]

/-- All that is left to read, to the last value. -/
def finish? (r : Reading) (words : List Bytes) : Except Refusal Reading :=
  words.foldlM word? r >>= settle?

@[simp] theorem finish?_nil (r : Reading) : r.finish? [] = r.settle? := rfl

theorem finish?_cons (r : Reading) (word : Bytes) (words : List Bytes) :
    r.finish? (word :: words) = r.word? word >>= fun r => r.finish? words := by
  rw [finish?, List.foldlM_cons, bind_assoc]
  rfl

theorem settle?_of_pending_eq_none (h : r.pending = none) : r.settle? = .ok r := by
  rw [settle?, h]

theorem pending_of_give? {s : Setting} {v : Bytes} (h : r.give? s v = .ok r') :
    r'.pending = r.pending := by
  obtain ⟨-, -, rfl⟩ := give?_eq_ok_iff.1 h
  rfl

theorem pending_of_settle? (h : r.settle? = .ok r') : r'.pending = none := by
  unfold settle? at h
  split at h
  next hp =>
    cases h
    exact hp
  · cases h
  · exact pending_of_give? h

/-- The only way to fail is that the words make no sense. -/
theorem settle?_eq_error {e : Refusal} (h : r.settle? = .error e) : e = .usage := by
  unfold settle? give? at h
  split at h
  · cases h
  · cases h
    rfl
  · split at h <;> cases h
    rfl

/-- A step that looks at the pending value first, if it does not fail anyway. -/
def SettlesFirst (f : Reading → Except Refusal Reading) : Prop := ∀ r, f r = r.settle? >>= f

theorem settlesFirst_bind (g : Reading → Except Refusal Reading) :
    SettlesFirst fun r => r.settle? >>= g := by
  intro r
  show r.settle? >>= g = r.settle? >>= fun r => r.settle? >>= g
  cases h : r.settle? with
  | error e => rfl
  | ok r₀ =>
    show g r₀ = r₀.settle? >>= g
    rw [settle?_of_pending_eq_none (pending_of_settle? h)]
    rfl

theorem settlesFirst_usage : SettlesFirst fun _ => .error .usage := by
  intro r
  cases h : r.settle? with
  | error e =>
    rw [settle?_eq_error h]
    rfl
  | ok r₀ => rfl

theorem settlesFirst_ite {p : Prop} [Decidable p] {f g : Reading → Except Refusal Reading}
    (hf : SettlesFirst f) (hg : SettlesFirst g) : SettlesFirst fun r => if p then f r else g r := by
  intro r
  by_cases h : p
  · simp only [h, if_true]
    exact hf r
  · simp only [h, if_false]
    exact hg r

theorem settlesFirst_operand? (word : Bytes) : SettlesFirst (operand? · word) :=
  settlesFirst_bind _

theorem settlesFirst_inform? (refusal : Refusal) : SettlesFirst (inform? · refusal) :=
  settlesFirst_bind fun _ => throw refusal

theorem settlesFirst_flag? (name : Bytes) : SettlesFirst (flag? · name) :=
  settlesFirst_ite (settlesFirst_inform? .help)
    (settlesFirst_ite (settlesFirst_inform? .version)
      (settlesFirst_ite (settlesFirst_bind _) settlesFirst_usage))

theorem settlesFirst_option? (name : Bytes) (value : Option Bytes) :
    SettlesFirst (option? · name value) := by
  unfold option?
  cases Setting.ofOption? name with
  | none =>
    cases value with
    | none => exact settlesFirst_flag? name
    | some v => exact settlesFirst_usage
  | some s =>
    cases value with
    | none => exact settlesFirst_bind _
    | some v => exact settlesFirst_bind _

theorem settlesFirst_letters? (letters : Bytes) : SettlesFirst (letters? · letters) :=
  settlesFirst_ite (settlesFirst_inform? .help)
    (settlesFirst_ite (settlesFirst_inform? .version) settlesFirst_usage)

/-- Whether only operands may follow does not change with the pending value. -/
theorem optionsEnded_of_settle? (h : r.settle? = .ok r') : r'.optionsEnded = r.optionsEnded := by
  unfold settle? at h
  split at h
  · cases h
    rfl
  · cases h
  · obtain ⟨-, -, rfl⟩ := give?_eq_ok_iff.1 h
    rfl

theorem word?_of_optionsEnded (h : r.optionsEnded = true) (word : Bytes) :
    r.word? word = r.operand? word := by
  rw [word?, if_pos h]

/-- A word that is no option is the value that is waited for, or an operand. -/
theorem word?_of_not_isOption (h : r.optionsEnded = false) {word : Bytes} (hw : ¬ IsOption word) :
    r.word? word =
      match r.pending with
      | some (s, none) => .ok { r with pending := some (s, some word) }
      | _ => r.operand? word := by
  have hne : word ≠ bytes "--" := fun he => hw ⟨0x2D, [], he⟩
  have hlong : Bytes.after? (bytes "--") word = none :=
    Option.eq_none_iff_forall_ne_some.2 fun o ho => hw ⟨_, _, Bytes.after?_eq_some_iff.1 ho⟩
  rw [word?, if_neg (by simp [h]), if_neg hne, hlong]
  split
  next ho => cases ho
  next b bs _ hb => exact absurd ⟨b, bs, Bytes.after?_eq_some_iff.1 hb⟩ hw
  · rfl

/-- No setting waits for a value in the next word. -/
def AwaitsNone (r : Reading) : Prop := ∀ s, r.pending ≠ some (s, none)

theorem awaitsNone_of_pending_eq_none (h : r.pending = none) : r.AwaitsNone := by
  simp [AwaitsNone, h]

/-- Every word but the first `--` settles what is pending, unless it is the value that is waited for. -/
theorem exists_settlesFirst {ended : Bool} {word : Bytes} (hw : ended = true ∨ word ≠ bytes "--") :
    ∃ f, SettlesFirst f ∧ ∀ r : Reading, r.optionsEnded = ended →
      ended = true ∨ IsOption word ∨ r.AwaitsNone → r.word? word = f r := by
  cases ended with
  | true => exact ⟨_, settlesFirst_operand? word, fun r hr _ => word?_of_optionsEnded hr word⟩
  | false =>
    by_cases ho : IsOption word
    · have hne : word ≠ bytes "--" := hw.resolve_left Bool.false_ne_true
      have heq {r : Reading} (hr : r.optionsEnded = false) {x y z : Except Refusal Reading} :
          (if r.optionsEnded = true then x else if word = bytes "--" then y else z) = z := by
        rw [if_neg (by simp [hr]), if_neg hne]
      obtain ⟨b, more, rfl⟩ := ho
      have hshort : Bytes.after? (bytes "-") (0x2D :: b :: more) = some (b :: more) :=
        Bytes.after?_eq_some_iff.2 rfl
      unfold word?
      cases Bytes.after? (bytes "--") (0x2D :: b :: more) with
      | none =>
        rw [hshort]
        exact ⟨_, settlesFirst_letters? (b :: more), fun r hr _ => heq hr⟩
      | some o =>
        cases hcut : Bytes.cutFirst? 0x3D o with
        | none => exact ⟨_, settlesFirst_option? o none, fun r hr _ => by simp only [heq hr, hcut]⟩
        | some x =>
          exact ⟨_, settlesFirst_option? x.1 (some x.2), fun r hr _ => by simp only [heq hr, hcut]⟩
    · refine ⟨_, settlesFirst_operand? word, fun r hr hp => ?_⟩
      have hnone : r.AwaitsNone := (hp.resolve_left Bool.false_ne_true).resolve_left ho
      rw [word?_of_not_isOption hr ho]
      split
      next s hs => exact absurd hs (hnone s)
      · rfl

/-- The first `--`. -/
theorem word?_hyphens (h : r.optionsEnded = false) :
    r.word? (bytes "--") = .ok { r with optionsEnded := true } := by
  rw [word?, if_neg (by simp [h]), if_pos rfl]

theorem settle?_optionsEnded (r : Reading) :
    { r with optionsEnded := true }.settle? =
      r.settle? >>= fun r => .ok { r with optionsEnded := true } := by
  obtain ⟨given, zipInMemory, pending, operands, ended⟩ := r
  rcases pending with _ | ⟨s, _ | v⟩
  · rfl
  · rfl
  · show (if _ then _ else _) = (if _ then _ else _) >>= _
    split <;> rfl

/-- **A value may be looked at as soon as it is there**, and not only with the next word. -/
theorem finish?_eq_bind_settle? (words : List Bytes) (hr : r.AwaitsNone) :
    r.finish? words = r.settle? >>= fun r => r.finish? words := by
  induction words generalizing r with
  | nil => simpa using settlesFirst_bind pure r
  | cons word words ih =>
    simp only [finish?_cons]
    by_cases hw : r.optionsEnded = true ∨ word ≠ bytes "--"
    · obtain ⟨f, hf, heq⟩ := exists_settlesFirst hw
      rw [heq r rfl (.inr (.inr hr)), hf r, bind_assoc]
      cases h : r.settle? with
      | error e => rfl
      | ok r₀ =>
        have hr₀ := awaitsNone_of_pending_eq_none (pending_of_settle? h)
        show f r₀ >>= _ = r₀.word? word >>= _
        rw [heq r₀ (optionsEnded_of_settle? h) (.inr (.inr hr₀))]
    · obtain ⟨hended, rfl⟩ : r.optionsEnded = false ∧ word = bytes "--" := by simpa using hw
      rw [word?_hyphens hended]
      show finish? { r with optionsEnded := true } words = _
      rw [ih (r := { r with optionsEnded := true }) hr, settle?_optionsEnded, bind_assoc]
      cases h : r.settle? with
      | error e => rfl
      | ok r₀ =>
        show _ = r₀.word? (bytes "--") >>= _
        rw [word?_hyphens ((optionsEnded_of_settle? h).trans hended)]
        rfl

end PackageMigration.CommandLine.Reading
