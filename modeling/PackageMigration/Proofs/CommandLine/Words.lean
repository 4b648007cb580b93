import PackageMigration.Proofs.Bytes.Cut
import PackageMigration.Proofs.CommandLine.Pending
/-
  Words one by one.

  * `Reading.item?`: an item is read as a whole.

  Main statements: `Reading.Ready.word?_spells`, `Reading.Ready.word?_name` (what options do),
  `Reading.Ready.word?_cases` (what a word can be), `Reading.isValue_of_pending`.
-/
namespace PackageMigration.CommandLine.Reading

variable {r r' : Reading}

/-- An item is read as a whole. -/
def item? (r : Reading) : Item → Except Refusal Reading
  | .zipInMemory =>
    if r.zipInMemory then .error .usage else .ok { r with zipInMemory := true }
  | .value s v => r.give? s v
  | .operand word => r.operand? word >>= settle?

/-- Nothing is pending, and options may follow. -/
structure Ready (r : Reading) : Prop where
  pending : r.pending = none
  optionsEnded : r.optionsEnded = false

theorem Ready.settle? (h : r.Ready) : r.settle? = .ok r := settle?_of_pending_eq_none h.pending

/-- Names of settings are names: there is something, and no equals sign. -/
theorem proper_of_ofOption? {name : Bytes} {s : Setting} (h : Setting.ofOption? name = some s) :
    name ≠ [] ∧ 0x3D ∉ name := by
  unfold Setting.ofOption? at h
  split at h
  next hn => subst hn; decide +kernel
  split at h
  next hn => subst hn; decide +kernel
  split at h
  next hn => subst hn; decide +kernel
  · cases h

/-- A word that begins with two hyphens is an option, with or without a value. -/
theorem Ready.word?_hyphens_append (h : r.Ready) {o : Bytes} (ho : o ≠ []) :
    r.word? (bytes "--" ++ o) =
      match Bytes.cutFirst? 0x3D o with
      | some (name, value) => r.option? name (some value)
      | none => r.option? o none := by
  have hne : bytes "--" ++ o ≠ bytes "--" := by simpa using ho
  have hafter : Bytes.after? (bytes "--") (bytes "--" ++ o) = some o := Bytes.after?_eq_some_iff.2 rfl
  rw [word?, if_neg (by simp [h.optionsEnded]), if_neg hne]
  cases hcut : Bytes.cutFirst? 0x3D o <;> simp only [hafter, hcut]

theorem Ready.option?_zipInMemory (h : r.Ready) :
    r.option? (bytes "zip-in-memory") none = r.item? .zipInMemory := by
  have hnone : Setting.ofOption? (bytes "zip-in-memory") = none := by decide +kernel
  have hhelp : bytes "zip-in-memory" ≠ bytes "help" := by decide +kernel
  have hversion : bytes "zip-in-memory" ≠ bytes "version" := by decide +kernel
  unfold option?
  rw [hnone]
  show r.flag? _ = _
  rw [flag?, if_neg hhelp, if_neg hversion, if_pos rfl, h.settle?]
  rfl

theorem Ready.option?_value (h : r.Ready) {name : Bytes} {s : Setting}
    (hs : Setting.ofOption? name = some s) (v : Bytes) :
    r.option? name (some v) = r.item? (.value s v) := by
  unfold option?
  rw [hs, h.settle?]
  rfl

theorem Ready.option?_name (h : r.Ready) {name : Bytes} {s : Setting}
    (hs : Setting.ofOption? name = some s) :
    r.option? name none = .ok { r with pending := some (s, none) } := by
  unfold option?
  rw [hs, h.settle?]
  rfl

/-- A word that says all of an option is read as that. -/
theorem Ready.word?_spells (h : r.Ready) {word : Bytes} {i : Item} (hs : Spells word i) :
    r.word? (modernSpelling word) = r.item? i := by
  induction hs with
  | zipInMemory =>
    have hcut : Bytes.cutFirst? 0x3D (bytes "zip-in-memory") = none := by decide +kernel
    have hword : bytes "--zip-in-memory" = bytes "--" ++ bytes "zip-in-memory" := by decide +kernel
    rw [hword, modernSpelling_of_not_respelled (not_respelled_of_hyphens _),
      h.word?_hyphens_append (by decide +kernel), hcut]
    exact h.option?_zipInMemory
  | @value name s hs v =>
    have hcut : Bytes.cutFirst? 0x3D (name ++ 0x3D :: v) = some (name, v) :=
      Bytes.cutFirst?_eq_some_iff.2 ⟨rfl, (proper_of_ofOption? hs).2⟩
    rw [modernSpelling_of_not_respelled (not_respelled_of_hyphens _),
      h.word?_hyphens_append (by simp), hcut]
    exact h.option?_value hs v
  | respelled hr _ ih =>
    rw [modernSpelling_of_respelled hr, ← ih, hr.modernSpelling_new]

/-- The name of an option that has its value in the next word. -/
theorem Ready.word?_name (h : r.Ready) {name : Bytes} {s : Setting}
    (hs : Setting.ofOption? name = some s) :
    r.word? (modernSpelling (bytes "--" ++ name)) = .ok { r with pending := some (s, none) } := by
  obtain ⟨hne, hmem⟩ := proper_of_ofOption? hs
  rw [modernSpelling_of_not_respelled (not_respelled_of_hyphens _), h.word?_hyphens_append hne,
    Bytes.cutFirst?_eq_none_iff.2 hmem]
  exact h.option?_name hs

theorem inform?_ne_ok {refusal : Refusal} : r.inform? refusal ≠ .ok r' := by
  intro h
  obtain ⟨-, -, h⟩ := bind_eq_ok_iff.1 h
  cases h

theorem letters?_ne_ok {letters : Bytes} : r.letters? letters ≠ .ok r' := by
  unfold letters?
  split
  · exact inform?_ne_ok
  split
  · exact inform?_ne_ok
  · nofun

theorem eq_of_flag?_eq_ok {name : Bytes} (h : r.flag? name = .ok r') : name = bytes "zip-in-memory" := by
  unfold flag? at h
  split at h
  · exact absurd h inform?_ne_ok
  split at h
  · exact absurd h inform?_ne_ok
  split at h
  next hn => exact hn
  · cases h

/-- Options of one letter never say anything but a request for information. -/
theorem Ready.word?_letters (h : r.Ready) {b : UInt8} {more : Bytes} (hb : b ≠ 0x2D) :
    r.word? (0x2D :: b :: more) = r.letters? (b :: more) := by
  have hne : (0x2D :: b :: more : Bytes) ≠ bytes "--" := fun he =>
    hb (List.cons.inj (List.cons.inj he).2).1
  have hlong : Bytes.after? (bytes "--") (0x2D :: b :: more) = none :=
    Option.eq_none_iff_forall_ne_some.2 fun o ho =>
      hb (List.cons.inj (List.cons.inj (Bytes.after?_eq_some_iff.1 ho)).2).1
  have hshort : Bytes.after? (bytes "-") (0x2D :: b :: more) = some (b :: more) :=
    Bytes.after?_eq_some_iff.2 rfl
  rw [word?, if_neg (by simp [h.optionsEnded]), if_neg hne, hlong, hshort]

/-- What a word that makes sense can be. -/
theorem Ready.word?_cases (h : r.Ready) {word : Bytes} (hok : r.word? (modernSpelling word) = .ok r') :
    word = bytes "--" ∨ (∃ i, Spells word i) ∨
      (∃ name s, word = bytes "--" ++ name ∧ Setting.ofOption? name = some s) ∨ ¬ IsOption word := by
  rcases modernSpelling_cases word with hr | ⟨heq, -⟩
  · exact .inr (.inl hr.exists_spells)
  rw [heq] at hok
  by_cases hw : IsOption word
  swap
  · exact .inr (.inr (.inr hw))
  obtain ⟨b, o, rfl⟩ := hw
  by_cases hb : b = 0x2D
  swap
  · rw [h.word?_letters hb] at hok
    exact absurd hok letters?_ne_ok
  subst hb
  by_cases ho : o = []
  · exact .inl (by rw [ho]; rfl)
  change r.word? (bytes "--" ++ o) = .ok r' at hok
  rw [h.word?_hyphens_append ho] at hok
  split at hok
  next name v hcut =>
    obtain ⟨rfl, -⟩ := Bytes.cutFirst?_eq_some_iff.1 hcut
    unfold option? at hok
    split at hok
    next s v' hs hv => exact .inr (.inl ⟨_, .value hs v⟩)
    · cases ‹_ = none›
    · cases hok
    · cases ‹_ = none›
  next =>
    unfold option? at hok
    split at hok
    · cases ‹_ = some _›
    next s hs _ => exact .inr (.inr (.inl ⟨o, s, rfl, hs⟩))
    · cases ‹_ = some _›
    next =>
      rw [eq_of_flag?_eq_ok hok]
      exact .inr (.inl ⟨_, .zipInMemory⟩)

/-- A setting that waits for its value gets no other word. -/
theorem isValue_of_pending {s : Setting} {word : Bytes} (hok : r.word? word = .ok r')
    (hp : r.pending = some (s, none)) :
    ¬ (r.optionsEnded = true ∨ IsOption word ∧ word ≠ bytes "--") := by
  intro hw
  obtain ⟨f, hf, heq⟩ := exists_settlesFirst (hw.imp_right And.right)
  rw [heq r rfl (hw.imp_right fun h => .inl h.1), hf r, settle?, hp] at hok
  cases hok

theorem awaitsNone_of_operand? {word : Bytes} (h : r.operand? word = .ok r') : r'.AwaitsNone := by
  obtain ⟨r₀, -, h⟩ := bind_eq_ok_iff.1 h
  split at h <;> cases h <;> nofun

theorem finish?_operand {word : Bytes} (h : r.word? word = r.operand? word) (words : List Bytes) :
    r.finish? (word :: words) = r.item? (.operand word) >>= fun r => r.finish? words := by
  rw [finish?_cons, h, item?, bind_assoc]
  cases ho : r.operand? word with
  | error e => rfl
  | ok r₁ => exact finish?_eq_bind_settle? words (awaitsNone_of_operand? ho)

theorem Ready.finish?_value (h : r.Ready) {name : Bytes} {s : Setting} {v : Bytes}
    (hs : Setting.ofOption? name = some s) (hv : ¬ IsOption v) (words : List Bytes) :
    r.finish? (modernSpellings ((bytes "--" ++ name) :: v :: words)) =
      r.item? (.value s v) >>= fun r => r.finish? (modernSpellings words) := by
  obtain ⟨given, zipInMemory, pending, n, ended⟩ := r
  obtain ⟨rfl, rfl⟩ : pending = none ∧ ended = false := ⟨h.pending, h.optionsEnded⟩
  rw [modernSpellings_cons, modernSpellings_cons, finish?_cons, h.word?_name hs]
  show finish? ⟨given, zipInMemory, some (s, none), n, false⟩ _ = _
  rw [finish?_cons, modernSpelling_of_not_isOption hv, word?_of_not_isOption rfl hv]
  exact finish?_eq_bind_settle? _ nofun

/-- The value that is waited for stands in the next word. -/
theorem exists_value_of_pending {s : Setting} {words : List Bytes}
    (hok : r.finish? (modernSpellings words) = .ok r') (hp : r.pending = some (s, none))
    (hended : r.optionsEnded = false) :
    ∃ v more, words = v :: more ∧ ¬ IsOption v := by
  have hnil {r : Reading} (hp : r.pending = some (s, none)) : r.settle? ≠ .ok r' := by
    rw [settle?, hp]
    simp
  cases words with
  | nil => exact absurd hok (hnil hp)
  | cons v more =>
    refine ⟨v, more, rfl, fun hv => ?_⟩
    rw [modernSpellings_cons, finish?_cons] at hok
    obtain ⟨r₁, hr₁, hok⟩ := bind_eq_ok_iff.1 hok
    by_cases hhyphens : modernSpelling v = bytes "--"
    · rw [hhyphens, word?_hyphens hended] at hr₁
      cases hr₁
      cases more with
      | nil => exact absurd hok (hnil hp)
      | cons word more =>
        rw [modernSpellings_cons, finish?_cons] at hok
        obtain ⟨r₂, hr₂, -⟩ := bind_eq_ok_iff.1 hok
        exact isValue_of_pending hr₂ hp (.inl rfl)
    · exact isValue_of_pending hr₁ hp (.inr ⟨hv.modernSpelling, hhyphens⟩)

end PackageMigration.CommandLine.Reading
