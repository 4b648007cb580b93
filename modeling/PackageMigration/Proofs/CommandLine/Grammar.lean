import PackageMigration.CommandLine.Arguments
import Mathlib.Data.List.Induction
import Mathlib.Data.List.Nodup
/-
  The grammar of the command line.

  * `Item`: what one or two words say.
  * `Respelled`: the historical spellings of options.
  * `Line`: the items of a command line, word by word.
  * `Consistent`, `Asks`: what items ask for, if they make sense.

  Main statements: `modernSpelling_of_respelled`, `modernSpelling_eq_self_iff`,
  `consistent_concat_value_iff`, `consistent_concat_operand_iff`.
-/
namespace PackageMigration.CommandLine

/-! ## The grammar -/

/-- What one or two words of a command line say. -/
inductive Item where
  | zipInMemory
  | value (s : Setting) (v : Bytes)
  | operand (word : Bytes)
  deriving DecidableEq, Repr

/-- The historical spelling of an option, and its current one. -/
inductive Respelled : Bytes → Bytes → Prop
  | zipInMemory : Respelled (bytes "-zipInMemory") (bytes "--zip-in-memory")
  | profile (v : Bytes) : Respelled (bytes "-profile=" ++ v) (bytes "--profile=" ++ v)
  | logLevel (v : Bytes) : Respelled (bytes "-logLevel=" ++ v) (bytes "--log-level=" ++ v)

/-- A word that looks like an option: a hyphen and more. -/
def IsOption (word : Bytes) : Prop := ∃ b more, word = 0x2D :: b :: more

/-- A word that says all of an option. -/
inductive Spells : Bytes → Item → Prop
  | zipInMemory : Spells (bytes "--zip-in-memory") .zipInMemory
  | value {name : Bytes} {s : Setting} (h : Setting.ofOption? name = some s) (v : Bytes) :
    Spells (bytes "--" ++ (name ++ 0x3D :: v)) (.value s v)
  | respelled {old new : Bytes} {i : Item} (h : Respelled old new) (hi : Spells new i) : Spells old i

/-- A command line: the items before the first `--`, and the words behind it. -/
inductive Line : List Bytes → List Item → List Bytes → Prop
  | done : Line [] [] []
  | ended (rest : List Bytes) : Line (bytes "--" :: rest) [] rest
  | option {word : Bytes} {i : Item} {words : List Bytes} {items : List Item} {rest : List Bytes}
    (h : Spells word i) (hl : Line words items rest) : Line (word :: words) (i :: items) rest
  | optionThenValue {name : Bytes} {s : Setting} {v : Bytes} {words : List Bytes} {items : List Item}
    {rest : List Bytes} (h : Setting.ofOption? name = some s) (hv : ¬ IsOption v)
    (hl : Line words items rest) : Line ((bytes "--" ++ name) :: v :: words) (.value s v :: items) rest
  | operand {word : Bytes} {words : List Bytes} {items : List Item} {rest : List Bytes}
    (h : ¬ IsOption word) (hl : Line words items rest) :
    Line (word :: words) (.operand word :: items) rest

/-- The operands among items. -/
def operandsOf (items : List Item) : List Bytes :=
  items.filterMap fun
    | .operand word => some word
    | _ => none

/-- The settings that items give a value. The operands are the source and the destination. -/
def settingsOf (items : List Item) : List (Setting × Bytes) :=
  [Setting.source, .destination].zip (operandsOf items) ++
    items.filterMap fun
      | .value s v => some (s, v)
      | _ => none

/-- Items that make sense: nothing is said twice, and every value is one of its setting. -/
structure Consistent (items : List Item) : Prop where
  operands : (operandsOf items).length ≤ 2
  settings : ((settingsOf items).map Prod.fst).Nodup
  accepts : ∀ p ∈ settingsOf items, p.1.accepts p.2
  zipInMemory : items.count .zipInMemory ≤ 1

/-- Items ask for `a`. -/
structure Asks (items : List Item) (a : Arguments) : Prop extends Consistent items where
  paths : operandsOf items = [a.source, a.destination]
  profile : a.profile = (((settingsOf items).lookup .profile).bind fun v =>
    Profile.ofName? (Text.ofBytes v)).getD .default
  logLevel : a.logLevel = ((settingsOf items).lookup .logLevel).getD (bytes "INFO")
  rules : a.rules = (settingsOf items).lookup .rules
  isInMemory : a.zipInMemory = true ↔ .zipInMemory ∈ items

/-! ## Spellings -/

theorem Respelled.isOption {old new : Bytes} (h : Respelled old new) : IsOption old := by
  cases h <;> exact ⟨_, _, rfl⟩

theorem Respelled.exists_spells {old new : Bytes} (h : Respelled old new) : ∃ i, Spells old i := by
  cases h with
  | zipInMemory => exact ⟨_, .respelled .zipInMemory .zipInMemory⟩
  | profile v =>
    have hname : Setting.ofOption? (bytes "profile") = some .profile := by decide +kernel
    exact ⟨_, .respelled (.profile v) (.value hname v)⟩
  | logLevel v =>
    have hname : Setting.ofOption? (bytes "log-level") = some .logLevel := by decide +kernel
    exact ⟨_, .respelled (.logLevel v) (.value hname v)⟩

/-- What a historical spelling becomes. -/
theorem modernSpelling_of_respelled {old new : Bytes} (h : Respelled old new) :
    modernSpelling old = new := by
  cases h with
  | zipInMemory => decide +kernel
  | profile v =>
    have hne : bytes "-profile=" ++ v ≠ bytes "-zipInMemory" := nofun
    rw [modernSpelling, if_neg hne, Bytes.after?_eq_some_iff.2 rfl]
  | logLevel v =>
    have hne : bytes "-logLevel=" ++ v ≠ bytes "-zipInMemory" := nofun
    have hnone : Bytes.after? (bytes "-profile=") (bytes "-logLevel=" ++ v) = none := rfl
    rw [modernSpelling, if_neg hne, hnone, Bytes.after?_eq_some_iff.2 rfl]

/-- Every other word stays as it is. -/
theorem modernSpelling_of_not_respelled {word : Bytes} (h : ∀ new, ¬ Respelled word new) :
    modernSpelling word = word := by
  unfold modernSpelling
  split
  next hz => exact absurd (hz ▸ Respelled.zipInMemory) (h _)
  next =>
    split
    next v hv => exact absurd (Bytes.after?_eq_some_iff.1 hv ▸ Respelled.profile v) (h _)
    next v _ hv => exact absurd (Bytes.after?_eq_some_iff.1 hv ▸ Respelled.logLevel v) (h _)
    · rfl

theorem modernSpelling_cases (word : Bytes) :
    Respelled word (modernSpelling word) ∨ modernSpelling word = word ∧ ∀ new, ¬ Respelled word new := by
  by_cases h : ∃ new, Respelled word new
  · obtain ⟨new, h⟩ := h
    exact .inl (modernSpelling_of_respelled h ▸ h)
  · have h := not_exists.1 h
    exact .inr ⟨modernSpelling_of_not_respelled h, h⟩

theorem not_respelled_of_hyphens (word new : Bytes) : ¬ Respelled (bytes "--" ++ word) new := nofun

theorem Respelled.modernSpelling_new {old new : Bytes} (h : Respelled old new) :
    modernSpelling new = new := by
  apply modernSpelling_of_not_respelled
  cases h <;> nofun

/-- A word is as it was typed unless it is a historical spelling. -/
theorem modernSpelling_eq_self_iff {word : Bytes} :
    modernSpelling word = word ↔ ∀ new, ¬ Respelled word new := by
  refine ⟨fun h new hr => ?_, modernSpelling_of_not_respelled⟩
  rw [modernSpelling_of_respelled hr] at h
  subst h
  cases hr

theorem modernSpellings_cons (word : Bytes) (words : List Bytes) :
    modernSpellings (word :: words) = modernSpelling word :: modernSpellings words := rfl

/-- An option stays one in the current spelling. -/
theorem IsOption.modernSpelling {word : Bytes} (h : IsOption word) :
    IsOption (modernSpelling word) := by
  rcases modernSpelling_cases word with hr | ⟨heq, -⟩
  · generalize CommandLine.modernSpelling word = new at hr ⊢
    cases hr <;> exact ⟨_, _, rfl⟩
  · exact heq.symm ▸ h

theorem modernSpelling_of_not_isOption {word : Bytes} (h : ¬ IsOption word) :
    modernSpelling word = word :=
  modernSpelling_of_not_respelled fun _ hr => h hr.isOption

/-! ## Items in a row -/

section
variable {items : List Item}

theorem operandsOf_append (items more : List Item) :
    operandsOf (items ++ more) = operandsOf items ++ operandsOf more := List.filterMap_append

theorem operandsOf_map_operand (words : List Bytes) : operandsOf (words.map .operand) = words := by
  rw [operandsOf, List.filterMap_map]
  exact List.filterMap_some

theorem settingsOf_concat_zipInMemory (items : List Item) :
    settingsOf (items ++ [.zipInMemory]) = settingsOf items := by
  simp [settingsOf, operandsOf]

theorem settingsOf_concat_value (items : List Item) (s : Setting) (v : Bytes) :
    settingsOf (items ++ [.value s v]) = settingsOf items ++ [(s, v)] := by
  simp [settingsOf, operandsOf]

/-- The setting that the operand behind `n` others is for. -/
def Setting.ofOperand? (n : Nat) : Option Setting := [source, destination][n]?

theorem Setting.exists_ofOperand?_iff {n : Nat} : (∃ s, ofOperand? n = some s) ↔ n < 2 := by
  simp [ofOperand?, List.getElem?_eq_some_iff]

theorem settingsOf_concat_operand {s : Setting}
    (h : Setting.ofOperand? (operandsOf items).length = some s) (word : Bytes) :
    (settingsOf (items ++ [.operand word])).Perm (settingsOf items ++ [(s, word)]) := by
  unfold Setting.ofOperand? at h
  unfold settingsOf
  rw [operandsOf_append, List.filterMap_append]
  show List.Perm (List.zip _ (operandsOf items ++ [word]) ++ (_ ++ [])) _
  rw [List.append_nil, List.append_assoc]
  generalize operandsOf items = words at h ⊢
  rcases words with _ | ⟨source, _ | ⟨destination, more⟩⟩
  · cases h
    exact (List.perm_append_singleton _ _).symm
  · cases h
    exact ((List.perm_append_singleton _ _).symm).cons _
  · simp at h

/-- Items make sense with one more setting if it is a new one and accepts its value. -/
theorem consistent_concat_iff {i : Item} {s : Setting} {v : Bytes}
    (hperm : (settingsOf (items ++ [i])).Perm (settingsOf items ++ [(s, v)])) (hi : i ≠ .zipInMemory) :
    Consistent (items ++ [i]) ↔
      Consistent items ∧ (operandsOf (items ++ [i])).length ≤ 2 ∧
        s ∉ (settingsOf items).map Prod.fst ∧ s.accepts v = true := by
  have hkeys : ((settingsOf (items ++ [i])).map Prod.fst).Nodup ↔
      ((settingsOf items).map Prod.fst).Nodup ∧ s ∉ (settingsOf items).map Prod.fst := by
    rw [(hperm.map Prod.fst).nodup_iff, List.map_append, List.map_singleton,
      (List.perm_append_singleton _ _).nodup_iff, List.nodup_cons, and_comm]
  have haccepts : (∀ p ∈ settingsOf (items ++ [i]), p.1.accepts p.2) ↔
      (∀ p ∈ settingsOf items, p.1.accepts p.2) ∧ s.accepts v = true := by
    simp only [hperm.mem_iff, List.mem_append, List.mem_singleton, or_imp, forall_and, forall_eq]
  have hcount : (items ++ [i]).count .zipInMemory = items.count .zipInMemory := by
    rw [List.count_append, List.count_singleton, if_neg (by simpa using hi), Nat.add_zero]
  have hfewer : (operandsOf items).length ≤ (operandsOf (items ++ [i])).length := by
    rw [operandsOf_append, List.length_append]
    exact Nat.le_add_right _ _
  constructor
  · intro h
    have hk := hkeys.1 h.settings
    have ha := haccepts.1 h.accepts
    exact ⟨⟨Nat.le_trans hfewer h.operands, hk.1, ha.1, hcount ▸ h.zipInMemory⟩, h.operands, hk.2, ha.2⟩
  · rintro ⟨h, hops, hs, hv⟩
    exact ⟨hops, hkeys.2 ⟨h.settings, hs⟩, haccepts.2 ⟨h.accepts, hv⟩, hcount ▸ h.zipInMemory⟩

theorem consistent_concat_zipInMemory_iff :
    Consistent (items ++ [.zipInMemory]) ↔ Consistent items ∧ .zipInMemory ∉ items := by
  have hcount : (items ++ [Item.zipInMemory]).count .zipInMemory ≤ 1 ↔ .zipInMemory ∉ items := by
    rw [List.count_append, List.count_singleton_self, ← List.count_eq_zero]
    omega
  have hops : operandsOf (items ++ [.zipInMemory]) = operandsOf items := by simp [operandsOf]
  constructor
  · intro h
    refine ⟨⟨hops ▸ h.operands, ?_, ?_, ?_⟩, hcount.1 h.zipInMemory⟩
    · exact settingsOf_concat_zipInMemory items ▸ h.settings
    · exact settingsOf_concat_zipInMemory items ▸ h.accepts
    · exact Nat.le_trans (List.Sublist.count_le _ (List.sublist_append_left _ _)) h.zipInMemory
  · rintro ⟨h, hi⟩
    refine ⟨hops.symm ▸ h.operands, ?_, ?_, hcount.2 hi⟩
    · exact (settingsOf_concat_zipInMemory items).symm ▸ h.settings
    · exact (settingsOf_concat_zipInMemory items).symm ▸ h.accepts

theorem operandsOf_concat_operand (items : List Item) (word : Bytes) :
    operandsOf (items ++ [.operand word]) = operandsOf items ++ [word] := by
  simp [operandsOf]

theorem operandsOf_concat_value (items : List Item) (s : Setting) (v : Bytes) :
    operandsOf (items ++ [.value s v]) = operandsOf items := by
  simp [operandsOf]

theorem consistent_concat_value_iff {s : Setting} {v : Bytes} :
    Consistent (items ++ [.value s v]) ↔
      Consistent items ∧ s ∉ (settingsOf items).map Prod.fst ∧ s.accepts v = true := by
  rw [consistent_concat_iff (.of_eq (settingsOf_concat_value items s v)) nofun, operandsOf_concat_value]
  exact ⟨fun ⟨h, _, hs⟩ => ⟨h, hs⟩, fun ⟨h, hs⟩ => ⟨h, h.operands, hs⟩⟩

theorem consistent_concat_operand_iff {word : Bytes} :
    Consistent (items ++ [.operand word]) ↔
      Consistent items ∧ ∃ s, Setting.ofOperand? (operandsOf items).length = some s ∧
        s ∉ (settingsOf items).map Prod.fst ∧ s.accepts word = true := by
  have hlength : (operandsOf (items ++ [.operand word])).length = (operandsOf items).length + 1 := by
    rw [operandsOf_concat_operand, List.length_append, List.length_singleton]
  constructor
  · intro h
    have hlt : (operandsOf items).length < 2 := by
      have := h.operands
      omega
    obtain ⟨s, hs⟩ := Setting.exists_ofOperand?_iff.2 hlt
    obtain ⟨hitems, -, hkeys⟩ :=
      (consistent_concat_iff (settingsOf_concat_operand hs word) nofun).1 h
    exact ⟨hitems, s, hs, hkeys⟩
  · rintro ⟨h, s, hs, hkeys⟩
    have hlt := Setting.exists_ofOperand?_iff.1 ⟨s, hs⟩
    exact (consistent_concat_iff (settingsOf_concat_operand hs word) nofun).2 ⟨h, by omega, hkeys⟩

theorem Consistent.of_append {more : List Item} (h : Consistent (items ++ more)) : Consistent items := by
  induction more using List.reverseRecOn with
  | nil => simpa using h
  | append_singleton more i ih =>
    rw [← List.append_assoc] at h
    cases i with
    | zipInMemory => exact ih (consistent_concat_zipInMemory_iff.1 h).1
    | value s v => exact ih (consistent_concat_value_iff.1 h).1
    | operand word => exact ih (consistent_concat_operand_iff.1 h).1

end

end PackageMigration.CommandLine
