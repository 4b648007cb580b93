import PackageMigration.Proofs.CommandLine.Words
/-
  A command line asks for what is written in it.

  * `Reading.Holds`: the items that have been read.

  Main statements: `Reading.Holds.item?` (one item), `Reading.Holds.reaches_line` and
  `Reading.Holds.exists_line` (all words), `parse?_modernSpellings`.
-/
namespace PackageMigration.CommandLine

namespace Reading

variable {r r' : Reading} {items : List Item}

/-- `r` is what has been read when the items were. -/
structure Holds (items : List Item) (r : Reading) : Prop extends Consistent items where
  given : r.given.Perm (settingsOf items)
  isInMemory : r.zipInMemory = true ↔ .zipInMemory ∈ items
  count : r.operands = (operandsOf items).length
  pending : r.pending = none

theorem holds_empty : Holds [] empty where
  operands := by decide
  settings := List.nodup_nil
  accepts := nofun
  zipInMemory := by decide
  given := .nil
  isInMemory := by decide
  count := rfl
  pending := rfl

theorem item?_operand_eq_ok_iff (hp : r.pending = none) {word : Bytes} :
    r.item? (.operand word) = .ok r' ↔
      ∃ s, Setting.ofOperand? r.operands = some s ∧ s ∉ r.given.map Prod.fst ∧
        s.accepts word = true ∧
        r' = { r with given := (s, word) :: r.given, operands := r.operands + 1 } := by
  obtain ⟨given, zipInMemory, pending, n, ended⟩ := r
  subst hp
  have hgive (s : Setting) (n' : Nat) :
      give? ⟨given, zipInMemory, none, n', ended⟩ s word = .ok r' ↔
        s ∉ given.map Prod.fst ∧ s.accepts word = true ∧
          r' = ⟨(s, word) :: given, zipInMemory, none, n', ended⟩ := give?_eq_ok_iff
  rcases n with _ | _ | n
  · refine (hgive .source 1).trans ⟨fun h => ⟨_, rfl, h⟩, ?_⟩
    rintro ⟨s, ⟨⟩, h⟩
    exact h
  · refine (hgive .destination 2).trans ⟨fun h => ⟨_, rfl, h⟩, ?_⟩
    rintro ⟨s, ⟨⟩, h⟩
    exact h
  · refine iff_of_false nofun ?_
    rintro ⟨s, hs, -⟩
    exact absurd (Setting.exists_ofOperand?_iff.1 ⟨s, hs⟩) (by simp)

/-- One more setting has a value. -/
theorem Holds.give (h : r.Holds items) {i : Item} {s : Setting} {v : Bytes} {n : Nat}
    (hperm : (settingsOf (items ++ [i])).Perm (settingsOf items ++ [(s, v)]))
    (hi : i ≠ .zipInMemory) (hn : n = (operandsOf (items ++ [i])).length)
    (hc : Consistent (items ++ [i])) :
    Holds (items ++ [i]) { r with given := (s, v) :: r.given, operands := n } where
  toConsistent := hc
  given := ((h.given.cons _).trans (List.perm_append_singleton _ _).symm).trans hperm.symm
  isInMemory := by
    rw [List.mem_append, List.mem_singleton, or_iff_left hi.symm]
    exact h.isInMemory
  count := hn
  pending := h.pending

/-- A reading of all the items, which ends in a value if they make sense. -/
def Reaches (items : List Item) (x : Except Refusal Reading) : Prop :=
  (Consistent items → ∃ r, x = .ok r) ∧ ∀ r, x = .ok r → r.Holds items

/-- **An item is read exactly if the items still make sense with it.** -/
theorem Holds.item? (h : r.Holds items) (i : Item) : Reaches (items ++ [i]) (r.item? i) := by
  have hkeys : ∀ s, s ∉ r.given.map Prod.fst ↔ s ∉ (settingsOf items).map Prod.fst := fun s =>
    not_congr (h.given.map Prod.fst).mem_iff
  cases i with
  | zipInMemory =>
    rw [Reading.item?]
    refine ⟨fun hc => ?_, fun r' hok => ?_⟩
    · have hz := mt h.isInMemory.1 (consistent_concat_zipInMemory_iff.1 hc).2
      exact ⟨_, if_neg hz⟩
    · split at hok
      · cases hok
      next hz =>
        cases hok
        have hc := consistent_concat_zipInMemory_iff.2 ⟨h.toConsistent, mt h.isInMemory.2 hz⟩
        exact ⟨hc, (settingsOf_concat_zipInMemory items).symm ▸ h.given, by simp,
          by simpa [operandsOf] using h.count, h.pending⟩
  | value s v =>
    refine ⟨fun hc => ?_, fun r' hok => ?_⟩
    · obtain ⟨-, hs, hv⟩ := consistent_concat_value_iff.1 hc
      exact ⟨_, give?_eq_ok_iff.2 ⟨(hkeys s).2 hs, hv, rfl⟩⟩
    · obtain ⟨hs, hv, rfl⟩ := give?_eq_ok_iff.1 hok
      have hc := consistent_concat_value_iff.2 ⟨h.toConsistent, (hkeys s).1 hs, hv⟩
      have hn := h.count.trans (congrArg List.length (operandsOf_concat_value items s v)).symm
      exact h.give (.of_eq (settingsOf_concat_value items s v)) (by simp) hn hc
  | operand word =>
    refine ⟨fun hc => ?_, fun r' hok => ?_⟩
    · obtain ⟨-, s, hplace, hs, hv⟩ := consistent_concat_operand_iff.1 hc
      exact ⟨_, (item?_operand_eq_ok_iff h.pending).2 ⟨s, h.count ▸ hplace, (hkeys s).2 hs, hv, rfl⟩⟩
    · obtain ⟨s, hplace, hs, hv, rfl⟩ := (item?_operand_eq_ok_iff h.pending).1 hok
      rw [h.count] at hplace
      have hc := consistent_concat_operand_iff.2 ⟨h.toConsistent, s, hplace, (hkeys s).1 hs, hv⟩
      have hn : r.operands + 1 = (operandsOf (items ++ [.operand word])).length := by
        rw [operandsOf_concat_operand, List.length_append, List.length_singleton, h.count]
      exact h.give (settingsOf_concat_operand hplace word) (by simp) hn hc

theorem optionsEnded_of_item? (hp : r.pending = none) {i : Item} (h : r.item? i = .ok r') :
    r'.optionsEnded = r.optionsEnded := by
  cases i with
  | zipInMemory =>
    rw [item?] at h
    split at h <;> cases h
    rfl
  | value s v =>
    obtain ⟨-, -, rfl⟩ := give?_eq_ok_iff.1 h
    rfl
  | operand word =>
    obtain ⟨s, -, -, -, rfl⟩ := (item?_operand_eq_ok_iff hp).1 h
    rfl

/-- After an item, the others. -/
theorem Holds.reaches_bind (h : r.Holds items) {i : Item} {more : List Item}
    {f : Reading → Except Refusal Reading}
    (hf : ∀ r', r'.Holds (items ++ [i]) → r'.optionsEnded = r.optionsEnded →
      Reaches (items ++ [i] ++ more) (f r')) :
    Reaches (items ++ i :: more) (r.item? i >>= f) := by
  rw [List.append_cons]
  have hnext {r' : Reading} (hr' : r.item? i = .ok r') : Reaches (items ++ [i] ++ more) (f r') :=
    hf r' ((h.item? i).2 r' hr') (optionsEnded_of_item? h.pending hr')
  refine ⟨fun hc => ?_, fun r'' hok => ?_⟩
  · obtain ⟨r', hr'⟩ := (h.item? i).1 hc.of_append
    rw [hr']
    exact (hnext hr').1 hc
  · obtain ⟨r', hr', hok⟩ := bind_eq_ok_iff.1 hok
    exact (hnext hr').2 r'' hok

/-! ## All words -/

theorem Holds.reaches_nil (h : r.Holds items) : Reaches (items ++ []) (r.finish? []) := by
  rw [finish?_nil, settle?_of_pending_eq_none h.pending, List.append_nil]
  exact ⟨fun _ => ⟨r, rfl⟩, fun r' hok => Except.ok.inj hok ▸ h⟩

/-- The words behind `--` are operands, all of them. -/
theorem Holds.reaches_operands (h : r.Holds items) (hended : r.optionsEnded = true)
    (words : List Bytes) : Reaches (items ++ words.map .operand) (r.finish? words) := by
  induction words generalizing r items with
  | nil => exact h.reaches_nil
  | cons word words ih =>
    rw [finish?_operand (word?_of_optionsEnded hended word), List.map_cons]
    exact h.reaches_bind fun r' h' hended' => ih h' (hended'.trans hended)

/-- **A command line is read as the items it is written with.** -/
theorem Holds.reaches_line {words rest : List Bytes} {more : List Item} (hl : Line words more rest)
    (h : r.Holds items) (hended : r.optionsEnded = false) :
    Reaches (items ++ (more ++ (modernSpellings rest).map .operand))
      (r.finish? (modernSpellings words)) := by
  have hready {r : Reading} {items : List Item} (h : r.Holds items) (hended : r.optionsEnded = false) :
      r.Ready := ⟨h.pending, hended⟩
  induction hl generalizing r items with
  | done => exact h.reaches_nil
  | ended rest =>
    have hword : modernSpelling (bytes "--") = bytes "--" := by decide +kernel
    rw [modernSpellings_cons, hword, finish?_cons, word?_hyphens hended]
    have h' : Holds items { r with optionsEnded := true } :=
      ⟨h.toConsistent, h.given, h.isInMemory, h.count, h.pending⟩
    exact h'.reaches_operands rfl _
  | option hs _ ih =>
    rw [modernSpellings_cons, finish?_cons, (hready h hended).word?_spells hs]
    exact h.reaches_bind fun r' h' hended' => ih h' (hended'.trans hended)
  | optionThenValue hs hv _ ih =>
    rw [(hready h hended).finish?_value hs hv]
    exact h.reaches_bind fun r' h' hended' => ih h' (hended'.trans hended)
  | @operand word words _ _ hw _ ih =>
    have hword : r.word? word = r.operand? word := by
      rw [word?_of_not_isOption hended hw, h.pending]
    rw [modernSpellings_cons, modernSpelling_of_not_isOption hw, finish?_operand hword]
    exact h.reaches_bind fun r' h' hended' => ih h' (hended'.trans hended)

/-- Words that make sense are a command line. -/
theorem Holds.exists_line {words : List Bytes} (h : r.Holds items) (hended : r.optionsEnded = false)
    (hok : r.finish? (modernSpellings words) = .ok r') : ∃ more rest, Line words more rest := by
  induction hn : words.length using Nat.strongRecOn generalizing words r items with
  | _ n ih =>
    have hready : r.Ready := ⟨h.pending, hended⟩
    subst hn
    -- once an item is read, what follows is shorter
    have hnext {i : Item} {more : List Bytes} (hlt : more.length < words.length)
        (hok : (r.item? i >>= fun r => r.finish? (modernSpellings more)) = .ok r') :
        ∃ items rest, Line more items rest := by
      obtain ⟨r₁, hr₁, hok⟩ := bind_eq_ok_iff.1 hok
      exact ih _ hlt ((h.item? i).2 r₁ hr₁) ((optionsEnded_of_item? h.pending hr₁).trans hended) hok rfl
    rcases words with _ | ⟨word, words⟩
    · exact ⟨[], [], .done⟩
    rw [modernSpellings_cons, finish?_cons] at hok
    obtain ⟨r₁, hr₁, hok₁⟩ := bind_eq_ok_iff.1 hok
    rcases hready.word?_cases hr₁ with rfl | ⟨i, hs⟩ | ⟨name, s, rfl, hs⟩ | hw
    · exact ⟨[], words, .ended words⟩
    · rw [hready.word?_spells hs] at hok
      obtain ⟨items, rest, hl⟩ := hnext (Nat.lt_succ_self _) hok
      exact ⟨_, _, .option hs hl⟩
    · rw [hready.word?_name hs] at hr₁
      cases hr₁
      obtain ⟨v, more, rfl, hv⟩ := exists_value_of_pending hok₁ rfl hended
      rw [← finish?_cons, ← modernSpellings_cons, hready.finish?_value hs hv] at hok
      obtain ⟨items, rest, hl⟩ := hnext (by simp only [List.length_cons]; omega) hok
      exact ⟨_, _, .optionThenValue hs hv hl⟩
    · have hword : r.word? word = r.operand? word := by
        rw [word?_of_not_isOption hended hw, h.pending]
      rw [← finish?_cons, modernSpelling_of_not_isOption hw, finish?_operand hword] at hok
      obtain ⟨items, rest, hl⟩ := hnext (Nat.lt_succ_self _) hok
      exact ⟨_, _, .operand hw hl⟩

end Reading

/-! ## What the words ask for -/

theorem parse?_eq_bind_finish? (words : List Bytes) :
    parse? words = Reading.empty.finish? words >>= Reading.arguments? := by
  rw [parse?, Reading.finish?, bind_assoc]

theorem exists_ofOption?_of_spells {word : Bytes} {i : Item} (h : Spells word i) {s : Setting} {v : Bytes}
    (hi : i = .value s v) : ∃ name, Setting.ofOption? name = some s := by
  induction h with
  | zipInMemory => cases hi
  | value h v =>
    cases hi
    exact ⟨_, h⟩
  | respelled _ _ ih => exact ih hi

/-- Options are not for the source or the destination. -/
theorem ne_of_ofOption? {name : Bytes} {s : Setting} (h : Setting.ofOption? name = some s) :
    s ≠ .source ∧ s ≠ .destination := by
  unfold Setting.ofOption? at h
  split at h
  · cases h; decide
  split at h
  · cases h; decide
  split at h
  · cases h; decide
  · cases h

theorem Line.ne_of_value_mem {words rest : List Bytes} {items : List Item} (h : Line words items rest)
    {s : Setting} {v : Bytes} (hv : .value s v ∈ items) : s ≠ .source ∧ s ≠ .destination := by
  induction h with
  | done => cases hv
  | ended => cases hv
  | option hs _ ih =>
    rcases List.mem_cons.1 hv with hi | hv
    · obtain ⟨name, hname⟩ := exists_ofOption?_of_spells hs hi.symm
      exact ne_of_ofOption? hname
    · exact ih hv
  | optionThenValue hs _ _ ih =>
    rcases List.mem_cons.1 hv with hi | hv
    · cases hi
      exact ne_of_ofOption? hs
    · exact ih hv
  | operand _ _ ih =>
    rcases List.mem_cons.1 hv with hi | hv
    · cases hi
    · exact ih hv

section
variable {items : List Item} (hitems : ∀ s v, .value s v ∈ items → s ≠ .source ∧ s ≠ .destination)
include hitems

/-- The paths are the operands, since options are for something else. -/
theorem lookup_path (s : Setting) (hs : s = .source ∨ s = .destination) :
    (settingsOf items).lookup s = ([Setting.source, .destination].zip (operandsOf items)).lookup s := by
  rw [settingsOf, List.lookup_append, Option.or_eq_left_of_none]
  rw [List.lookup_eq_none_iff]
  intro p hp
  obtain ⟨i, hi, hip⟩ := List.mem_filterMap.1 hp
  split at hip
  next s' v =>
    cases hip
    have := hitems s' v hi
    rcases hs with rfl | rfl <;> simp [this.1.symm, this.2.symm]
  · cases hip

/-- What was read asks for what the items ask for. -/
theorem Reading.Holds.arguments?_eq_ok_iff {r : Reading} (h : r.Holds items) {a : Arguments} :
    r.arguments? = .ok a ↔ Asks items a := by
  have hnodup : (r.given.map Prod.fst).Nodup := (h.given.map Prod.fst).nodup_iff.2 h.settings
  have hlookup : ∀ s, r.given.lookup s = (settingsOf items).lookup s :=
    lookup_eq_of_perm hnodup h.given
  have hlength := h.operands
  have hasks (source destination : Bytes) (hops : operandsOf items = [source, destination]) :
      Asks items a ↔ a =
        { profile := (((settingsOf items).lookup .profile).bind fun v =>
            Profile.ofName? (Text.ofBytes v)).getD .default
          zipInMemory := r.zipInMemory
          logLevel := ((settingsOf items).lookup .logLevel).getD (bytes "INFO")
          rules := (settingsOf items).lookup .rules
          source
          destination } := by
    rw [Arguments.mk.injEq]
    constructor
    · intro ha
      obtain ⟨rfl, rfl⟩ : a.source = source ∧ a.destination = destination := by
        simpa [hops, eq_comm] using ha.paths
      exact ⟨ha.profile, Bool.eq_iff_iff.2 (ha.isInMemory.trans h.isInMemory.symm), ha.logLevel,
        ha.rules, rfl, rfl⟩
    · rintro ⟨hprofile, hz, hlogLevel, hrules, rfl, rfl⟩
      exact ⟨h.toConsistent, hops, hprofile, hlogLevel, hrules, hz ▸ h.isInMemory⟩
  rw [arguments?, hlookup, hlookup, hlookup, hlookup, hlookup, lookup_path hitems _ (.inl rfl),
    lookup_path hitems _ (.inr rfl)]
  rcases hops : operandsOf items with _ | ⟨source, _ | ⟨destination, _ | ⟨word, words⟩⟩⟩
  · exact iff_of_false nofun fun ha => by simpa [hops] using ha.paths
  · exact iff_of_false nofun fun ha => by simpa [hops] using ha.paths
  · rw [hasks source destination hops]
    exact ⟨fun hok => (Except.ok.inj hok).symm, fun ha => congrArg _ ha.symm⟩
  · simp [hops] at hlength

end

theorem Line.parse?_eq_ok_iff {words rest : List Bytes} {items : List Item} (hl : Line words items rest)
    {a : Arguments} :
    parse? (modernSpellings words) = .ok a ↔ Asks (items ++ (modernSpellings rest).map .operand) a := by
  have hreaches := Reading.holds_empty.reaches_line hl rfl
  have hitems : ∀ s v, .value s v ∈ items ++ (modernSpellings rest).map .operand →
      s ≠ .source ∧ s ≠ .destination := by
    intro s v hv
    rcases List.mem_append.1 hv with hv | hv
    · exact hl.ne_of_value_mem hv
    · obtain ⟨word, -, hword⟩ := List.mem_map.1 hv
      cases hword
  rw [List.nil_append] at hreaches
  rw [parse?_eq_bind_finish?, bind_eq_ok_iff]
  constructor
  · rintro ⟨r, hr, ha⟩
    exact ((hreaches.2 r hr).arguments?_eq_ok_iff hitems).1 ha
  · intro ha
    obtain ⟨r, hr⟩ := hreaches.1 ha.toConsistent
    exact ⟨r, hr, ((hreaches.2 r hr).arguments?_eq_ok_iff hitems).2 ha⟩

theorem modernSpellings_eq_self_iff {words : List Bytes} :
    modernSpellings words = words ↔ ∀ word ∈ words, ∀ new, ¬ Respelled word new := by
  conv_lhs => rhs; rw [← List.map_id words]
  rw [modernSpellings, List.map_inj_left]
  simp only [id, modernSpelling_eq_self_iff]

/-- A historical spelling is as good as the current one. -/
theorem modernSpellings_respelled {old new : Bytes} (h : Respelled old new) (before after : List Bytes) :
    modernSpellings (before ++ old :: after) = modernSpellings (before ++ new :: after) := by
  rw [modernSpellings, List.map_append, List.map_cons, modernSpelling_of_respelled h, modernSpellings,
    List.map_append, List.map_cons, h.modernSpelling_new]

/-- **What a command line asks for**: what is written in it, in the current spelling of options or
the historical one, and the words behind the first `--`. These are operands, but one with the
historical spelling of an option is not taken as it was typed. -/
theorem parse?_modernSpellings (words : List Bytes) :
    (∀ a, parse? (modernSpellings words) = .ok a ↔
      ∃ items rest, Line words items rest ∧ Asks (items ++ (modernSpellings rest).map .operand) a) ∧
    (∀ items rest a, Line words items rest → parse? (modernSpellings words) = .ok a →
      (operandsOf (items ++ rest.map .operand) = [a.source, a.destination] ↔
        ∀ word ∈ rest, ∀ new, ¬ Respelled word new)) ∧
    ∀ before old new after, words = before ++ old :: after → Respelled old new →
      parse? (modernSpellings words) = parse? (modernSpellings (before ++ new :: after)) := by
  refine ⟨fun a => ⟨fun hok => ?_, ?_⟩, fun items rest a hl hok => ?_, ?_⟩
  · obtain ⟨r, hr, -⟩ := bind_eq_ok_iff.1 (parse?_eq_bind_finish? _ ▸ hok)
    obtain ⟨items, rest, hl⟩ := Reading.holds_empty.exists_line rfl hr
    exact ⟨items, rest, hl, hl.parse?_eq_ok_iff.1 hok⟩
  · rintro ⟨items, rest, hl, ha⟩
    exact hl.parse?_eq_ok_iff.2 ha
  · rw [← modernSpellings_eq_self_iff, ← (hl.parse?_eq_ok_iff.1 hok).paths, operandsOf_append,
      operandsOf_append, operandsOf_map_operand, operandsOf_map_operand, List.append_cancel_left_eq,
      eq_comm]
  · rintro before old new after rfl h
    rw [modernSpellings_respelled h]

example : parse? (modernSpellings
    [bytes "-logLevel=FINE", bytes "in.jar", bytes "-profile=EE", bytes "out"]) =
    .ok ⟨.ee, false, bytes "FINE", none, bytes "in.jar", bytes "out"⟩ := by decide +kernel

/-- A path behind `--` that is spelled like an option of old is not the one that was typed. -/
theorem parse?_modernSpellings_ne_typed :
    ¬ ∀ front rest a, bytes "--" ∉ front →
      parse? (modernSpellings (front ++ bytes "--" :: rest)) = .ok a →
        ∀ word ∈ rest, word = a.source ∨ word = a.destination := by
  intro h
  have hok : parse? (modernSpellings ([] ++ bytes "--" :: [bytes "-zipInMemory", bytes "out.txt"])) =
      .ok ⟨.tomcat, false, bytes "INFO", none, bytes "--zip-in-memory", bytes "out.txt"⟩ := by
    decide +kernel
  exact absurd (h [] _ _ List.not_mem_nil hok (bytes "-zipInMemory") List.mem_cons_self)
    (by decide +kernel)

end PackageMigration.CommandLine
