import Mathlib.Data.List.TakeWhile
import PackageMigration.Proofs.Mapping.Order
import PackageMigration.Proofs.Mapping.Text
/-
  Names that are a text of their own: replaced as a text and looked up as a name.

  * `Chain.joined`: the chain of segments that are joined by one separator.
  * `OpensDescriptor`: a segment that can also be read as the start of a descriptor.
  * `Chain.textJoint`, `Table.nameJoint`: the separators that the target is given.
  * `Table.replaced`: a name with the segments of a match replaced.

  Main statements: `convertText?_joined`, `resolve?_joined` (both find the same match),
  `convertText?_eq_resolve?_iff` (where both join the target alike).
-/
namespace PackageMigration

/-- The segment can be primitive codes and an `L` in front of a name. -/
def OpensDescriptor (s : Bytes) : Prop :=
  ∃ codes name, s = codes ++ classCode :: name ∧ (∀ b ∈ codes, isPrimitiveCode b) ∧ name ≠ []

theorem not_opensDescriptor_of_head {b : UInt8} (hcode : ¬ isPrimitiveCode b) (hclass : b ≠ classCode)
    (s : Bytes) : ¬ OpensDescriptor (b :: s) := by
  rintro ⟨codes, name, h, hcodes, -⟩
  cases codes with
  | nil => exact hclass (List.cons.inj h).1
  | cons c codes => exact hcode ((List.cons.inj h).1 ▸ hcodes c List.mem_cons_self)

namespace Chain

/-- The chain of segments that are joined by one separator. -/
def joined (sep : UInt8) (s : Bytes) (ss : List Bytes) : Chain := ⟨s, ss.map (sep, ·)⟩

variable {t : Table} {sep : UInt8} {s : Bytes} {ss : List Bytes}

theorem bytes_joined (sep : UInt8) (s : Bytes) (ss : List Bytes) :
    (joined sep s ss).bytes = [sep].intercalate (s :: ss) :=
  (intercalate_eq_append_runBytes sep s ss).symm

theorem isProper_joined (hsep : isSeparator sep) (hs : ∀ p ∈ s :: ss, Name.IsSegment p) :
    (joined sep s ss).IsProper := by
  obtain ⟨hs, hss⟩ := List.forall_mem_cons.1 hs
  refine ⟨hs, fun p hp => ?_⟩
  obtain ⟨q, hq, rfl⟩ := List.mem_map.1 hp
  exact ⟨hsep, hss q hq⟩

/-- A chain that is a text of its own. -/
theorem IsProper.convert?_bytes {c : Chain} (hc : c.IsProper) (t : Table) :
    t.convert? c.bytes = c.convert? t := by
  have hpieces : pieces c.bytes = [.name c] := by
    have hproper : Proper [.name c] := .name hc trivial .nil
    have h := pieces_flatMap_bytes hproper
    rwa [List.flatMap_singleton] at h
  rw [Table.convert?, hpieces]
  cases h : c.convert? t with
  | none => simp [Piece.convert?, h]
  | some new => simp [Piece.convert?, Piece.converted, h]

theorem IsProper.convertText?_bytes {c : Chain} (hc : c.IsProper) (t : Table) :
    t.convertText? c.bytes = c.convert? t := by
  rw [Table.convertText?_of_isText hc.isAscii.isText, hc.convert?_bytes]

/-- A mapped name starts where the chain does, if no descriptor can. -/
theorem candidate?_of_not_opensDescriptor {c : Chain} (h : ¬ OpensDescriptor c.first) :
    c.candidate? t = if t.isRoot c.first then some ⟨[], c.first, none⟩ else none := by
  refine Option.ext fun d => ?_
  rw [candidate?_eq_some_iff]
  obtain ⟨codes, root, fixed⟩ := d
  constructor
  · intro hd
    cases hd with
    | plain hroot => rw [if_pos hroot]
    | descriptor _ hfirst hcodes hroot =>
      exact absurd ⟨_, root, hfirst, hcodes, Table.ne_nil_of_isRoot hroot⟩ h
  · intro hd
    split at hd
    next hroot => cases hd; exact .plain hroot
    · cases hd

/-- The separator that a text is given for the target: the one behind the first segment, if the table
looks there. -/
def textJoint (t : Table) (sep : UInt8) (ss : List Bytes) : UInt8 :=
  if 2 ≤ t.depth ∧ ss ≠ [] then sep else Byte.dot

theorem getD_separator?_joined (t : Table) (sep : UInt8) (s : Bytes) (ss : List Bytes) :
    ((joined sep s ss).separator? t ⟨[], s, none⟩).getD Byte.dot = textJoint t sep ss := by
  unfold separator? textJoint joined
  by_cases h : 2 ≤ t.depth <;> cases ss <;> simp [h]

/-- A candidate goes on over all segments that are joined by one separator. -/
theorem longestMatch?_candidateSegments_joined (hsep : isSeparator sep)
    (hs : ∀ p ∈ s :: ss, Name.IsSegment p) (hd : (joined sep s ss).candidate? t = some ⟨[], s, none⟩) :
    t.longestMatch? ((joined sep s ss).candidateSegments t ⟨[], s, none⟩) =
      t.longestMatch? (s :: ss) := by
  have hsame : (sameJoint none (joined sep s ss).rest).map Prod.snd = ss := by
    have hall : ∀ p ∈ ss.map (sep, ·), isJoined none (ss.map (sep, ·)) p := by
      intro p hp
      obtain ⟨q, -, rfl⟩ := List.mem_map.1 hp
      cases ss with
      | nil => cases hp
      | cons => simp [isJoined]
    rw [sameJoint, joined, List.takeWhile_eq_self_iff.2 hall, List.map_map]
    exact List.map_id _
  refine Option.ext fun m => ?_
  simp only [Table.longestMatch?_eq_some_iff, longest_candidateSegments_iff (isProper_joined hsep hs) hd,
    hsame]

end Chain

namespace Table

variable {t : Table} {sep : UInt8} {s : Bytes} {ss : List Bytes}

/-- The segments of a name with those that a match covers replaced, joined by `j` in the target and by
`sep` behind it. -/
def replaced (j sep : UInt8) (ss : List Bytes) (m : Match) : Bytes :=
  [j].intercalate (Name.segments m.target) ++ runBytes ((ss.drop (m.count - 1)).map (sep, ·))

/-- **A name that is a text of its own is replaced by its longest match.** -/
theorem convertText?_joined (hsep : isSeparator sep) (hs : ∀ p ∈ s :: ss, Name.IsSegment p)
    (hstart : ¬ OpensDescriptor s) :
    t.convertText? ([sep].intercalate (s :: ss)) =
      (t.longestMatch? (s :: ss)).map (replaced (Chain.textJoint t sep ss) sep ss) := by
  have hc := Chain.isProper_joined hsep hs
  have hcand : (Chain.joined sep s ss).candidate? t = if t.isRoot s then some ⟨[], s, none⟩ else none :=
    Chain.candidate?_of_not_opensDescriptor hstart
  rw [← Chain.bytes_joined, hc.convertText?_bytes, Chain.convert?, hcand]
  split
  next hroot =>
    rw [if_pos hroot] at hcand
    rw [Option.bind_eq_bind, Option.bind_some]
    rw [Chain.longestMatch?_candidateSegments_joined hsep hs hcand, Chain.getD_separator?_joined]
    cases t.longestMatch? (s :: ss) with
    | none => rfl
    | some m => simp [replaced, Chain.joined]
  next hroot =>
    have hnone : t.longestMatch? (s :: ss) = none := by
      rw [Option.eq_none_iff_forall_ne_some]
      intro m hm
      obtain ⟨r, hl, -, -⟩ := longestMatch?_eq_some_iff.1 hm
      exact hroot (hl.isRoot hs)
    rw [hnone]
    rfl

/-- The separator that a name is taken to have when it is looked up. -/
def nameJoint (sep : UInt8) (ss : List Bytes) : UInt8 := if ss = [] then Byte.dot else sep

theorem intercalate_nameJoint (sep : UInt8) (s : Bytes) (ss : List Bytes) :
    [nameJoint sep ss].intercalate (s :: ss) = [sep].intercalate (s :: ss) := by
  cases ss with
  | nil => rfl
  | cons p ss => rw [nameJoint, if_neg (List.cons_ne_nil p ss)]

/-- The separator of a name is found by looking for a slash. -/
theorem nameJoint_eq (hsep : isSeparator sep) (hs : ∀ p ∈ s :: ss, Name.IsSegment p) :
    (if Byte.slash ∈ [sep].intercalate (s :: ss) then Byte.slash else Byte.dot) = nameJoint sep ss := by
  obtain ⟨hs, hss⟩ := List.forall_mem_cons.1 hs
  have hmem : Byte.slash ∈ [sep].intercalate (s :: ss) ↔ sep = Byte.slash ∧ ss ≠ [] := by
    rw [intercalate_eq_append_runBytes, List.mem_append, runBytes, List.flatMap_map, List.mem_flatMap]
    constructor
    · rintro (hm | ⟨p, hp, hm⟩)
      · exact absurd hm (hs.notMem (by decide))
      · rcases List.mem_cons.1 hm with h | hm
        · exact ⟨h.symm, List.ne_nil_of_mem hp⟩
        · exact absurd hm ((hss p hp).notMem (by decide))
    · rintro ⟨rfl, hne⟩
      obtain ⟨p, ss, rfl⟩ := List.exists_cons_of_ne_nil hne
      exact .inr ⟨p, List.mem_cons_self, List.mem_cons_self⟩
  simp only [hmem, nameJoint]
  simp only [isSeparator, Bool.or_eq_true, beq_iff_eq] at hsep
  rcases hsep with rfl | rfl
  · simp [show ¬ Byte.dot = Byte.slash by decide]
  · cases ss <;> simp

theorem intercalate_append {j : UInt8} {ps : List Bytes} (hps : ps ≠ []) (qs : List Bytes) :
    [j].intercalate (ps ++ qs) = [j].intercalate ps ++ runBytes (qs.map (j, ·)) := by
  obtain ⟨p, ps, rfl⟩ := List.exists_cons_of_ne_nil hps
  rw [List.cons_append, intercalate_eq_append_runBytes, intercalate_eq_append_runBytes, List.map_append,
    Chain.runBytes_append, List.append_assoc]

/-- **A name that is looked up is replaced by its longest match.** -/
theorem resolve?_joined (hsep : isSeparator sep) (hs : ∀ p ∈ s :: ss, Name.IsSegment p) :
    t.resolve? ([sep].intercalate (s :: ss)) =
      (t.longestMatch? (s :: ss)).map (replaced (nameJoint sep ss) sep ss) := by
  have hsplit : Bytes.splitOn (nameJoint sep ss) ([sep].intercalate (s :: ss)) = s :: ss := by
    have hjoint : isSeparator (nameJoint sep ss) := by
      unfold nameJoint
      split
      · decide
      · exact hsep
    rw [← intercalate_nameJoint]
    exact Bytes.splitOn_intercalate (List.cons_ne_nil s ss) fun p hp =>
      (hs p hp).notMem (isIdent_of_isSeparator hjoint)
  have hbehind : ∀ k, runBytes ((ss.drop k).map (nameJoint sep ss, ·)) =
      runBytes ((ss.drop k).map (sep, ·)) := by
    intro k
    cases ss with
    | nil => simp
    | cons p ss => rw [nameJoint, if_neg (List.cons_ne_nil p ss)]
  unfold resolve?
  dsimp only
  rw [nameJoint_eq hsep hs, hsplit]
  cases hm : t.longestMatch? (s :: ss) with
  | none => rfl
  | some m =>
    obtain ⟨r, hl, -, -⟩ := longestMatch?_eq_some_iff.1 hm
    obtain ⟨k, hk⟩ := Nat.exists_eq_add_one_of_ne_zero (Nat.ne_of_gt hl.covers.1)
    rw [Option.map_some, Option.map_some, replaced, hk, Nat.add_sub_cancel, List.drop_succ_cons,
      intercalate_append (show Name.segments m.target ≠ [] from Bytes.splitOn_ne_nil _ _), hbehind]

/-- The separator does not show in one segment alone. -/
theorem intercalate_eq_intercalate_iff {i j : UInt8} {ps : List Bytes} (hps : ps ≠ []) :
    [i].intercalate ps = [j].intercalate ps ↔ i = j ∨ ps.length = 1 := by
  obtain ⟨p, ps, rfl⟩ := List.exists_cons_of_ne_nil hps
  cases ps with
  | nil => simp
  | cons q ps => simp +contextual [List.intercalate_cons_cons]

theorem replaced_eq_replaced_iff {i j : UInt8} {m : Match} :
    replaced i sep ss m = replaced j sep ss m ↔ i = j ∨ (Name.segments m.target).length = 1 := by
  rw [replaced, replaced, List.append_left_inj]
  exact intercalate_eq_intercalate_iff (Bytes.splitOn_ne_nil _ _)

theorem textJoint_eq_nameJoint_iff :
    Chain.textJoint t sep ss = nameJoint sep ss ↔ 2 ≤ t.depth ∨ sep = Byte.dot ∨ ss = [] := by
  unfold Chain.textJoint nameJoint
  by_cases hss : ss = []
  · simp [hss]
  · by_cases hdepth : 2 ≤ t.depth
    · simp [hss, hdepth]
    · simp [hss, hdepth, @eq_comm _ sep]

/-- A table whose sources have one segment each matches the first segment of a name. -/
theorem longestMatch?_eq_some_iff_of_depth_le {m : Match} (hdepth : t.depth ≤ 1)
    (hs : ∀ p ∈ s :: ss, Name.IsSegment p) :
    t.longestMatch? (s :: ss) = some m ↔
      ∃ r ∈ t.rules, r.source = s ∧ r.source ≠ r.target ∧ m = ⟨1, r.target⟩ := by
  have hcovers : ∀ r ∈ t.rules, ∀ n, r.Covers (s :: ss) n ↔ n = 1 ∧ r.source = s := by
    intro r hr n
    constructor
    · intro hc
      have hle := hc.depth_eq hs ▸ Table.depth_le hr
      obtain rfl : n = 1 := Nat.le_antisymm (Nat.le_trans hle hdepth) hc.1
      exact ⟨rfl, hc.2.2.symm.trans (by simp [Name.dotted])⟩
    · rintro ⟨rfl, rfl⟩
      exact ⟨Nat.one_pos, by simp, by simp [Name.dotted]⟩
  rw [longestMatch?_eq_some_iff]
  constructor
  · rintro ⟨r, hl, hne, htarget⟩
    obtain ⟨hcount, hsource⟩ := (hcovers r hl.mem _).1 hl.covers
    exact ⟨r, hl.mem, hsource, hne, by rw [htarget, ← hcount]⟩
  · rintro ⟨r, hr, hsource, hne, rfl⟩
    refine ⟨r, ⟨hr, (hcovers r hr _).2 ⟨rfl, hsource⟩, fun r' hr' n' hc => ?_⟩, hne, rfl⟩
    exact Nat.le_of_eq ((hcovers r' hr' n').1 hc).1

/-- **Where replacing a name as a text and looking it up agree.** They find the same match. They join
its target alike unless all sources have one segment, since then a text's separator is never looked
at: a target of more segments gets full stops in a name with slashes. -/
theorem convertText?_eq_resolve?_iff (hsep : isSeparator sep) (hs : ∀ p ∈ s :: ss, Name.IsSegment p)
    (hstart : ¬ OpensDescriptor s) :
    (t.convertText? ([sep].intercalate (s :: ss)) = none ↔
      t.resolve? ([sep].intercalate (s :: ss)) = none) ∧
    (t.convertText? ([sep].intercalate (s :: ss)) = t.resolve? ([sep].intercalate (s :: ss)) ↔
      2 ≤ t.depth ∨ sep = Byte.dot ∨ ss = [] ∨
        ∀ r ∈ t.rules, r.source = s → r.source ≠ r.target → (Name.segments r.target).length = 1) := by
  rw [convertText?_joined hsep hs hstart, resolve?_joined hsep hs]
  refine ⟨by simp, ?_⟩
  have hmap : (t.longestMatch? (s :: ss)).map (replaced (Chain.textJoint t sep ss) sep ss) =
      (t.longestMatch? (s :: ss)).map (replaced (nameJoint sep ss) sep ss) ↔
      ∀ m, t.longestMatch? (s :: ss) = some m →
        Chain.textJoint t sep ss = nameJoint sep ss ∨ (Name.segments m.target).length = 1 := by
    cases t.longestMatch? (s :: ss) with
    | none => simp
    | some m => simp [replaced_eq_replaced_iff]
  rw [hmap, ← or_assoc, ← or_assoc, or_assoc (a := 2 ≤ t.depth), ← textJoint_eq_nameJoint_iff]
  by_cases hjoint : Chain.textJoint t sep ss = nameJoint sep ss
  · simp [hjoint]
  have hdepth : t.depth ≤ 1 := by
    rw [textJoint_eq_nameJoint_iff] at hjoint
    omega
  simp only [hjoint, false_or, longestMatch?_eq_some_iff_of_depth_le hdepth hs]
  constructor
  · intro h r hr hsource hne
    exact h _ ⟨r, hr, hsource, hne, rfl⟩
  · rintro h _ ⟨r, hr, hsource, hne, rfl⟩
    exact h r hr hsource hne

theorem convertText?_eq_resolve?_profile :
    let table := Profile.tomcat.table
    let name := [Byte.slash].intercalate [bytes "javax", bytes "el", bytes "A"]
    2 ≤ table.depth ∧ (table.convertText? name = none ↔ table.resolve? name = none) ∧
      table.convertText? name = table.resolve? name ∧
      table.resolve? name = some (bytes "jakarta/el/A") := by
  intro table name
  have hdepth : 2 ≤ table.depth := by
    show 2 ≤ Profile.tomcat.table.depth
    rw [Profile.table_eq_orderedTable]
    decide +kernel
  have hsegments : ∀ p ∈ bytes "javax" :: [bytes "el", bytes "A"], Name.IsSegment p := by decide +kernel
  obtain ⟨hnone, hsame⟩ := convertText?_eq_resolve?_iff (t := table) (show isSeparator Byte.slash by decide)
    hsegments (not_opensDescriptor_of_head (by decide) (by decide) _)
  refine ⟨hdepth, hnone, hsame.2 (.inl hdepth), ?_⟩
  show Profile.tomcat.table.resolve? name = _
  rw [Profile.table_eq_orderedTable]
  decide +kernel

/-- A table whose only source is shorter than its target. -/
def wideningTable : Table where
  rules := [⟨bytes "a", bytes "x.y"⟩]
  roots := [bytes "a"]
  depth := 1
  nonempty := by decide
  qualified := by decide +kernel
  distinct := by decide
  roots_eq := by decide
  depth_eq := by decide

/-- In a text the target does not keep the separator of a name if all sources have one segment. -/
theorem convertText?_ne_resolve?_widening :
    let name := [Byte.slash].intercalate [bytes "a", bytes "b"]
    (∀ p ∈ [bytes "a", bytes "b"], Name.IsSegment p) ∧ ¬ OpensDescriptor (bytes "a") ∧
      wideningTable.convertText? name = some (bytes "x.y/b") ∧
      wideningTable.resolve? name = some (bytes "x/y/b") := by
  refine ⟨by decide +kernel, not_opensDescriptor_of_head (by decide) (by decide) _, ?_, ?_⟩
  · decide +kernel
  · decide +kernel

end Table

end PackageMigration
