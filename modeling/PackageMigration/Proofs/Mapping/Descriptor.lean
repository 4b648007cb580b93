import PackageMigration.Proofs.Mapping.Agreement
/-
  Descriptors: how class files spell the types of fields and methods.

  * `ClassName`: a name in a class file; `ClassName.moved?`: where a table moves it.
  * `FieldType`, `Descriptor`: types and their spelling, with the names spelled in any way.
  * `RewrittenBehindCodes`: what becomes of a text behind primitive codes.

  Main statement: `convert?_descriptor` (a descriptor is replaced name by name).
-/
namespace PackageMigration

/-! ## Names of classes -/

/-- A name in a class file: segments that slashes join. -/
structure ClassName where
  first : Bytes
  rest : List Bytes
  isSegment : ∀ s ∈ first :: rest, Name.IsSegment s

namespace ClassName

def bytes (n : ClassName) : Bytes := [Byte.slash].intercalate (n.first :: n.rest)

/-- The name with slashes for full stops. -/
def slashed (name : Bytes) : Bytes := name.map fun b => if b = Byte.dot then Byte.slash else b

/-- What looking the name up gives, spelled with slashes. -/
def moved? (t : Table) (n : ClassName) : Option Bytes := (t.resolve? n.bytes).map slashed

/-- The name after it moved, if it does. -/
def moved (t : Table) (n : ClassName) : Bytes := (n.moved? t).getD n.bytes

theorem slashed_of_isSegment {s : Bytes} (h : Name.IsSegment s) : slashed s = s := by
  refine (List.map_congr_left fun b hb => ?_).trans (List.map_id s)
  have hdot : b ≠ Byte.dot := fun he => h.notMem (by decide) (he ▸ hb)
  rw [if_neg hdot, id]

theorem slashed_runBytes {j : UInt8} (hj : isSeparator j) {ss : List Bytes}
    (h : ∀ s ∈ ss, Name.IsSegment s) :
    slashed (runBytes (ss.map (j, ·))) = runBytes (ss.map (Byte.slash, ·)) := by
  induction ss with
  | nil => rfl
  | cons s ss ih =>
    obtain ⟨hs, hss⟩ := List.forall_mem_cons.1 h
    have hcons : ∀ i : UInt8,
        runBytes ((s :: ss).map (i, ·)) = i :: (s ++ runBytes (ss.map (i, ·))) := fun i => by
      simp [runBytes]
    have hslash : (if j = Byte.dot then Byte.slash else j) = Byte.slash := by
      simp only [isSeparator, Bool.or_eq_true, beq_iff_eq] at hj
      rcases hj with rfl | rfl <;> rfl
    rw [hcons, hcons, slashed, List.map_cons, List.map_append, hslash]
    exact congrArg (List.cons Byte.slash) (congrArg₂ _ (slashed_of_isSegment hs) (ih hss))

theorem slashed_intercalate {j : UInt8} (hj : isSeparator j) {s : Bytes} {ss : List Bytes}
    (h : ∀ p ∈ s :: ss, Name.IsSegment p) :
    slashed ([j].intercalate (s :: ss)) = [Byte.slash].intercalate (s :: ss) := by
  obtain ⟨hs, hss⟩ := List.forall_mem_cons.1 h
  rw [intercalate_eq_append_runBytes, intercalate_eq_append_runBytes, slashed, List.map_append]
  exact congrArg₂ _ (slashed_of_isSegment hs) (slashed_runBytes hj hss)

/-- What a match makes of a name with slashes, whatever joins the target. -/
theorem slashed_replaced {t : Table} {j : UInt8} (hj : isSeparator j) {segments ss : List Bytes}
    (hss : ∀ s ∈ ss, Name.IsSegment s) {m : Table.Match} (hm : t.longestMatch? segments = some m) :
    slashed (Table.replaced j Byte.slash ss m) = Table.replaced Byte.slash Byte.slash ss m := by
  obtain ⟨r, hl, -, htarget⟩ := Table.longestMatch?_eq_some_iff.1 hm
  obtain ⟨p, ps, hps⟩ := List.exists_cons_of_ne_nil (Bytes.splitOn_ne_nil Byte.dot m.target)
  have hps : Name.segments m.target = p :: ps := hps
  have hsegments : ∀ q ∈ p :: ps, Name.IsSegment q := by
    rw [← hps, ← htarget]
    exact (t.qualified r hl.mem).2
  rw [Table.replaced, Table.replaced, hps, slashed, List.map_append]
  exact congrArg₂ _ (slashed_intercalate hj hsegments)
    (slashed_runBytes (by decide) fun s hs => hss s (List.mem_of_mem_drop hs))

/-- A name moves by its longest match. -/
theorem moved?_eq (t : Table) (n : ClassName) :
    n.moved? t = (t.longestMatch? (n.first :: n.rest)).map
      (Table.replaced Byte.slash Byte.slash n.rest) := by
  have hjoint : isSeparator (Table.nameJoint Byte.slash n.rest) := by
    unfold Table.nameJoint
    split <;> decide
  rw [moved?, bytes, Table.resolve?_joined (by decide) n.isSegment, Option.map_map]
  cases hm : t.longestMatch? (n.first :: n.rest) with
  | none => rfl
  | some m =>
    exact congrArg some (slashed_replaced hjoint (List.forall_mem_cons.1 n.isSegment).2 hm)

end ClassName

/-! ## Types -/

/-- The type of a field: a primitive type, an array or a class. -/
inductive FieldType where
  | primitive (code : UInt8) (valid : isPrimitiveCode code)
  | array (component : FieldType)
  | object (name : ClassName)

namespace FieldType

/-- The names of classes in a type. -/
def names : FieldType → List ClassName
  | primitive .. => []
  | array component => component.names
  | object name => [name]

/-- The type with its names spelled in some way. -/
def written (spell : ClassName → Bytes) : FieldType → Bytes
  | primitive code _ => [code]
  | array component => 0x5B :: component.written spell
  | object name => classCode :: (spell name ++ [0x3B])

end FieldType

/-- The code of a method that gives nothing back. -/
abbrev voidCode : UInt8 := 0x56

/-- The descriptor of a field or of a method. A method without a result gives nothing back. -/
inductive Descriptor where
  | field (type : FieldType)
  | method (parameters : List FieldType) (result : Option FieldType)

namespace Descriptor

/-- The names of classes in a descriptor, in their order. -/
def names : Descriptor → List ClassName
  | field type => type.names
  | method parameters result => parameters.flatMap FieldType.names ++ (result.map FieldType.names).getD []

/-- The descriptor with its names spelled in some way. -/
def written (spell : ClassName → Bytes) : Descriptor → Bytes
  | field type => type.written spell
  | method parameters result =>
    0x28 :: (parameters.flatMap (FieldType.written spell) ++
      0x29 :: (result.map (FieldType.written spell)).getD [voidCode])

/-- The descriptor as it stands in a class file. -/
def bytes (d : Descriptor) : Bytes := d.written ClassName.bytes

end Descriptor

/-! ## Descriptors as texts -/

theorem isIdent_of_isPrimitiveCode {b : UInt8} (h : isPrimitiveCode b) : Name.isIdent b := by
  simp only [isPrimitiveCode, Bool.or_eq_true, beq_iff_eq] at h
  rcases h with ((((((rfl | rfl) | rfl) | rfl) | rfl) | rfl) | rfl) | rfl <;> decide

theorem not_isLower_of_isPrimitiveCode {b : UInt8} (h : isPrimitiveCode b) : ¬ Byte.isLower b := by
  simp only [isPrimitiveCode, Bool.or_eq_true, beq_iff_eq] at h
  rcases h with ((((((rfl | rfl) | rfl) | rfl) | rfl) | rfl) | rfl) | rfl <;> decide

section
variable {t : Table} (hlower : ∀ r ∈ t.rules, r.source.head?.any Byte.isLower)
include hlower

theorem head?_of_isRoot {s : Bytes} (h : t.isRoot s) : s.head?.any Byte.isLower := by
  obtain ⟨r, hr, rfl⟩ := Table.isRoot_iff.1 h
  have hb := hlower r hr
  rw [Rule.root]
  cases hsource : r.source with
  | nil => rw [hsource] at hb; cases hb
  | cons b s =>
    rw [hsource, List.head?_cons, Option.any_some] at hb
    have hdot : b ≠ Byte.dot := by
      rintro rfl
      exact absurd hb (by decide)
    rw [List.takeWhile_cons_of_pos (by simpa using hdot), List.head?_cons, Option.any_some]
    exact hb

theorem not_isRoot_of_codes {codes : Bytes} (hcodes : ∀ b ∈ codes, isPrimitiveCode b) {b : UInt8}
    (hb : ¬ Byte.isLower b) (s : Bytes) : t.isRoot (codes ++ b :: s) = false := by
  rw [Bool.eq_false_iff]
  intro hroot
  have hhead := head?_of_isRoot hlower hroot
  cases codes with
  | nil => exact hb hhead
  | cons c codes =>
    have hcode := hcodes c List.mem_cons_self
    exact not_isLower_of_isPrimitiveCode hcode hhead

/-- Codes alone are no name. -/
theorem convert?_codes {s : Bytes} (h : ∀ b ∈ s, isPrimitiveCode b ∨ b = voidCode) :
    t.convert? s = none := by
  by_cases hs : s = []
  · subst hs
    rfl
  have hident : ∀ b ∈ s, Name.isIdent b := by
    intro b hb
    rcases h b hb with hb | rfl
    · exact isIdent_of_isPrimitiveCode hb
    · decide
  have hc : Chain.IsProper ⟨s, []⟩ := ⟨⟨hs, hident⟩, fun p hp => absurd hp List.not_mem_nil⟩
  have hcandidate : Chain.candidate? t ⟨s, []⟩ = none := by
    rw [Option.eq_none_iff_forall_ne_some]
    intro d hd
    have hd := Chain.candidate?_eq_some_iff.1 hd
    generalize d.codes = codes, d.root = root, d.separator = fixed at hd
    cases hd with
    | plain hroot =>
      obtain ⟨b, s, rfl⟩ := List.exists_cons_of_ne_nil hs
      have hhead : Byte.isLower b := head?_of_isRoot hlower hroot
      rcases h b List.mem_cons_self with hb | rfl
      · exact not_isLower_of_isPrimitiveCode hb hhead
      · exact absurd hhead (by decide)
    | @descriptor codes root _ hrun =>
      have hmem : classCode ∈ s := by
        rw [show s = codes ++ classCode :: root from hrun]
        exact List.mem_append_right _ List.mem_cons_self
      rcases h classCode hmem with hb | hb
      · exact absurd hb (by decide)
      · exact absurd hb (by decide)
  have hbytes : Chain.bytes ⟨s, []⟩ = s := List.append_nil s
  rw [← hbytes, hc.convert?_bytes, Chain.convert?, hcandidate]
  rfl

/-- **A class in a descriptor is replaced by what its name is looked up as**, whatever codes stand in
front of it. -/
theorem convert?_codes_append_name {codes : Bytes} (hcodes : ∀ b ∈ codes, isPrimitiveCode b)
    (n : ClassName) :
    t.convert? (codes ++ classCode :: n.bytes) =
      (n.moved? t).map fun name => codes ++ classCode :: name := by
  obtain ⟨hfirst, hrest⟩ := List.forall_mem_cons.1 n.isSegment
  have hrun : Name.IsSegment (codes ++ classCode :: n.first) := by
    refine ⟨by simp, fun b hb => ?_⟩
    rcases List.mem_append.1 hb with hb | hb
    · exact isIdent_of_isPrimitiveCode (hcodes b hb)
    · rcases List.mem_cons.1 hb with rfl | hb
      · decide
      · exact hfirst.2 b hb
  have hc : (Chain.joined Byte.slash (codes ++ classCode :: n.first) n.rest).IsProper :=
    Chain.isProper_joined (by decide) (List.forall_mem_cons.2 ⟨hrun, hrest⟩)
  have hbytes : (Chain.joined Byte.slash (codes ++ classCode :: n.first) n.rest).bytes =
      codes ++ classCode :: n.bytes := by
    rw [Chain.bytes_joined, ClassName.bytes, intercalate_eq_append_runBytes,
      intercalate_eq_append_runBytes, List.append_assoc, List.cons_append]
  have hnotRoot := not_isRoot_of_codes hlower hcodes (by decide : ¬ Byte.isLower classCode) n.first
  rw [← hbytes, hc.convert?_bytes, ClassName.moved?_eq]
  by_cases hroot : t.isRoot n.first
  · have hcandidate : (Chain.joined Byte.slash (codes ++ classCode :: n.first) n.rest).candidate? t =
        some ⟨codes ++ [classCode], n.first, some Byte.slash⟩ :=
      Chain.candidate?_eq_some_iff.2 (.descriptor hnotRoot rfl hcodes hroot)
    have hsegments : (Chain.joined Byte.slash (codes ++ classCode :: n.first) n.rest).candidateSegments t
        ⟨codes ++ [classCode], n.first, some Byte.slash⟩ = n.first :: n.rest := by
      have hall : ∀ p ∈ n.rest.map (Byte.slash, ·), some p.1 == some Byte.slash := by
        intro p hp
        obtain ⟨q, -, rfl⟩ := List.mem_map.1 hp
        rfl
      simp only [Chain.candidateSegments, Chain.separator?, Chain.joined]
      rw [List.takeWhile_eq_self_iff.2 hall, List.map_map]
      exact congrArg _ (List.map_id _)
    rw [Chain.convert?, hcandidate, Option.bind_eq_bind, Option.bind_some, hsegments]
    cases t.longestMatch? (n.first :: n.rest) with
    | none => rfl
    | some m => simp [Table.replaced, Chain.separator?, Chain.joined]
  · have hcandidate :
        (Chain.joined Byte.slash (codes ++ classCode :: n.first) n.rest).candidate? t = none := by
      rw [Option.eq_none_iff_forall_ne_some]
      intro d hd
      have hd := Chain.candidate?_eq_some_iff.1 hd
      generalize d.codes = codes', d.root = root, d.separator = fixed at hd
      generalize hrun' : (Chain.joined Byte.slash (codes ++ classCode :: n.first) n.rest).first = run at hd
      cases hd with
      | plain hplain =>
        rw [← hrun'] at hplain
        exact absurd hplain (by simp [Chain.joined, hnotRoot])
      | descriptor _ he hcodes' hroot' =>
        -- the first `L` behind the codes is the one in front of the name
        have hdrop := congrArg (List.dropWhile isPrimitiveCode) (hrun'.trans he)
        rw [Chain.joined, List.dropWhile_append_of_pos hcodes, List.dropWhile_append_of_pos hcodes'] at hdrop
        obtain rfl := (List.cons.inj (show classCode :: n.first = classCode :: root from hdrop)).2
        exact hroot hroot'
    have hnone : t.longestMatch? (n.first :: n.rest) = none := by
      rw [Option.eq_none_iff_forall_ne_some]
      intro m hm
      obtain ⟨r, hl, -, -⟩ := Table.longestMatch?_eq_some_iff.1 hm
      exact hroot (hl.isRoot n.isSegment)
    rw [Chain.convert?, hcandidate, hnone]
    rfl

end

/-- What becomes of a text that primitive codes stand in front of: they stay, the text turns into
another one, and it is kept when none of the names in it moves. -/
structure RewrittenBehindCodes (t : Table) (names : List ClassName) (s s' : Bytes) : Prop where
  convert_eq : ∀ codes : Bytes, (∀ b ∈ codes, isPrimitiveCode b) →
    t.convert (codes ++ s) = codes ++ s'
  eq_none_iff : ∀ codes : Bytes, (∀ b ∈ codes, isPrimitiveCode b) →
    (t.convert? (codes ++ s) = none ↔ ∀ n ∈ names, n.moved? t = none)

namespace RewrittenBehindCodes

variable {t : Table} {names : List ClassName} {s s' : Bytes}

theorem code_cons (h : RewrittenBehindCodes t names s s') {b : UInt8} (hb : isPrimitiveCode b) :
    RewrittenBehindCodes t names (b :: s) (b :: s') := by
  have hcodes : ∀ codes : Bytes, (∀ c ∈ codes, isPrimitiveCode c) →
      ∀ c ∈ codes ++ [b], isPrimitiveCode c := by
    intro codes hcodes c hc
    rcases List.mem_append.1 hc with hc | hc
    · exact hcodes c hc
    · exact List.mem_singleton.1 hc ▸ hb
  refine ⟨fun codes hc => ?_, fun codes hc => ?_⟩
  · rw [List.append_cons codes b s, h.convert_eq _ (hcodes codes hc), ← List.append_cons]
  · rw [List.append_cons codes b s, h.eq_none_iff _ (hcodes codes hc)]

section
variable (hlower : ∀ r ∈ t.rules, r.source.head?.any Byte.isLower)
include hlower

theorem of_codes (h : ∀ b ∈ s, isPrimitiveCode b ∨ b = voidCode) :
    RewrittenBehindCodes t [] s s := by
  have hnone : ∀ codes : Bytes, (∀ b ∈ codes, isPrimitiveCode b) → t.convert? (codes ++ s) = none := by
    intro codes hcodes
    refine convert?_codes hlower fun b hb => ?_
    rcases List.mem_append.1 hb with hb | hb
    · exact .inl (hcodes b hb)
    · exact h b hb
  refine ⟨fun codes hcodes => ?_, fun codes hcodes => ?_⟩
  · rw [Table.convert, hnone codes hcodes, Option.getD_none]
  · exact iff_of_true (hnone codes hcodes) fun n hn => absurd hn List.not_mem_nil

/-- Behind a byte that stands in no name the codes start again. -/
theorem other_cons (h : RewrittenBehindCodes t names s s') {b : UInt8} (hb : Name.isIdent b = false)
    (hsep : isSeparator b = false) : RewrittenBehindCodes t names (b :: s) (b :: s') := by
  have hcodes : ∀ codes : Bytes, (∀ c ∈ codes, isPrimitiveCode c) → t.convert? codes = none :=
    fun codes hc => convert?_codes hlower fun c h => .inl (hc c h)
  refine ⟨fun codes hc => ?_, fun codes hc => ?_⟩
  · have hconvert : t.convert codes = codes := by
      rw [Table.convert, hcodes codes hc, Option.getD_none]
    have hs := h.convert_eq [] fun _ hb => absurd hb List.not_mem_nil
    rw [Table.convert_append_cons hb hsep, hconvert, show t.convert s = s' from hs]
  · have hs := h.eq_none_iff [] fun _ hb => absurd hb List.not_mem_nil
    rw [Table.convert?_append_cons_eq_none_iff hb hsep, and_iff_right (hcodes codes hc)]
    exact hs

/-- A class and what stands behind it are rewritten apart. -/
theorem object_append (h : RewrittenBehindCodes t names s s') (n : ClassName) :
    RewrittenBehindCodes t (n :: names) (classCode :: (n.bytes ++ [0x3B]) ++ s)
      (classCode :: (n.moved t ++ [0x3B]) ++ s') := by
  have hname : ∀ codes : Bytes, (∀ b ∈ codes, isPrimitiveCode b) →
      t.convert (codes ++ classCode :: n.bytes) = codes ++ classCode :: n.moved t := by
    intro codes hcodes
    rw [Table.convert, convert?_codes_append_name hlower hcodes, ClassName.moved]
    cases n.moved? t <;> rfl
  have hsplit : ∀ codes name s : Bytes, codes ++ (classCode :: (name ++ [0x3B]) ++ s) =
      (codes ++ classCode :: name) ++ 0x3B :: s := by
    intro codes name s
    simp
  refine ⟨fun codes hc => ?_, fun codes hc => ?_⟩
  · have hs := h.convert_eq [] fun _ hb => absurd hb List.not_mem_nil
    rw [hsplit, Table.convert_append_cons (by decide) (by decide), hname codes hc,
      show t.convert s = s' from hs, hsplit]
  · have hs := h.eq_none_iff [] fun _ hb => absurd hb List.not_mem_nil
    rw [hsplit, Table.convert?_append_cons_eq_none_iff (by decide) (by decide),
      convert?_codes_append_name hlower hc, Option.map_eq_none_iff, List.forall_mem_cons]
    exact and_congr_right fun _ => hs

theorem type_append (type : FieldType) (h : RewrittenBehindCodes t names s s') :
    RewrittenBehindCodes t (type.names ++ names) (type.written ClassName.bytes ++ s)
      (type.written (ClassName.moved t) ++ s') := by
  induction type with
  | primitive code valid => exact h.code_cons valid
  | array component ih => exact ih.other_cons hlower (by decide) (by decide)
  | object n => exact h.object_append hlower n

theorem types_append (types : List FieldType) (h : RewrittenBehindCodes t names s s') :
    RewrittenBehindCodes t (types.flatMap FieldType.names ++ names)
      (types.flatMap (FieldType.written ClassName.bytes) ++ s)
      (types.flatMap (FieldType.written (ClassName.moved t)) ++ s') := by
  induction types with
  | nil => exact h
  | cons type types ih =>
    simp only [List.flatMap_cons, List.append_assoc]
    exact ih.type_append hlower type

theorem of_type (type : FieldType) : RewrittenBehindCodes t type.names
    (type.written ClassName.bytes) (type.written (ClassName.moved t)) := by
  have hnil : RewrittenBehindCodes t [] [] [] := of_codes hlower fun b hb => absurd hb List.not_mem_nil
  simpa using hnil.type_append hlower type

theorem of_descriptor (d : Descriptor) :
    RewrittenBehindCodes t d.names d.bytes (d.written (ClassName.moved t)) := by
  cases d with
  | field type => exact of_type hlower type
  | method parameters result =>
    have hresult : RewrittenBehindCodes t ((result.map FieldType.names).getD [])
        ((result.map (FieldType.written ClassName.bytes)).getD [voidCode])
        ((result.map (FieldType.written (ClassName.moved t))).getD [voidCode]) := by
      cases result with
      | none => exact of_codes hlower fun b hb => .inr (List.mem_singleton.1 hb)
      | some type => exact of_type hlower type
    exact ((hresult.other_cons hlower (by decide) (by decide)).types_append hlower
      parameters).other_cons hlower (by decide) (by decide)

end

end RewrittenBehindCodes

/-- **A descriptor is replaced name by name.** Each class becomes what its name is looked up as, in
slashes, and whatever else it spells stays; nothing is found exactly when no name is. -/
theorem Table.convert?_descriptor {t : Table} (hlower : ∀ r ∈ t.rules, r.source.head?.any Byte.isLower)
    (d : Descriptor) :
    t.convert? d.bytes =
      if ∀ n ∈ d.names, t.resolve? n.bytes = none then none
      else some (d.written (ClassName.moved t)) := by
  have h := RewrittenBehindCodes.of_descriptor hlower d
  have hconvert : t.convert d.bytes = d.written (ClassName.moved t) :=
    h.convert_eq [] fun _ hb => absurd hb List.not_mem_nil
  have hnone : t.convert? d.bytes = none ↔ ∀ n ∈ d.names, t.resolve? n.bytes = none := by
    have hkept := h.eq_none_iff [] fun _ hb => absurd hb List.not_mem_nil
    simpa only [ClassName.moved?, Option.map_eq_none_iff, List.nil_append] using hkept
  split
  next hkept => exact hnone.2 hkept
  next hkept =>
    obtain ⟨new, hnew⟩ := Option.ne_none_iff_exists'.1 (mt hnone.1 hkept)
    rw [hnew, ← hconvert, Table.convert, hnew, Option.getD_some]

theorem Table.convert?_descriptor_method :
    let table := Profile.tomcat.table
    let expression : ClassName := ⟨bytes "javax", [bytes "el", bytes "A"], by decide +kernel⟩
    let any : ClassName := ⟨bytes "java", [bytes "lang", bytes "Object"], by decide +kernel⟩
    let d := Descriptor.method [.primitive 0x49 (by decide), .object expression,
      .array (.array (.primitive 0x4A (by decide))), .object any] none
    (∀ r ∈ table.rules, r.source.head?.any Byte.isLower) ∧
      d.bytes = bytes "(ILjavax/el/A;[[JLjava/lang/Object;)V" ∧
      table.convert? d.bytes = some (bytes "(ILjakarta/el/A;[[JLjava/lang/Object;)V") := by
  intro table expression any d
  have hlower : ∀ r ∈ table.rules, r.source.head?.any Byte.isLower := by
    show ∀ r ∈ Profile.tomcat.table.rules, _
    rw [Profile.table_eq_orderedTable]
    decide +kernel
  refine ⟨hlower, by decide +kernel, ?_⟩
  rw [Table.convert?_descriptor hlower d]
  show (if ∀ n ∈ d.names, Profile.tomcat.table.resolve? n.bytes = none then none
    else some (d.written (ClassName.moved Profile.tomcat.table))) = _
  rw [Profile.table_eq_orderedTable]
  decide +kernel

end PackageMigration
