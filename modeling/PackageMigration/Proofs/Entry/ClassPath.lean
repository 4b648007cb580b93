import PackageMigration.Entry.Kind
import PackageMigration.Proofs.Entry.Name
import PackageMigration.Proofs.Mapping.Descriptor
/-
  The entries that hold classes: their names follow the names of the classes.

  * `EntryName.IsClassRoot`: the directories below which classes are found by their names.

  Main statements: `classRoot_append` (the class root of a class), `Chain.convert?_concat` (the
  extension is no part of the name), `renamed_route_class`.
-/
namespace PackageMigration

namespace EntryName

/-- The directories below which classes are found by their names. -/
inductive IsClassRoot : Bytes → Prop
  | none : IsClassRoot []
  | web : IsClassRoot (bytes "WEB-INF/classes/")
  | boot : IsClassRoot (bytes "BOOT-INF/classes/")
  | version {digits : Bytes} : digits ≠ [] → digits.all Byte.isDigit →
      IsClassRoot (versionsDirectory ++ digits ++ [Byte.slash])

/-- The name begins with the segment of a package. -/
def StartsInSegment (name : Bytes) : Prop :=
  ∃ s more, name = s ++ Byte.slash :: more ∧ ∀ b ∈ s, Name.isIdent b

/-- The directories of an archive's own files and of its classes are no segments of packages. -/
theorem StartsInSegment.not_isPrefix {name : Bytes} (h : StartsInSegment name) {p q : Bytes} {b : UInt8}
    (hp : ∀ c ∈ p, Name.isIdent c) (hb : Name.isIdent b = false) (hslash : b ≠ Byte.slash) :
    ¬ p ++ b :: q <+: name := by
  obtain ⟨s, more, rfl, hs⟩ := h
  rintro ⟨w, hw⟩
  have hdrop := congrArg (List.dropWhile Name.isIdent) hw
  rw [List.append_assoc, List.dropWhile_append_of_pos hp, List.dropWhile_append_of_pos hs,
    List.cons_append, List.dropWhile_cons_of_neg (by simp [hb]),
    List.dropWhile_cons_of_neg (by decide)] at hdrop
  exact hslash (List.cons.inj hdrop).1

theorem classRoot_of_startsInSegment {name : Bytes} (h : StartsInSegment name) : classRoot name = [] := by
  have hdash : ∀ {p q : Bytes}, (∀ c ∈ p, Name.isIdent c) → ¬ p ++ 0x2D :: q <+: name :=
    fun hp => h.not_isPrefix hp (by decide +kernel) (by decide +kernel)
  have hfind : classRoots.find? (fun root => root.isPrefixOf name) = none := by
    rw [List.find?_eq_none]
    intro root hroot hprefix
    rw [List.isPrefixOf_iff_prefix] at hprefix
    rcases List.mem_cons.1 hroot with rfl | hroot
    · exact hdash (p := bytes "META") (q := bytes "INF/services/") (by decide +kernel) hprefix
    rcases List.mem_cons.1 hroot with rfl | hroot
    · exact hdash (p := bytes "WEB") (q := bytes "INF/classes/") (by decide +kernel) hprefix
    · obtain rfl := List.mem_singleton.1 hroot
      exact hdash (p := bytes "BOOT") (q := bytes "INF/classes/") (by decide +kernel) hprefix
  have hversion : versionRoot? name = none := by
    rw [Option.eq_none_iff_forall_ne_some]
    intro root hroot
    obtain ⟨digits, rest, rfl, hname, -⟩ := versionRoot?_eq_some_iff.1 hroot
    refine hdash (p := bytes "META") (q := bytes "INF/versions/") (by decide +kernel) ?_
    rw [hname, List.append_assoc, List.append_assoc]
    exact List.prefix_append _ _
  rw [classRoot, hfind, hversion]
  rfl

/-- The class root of a class that lies below one. -/
theorem classRoot_append {root name : Bytes} (hroot : IsClassRoot root) (h : StartsInSegment name) :
    classRoot (root ++ name) = root := by
  cases hroot with
  | none => exact classRoot_of_startsInSegment h
  | web => rfl
  | boot => rfl
  | @version digits hne hdigits =>
    have hfind : classRoots.find?
        (fun root => root.isPrefixOf (versionsDirectory ++ (digits ++ [Byte.slash] ++ name))) = none := rfl
    have hversion : versionRoot? (versionsDirectory ++ digits ++ [Byte.slash] ++ name) =
        some (versionsDirectory ++ digits ++ [Byte.slash]) :=
      versionRoot?_eq_some_iff.2 ⟨digits, name, rfl, rfl, hne, hdigits⟩
    have hassoc : versionsDirectory ++ digits ++ [Byte.slash] ++ name =
        versionsDirectory ++ (digits ++ [Byte.slash] ++ name) := by simp
    rw [classRoot, hversion, hassoc, hfind]
    rfl

end EntryName

namespace Chain

/-- **A run behind another separator is no part of the name in front of it.** The first run has to have
one behind it, since the separator there is the one that is looked at. -/
theorem convert?_concat {t : Table} {c : Chain} (hne : c.rest ≠ []) {p : UInt8 × Bytes}
    (hsep : ∀ q ∈ c.rest, q.1 ≠ p.1) (hslash : p.1 ≠ Byte.slash) :
    convert? t ⟨c.first, c.rest ++ [p]⟩ = (c.convert? t).map (· ++ runBytes [p]) := by
  have hcandidate : candidate? t ⟨c.first, c.rest ++ [p]⟩ = c.candidate? t := rfl
  rw [convert?, convert?, hcandidate]
  cases hd : c.candidate? t with
  | none => rfl
  | some d =>
    have hseparator : separator? t ⟨c.first, c.rest ++ [p]⟩ d = c.separator? t d := by
      simp only [separator?, List.head?_append_of_ne_nil _ hne]
    have hother : c.separator? t d ≠ some p.1 := by
      have hd := candidate?_eq_some_iff.1 hd
      unfold separator?
      generalize d.codes = codes, d.root = root, d.separator = fixed at hd
      cases hd with
      | descriptor => exact fun h => hslash (Option.some.inj h).symm
      | plain =>
        dsimp only
        split
        · obtain ⟨q, rest, hrest⟩ := List.exists_cons_of_ne_nil hne
          rw [hrest, List.head?_cons, Option.map_some]
          exact fun h => hsep q (hrest ▸ List.mem_cons_self) (Option.some.inj h)
        · exact (Option.some_ne_none _).symm
    have hsegments : candidateSegments t ⟨c.first, c.rest ++ [p]⟩ d = c.candidateSegments t d := by
      have hstop : (some p.1 == c.separator? t d) = false := by
        rw [beq_eq_false_iff_ne]
        exact hother.symm
      have htake : (c.rest ++ [p]).takeWhile (fun q => some q.1 == c.separator? t d) =
          c.rest.takeWhile fun q => some q.1 == c.separator? t d := by
        rw [List.takeWhile_append, List.takeWhile_cons_of_neg (by simp [hstop]), List.append_nil]
        split
        next hlength => exact ((List.takeWhile_prefix _).eq_of_length hlength).symm
        next => rfl
      simp only [candidateSegments, hseparator, htake]
    rw [Option.bind_eq_bind, Option.bind_some, Option.bind_eq_bind, Option.bind_some, hsegments]
    cases hm : t.longestMatch? (c.candidateSegments t d) with
    | none => rfl
    | some m =>
      obtain ⟨r, hl, -, -⟩ := Table.longestMatch?_eq_some_iff.1 hm
      have hcount : m.count - 1 ≤ c.rest.length := by
        have hle := hl.covers.2.1
        have htake := (List.takeWhile_prefix
          (fun p : UInt8 × Bytes => some p.1 == c.separator? t d) (l := c.rest)).length_le
        rw [candidateSegments, List.length_cons, List.length_map] at hle
        omega
      simp [hseparator, List.drop_append_of_le_length hcount, runBytes_append]

end Chain

namespace Table

/-- The extension stays behind whatever the name of the class becomes. -/
theorem convertText?_append_extension {t : Table} {n : ClassName} (hn : n.rest ≠ []) :
    t.convertText? (n.bytes ++ bytes ".class") = (t.convert? n.bytes).map (· ++ bytes ".class") := by
  have hslash : isSeparator Byte.slash := by decide
  have hc := Chain.isProper_joined hslash n.isSegment
  have hbytes : (Chain.joined Byte.slash n.first n.rest).bytes = n.bytes := Chain.bytes_joined _ _ _
  have hrest : (Chain.joined Byte.slash n.first n.rest).rest ≠ [] := by
    simpa [Chain.joined] using hn
  have hall : ∀ q ∈ (Chain.joined Byte.slash n.first n.rest).rest, q.1 = Byte.slash := by
    intro q hq
    obtain ⟨s, -, rfl⟩ := List.mem_map.1 hq
    rfl
  have hlong : Chain.IsProper ⟨n.first, (Chain.joined Byte.slash n.first n.rest).rest ++
      [(Byte.dot, bytes "class")]⟩ := by
    refine ⟨hc.first, fun p hp => ?_⟩
    rcases List.mem_append.1 hp with hp | hp
    · exact hc.rest p hp
    · obtain rfl := List.mem_singleton.1 hp
      decide +kernel
  have hlongBytes : Chain.bytes ⟨n.first, (Chain.joined Byte.slash n.first n.rest).rest ++
      [(Byte.dot, bytes "class")]⟩ = n.bytes ++ bytes ".class" := by
    rw [← hbytes, Chain.bytes, Chain.bytes, Chain.runBytes_append, List.append_assoc]
    rfl
  rw [← hlongBytes, hlong.convertText?_bytes, ← hbytes, hc.convert?_bytes]
  exact Chain.convert?_concat hrest (fun q hq => by rw [hall q hq]; decide) (by decide)

/-- **A class is filed under its name.** The entry moves as the name of the class does, below its class
root and with its extension. -/
theorem renamed_route_class (t : Table) {root : Bytes} (hroot : EntryName.IsClassRoot root)
    (n : ClassName) (hn : n.rest ≠ []) (payload : Bytes) :
    (t.route (root ++ n.bytes ++ bytes ".class") payload).renamed =
      (t.convert? n.bytes).map fun n' => root ++ n' ++ bytes ".class" := by
  have hkind : EntryKind.of (root ++ n.bytes ++ bytes ".class") payload = .classBinary := by
    have hdirectory : EntryName.isDirectory (root ++ n.bytes ++ bytes ".class") = false := by
      rw [EntryName.isDirectory, List.getLast?_append_of_ne_nil _ (by decide)]
      decide
    have hclass : EntryName.isClass (root ++ n.bytes ++ bytes ".class") = true :=
      List.isSuffixOf_iff_suffix.2 (List.suffix_append _ _)
    rw [EntryKind.of, hdirectory, hclass]
    rfl
  have hstarts : EntryName.StartsInSegment (n.bytes ++ bytes ".class") := by
    obtain ⟨s, ss, hss⟩ := List.exists_cons_of_ne_nil hn
    refine ⟨n.first, [Byte.slash].intercalate (s :: ss) ++ bytes ".class", ?_,
      (List.forall_mem_cons.1 n.isSegment).1.2⟩
    rw [ClassName.bytes, hss, List.intercalate_cons_cons]
    simp
  have hclassRoot := EntryName.classRoot_append hroot hstarts
  rw [route, hkind, if_neg (by decide), renameEntry?, List.append_assoc, hclassRoot,
    List.drop_left, convertText?_append_extension hn, Option.map_map]
  simp only [Function.comp_def, List.append_assoc]

theorem isSegment_packagedClass :
    ∀ s ∈ [bytes "javax", bytes "el", bytes "A"], Name.IsSegment s := by
  decide +kernel

/-- A class of a package that moves. -/
def packagedClass : ClassName := ⟨bytes "javax", [bytes "el", bytes "A"], isSegment_packagedClass⟩

theorem renamed_route_class_version :
    let table := Profile.tomcat.table
    let root := EntryName.versionsDirectory ++ bytes "9" ++ [Byte.slash]
    EntryName.IsClassRoot root ∧ packagedClass.rest ≠ [] ∧
      (table.route (root ++ packagedClass.bytes ++ bytes ".class") []).renamed =
        some (bytes "META-INF/versions/9/jakarta/el/A.class") := by
  intro table root
  have hroot : EntryName.IsClassRoot root := .version (by decide) (by decide)
  have hn : packagedClass.rest ≠ [] := by decide
  refine ⟨hroot, hn, ?_⟩
  rw [renamed_route_class table hroot packagedClass hn []]
  show (Profile.tomcat.table.convert? packagedClass.bytes).map _ = _
  rw [Profile.table_eq_orderedTable]
  decide +kernel

end Table

end PackageMigration
