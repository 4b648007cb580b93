import Mathlib.Data.List.Nodup
import PackageMigration.Proofs.Container.Deflate
import PackageMigration.Proofs.Container.Records
import PackageMigration.Proofs.Text.Decoding
/-
  ZIP containers are read as they were written.

  * `HasRoom`: the records have room for the entries; `Fits`: so that these are read back.
  * `contents`, `directory`, `ending`: the parts of a container.

  Main statement: `faithful_fits`.
-/
namespace PackageMigration.Container.Zip

open Bytes (IsAscii IsText capacity)

/-- The records have room for the entry, its name is text, and its mode is one. -/
structure EntryFits (e : Entry) : Prop where
  text : IsText e.name
  mode : ∀ m ∈ e.mode, 0 < m ∧ m < capacity 2
  name : e.name.length < capacity 2
  size : e.data.length < capacity 4

/-- The numbers that describe the entries have room in the records of a container. -/
structure HasRoom (entries : List Entry) : Prop where
  name : ∀ e ∈ entries, e.name.length < capacity 2
  size : ∀ e ∈ entries, e.data.length < capacity 4
  count : entries.length < largeCount
  length : (write entries).length < largeNumber

/-- There is room for the entries, whose names are texts and differ. -/
structure Fits (entries : List Entry) : Prop extends HasRoom entries where
  text : ∀ e ∈ entries, IsText e.name
  mode : ∀ e ∈ entries, ∀ m ∈ e.mode, 0 < m ∧ m < capacity 2
  names : (entries.map Entry.name).Nodup

theorem Fits.entry {entries : List Entry} {e : Entry} (h : Fits entries) (he : e ∈ entries) :
    EntryFits e :=
  ⟨h.text e he, h.mode e he, h.name e he, h.size e he⟩

/-! ## Entries -/

section
variable {e : Entry} {offset : Nat}

theorem flags_pack (offset : Nat) (e : Entry) :
    ((pack offset e).1.flags = 0 ∧ IsAscii e.name) ∨ (pack offset e).1.flags = 1 <<< utf8Flag := by
  by_cases h : e.name.all (· < 0x80)
  · exact .inl ⟨if_pos h, Bytes.isAscii_of_all h⟩
  · exact .inr (if_neg h)

theorem recordText_pack (h : IsText e.name) (offset : Nat) :
    recordText ((pack offset e).1.flags.testBit utf8Flag) e.name = e.name := by
  rcases flags_pack offset e with ⟨hflags, hascii⟩ | hflags
  · rw [hflags]
    exact Text.bytes_ofCodePage437 hascii
  · rw [hflags]
    exact Text.bytes_ofBytes h

theorem methodOfCode?_methodCode (method : Method) : methodOfCode? (methodCode method) = some method := by
  cases method <;> rfl

theorem mode?_pack (h : EntryFits e) (offset : Nat) : mode? (pack offset e).1 = e.mode := by
  change (if e.mode.getD 0 * 65536 = 0 then none else some (e.mode.getD 0 * 65536 / 65536)) = e.mode
  cases hmode : e.mode with
  | none => rfl
  | some m =>
    have hne : m * 65536 ≠ 0 := Nat.mul_ne_zero (Nat.ne_of_gt (h.mode m hmode).1) (by decide)
    rw [Option.getD_some, if_neg hne, Nat.mul_div_cancel _ (by decide)]

theorem fits_pack (h : EntryFits e) (hoffset : offset < capacity 4)
    (hcompressed : (compress e.method e.data).length < capacity 4) : (pack offset e).1.Fits where
  system := show unixSystem < _ by decide
  flags := by
    rcases flags_pack offset e with ⟨hflags, -⟩ | hflags <;> rw [hflags] <;> decide
  method := by
    change methodCode e.method < _
    cases e.method <;> decide
  checksum := UInt32.toNat_lt _
  compressedSize := hcompressed
  size := h.size
  attributes := by
    change e.mode.getD 0 * 65536 < _
    cases hmode : e.mode with
    | none => decide
    | some m =>
      have := (h.mode m hmode).2
      simp only [capacity, Option.getD_some] at this ⊢
      omega
  offset := hoffset
  name := h.name

/-- A description gives an entry if its content is found and sound. -/
theorem item_of_decompress? {marks : Landmarks} {d : Description} {method : Method} {s content : Bytes}
    (hmethod : methodOfCode? d.packed.method = some method)
    (hlocal : behindLocal? marks d.packed.offset = some s)
    (hopen : d.packed.flags.testBit encryptedFlag = false) (hsealed : d.isSealed = false)
    (hcontent : decompress? method (s.take d.packed.compressedSize) = some content)
    (hchecksum : crc32 content = d.packed.checksum) :
    item marks d = .entry ⟨d.name, method, mode? d.packed, content⟩ := by
  unfold item
  simp only [hmethod, hlocal, hopen, hsealed, hcontent, hchecksum, Bool.or_self, Bool.false_eq_true,
    if_false, if_true]

/-- An entry is read from its records. -/
theorem item_pack (h : EntryFits e) {before : Bytes} (hfits : (pack before.length e).1.Fits)
    (s : Bytes) :
    let p := pack before.length e
    item (landmarks (before ++ (p.1.localRecord ++ (p.2 ++ s)))) p.1.description = .entry e := by
  intro p
  have hopen : p.1.flags.testBit encryptedFlag = false := by
    rcases flags_pack before.length e with ⟨hflags, -⟩ | hflags <;> rw [hflags] <;> decide
  have hcontent : decompress? e.method ((p.2 ++ s).take p.1.compressedSize) = some e.data := by
    rw [show (p.2 ++ s).take p.1.compressedSize = p.2 from List.take_left]
    exact decompress?_compress e.method e.data
  refine (item_of_decompress? (methodOfCode?_methodCode e.method) (behindLocal?_localRecord hfits rfl)
    hopen rfl hcontent rfl).trans ?_
  have hmode : mode? p.1.description.packed = e.mode := mode?_pack h before.length
  rw [hmode]
  rfl

end

/-! ## Containers -/

/-- The local records, each with the content behind it. -/
def contents (packed : List (Packed × Bytes)) : Bytes :=
  packed.flatMap fun (p, compressed) => p.localRecord ++ compressed

/-- The central records. -/
def directory (packed : List (Packed × Bytes)) : Bytes := packed.flatMap fun (p, _) => p.centralRecord

/-- The end record. -/
def ending (packed : List (Packed × Bytes)) : Bytes :=
  endRecord packed.length (directory packed).length (contents packed).length

/-- What is packed stands in the contents. -/
theorem exists_of_mem_packAll {es : List Entry} {offset : Nat} {pc : Packed × Bytes}
    (h : pc ∈ packAll offset es) : ∃ e ∈ es, ∃ o, pc = pack o e ∧
      o + pc.1.localRecord.length + pc.2.length ≤ offset + (contents (packAll offset es)).length := by
  induction es generalizing offset with
  | nil => cases h
  | cons e es ih =>
    rw [packAll] at h ⊢
    rcases List.mem_cons.1 h with rfl | h
    · refine ⟨e, List.mem_cons_self, offset, rfl, ?_⟩
      rw [contents, List.flatMap_cons, List.length_append, List.length_append]
      omega
    · obtain ⟨e', he', o, rfl, hle⟩ := ih h
      refine ⟨e', List.mem_cons_of_mem _ he', o, rfl, hle.trans ?_⟩
      rw [contents, contents, List.flatMap_cons, List.length_append, List.length_append]
      omega

theorem length_packAll (offset : Nat) (es : List Entry) : (packAll offset es).length = es.length := by
  induction es generalizing offset with
  | nil => rfl
  | cons e es ih => rw [packAll, List.length_cons, ih, List.length_cons]

theorem write_eq (es : List Entry) :
    write es = contents (packAll 0 es) ++ (directory (packAll 0 es) ++ ending (packAll 0 es)) := by
  rw [ending, length_packAll, ← List.append_assoc]
  rfl

theorem name_packAll (offset : Nat) (es : List Entry) :
    (packAll offset es).map (fun pc => pc.1.name) = es.map Entry.name := by
  induction es generalizing offset with
  | nil => rfl
  | cons e es ih => rw [packAll, List.map_cons, ih, List.map_cons]; rfl

theorem contents_cons (pc : Packed × Bytes) (packed : List (Packed × Bytes)) (s : Bytes) :
    contents (pc :: packed) ++ s = pc.1.localRecord ++ (pc.2 ++ (contents packed ++ s)) := by
  rw [contents, List.flatMap_cons, List.append_assoc, List.append_assoc]
  rfl

/-- All entries are read from their records. -/
theorem map_item_packAll {es : List Entry} (h : ∀ e ∈ es, EntryFits e) (before : Bytes)
    {rest : Bytes} (hlength : (before ++ (contents (packAll before.length es) ++ rest)).length < capacity 4) :
    (packAll before.length es).map (fun pc =>
      item (landmarks (before ++ (contents (packAll before.length es) ++ rest))) pc.1.description) =
        es.map .entry := by
  induction es generalizing before with
  | nil => rfl
  | cons e es ih =>
    obtain ⟨he, hes⟩ := List.forall_mem_cons.1 h
    rw [packAll, contents_cons] at hlength ⊢
    generalize hp : pack before.length e = p at hlength ⊢
    have hbefore : (before ++ (p.1.localRecord ++ p.2)).length =
        before.length + p.1.localRecord.length + p.2.length := by
      rw [List.length_append, List.length_append, Nat.add_assoc]
    have hdata : ∀ s, before ++ (p.1.localRecord ++ (p.2 ++ s)) =
        before ++ (p.1.localRecord ++ p.2) ++ s := fun s => by simp only [List.append_assoc]
    have hfits : p.1.Fits := by
      rw [← hp]
      simp only [List.length_append] at hlength
      refine fits_pack he (by omega) (?_ : (pack before.length e).2.length < _)
      rw [hp]
      omega
    rw [List.map_cons, List.map_cons]
    congr 1
    · rw [← hp] at hfits ⊢
      exact item_pack he hfits _
    · rw [hdata, ← hbefore] at hlength ⊢
      exact ih hes _ hlength

/-- The central records are read one after the other. -/
theorem descriptionsFrom?_directory (dir : Directory) (hshift : dir.shift = 0)
    {packed : List (Packed × Bytes)} (h : ∀ pc ∈ packed, pc.1.IsReadable ∧
      pc.1.offset < dir.place.offset) (found : List Description) (s : Bytes) :
    descriptionsFrom? dir packed.length found (directory packed ++ s) =
      some (found.reverse ++ packed.map fun pc => pc.1.description) := by
  induction packed generalizing found with
  | nil => simp [descriptionsFrom?]
  | cons pc packed ih =>
    obtain ⟨⟨hreadable, hoffset⟩, hpacked⟩ := List.forall_mem_cons.1 h
    have hsplit : directory (pc :: packed) ++ s = pc.1.centralRecord ++ (directory packed ++ s) := by
      rw [directory, List.flatMap_cons, List.append_assoc]
      rfl
    rw [hsplit, List.length_cons, descriptionsFrom?, central?_centralRecord hreadable, hshift]
    change (if pc.1.offset < dir.place.offset then
      descriptionsFrom? dir packed.length (pc.1.description :: found) _ else none) = _
    rw [if_pos hoffset, ih hpacked, List.reverse_cons, List.append_assoc]
    rfl

theorem eraseDups_of_nodup {α : Type} [BEq α] [LawfulBEq α] {l : List α} (h : l.Nodup) :
    l.eraseDups = l := by
  induction l with
  | nil => rfl
  | cons a l ih =>
    obtain ⟨ha, hl⟩ := List.nodup_cons.1 h
    have hfilter : l.filter (fun b => !b == a) = l := by
      refine List.filter_eq_self.2 fun b hb => ?_
      rw [Bool.not_eq_true', beq_eq_false_iff_ne]
      exact fun he => ha (he ▸ hb)
    rw [List.eraseDups_cons, hfilter, ih hl]

/-- If no name occurs twice, all descriptions count. -/
theorem lastOfEach_eq_self {found : List Description} (h : (found.map Description.name).Nodup) :
    lastOfEach found = found := by
  have hfind : ∀ d ∈ found, (found.reverse.find? fun d' => d'.name == d.name) = some d := by
    intro d hd
    cases hlast : found.reverse.find? fun d' => d'.name == d.name with
    | none =>
      have := List.find?_eq_none.1 hlast d (List.mem_reverse.2 hd)
      simp at this
    | some d' =>
      have hd' := List.mem_reverse.1 (List.mem_of_find?_eq_some hlast)
      have hname := List.find?_some hlast
      exact congrArg some (List.inj_on_of_nodup_map h hd' hd (eq_of_beq hname))
  unfold lastOfEach
  simp only [eraseDups_of_nodup h, List.filterMap_map]
  exact (List.filterMap_congr hfind).trans List.filterMap_some

/-! ## The end of the container -/

section
variable {before : Bytes} {count size offset : Nat}

/-- An end record leads to the directory that stands where it should. -/
theorem directory?_of_isPrefix {records : Bytes} (rest : Bytes) (hrecords : centralSignature <+: records)
    (hcount : count ≠ 0) (hcount' : count < largeCount) (hbefore : before.length < largeNumber) :
    EndRecord.directory? (landmarks (before ++ (records ++ rest)))
        ⟨⟨(before ++ records).length, rest⟩, 0, 0, count, count, before.length⟩ =
      some ⟨⟨before.length, records ++ rest⟩, 0, count⟩ := by
  set e : EndRecord := ⟨⟨(before ++ records).length, rest⟩, 0, 0, count, count, before.length⟩
  have hsmall : e.isLarge = false := by
    simp [EndRecord.isLarge, e, Nat.ne_of_lt hcount', Nat.ne_of_lt hbefore]
  have hplace : e.directoryPlace? (landmarks (before ++ (records ++ rest))) =
      some ⟨before.length, records ++ rest⟩ := by
    have hbehind : (⟨before.length, records ++ rest⟩ : Place).isBefore e.place.offset := by
      have := hrecords.length_le
      rw [length_centralSignature] at this
      simp only [Place.isBefore, e, List.length_append, decide_eq_true_eq]
      omega
    rw [EndRecord.directoryPlace?, if_neg hcount,
      find?_centrals before (hrecords.trans (List.prefix_append _ _)), Option.filter_some, if_pos hbehind]
  rw [EndRecord.directory?, hsmall, if_neg Bool.false_ne_true]
  dsimp only
  rw [EndRecord.ownDirectory?, hplace]
  simp [e]

/-- The last end record counts if it leads to a directory. -/
theorem findSome?_ends {found : List Description}
    (h : descriptionsAt? (landmarks (before ++ endRecord count size offset))
      ⟨before.length, endRecord count size offset⟩ = some found) :
    (landmarks (before ++ endRecord count size offset)).ends.findSome?
      (descriptionsAt? (landmarks (before ++ endRecord count size offset))) = some found := by
  have hsignature : endSignature <+: endRecord count size offset := by
    simp only [endRecord, List.append_assoc, List.prefix_append]
  obtain ⟨behind, others, hends, hbehind, -⟩ := exists_marked_eq (by decide) hsignature before
  have hnone : behind.findSome?
      (descriptionsAt? (landmarks (before ++ endRecord count size offset))) = none := by
    refine List.findSome?_eq_none_iff.2 fun p hp => ?_
    have hcut : endRecord? (landmarks (before ++ endRecord count size offset)) p = none := by
      have := hbehind p hp
      rw [endRecord?, size_landmarks]
      exact if_neg (by omega)
    rw [descriptionsAt?, hcut]
    rfl
  change (marked endSignature _).findSome? _ = _
  rw [hends, List.findSome?_append, hnone, Option.none_or, List.findSome?_cons, h]

end

/-! ## What is read -/

theorem isReadable_of_mem_packAll {es : List Entry} (h : Fits es) {pc : Packed × Bytes}
    (hpc : pc ∈ packAll 0 es) :
    pc.1.IsReadable ∧ pc.1.offset < (contents (packAll 0 es)).length := by
  have hlength := h.length
  rw [write_eq, List.length_append] at hlength
  obtain ⟨e, he, offset, rfl, hle⟩ := exists_of_mem_packAll hpc
  rw [Packed.length_localRecord] at hle
  have hlocal : 0 < localSize := by decide
  have hlarge : largeNumber < capacity 4 := by decide
  have hfits : (pack offset e).1.Fits :=
    fits_pack (h.entry he) (by omega) (show (pack offset e).2.length < _ by omega)
  have hmethod : methodCode e.method ≠ sealedMethodCode := by
    cases e.method <;> decide
  exact ⟨⟨hfits, recordText_pack (h.entry he).text offset, hmethod⟩,
    show offset < _ by omega⟩

/-- The end record of a container leads to the descriptions of its entries. -/
theorem descriptionsAt?_write {es : List Entry} (h : Fits es) (hne : es ≠ []) :
    descriptionsAt? (landmarks (write es))
      ⟨(contents (packAll 0 es) ++ directory (packAll 0 es)).length, ending (packAll 0 es)⟩ =
        some ((packAll 0 es).map fun pc => pc.1.description) := by
  have hlength := h.length
  rw [write_eq, List.length_append] at hlength
  have hreadable := fun pc (hpc : pc ∈ packAll 0 es) => isReadable_of_mem_packAll h hpc
  have hcount : (packAll 0 es).length < largeCount := (length_packAll 0 es).trans_lt h.count
  have hpos : (packAll 0 es).length ≠ 0 := by
    rw [length_packAll]
    exact (List.length_pos_iff.2 hne).ne'
  rw [write_eq]
  generalize packAll 0 es = packed at hlength hreadable hcount hpos ⊢
  have hcontents : (contents packed).length < largeNumber := by omega
  have hend := endRecord?_endRecord (Nat.lt_trans hcount (by decide))
    (Nat.lt_trans hcontents (by decide)) (directory packed).length (contents packed ++ directory packed)
  rw [List.append_assoc] at hend
  have hrecords : centralSignature <+: directory packed := by
    obtain ⟨pc, packed, rfl⟩ := List.exists_cons_of_length_pos (Nat.pos_of_ne_zero hpos)
    exact pc.1.starts_centralRecord _
  have hdirectory := directory?_of_isPrefix (ending packed) hrecords hpos hcount hcontents
  have hdescriptions := descriptionsFrom?_directory
    ⟨⟨(contents packed).length, directory packed ++ ending packed⟩, 0, packed.length⟩ rfl hreadable []
    (ending packed)
  rw [descriptionsAt?, ending, hend]
  simp only [Option.bind_eq_bind, Option.bind_some]
  rw [← ending, hdirectory, Option.bind_some]
  exact hdescriptions

/-- **A container is read as it was written**, if it has room for its entries. -/
theorem faithful_fits : Container.zip.Faithful Fits := by
  intro es h
  by_cases hne : es = []
  · subst hne
    rfl
  have hends : (landmarks (write es)).ends.findSome? (descriptionsAt? (landmarks (write es))) =
      some ((packAll 0 es).map fun pc => pc.1.description) := by
    have hfound := descriptionsAt?_write h hne
    rw [write_eq, ← List.append_assoc] at hfound ⊢
    exact findSome?_ends hfound
  have hnames : (((packAll 0 es).map fun pc => pc.1.description).map Description.name).Nodup := by
    rw [List.map_map]
    exact (name_packAll 0 es).symm ▸ h.names
  have hlength : (write es).length < capacity 4 := Nat.lt_trans h.length (by decide)
  have hitems : (packAll 0 es).map (fun pc => item (landmarks (write es)) pc.1.description) =
      es.map .entry := by
    rw [write_eq] at hlength ⊢
    exact map_item_packAll (fun _ => h.entry) [] hlength
  change read? (write es) = _
  rw [read?, items?, hends, Option.map_some, lastOfEach_eq_self hnames, List.map_map, ← hitems]
  rfl

end PackageMigration.Container.Zip
