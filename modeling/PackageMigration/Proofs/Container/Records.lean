import Mathlib.Order.Basic
import PackageMigration.Proofs.Container.Places
/-
  The records of ZIP containers are read as they were written.

  * `Packed.Fits`: an entry whose numbers have room in its records; `Packed.IsReadable`: one that is
    read from its central record.
  * `Packed.description`: an entry as it is read from its central record.

  Main statements: `central?_centralRecord`, `field_localRecord`, `endRecord?_endRecord`.
-/
namespace PackageMigration.Container.Zip

open Bytes (littleEndian ofLittleEndian_littleEndian length_littleEndian capacity)

/-! ## Numbers in records -/

section
variable {s : Bytes} {offset width n : Nat}

theorem field_append {a : Bytes} (h : a.length ≤ offset) :
    field (a ++ s) offset width = field s (offset - a.length) width := by
  rw [field, List.drop_append, List.drop_eq_nil_of_le h, List.nil_append, field]

theorem field_littleEndian (h : n < capacity width) :
    field (littleEndian width n ++ s) 0 width = n := by
  have htake : (littleEndian width n ++ s).take width = littleEndian width n :=
    List.take_left' (length_littleEndian width n)
  rw [field, List.drop_zero, htake, ofLittleEndian_littleEndian h]

/-- What stands before a field does not matter. -/
theorem field_behind {value : Nat} (h : width ≤ offset) {width' : Nat} :
    field (littleEndian width value ++ s) offset width' = field s (offset - width) width' := by
  rw [field_append ((length_littleEndian ..).trans_le h), length_littleEndian]

theorem field_behind_signature {signature : Bytes} (hlength : signature.length = signatureSize)
    (h : signatureSize ≤ offset) :
    field (signature ++ s) offset width = field s (offset - signatureSize) width := by
  rw [field_append (hlength.trans_le h), hlength]

end

theorem length_localSignature : localSignature.length = signatureSize := rfl

theorem length_centralSignature : centralSignature.length = signatureSize := rfl

theorem length_endSignature : endSignature.length = signatureSize := rfl

/-- The system stands in the upper byte of the version. -/
theorem littleEndian_system (system : Nat) :
    littleEndian 2 (system * 256 + 20) = littleEndian 1 20 ++ littleEndian 1 system := by
  have hdiv : (system * 256 + 20) / 256 = system := by omega
  have hmod : (system * 256 + 20).toUInt8 = Nat.toUInt8 20 := by
    apply UInt8.toNat_inj.1
    simp only [Nat.toUInt8_eq, UInt8.toNat_ofNat']
    omega
  rw [littleEndian, hdiv, hmod]
  rfl

/-! ## Records -/

namespace Packed

/-- The numbers have room in the records. -/
structure Fits (p : Packed) : Prop where
  system : p.system < capacity 1
  flags : p.flags < capacity 2
  method : p.method < capacity 2
  checksum : p.checksum < capacity 4
  compressedSize : p.compressedSize < capacity 4
  size : p.size < capacity 4
  attributes : p.attributes < capacity 4
  offset : p.offset < capacity 4
  name : p.name.length < capacity 2

/-- The numbers have room, the name is in the encoding that the flags say, and the method is not the
one that stands for encryption. -/
structure IsReadable (p : Packed) : Prop where
  fits : p.Fits
  text : recordText (p.flags.testBit utf8Flag) p.name = p.name
  method : p.method ≠ sealedMethodCode

variable {p : Packed}

theorem length_centralRecord (p : Packed) : p.centralRecord.length = centralSize + p.name.length := by
  simp only [centralRecord, sharedFields, List.length_append, length_littleEndian,
    length_centralSignature, signatureSize, centralSize]

theorem length_localRecord (p : Packed) : p.localRecord.length = localSize + p.name.length := by
  simp only [localRecord, sharedFields, List.length_append, length_littleEndian,
    length_localSignature, signatureSize, localSize]

theorem field_centralRecord (h : p.Fits) (s : Bytes) :
    let r := p.centralRecord ++ s
    field r 5 1 = p.system ∧ field r 8 2 = p.flags ∧ field r 10 2 = p.method ∧
      field r 16 4 = p.checksum ∧ field r 20 4 = p.compressedSize ∧ field r 24 4 = p.size ∧
      field r 28 2 = p.name.length ∧ field r 30 2 = 0 ∧ field r 32 2 = 0 ∧
      field r 38 4 = p.attributes ∧ field r 42 4 = p.offset := by
  dsimp only
  simp only [centralRecord, sharedFields, littleEndian_system, List.append_assoc]
  simp (disch := decide) only [field_behind, field_behind_signature length_centralSignature,
    signatureSize, Nat.reduceSub, field_littleEndian (show 0 < capacity 2 by decide),
    field_littleEndian h.system, field_littleEndian h.flags, field_littleEndian h.method,
    field_littleEndian h.checksum, field_littleEndian h.compressedSize, field_littleEndian h.size,
    field_littleEndian h.name, field_littleEndian h.attributes, field_littleEndian h.offset, and_self]

theorem field_localRecord (h : p.Fits) (s : Bytes) :
    field (p.localRecord ++ s) 26 2 = p.name.length ∧ field (p.localRecord ++ s) 28 2 = 0 := by
  simp only [localRecord, sharedFields, List.append_assoc]
  simp (disch := decide) only [field_behind, field_behind_signature length_localSignature,
    signatureSize, Nat.reduceSub, field_littleEndian (show 0 < capacity 2 by decide),
    field_littleEndian h.name, and_self]

theorem starts_centralRecord (p : Packed) (s : Bytes) :
    centralSignature <+: p.centralRecord ++ s := by
  simp only [centralRecord, List.append_assoc, List.prefix_append]

theorem starts_localRecord (p : Packed) (s : Bytes) : localSignature <+: p.localRecord ++ s := by
  simp only [localRecord, List.append_assoc, List.prefix_append]

/-- What a central record without extra fields and comment describes. -/
def description (p : Packed) : Description := ⟨p, p.name, [], false⟩

theorem drop_centralRecord (p : Packed) (s : Bytes) :
    (p.centralRecord ++ s).drop centralSize = p.name ++ s := by
  rw [centralRecord, List.append_assoc]
  exact List.drop_left' (by
    simp only [sharedFields, List.length_append, length_littleEndian, length_centralSignature,
      signatureSize, centralSize])

end Packed

theorem recordText_nil (isUtf8 : Bool) : recordText isUtf8 [] = [] := by
  cases isUtf8 <;> rfl

/-- A central record is read as it was written. -/
theorem central?_centralRecord {p : Packed} (h : p.IsReadable) (s : Bytes) :
    central? (p.centralRecord ++ s) = some (p.description, s) := by
  obtain ⟨hsystem, hflags, hcode, hchecksum, hcompressed, hsize, hlength, hextra, hcomment,
    hattributes, hoffset⟩ := p.field_centralRecord h.fits s
  have hstart : centralSignature.isPrefixOf (p.centralRecord ++ s) :=
    List.isPrefixOf_iff_prefix.2 (p.starts_centralRecord s)
  have hlong : hasLength (centralSize + p.name.length) (p.centralRecord ++ s) := by
    rw [hasLength_iff, List.length_append, p.length_centralRecord]
    exact Nat.le_add_right ..
  have htake : ((p.centralRecord ++ s).drop centralSize).take p.name.length = p.name := by
    rw [p.drop_centralRecord, List.take_left]
  have htexts : ((p.centralRecord ++ s).take (centralSize + p.name.length)).drop
      (centralSize + p.name.length) = [] :=
    List.drop_eq_nil_of_le (List.length_take_le ..)
  have hrest : (p.centralRecord ++ s).drop (centralSize + p.name.length) = s :=
    List.drop_left' p.length_centralRecord
  have hsound : p.description.isSound := by
    simp [Description.isSound, Packed.description, h.method]
  generalize p.centralRecord ++ s = r at *
  rw [central?, hsystem, hflags, hcode, hchecksum, hcompressed, hsize, hlength, hextra, hcomment, hattributes,
    hoffset]
  simp only [Nat.add_zero]
  rw [hstart, hlong, htake, htexts, hrest, h.text, List.drop_nil, List.take_nil, recordText_nil]
  exact (if_pos hsound : (if p.description.isSound then some (p.description, s) else none) = _)

/-- What stands behind a local record is found by the record's offset. -/
theorem behindLocal?_localRecord {p : Packed} (h : p.Fits) {before s : Bytes}
    (hoffset : p.offset = before.length) :
    behindLocal? (landmarks (before ++ (p.localRecord ++ s))) p.offset = some s := by
  obtain ⟨hname, hextra⟩ := p.field_localRecord h s
  have hplace := find?_locals before (p.starts_localRecord s)
  have hlong : hasLength localSize (p.localRecord ++ s) := by
    rw [hasLength_iff, List.length_append, p.length_localRecord]
    omega
  rw [behindLocal?, hoffset, hplace]
  dsimp only
  rw [if_pos hlong, hname, hextra, Nat.add_zero, List.drop_left' p.length_localRecord]

theorem length_endRecord (count size offset : Nat) :
    (endRecord count size offset).length = endSize := by
  simp only [endRecord, List.length_append, length_littleEndian, length_endSignature, signatureSize,
    endSize]

theorem size_landmarks (before : Bytes) (count size offset : Nat) :
    (landmarks (before ++ endRecord count size offset)).size = before.length + endSize := by
  rw [landmarks, List.length_append, length_endRecord]

/-- The end record is read as it was written. -/
theorem endRecord?_endRecord {count offset : Nat} (hcount : count < capacity 2)
    (hoffset : offset < capacity 4) (size : Nat) (before : Bytes) :
    let p : Place := ⟨before.length, endRecord count size offset⟩
    endRecord? (landmarks (before ++ endRecord count size offset)) p =
      some ⟨p, 0, 0, count, count, offset⟩ := by
  have hfield : let r := endRecord count size offset
      field r 4 2 = 0 ∧ field r 6 2 = 0 ∧ field r 8 2 = count ∧ field r 10 2 = count ∧
        field r 16 4 = offset ∧ field r 20 2 = 0 := by
    dsimp only
    rw [← List.append_nil (endRecord count size offset)]
    simp only [endRecord, List.append_assoc]
    simp (disch := decide) only [field_behind, field_behind_signature length_endSignature,
      signatureSize, Nat.reduceSub, field_littleEndian (show 0 < capacity 2 by decide),
      field_littleEndian hcount, field_littleEndian hoffset, and_self]
  obtain ⟨hdisk, hdirectoryDisk, hcount', htotal, hdirectory, hcomment⟩ := hfield
  intro p
  unfold endRecord?
  dsimp only [p]
  rw [hdisk, hdirectoryDisk, hcount', htotal, hdirectory, hcomment, size_landmarks, Nat.add_zero,
    if_pos (Nat.le_refl _)]

end PackageMigration.Container.Zip
