import PackageMigration.Bytes
/-
  Numbers of a fixed width in bytes, most significant byte first (class files) or last (containers).

  * `Bytes.ofBigEndian`, `Bytes.ofLittleEndian`: the number that bytes stand for.
  * `Bytes.bigEndian`, `Bytes.littleEndian`: the bytes of a number, in a given width.
  * `Bytes.capacity`: how many numbers there are in a width.

  Main statements: `ofLittleEndian_littleEndian`, `ofBigEndian_bigEndian` (a number that fits the
  width reads back), `littleEndian_ofLittleEndian`, `bigEndian_ofBigEndian` (bytes are the number's).
-/
namespace PackageMigration.Bytes

/-- The number of bytes with the least significant one first. -/
def ofLittleEndian : Bytes → Nat
  | [] => 0
  | b :: s => b.toNat + 256 * ofLittleEndian s

/-- The bytes of a number in a width, the least significant one first. -/
def littleEndian : Nat → Nat → Bytes
  | 0, _ => []
  | width + 1, n => n.toUInt8 :: littleEndian width (n / 256)

/-- How many numbers there are in a width. -/
def capacity : Nat → Nat
  | 0 => 1
  | width + 1 => 256 * capacity width

/-- The number of bytes with the most significant one first. -/
def ofBigEndian (s : Bytes) : Nat := ofLittleEndian s.reverse

/-- The bytes of a number in a width, the most significant one first. -/
def bigEndian (width n : Nat) : Bytes := (littleEndian width n).reverse

@[simp] theorem length_littleEndian (width n : Nat) : (littleEndian width n).length = width := by
  induction width generalizing n with
  | zero => rfl
  | succ width ih => simp [littleEndian, ih]

@[simp] theorem length_bigEndian (width n : Nat) : (bigEndian width n).length = width := by
  simp [bigEndian]

/-- A number that fits the width reads back. -/
theorem ofLittleEndian_littleEndian {width n : Nat} (h : n < capacity width) :
    ofLittleEndian (littleEndian width n) = n := by
  induction width generalizing n with
  | zero => simp [capacity] at h; simp [littleEndian, ofLittleEndian, h]
  | succ width ih =>
    have hd : n / 256 < capacity width := by
      rw [capacity] at h; omega
    simp only [littleEndian, ofLittleEndian, ih hd, Nat.toUInt8_eq, UInt8.toNat_ofNat']
    omega

/-- Bytes are the ones of their number. -/
theorem littleEndian_ofLittleEndian (s : Bytes) : littleEndian s.length (ofLittleEndian s) = s := by
  induction s with
  | nil => rfl
  | cons b s ih =>
    have hb : b.toNat < 256 := b.toNat_lt
    simp only [List.length_cons, littleEndian, ofLittleEndian]
    rw [show (b.toNat + 256 * ofLittleEndian s) / 256 = ofLittleEndian s by omega, ih]
    congr 1
    apply UInt8.toNat_inj.1
    simp only [Nat.toUInt8_eq, UInt8.toNat_ofNat']
    omega

theorem ofBigEndian_bigEndian {width n : Nat} (h : n < capacity width) :
    ofBigEndian (bigEndian width n) = n := by
  simp [ofBigEndian, bigEndian, ofLittleEndian_littleEndian h]

theorem bigEndian_ofBigEndian (s : Bytes) : bigEndian s.length (ofBigEndian s) = s := by
  have h := littleEndian_ofLittleEndian s.reverse
  rw [List.length_reverse] at h
  simp [ofBigEndian, bigEndian, h]

theorem ofLittleEndian_lt (s : Bytes) : ofLittleEndian s < capacity s.length := by
  induction s with
  | nil => simp [ofLittleEndian, capacity]
  | cons b s ih =>
    have hb : b.toNat < 256 := b.toNat_lt
    simp only [ofLittleEndian, List.length_cons, capacity]
    omega

theorem ofBigEndian_lt (s : Bytes) : ofBigEndian s < capacity s.length := by
  have h := ofLittleEndian_lt s.reverse
  rwa [List.length_reverse] at h

end PackageMigration.Bytes
