import Mathlib.Tactic.IntervalCases
import PackageMigration.Proofs.Text.Utf8
import PackageMigration.Text.CodePage437
/-
  Text is read from its bytes.

  Main statements: `bytes_ofBytes` (text in UTF-8), `bytes_ofCodePage437` (ASCII in code page 437).
-/
namespace PackageMigration.Text

open Bytes (IsAscii IsText)

theorem bytes_ofList (cs : List Char) :
    bytes (String.ofList cs) = cs.flatMap String.utf8EncodeChar := by
  simp [bytes, String.ofList, List.utf8Encode]

section
variable {read : List Char} {rest : Bytes}

theorem decodeBehind_cons (p : Option Pending) (a : UInt8) :
    decodeBehind read p (a :: rest) =
      decodeBehind ((step p a).1.reverse ++ read) (step p a).2 rest := by
  cases p <;> rfl

/-- A lead byte begins a character. -/
theorem decodeBehind_lead {n : Nat} {p : Pending} (hn : 0x80 ≤ n) (hb : n < 0x100)
    (h : lead? (UInt8.ofNat n) = some p) :
    decodeBehind read none (UInt8.ofNat n :: rest) = decodeBehind read (some p) rest := by
  have hascii : ¬ UInt8.ofNat n < 0x80 := by
    rw [UInt8.lt_iff_toNat_lt, UInt8.toNat_ofNat']
    simp
    omega
  rw [decodeBehind_cons, step, start, if_neg hascii, h]
  rfl

/-- A byte that is owed continues the character. -/
theorem step_owed {p : Pending} {n : Nat} (hlow : p.low.toNat ≤ n % 0x40 + 0x80)
    (hhigh : n % 0x40 + 0x80 ≤ p.high.toNat) : step (some p) (UInt8.ofNat (n % 0x40 + 0x80)) =
      if p.owed ≤ 1 then ([Char.ofNat (p.point * 64 + n % 0x40)], none)
      else ([], some ⟨p.owed - 1, 0x80, 0xBF, p.point * 64 + n % 0x40⟩) := by
  have hb : (UInt8.ofNat (n % 0x40 + 0x80)).toNat = n % 0x40 + 0x80 := by
    rw [UInt8.toNat_ofNat']
    omega
  have hin : p.low ≤ UInt8.ofNat (n % 0x40 + 0x80) ∧ UInt8.ofNat (n % 0x40 + 0x80) ≤ p.high := by
    rw [UInt8.le_iff_toNat_le, UInt8.le_iff_toNat_le, hb]
    exact ⟨hlow, hhigh⟩
  have hdigit : (n % 0x40 + 0x80) % 64 = n % 0x40 := by omega
  rw [step, if_pos hin, hb, hdigit]

theorem decodeBehind_more {owed point n : Nat} {low high : UInt8}
    (hlow : low.toNat ≤ n % 0x40 + 0x80) (hhigh : n % 0x40 + 0x80 ≤ high.toNat) :
    decodeBehind read (some ⟨owed + 2, low, high, point⟩) (UInt8.ofNat (n % 0x40 + 0x80) :: rest) =
      decodeBehind read (some ⟨owed + 1, 0x80, 0xBF, point * 64 + n % 0x40⟩) rest := by
  rw [decodeBehind_cons, step_owed hlow hhigh, if_neg (by simp)]
  rfl

theorem decodeBehind_last {point n : Nat} {low high : UInt8}
    (hlow : low.toNat ≤ n % 0x40 + 0x80) (hhigh : n % 0x40 + 0x80 ≤ high.toNat) :
    decodeBehind read (some ⟨1, low, high, point⟩) (UInt8.ofNat (n % 0x40 + 0x80) :: rest) =
      decodeBehind (Char.ofNat (point * 64 + n % 0x40) :: read) none rest := by
  rw [decodeBehind_cons, step_owed hlow hhigh, if_pos (Nat.le_refl 1)]
  rfl

/-! ## Lead bytes -/

theorem lead?_two {n : Nat} (h : 2 ≤ n) (h' : n < 0x20) :
    lead? (UInt8.ofNat (n % 0x20 + 0xC0)) = some ⟨1, 0x80, 0xBF, n⟩ := by
  interval_cases n <;> rfl

theorem lead?_three {n : Nat} (h : n < 0x10) : lead? (UInt8.ofNat (n % 0x10 + 0xE0)) =
    some ⟨2, if n = 0 then 0xA0 else 0x80, if n = 0xD then 0x9F else 0xBF, n⟩ := by
  interval_cases n <;> rfl

theorem lead?_four {n : Nat} (h : n < 5) : lead? (UInt8.ofNat (n % 0x08 + 0xF0)) =
    some ⟨3, if n = 0 then 0x90 else 0x80, if n = 4 then 0x8F else 0xBF, n⟩ := by
  interval_cases n <;> rfl

/-- A character is read from its bytes. -/
theorem decodeBehind_utf8EncodeChar (c : Char) :
    decodeBehind read none (String.utf8EncodeChar c ++ rest) = decodeBehind (c :: read) none rest := by
  have hvalid : c.val.toNat < 0xD800 ∨ 0xDFFF < c.val.toNat ∧ c.val.toNat < 0x110000 := c.valid
  have hpoint : Char.ofNat c.val.toNat = c := c.ofNat_toNat
  unfold String.utf8EncodeChar
  dsimp only
  generalize c.val.toNat = v at hvalid hpoint
  split
  next h =>
    have hb : (UInt8.ofNat v).toNat = v := by
      rw [UInt8.toNat_ofNat']
      omega
    have hascii : UInt8.ofNat v < 0x80 := by
      rw [UInt8.lt_iff_toNat_lt, hb]
      exact Nat.lt_succ_of_le h
    rw [List.singleton_append, decodeBehind_cons, step, start, if_pos hascii, hb, hpoint]
    rfl
  split
  next =>
    have hn : v / 0x40 * 0x40 + v % 0x40 = v := by omega
    rw [List.cons_append, List.singleton_append,
      decodeBehind_lead (by omega) (by omega) (lead?_two (by omega) (by omega)),
      decodeBehind_last (by simp) (by simp; omega), hn, hpoint]
  split
  next =>
    have hn : (v / 0x1000 * 0x40 + v / 0x40 % 0x40) * 0x40 + v % 0x40 = v := by omega
    rw [List.cons_append, List.cons_append, List.singleton_append,
      decodeBehind_lead (by omega) (by omega) (lead?_three (by omega)),
      decodeBehind_more (by split <;> simp; omega) (by split <;> simp <;> omega),
      decodeBehind_last (by simp) (by simp; omega), hn, hpoint]
  next =>
    have hn : ((v / 0x40000 * 0x40 + v / 0x1000 % 0x40) * 0x40 + v / 0x40 % 0x40) * 0x40 +
        v % 0x40 = v := by omega
    rw [List.cons_append, List.cons_append, List.cons_append, List.singleton_append,
      decodeBehind_lead (by omega) (by omega) (lead?_four (by omega)),
      decodeBehind_more (by split <;> simp; omega) (by split <;> simp <;> omega),
      decodeBehind_more (by simp) (by simp; omega),
      decodeBehind_last (by simp) (by simp; omega), hn, hpoint]

end

theorem decodeBehind_flatMap (read : List Char) (cs : List Char) :
    decodeBehind read none (cs.flatMap String.utf8EncodeChar) = read.reverse ++ cs := by
  induction cs generalizing read with
  | nil => simp [decodeBehind]
  | cons c cs ih =>
    rw [List.flatMap_cons, decodeBehind_utf8EncodeChar, ih, List.reverse_cons, List.append_assoc]
    rfl

/-- **Text is read from its bytes.** -/
theorem bytes_ofBytes {s : Bytes} (h : IsText s) : bytes (ofBytes s) = s := by
  obtain ⟨cs, rfl⟩ := Bytes.isText_iff.1 h
  rw [ofBytes, decodeBehind_flatMap, bytes_ofList]
  rfl

/-- ASCII is the same in code page 437. -/
theorem bytes_ofCodePage437 {s : Bytes} (h : IsAscii s) : bytes (ofCodePage437 s) = s := by
  rw [ofCodePage437, bytes_ofList]
  induction s with
  | nil => rfl
  | cons b s ih =>
    obtain ⟨hb, hs⟩ := List.forall_mem_cons.1 h
    rw [List.map_cons, List.flatMap_cons, ih hs, char437, if_pos hb,
      Bytes.utf8EncodeChar_ofNat hb, List.singleton_append]

end PackageMigration.Text
