import PackageMigration.Bytes
/-
  Bytes as text.

  * `Bytes.IsText`: the bytes are the UTF-8 form of some text; `Bytes.isText` decides it.
  * `Text.ofBytes`: the text that bytes stand for, with `U+FFFD` for each malformed sequence.

  Main statement: `isText_bytes` (the bytes of a text are text).
-/
namespace PackageMigration

/-- The bytes are the UTF-8 form of some text. -/
def Bytes.IsText (s : Bytes) : Prop := s.toByteArray.IsValidUTF8

instance (s : Bytes) : Decidable (Bytes.IsText s) :=
  inferInstanceAs (Decidable s.toByteArray.IsValidUTF8)

/-- `Bytes.IsText` as a test. -/
def Bytes.isText (s : Bytes) : Bool := decide (Bytes.IsText s)

theorem Bytes.isText_bytes (s : String) : Bytes.IsText (bytes s) := by
  have h : (bytes s).toByteArray = s.toByteArray := by
    apply ByteArray.ext
    simp [bytes]
  rw [Bytes.IsText, h]
  exact s.isValidUTF8

namespace Text

/-- A character begun but not complete: the bytes still owed, the range of the next one, and the
code point so far. -/
structure Pending where
  owed : Nat
  low : UInt8
  high : UInt8
  point : Nat

/-- The character that the lead byte `a` of a longer form begins. -/
def lead? (a : UInt8) : Option Pending :=
  let n := a.toNat
  if 0xC2 ≤ n ∧ n ≤ 0xDF then some ⟨1, 0x80, 0xBF, n - 0xC0⟩
  else if n = 0xE0 then some ⟨2, 0xA0, 0xBF, 0⟩
  else if n = 0xED then some ⟨2, 0x80, 0x9F, 0xD⟩
  else if 0xE1 ≤ n ∧ n ≤ 0xEF then some ⟨2, 0x80, 0xBF, n - 0xE0⟩
  else if n = 0xF0 then some ⟨3, 0x90, 0xBF, 0⟩
  else if 0xF1 ≤ n ∧ n ≤ 0xF3 then some ⟨3, 0x80, 0xBF, n - 0xF0⟩
  else if n = 0xF4 then some ⟨3, 0x80, 0x8F, 4⟩
  else none

/-- What stands for a malformed sequence. -/
def replacement : Char := '\uFFFD'

/-- One byte between characters: the characters it completes, and the one it begins. -/
def start (a : UInt8) : List Char × Option Pending :=
  if a < 0x80 then ([Char.ofNat a.toNat], none)
  else match lead? a with
    | some p => ([], some p)
    | none => ([replacement], none)

/-- One byte: the characters it completes, and the one then begun. A byte that cannot continue the
character begun ends it as malformed and is read afresh. -/
def step : Option Pending → UInt8 → List Char × Option Pending
  | none, a => start a
  | some p, a =>
    if p.low ≤ a ∧ a ≤ p.high then
      let point := p.point * 64 + a.toNat % 64
      if p.owed ≤ 1 then ([Char.ofNat point], none)
      else ([], some ⟨p.owed - 1, 0x80, 0xBF, point⟩)
    else (replacement :: (start a).1, (start a).2)

/-- The characters of bytes, behind the ones read, which come last first, and a character begun. -/
def decodeBehind : List Char → Option Pending → Bytes → List Char
  | read, none, [] => read.reverse
  | read, some _, [] => (replacement :: read).reverse
  | read, p, a :: rest => decodeBehind ((step p a).1.reverse ++ read) (step p a).2 rest

/-- The text that the bytes stand for, each malformed sequence read as `U+FFFD`. -/
def ofBytes (s : Bytes) : String := String.ofList (decodeBehind [] none s)

example : ofBytes (bytes "aé日😀") = "aé日😀" := by decide
example : ofBytes [0x61, 0xE6, 0x97, 0x62, 0xFF] = "a\uFFFDb\uFFFD" := by decide

end Text

end PackageMigration
