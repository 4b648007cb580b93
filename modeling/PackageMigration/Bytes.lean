/-
  Byte strings. Everything the library reads and writes is a list of bytes; text is held as its
  UTF-8 bytes, since the artifacts it comes from are in any encoding.

  * `bytes`: the UTF-8 bytes of a text.
  * `splitWhere`: the parts of a list between the items of a kind.
  * `Bytes.splitOn`, `Bytes.cutFirst?`, `Bytes.cutLast?`: taking a byte string apart at a byte.
  * `Bytes.lower`, `Bytes.sameIgnoringCase`: the ASCII case rules.

  Main statements: `splitOn_ne_nil`, `intercalate_splitOn` (nothing is lost by splitting).
-/
namespace PackageMigration

/-- A byte string. -/
abbrev Bytes := List UInt8

/-- One more item in front of the first part. -/
def consPart {α : Type} (a : α) : List (List α) → List (List α)
  | [] => [[a]]
  | p :: ps => (a :: p) :: ps

/-- The parts of a list between the items that `p` holds of. -/
def splitWhere {α : Type} (p : α → Bool) (l : List α) : List (List α) :=
  l.foldr (fun a parts => if p a then [] :: parts else consPart a parts) [[]]

theorem splitWhere_cons {α : Type} (p : α → Bool) (a : α) (l : List α) :
    splitWhere p (a :: l) = if p a then [] :: splitWhere p l else consPart a (splitWhere p l) := rfl

theorem splitWhere_ne_nil {α : Type} (p : α → Bool) (l : List α) : splitWhere p l ≠ [] := by
  cases l with
  | nil => simp [splitWhere]
  | cons a l =>
    rw [splitWhere_cons]
    split
    · simp
    · cases splitWhere p l <;> simp [consPart]

/-- The UTF-8 bytes of a text. -/
def bytes (s : String) : Bytes := s.toUTF8.data.toList

namespace Byte

/-- The full stop, between the segments of a package name. -/
abbrev dot : UInt8 := 0x2E

/-- The slash, between the segments of an internal name or a path. -/
abbrev slash : UInt8 := 0x2F

abbrev colon : UInt8 := 0x3A

abbrev space : UInt8 := 0x20

abbrev cr : UInt8 := 0x0D

abbrev lf : UInt8 := 0x0A

/-- A digit from `0` to `9`. -/
def isDigit (b : UInt8) : Bool := 0x30 ≤ b && b ≤ 0x39

def isUpper (b : UInt8) : Bool := 0x41 ≤ b && b ≤ 0x5A

def isLower (b : UInt8) : Bool := 0x61 ≤ b && b ≤ 0x7A

/-- An ASCII capital becomes its small letter; every other byte stays. -/
def lower (b : UInt8) : UInt8 := if isUpper b then b + 0x20 else b

end Byte

namespace Bytes

/-- The ASCII capitals become small letters. -/
def lower (s : Bytes) : Bytes := s.map Byte.lower

/-- Equal up to the case of ASCII letters. -/
def sameIgnoringCase (a b : Bytes) : Bool := lower a == lower b

/-- What follows `start` in `s`, which has to begin with it. -/
def after? (start s : Bytes) : Option Bytes := start.isPrefixOf? s

/-- The two sides are compared byte by byte. -/
theorem after?_cons (b c : UInt8) (start s : Bytes) :
    after? (b :: start) (c :: s) = if b == c then after? start s else none := rfl

theorem after?_eq_some_iff {start s rest : Bytes} : after? start s = some rest ↔ s = start ++ rest := by
  induction start generalizing s with
  | nil => exact ⟨fun h => Option.some.inj h, fun h => congrArg some h⟩
  | cons b start ih =>
    cases s with
    | nil => exact ⟨fun h => (nomatch h), fun h => (nomatch h)⟩
    | cons c s =>
      rw [after?_cons]
      split
      next h => simp [ih, eq_of_beq h]
      next h => simp [Ne.symm (ne_of_beq_false (Bool.eq_false_iff.2 h))]

/-- What follows `start` in `s`, which has to begin with it up to the case of ASCII letters. -/
def afterIgnoringCase? (start s : Bytes) : Option Bytes :=
  if sameIgnoringCase (s.take start.length) start then some (s.drop start.length) else none

/-- The part before the first `sep` and the part after it. -/
def cutFirst? (sep : UInt8) (s : Bytes) : Option (Bytes × Bytes) :=
  match s.dropWhile (· != sep) with
  | [] => none
  | _ :: rest => some (s.takeWhile (· != sep), rest)

/-- The part before the last `sep` and the part after it. -/
def cutLast? (sep : UInt8) (s : Bytes) : Option (Bytes × Bytes) :=
  (cutFirst? sep s.reverse).map fun (tail, head) => (head.reverse, tail.reverse)

/-- The parts between the occurrences of `sep`, one more than there are occurrences. -/
def splitOn (sep : UInt8) (s : Bytes) : List Bytes := splitWhere (· == sep) s

/-- `needle` stands somewhere in `s`. -/
def occursIn (needle : Bytes) : Bytes → Bool
  | [] => needle.isEmpty
  | b :: s => needle.isPrefixOf (b :: s) || occursIn needle s

/-- The part after the last `sep`, or the whole. -/
def lastPart (sep : UInt8) (s : Bytes) : Bytes :=
  (s.reverse.takeWhile (· != sep)).reverse

theorem splitOn_ne_nil (sep : UInt8) (s : Bytes) : splitOn sep s ≠ [] := splitWhere_ne_nil _ s

theorem splitOn_cons (sep b : UInt8) (s : Bytes) :
    splitOn sep (b :: s) = if b = sep then [] :: splitOn sep s else consPart b (splitOn sep s) := by
  simp [splitOn, splitWhere_cons]

theorem intercalate_cons {sep p : Bytes} {ps : List Bytes} (h : ps ≠ []) :
    sep.intercalate (p :: ps) = p ++ sep ++ sep.intercalate ps := by
  obtain ⟨q, qs, rfl⟩ := List.exists_cons_of_ne_nil h
  simp [List.intercalate]

/-- Joining the parts again gives the text. -/
theorem intercalate_splitOn (sep : UInt8) (s : Bytes) : [sep].intercalate (splitOn sep s) = s := by
  induction s with
  | nil => simp [splitOn, splitWhere, List.intercalate]
  | cons b s ih =>
    rw [splitOn_cons]
    split
    next h => rw [intercalate_cons (splitOn_ne_nil _ _), ih, h]; simp
    next =>
      obtain ⟨p, ps, hp⟩ := List.exists_cons_of_ne_nil (splitOn_ne_nil sep s)
      rw [hp] at ih ⊢
      cases ps with
      | nil => simp_all [consPart, List.intercalate]
      | cons q qs =>
        rw [consPart, intercalate_cons (by simp), List.cons_append, List.cons_append,
          ← intercalate_cons (by simp), ih]

end Bytes

end PackageMigration
