import PackageMigration.Bytes
/-
  The lines of a manifest.

  * `unifyEnds`: every line end as a line feed.
  * `lines`: the lines of a text, which end in CR LF, LF or CR.
  * `characters`, `fill`, `fold`: a line cut into pieces that keep a width, between characters.

  Main statements: `flatten_characters`, `flatten_fill`, `flatten_fold` (nothing is lost by cutting).
-/
namespace PackageMigration.Manifest

/-! ## Line ends -/

/-- The line feeds that a byte gives, the next byte being known: a carriage return gives one unless
a line feed follows anyway. -/
def unifyEnd (b next : UInt8) : Bytes :=
  if b = Byte.cr then if next = Byte.lf then [] else [Byte.lf] else [b]

/-- Every line end as a line feed. -/
def unifyEnds (s : Bytes) : Bytes :=
  (s.zip (s.drop 1 ++ [0])).flatMap fun (b, next) => unifyEnd b next

theorem unifyEnds_nil : unifyEnds [] = [] := rfl

theorem unifyEnds_cons (b : UInt8) (s : Bytes) :
    unifyEnds (b :: s) = unifyEnd b (s.headD 0) ++ unifyEnds s := by
  cases s with
  | nil => rfl
  | cons c s => simp [unifyEnds]

/-- The lines of a text. The end of the last line may be missing. -/
def lines (s : Bytes) : List Bytes :=
  let parts := Bytes.splitOn Byte.lf (unifyEnds s)
  if parts.getLast? = some [] then parts.dropLast else parts

example : lines (bytes "a\r\nb\rc\n\nd") = ["a", "b", "c", "", "d"].map bytes := by decide
example : lines (bytes "a\n") = [bytes "a"] ∧ lines (bytes "\r\n") = [[]] ∧ lines [] = [] := by decide

/-! ## Folding -/

/-- The byte continues a character of UTF-8. -/
def isContinuation (b : UInt8) : Bool := 0x80 ≤ b && b ≤ 0xBF

/-- One more byte in front of the characters of a text: what continues a character stays with it. -/
def consCharacter (b : UInt8) : List Bytes → List Bytes
  | [] => [[b]]
  | c :: cs => if c.head?.any isContinuation then (b :: c) :: cs
    else [b] :: c :: cs

/-- The characters of a text, each as its bytes. -/
def characters (s : Bytes) : List Bytes := s.foldr consCharacter []

theorem flatten_characters (s : Bytes) : (characters s).flatten = s := by
  induction s with
  | nil => rfl
  | cons b s ih =>
    rw [show characters (b :: s) = consCharacter b (characters s) from rfl]
    unfold consCharacter
    split
    next h => rw [h] at ih; simp_all
    next c cs h =>
      rw [h] at ih
      split <;> simp_all

/-- The pieces of a line whose first piece begins with `piece` and has `room` left; further ones hold
`width` bytes. A piece is full when the next character does not fit. -/
def fill (width room : Nat) (piece : Bytes) : List Bytes → List Bytes
  | [] => [piece]
  | c :: cs =>
    if c.length ≤ room then fill width (room - c.length) (piece ++ c) cs
    else piece :: fill width (width - c.length) c cs

theorem flatten_fill (width room : Nat) (piece : Bytes) (cs : List Bytes) :
    (fill width room piece cs).flatten = piece ++ cs.flatten := by
  induction cs generalizing room piece with
  | nil => simp [fill]
  | cons c cs ih =>
    rw [fill]
    split <;> simp [ih]

/-- The most bytes of a line, without its end. -/
def width : Nat := 72

/-- The pieces that a line is written in. All but the first have a space in front, which counts. -/
def fold (line : Bytes) : List Bytes := fill (width - 1) width [] (characters line)

theorem flatten_fold (line : Bytes) : (fold line).flatten = line := by
  rw [fold, flatten_fill, flatten_characters]; rfl

end PackageMigration.Manifest
