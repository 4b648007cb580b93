import PackageMigration.Mapping.Rule
/-
  A text taken apart into names and the bytes between them.

  * `Chain`: a name as it stands in a text, runs of identifier bytes joined by single separators.
  * `Piece`: a chain, or a byte of something else.
  * `pieces`: the pieces of a text, with chains as long as they can be.

  Only the start of a chain can begin a package name: a run after an identifier byte and a separator
  is a later segment of some other name.

  Main statement: `flatMap_bytes_pieces` (the pieces spell the text).
-/
namespace PackageMigration

/-- The byte joins the segments of a name: a full stop or a slash. -/
def isSeparator (b : UInt8) : Bool := b == Byte.dot || b == Byte.slash

/-- A name as it stands in a text: its first run of identifier bytes, and each later run with the
separator before it. -/
structure Chain where
  first : Bytes
  rest : List (UInt8 × Bytes)
  deriving DecidableEq, Repr

/-- The bytes of later runs, each behind its separator. -/
def runBytes (rest : List (UInt8 × Bytes)) : Bytes := rest.flatMap fun p => p.1 :: p.2

namespace Chain

def bytes (c : Chain) : Bytes := c.first ++ runBytes c.rest

end Chain

/-- A chain, or one byte outside the chains. -/
inductive Piece where
  | other (b : UInt8)
  | name (c : Chain)
  deriving DecidableEq, Repr

namespace Piece

def bytes : Piece → Bytes
  | other b => [b]
  | name c => c.bytes

/-- One more byte in front of the pieces of a text. An identifier byte joins the chain right behind
it, or the one behind a separator; any other byte stands alone. -/
def cons (b : UInt8) (ps : List Piece) : List Piece :=
  if Name.isIdent b then
    match ps with
    | name c :: ps => name ⟨b :: c.first, c.rest⟩ :: ps
    | other s :: name c :: ps =>
      if isSeparator s then name ⟨[b], (s, c.first) :: c.rest⟩ :: ps
      else name ⟨[b], []⟩ :: other s :: name c :: ps
    | ps => name ⟨[b], []⟩ :: ps
  else other b :: ps

end Piece

/-- The pieces of a text. -/
def pieces (s : Bytes) : List Piece := s.foldr Piece.cons []

@[simp] theorem pieces_nil : pieces [] = [] := rfl

theorem pieces_cons (b : UInt8) (s : Bytes) : pieces (b :: s) = Piece.cons b (pieces s) := rfl

theorem Piece.flatMap_bytes_cons (b : UInt8) (ps : List Piece) :
    (Piece.cons b ps).flatMap Piece.bytes = b :: ps.flatMap Piece.bytes := by
  unfold Piece.cons
  split
  · split
    · simp [Piece.bytes, Chain.bytes]
    · split <;> simp [Piece.bytes, Chain.bytes, runBytes]
    · simp [Piece.bytes, Chain.bytes, runBytes]
  · simp [Piece.bytes]

/-- The pieces spell the text. -/
theorem flatMap_bytes_pieces (s : Bytes) : (pieces s).flatMap Piece.bytes = s := by
  induction s with
  | nil => rfl
  | cons b s ih => rw [pieces_cons, Piece.flatMap_bytes_cons, ih]

end PackageMigration
