import PackageMigration.Mapping.Table
import PackageMigration.Mapping.Piece
/-
  Replacing the names that a table maps, in any text that spells them in ASCII: sources, pages,
  descriptors, manifest values, service files and class file constants. All other bytes stay.

  * `Chain.candidate?`: where in a chain a mapped name can start.
  * `Chain.convert?`: a chain with its mapped name replaced.
  * `Table.convert?`: a text with all mapped names replaced, if it holds any.
  * `Table.convertText?`: the same for text in UTF-8.

  Main statement: `convert_eq_flatMap` (the pieces of a text are replaced one by one).
-/
namespace PackageMigration

/-- The code of a primitive type in a descriptor: `B`, `C`, `D`, `F`, `I`, `J`, `S` or `Z`. -/
def isPrimitiveCode (b : UInt8) : Bool :=
  b == 0x42 || b == 0x43 || b == 0x44 || b == 0x46 || b == 0x49 || b == 0x4A || b == 0x53 ||
    b == 0x5A

/-- The code `L`, which opens a class name in a descriptor. -/
abbrev classCode : UInt8 := 0x4C

namespace Chain

/-- Where in the first run of a chain a mapped name starts. -/
structure Candidate where
  /-- The descriptor codes in front of it. -/
  codes : Bytes
  /-- Its first segment. -/
  root : Bytes
  /-- The separator it has to use, if that is fixed. -/
  separator : Option UInt8
  deriving DecidableEq, Repr

/-- A name starts where the run does, if the run is a root of the table. Otherwise the run may be
primitive codes and an `L` in front of a root: a descriptor, whose names are separated by slashes. -/
def candidate? (t : Table) (c : Chain) : Option Candidate :=
  if t.isRoot c.first then some ⟨[], c.first, none⟩
  else
    match c.first.dropWhile isPrimitiveCode with
    | [] => none
    | b :: root =>
      if b = classCode ∧ t.isRoot root then
        some ⟨c.first.takeWhile isPrimitiveCode ++ [b], root, some Byte.slash⟩
      else none

/-- The separator of a candidate's segments: the fixed one, or the one behind its first segment. A
table of one-segment sources never looks behind it. -/
def separator? (t : Table) (c : Chain) (d : Candidate) : Option UInt8 :=
  match d.separator with
  | some s => some s
  | none => if 2 ≤ t.depth then c.rest.head?.map Prod.fst else none

/-- The segments of a candidate: they go on as long as the separator stays the same. -/
def candidateSegments (t : Table) (c : Chain) (d : Candidate) : List Bytes :=
  let separator := c.separator? t d
  d.root :: (c.rest.takeWhile fun p => some p.1 == separator).map Prod.snd

/-- The chain with the longest match of its candidate replaced by the target, in the candidate's
separator. -/
def convert? (t : Table) (c : Chain) : Option Bytes := do
  let d ← c.candidate? t
  let m ← t.longestMatch? (c.candidateSegments t d)
  let separator := (c.separator? t d).getD Byte.dot
  return d.codes ++ [separator].intercalate (Name.segments m.target) ++
    runBytes (c.rest.drop (m.count - 1))

end Chain

/-- A piece with its mapped name replaced. -/
def Piece.convert? (t : Table) : Piece → Option Bytes
  | other _ => none
  | name c => c.convert? t

/-- The bytes of a piece after the replacement, if there is one. -/
def Piece.converted (t : Table) (p : Piece) : Bytes := (p.convert? t).getD p.bytes

namespace Table

/-- The text with every mapped name replaced, or none if it holds no mapped name. -/
def convert? (t : Table) (s : Bytes) : Option Bytes :=
  let ps := pieces s
  if ps.any fun p => (p.convert? t).isSome then some (ps.flatMap (Piece.converted t)) else none

/-- The text after the replacement, if there is one. -/
def convert (t : Table) (s : Bytes) : Bytes := (t.convert? s).getD s

/-- `convert?` on text in UTF-8; the result has to be text again. -/
def convertText? (t : Table) (s : Bytes) : Option Bytes := (t.convert? s).filter Bytes.isText

/-- The text after the replacement, whether or not there is one. -/
theorem convert_eq_flatMap (t : Table) (s : Bytes) :
    t.convert s = (pieces s).flatMap (Piece.converted t) := by
  unfold convert convert?
  dsimp only
  split
  · rfl
  next h =>
    have hn : ∀ p ∈ pieces s, Piece.converted t p = p.bytes := by
      intro p hp
      simp only [Bool.not_eq_true, List.any_eq_false, Option.isSome_eq_false_iff,
        Option.isNone_iff_eq_none] at h
      simp [Piece.converted, h p hp]
    rw [Option.getD_none, List.flatMap_def, List.map_congr_left hn, ← List.flatMap_def,
      flatMap_bytes_pieces]

end Table

end PackageMigration
