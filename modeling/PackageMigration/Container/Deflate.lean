import PackageMigration.Container.Huffman
/-
  Compressed data in the DEFLATE format.

  * `inflate?`: the data that compressed data stands for.
  * `deflate`: compressed data for data, as literals of the fixed code.
-/
namespace PackageMigration

namespace Deflate

/-! ## Codes and tables of the format -/

/-- The symbol that ends a block. Smaller ones are bytes, greater ones lengths of copies. -/
def endOfBlock : Nat := 256

/-- The lengths of the fixed code. -/
def fixedLengths : List Nat :=
  List.replicate 144 8 ++ List.replicate 112 9 ++ List.replicate 24 7 ++ List.replicate 8 8

/-- The fixed code of bytes and lengths. -/
def fixedCode : Code := (Code.ofLengths? fixedLengths).getD .unused

/-- The fixed code of distances. -/
def fixedDistances : Code := (Code.ofLengths? (List.replicate 32 5)).getD .unused

/-- A range of numbers: its least one, and how many bits tell the others. -/
structure Range where
  least : Nat
  extra : Nat

/-- The ranges of lengths, from the symbol behind the end of a block on. -/
def lengthRanges : Array Range :=
  #[⟨3, 0⟩, ⟨4, 0⟩, ⟨5, 0⟩, ⟨6, 0⟩, ⟨7, 0⟩, ⟨8, 0⟩, ⟨9, 0⟩, ⟨10, 0⟩, ⟨11, 1⟩, ⟨13, 1⟩, ⟨15, 1⟩,
    ⟨17, 1⟩, ⟨19, 2⟩, ⟨23, 2⟩, ⟨27, 2⟩, ⟨31, 2⟩, ⟨35, 3⟩, ⟨43, 3⟩, ⟨51, 3⟩, ⟨59, 3⟩, ⟨67, 4⟩,
    ⟨83, 4⟩, ⟨99, 4⟩, ⟨115, 4⟩, ⟨131, 5⟩, ⟨163, 5⟩, ⟨195, 5⟩, ⟨227, 5⟩, ⟨258, 0⟩]

/-- The ranges of distances, by symbol. -/
def distanceRanges : Array Range :=
  #[⟨1, 0⟩, ⟨2, 0⟩, ⟨3, 0⟩, ⟨4, 0⟩, ⟨5, 1⟩, ⟨7, 1⟩, ⟨9, 2⟩, ⟨13, 2⟩, ⟨17, 3⟩, ⟨25, 3⟩, ⟨33, 4⟩,
    ⟨49, 4⟩, ⟨65, 5⟩, ⟨97, 5⟩, ⟨129, 6⟩, ⟨193, 6⟩, ⟨257, 7⟩, ⟨385, 7⟩, ⟨513, 8⟩, ⟨769, 8⟩,
    ⟨1025, 9⟩, ⟨1537, 9⟩, ⟨2049, 10⟩, ⟨3073, 10⟩, ⟨4097, 11⟩, ⟨6145, 11⟩, ⟨8193, 12⟩, ⟨12289, 12⟩,
    ⟨16385, 13⟩, ⟨24577, 13⟩]

/-- A number of the range that a symbol stands for. -/
def ranged? (ranges : Array Range) (symbol : Nat) (s : BitStream) : Option (Nat × BitStream) :=
  match ranges[symbol]? with
  | none => none
  | some r =>
    match s.number? r.extra with
    | none => none
    | some (n, s) => some (r.least + n, s)

/-! ## Blocks -/

/-- What is left of a stream, and the data so far. -/
abbrev Progress := BitStream × Array UInt8

/-- The byte that stands `distance` before the end of the data so far. Zeros stand before the data. -/
def byteBack (distance : Nat) (out : Array UInt8) : UInt8 :=
  if distance ≤ out.size then out.getD (out.size - distance) 0 else 0

/-- The data so far with `count` more bytes, each the one that stands `distance` before it. -/
def copyBack (distance : Nat) : Nat → Array UInt8 → Array UInt8
  | 0, out => out
  | count + 1, out => copyBack distance count (out.push (byteBack distance out))

/-- The data so far with the next `count` bytes. -/
def copyBytes? : Nat → Bytes → Array UInt8 → Option Progress
  | 0, s, out => some (.ofBytes s, out)
  | _ + 1, [], _ => none
  | count + 1, b :: s, out => copyBytes? count s (out.push b)

/-- A block that is not compressed. It stands in whole bytes: two for the count of bytes, two for the
count's complement, then the bytes. -/
def storedBlock? (s : BitStream) (out : Array UInt8) : Option Progress :=
  match s.aligned.number? 16 with
  | none => none
  | some (count, s) =>
    match s.number? 16 with
    | none => none
    | some (complement, s) =>
      if count + complement = 0xFFFF then copyBytes? count s.behind out else none

/-- A copy of earlier data: the length's symbol is read, its extra bits and the distance follow. -/
def copy? (distances : Code) (symbol : Nat) (s : BitStream) (out : Array UInt8) : Option Progress :=
  match ranged? lengthRanges (symbol - endOfBlock - 1) s with
  | none => none
  | some (length, s) =>
    match distances.read? s with
    | none => none
    | some (symbol, s) =>
      match ranged? distanceRanges symbol s with
      | none => none
      | some (distance, s) => some (s, copyBack distance length out)

/-- The symbols of a compressed block, at most `fuel` of them. -/
def symbols? (code distances : Code) : Nat → BitStream → Array UInt8 → Option Progress
  | 0, _, _ => none
  | fuel + 1, s, out =>
    match code.read? s with
    | none => none
    | some (symbol, s) =>
      if symbol < endOfBlock then symbols? code distances fuel s (out.push symbol.toUInt8)
      else if symbol = endOfBlock then some (s, out)
      else
        match copy? distances symbol s out with
        | none => none
        | some (s, out) => symbols? code distances fuel s out

/-! ## Codes in the stream -/

/-- The order in which the lengths of the code for lengths are given. -/
def lengthOrder : List Nat := [16, 17, 18, 0, 8, 7, 9, 6, 10, 5, 11, 4, 12, 3, 13, 2, 14, 1, 15]

/-- The next `count` numbers of three bits. -/
def shortNumbers? : Nat → BitStream → Option (List Nat × BitStream)
  | 0, s => some ([], s)
  | count + 1, s =>
    match s.number? 3 with
    | none => none
    | some (n, s) =>
      match shortNumbers? count s with
      | none => none
      | some (ns, s) => some (n :: ns, s)

/-- The code for lengths, from the first lengths of its symbols in their order. No room may be left in
it. -/
def lengthCode? (given : List Nat) : Option Code :=
  let known := lengthOrder.zip given
  (Code.ofLengths? ((List.range lengthOrder.length).map fun n => (known.lookup n).getD 0)).filter
    Code.isComplete

/-- What a symbol of the code for lengths adds to the lengths so far, the last of which is `last?`:
one length, the last one again, or zeros. -/
def moreLengths? (last? : Option Nat) (symbol : Nat) (s : BitStream) :
    Option (List Nat × BitStream) :=
  match symbol with
  | 16 =>
    match last?, s.number? 2 with
    | some last, some (n, s) => some (List.replicate (3 + n) last, s)
    | _, _ => none
  | 17 => (s.number? 3).map fun (n, s) => (List.replicate (3 + n) 0, s)
  | 18 => (s.number? 7).map fun (n, s) => (List.replicate (11 + n) 0, s)
  | length => some ([length], s)

/-- The lengths of `left` more symbols, behind the ones read, which come last first. -/
def lengths? (code : Code) : Nat → Nat → List Nat → BitStream → Option (List Nat × BitStream)
  | _, 0, read, s => some (read.reverse, s)
  | 0, _ + 1, _, _ => none
  | fuel + 1, left + 1, read, s =>
    match code.read? s with
    | none => none
    | some (symbol, s) =>
      match moreLengths? read.head? symbol s with
      | none => none
      | some (more, s) =>
        if more.length ≤ left + 1 then
          lengths? code fuel (left + 1 - more.length) (more ++ read) s
        else none

/-- The codes that stand before a compressed block: for bytes and lengths, and for distances. -/
def codes? (s : BitStream) : Option (Code × Code × BitStream) := do
  let (literals, s) ← s.number? 5
  let (distances, s) ← s.number? 5
  let (given, s) ← s.number? 4
  let literals := literals + 257
  let distances := distances + 1
  guard (literals ≤ 286 ∧ distances ≤ 30)
  let (given, s) ← shortNumbers? (given + 4) s
  let lengthCode ← lengthCode? given
  let (lengths, s) ← lengths? lengthCode (literals + distances) (literals + distances) [] s
  let code ← Code.ofLengths? (lengths.take literals)
  let distanceCode ← Code.ofLengths? (lengths.drop literals)
  return (code, distanceCode, s)

/-- The block that a stream begins with, by its kind. It has at most `fuel` symbols. -/
def block? (kind fuel : Nat) (s : BitStream) (out : Array UInt8) : Option Progress :=
  match kind with
  | 0 => storedBlock? s out
  | 1 => symbols? fixedCode fixedDistances fuel s out
  | 2 =>
    match codes? s with
    | none => none
    | some (code, distances, s) => symbols? code distances fuel s out
  | _ => none

/-- The data of the blocks up to the last one. There are at most `fuel` blocks, and no more symbols in
any of them: each takes a bit at least. -/
def blocks? : Nat → BitStream → Array UInt8 → Option (Array UInt8)
  | 0, _, _ => none
  | fuel + 1, s, out =>
    match s.number? 1 with
    | none => none
    | some (last, s) =>
      match s.number? 2 with
      | none => none
      | some (kind, s) =>
        match block? kind fuel s out with
        | none => none
        | some (s, out) => if last = 1 then some out else blocks? fuel s out

/-! ## Writing -/

/-- The bits of the bytes in the fixed code. -/
def literals : Array Bits :=
  ((List.range 256).map fun n => (fixedCode.path? n).getD []).toArray

/-- How a last block in the fixed code begins. -/
def opening : Bits := [true, true, false]

/-- How a block in the fixed code ends. -/
def closing : Bits := (fixedCode.path? endOfBlock).getD []

end Deflate

/-- The data that compressed data stands for. What follows the last block does not matter. -/
def inflate? (compressed : Bytes) : Option Bytes :=
  (Deflate.blocks? (8 * compressed.length) (.ofBytes compressed) #[]).map Array.toList

/-- Compressed data for data: one block in the fixed code. It is not made short, every byte stands for
itself. -/
def deflate (data : Bytes) : Bytes :=
  let opened := BitSink.empty.append Deflate.opening
  let filled := data.foldl (fun s b => s.append (Deflate.literals.getD b.toNat [])) opened
  (filled.append Deflate.closing).toBytes

end PackageMigration
