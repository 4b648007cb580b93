import PackageMigration.Container.Bits
/-
  Codes for symbols in a stream of bits, as trees.

  * `Code`: a bit takes one branch or the other until a symbol is reached.
  * `Code.read?`: the next symbol; `Code.path?`: the bits of a symbol.
  * `Code.ofLengths?`: the code that the lengths of the symbols' bits determine.

  Main statement: `read?_path?` (the bits of a symbol are read as the symbol, whatever follows).
-/
namespace PackageMigration

/-- A code. Bits that lead nowhere are no symbol. -/
inductive Code where
  | unused
  | symbol (n : Nat)
  | branch (zero one : Code)
  deriving DecidableEq, Repr

namespace Code

/-- The symbol that a stream begins with, and the stream behind it. -/
def read? : Code → BitStream → Option (Nat × BitStream)
  | unused, _ => none
  | symbol n, s => some (n, s)
  | branch zero one, s =>
    match s.next? with
    | none => none
    | some (b, s) => if b then one.read? s else zero.read? s

/-- The bits of a symbol, if the code has it. -/
def path? (n : Nat) : Code → Option Bits
  | unused => none
  | symbol m => if m = n then some [] else none
  | branch zero one =>
    match zero.path? n with
    | some p => some (false :: p)
    | none => (one.path? n).map (true :: ·)

/-- The bits of a symbol are read as the symbol, whatever follows. -/
theorem read?_path? {c : Code} {n : Nat} {p rest : Bits} {s : BitStream} (h : c.path? n = some p)
    (hs : s.bits = p ++ rest) : ∃ s', c.read? s = some (n, s') ∧ s'.bits = rest := by
  induction c generalizing p s with
  | unused => simp [path?] at h
  | symbol m =>
    simp only [path?, Option.ite_none_right_eq_some, Option.some.injEq] at h
    obtain ⟨rfl, rfl⟩ := h
    exact ⟨s, rfl, hs⟩
  | branch zero one ihz iho =>
    simp only [path?] at h
    split at h
    next q hq =>
      obtain rfl := Option.some.inj h
      obtain ⟨s', hn, hs'⟩ := BitStream.next?_of_bits hs
      simpa [read?, hn] using ihz hq hs'
    next =>
      obtain ⟨q, hq, rfl⟩ := Option.map_eq_some_iff.1 h
      obtain ⟨s', hn, hs'⟩ := BitStream.next?_of_bits hs
      simpa [read?, hn] using iho hq hs'

/-- Every bit string either continues to a symbol or starts with the bits of one. -/
def isComplete : Code → Bool
  | unused => false
  | symbol _ => true
  | branch zero one => zero.isComplete && one.isComplete

/-- The codes one bit up: they join two by two. -/
def pairUp : List Code → List Code
  | [] => []
  | [c] => [branch c unused]
  | c :: d :: cs => branch c d :: pairUp cs

/-- The most bits of a symbol. -/
def maxLength : Nat := 15

/-- The symbols that are used, each with its length. Length 0 marks one that is not. -/
def used (lengths : List Nat) : List (Nat × Nat) := lengths.zipIdx.filter fun (l, _) => l != 0

/-- The symbols of a length, in order. -/
def symbolsOfLength (used : List (Nat × Nat)) (length : Nat) : List Nat :=
  used.filterMap fun (l, n) => if l = length then some n else none

/-- The codes behind one bit: at each length the symbols come first, then the longer ones. -/
def forest (lengths : List Nat) : List Code :=
  let symbols := used lengths
  ((List.range maxLength).map (· + 1)).foldr
    (fun length longer => (symbolsOfLength symbols length).map symbol ++ pairUp longer) []

/-- The code of symbols with these lengths. There may be no more symbols than the lengths have room
for, and no room left, unless no symbol is used or a single one of one bit. -/
def ofLengths? (lengths : List Nat) : Option Code :=
  match pairUp (forest lengths) with
  | [] => some unused
  | [c] => if c.isComplete || lengths.filter (· != 0) == [1] then some c else none
  | _ => none

end Code

end PackageMigration
