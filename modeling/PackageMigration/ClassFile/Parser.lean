import PackageMigration.ClassFile.Basic
/-
  Reading class files.

  * `Cursor`: where reading stands; `Cursor.take?` reads a part.
  * `Slot.read?`, `ClassFile.readPool?`: a constant, and the constants of a pool.
  * `ClassFile.parse?`: a class file.

  Main statement: `take?_eq_ok_iff` (what is read and what is left make up what there was).
-/
namespace PackageMigration

/-- Where reading stands: the bytes not read yet and the offset of the first of them. -/
structure Cursor where
  rest : Bytes
  offset : Nat
  deriving DecidableEq, Repr

namespace Cursor

/-- The next `n` bytes. -/
def take? (c : Cursor) (part : ClassFile.Part) (n : Nat) :
    Except ClassFile.Error (Bytes × Cursor) :=
  let head := c.rest.take n
  if head.length = n then .ok (head, ⟨c.rest.drop n, c.offset + n⟩)
  else .error (.truncated part c.offset)

/-- The next number of `n` bytes. -/
def number? (c : Cursor) (part : ClassFile.Part) (n : Nat) :
    Except ClassFile.Error (Nat × Cursor) := do
  let (s, c) ← c.take? part n
  return (Bytes.ofBigEndian s, c)

theorem take?_eq_ok_iff {c d : Cursor} {part : ClassFile.Part} {n : Nat} {s : Bytes} :
    c.take? part n = .ok (s, d) ↔ c.rest = s ++ d.rest ∧ s.length = n ∧ d.offset = c.offset + n := by
  obtain ⟨rest, offset⟩ := c
  obtain ⟨rest', offset'⟩ := d
  simp only [take?]
  split
  next h =>
    simp only [Except.ok.injEq, Prod.mk.injEq, Cursor.mk.injEq]
    constructor
    · rintro ⟨rfl, rfl, rfl⟩; exact ⟨(List.take_append_drop n rest).symm, h, rfl⟩
    · rintro ⟨rfl, rfl, rfl⟩; simp
  next h =>
    simp only [reduceCtorEq, false_iff, not_and]
    rintro rfl rfl
    simp at h

end Cursor

/-- The constant that starts at the cursor, for the slot `index`. -/
def Slot.read? (index : Nat) (c : Cursor) : Except ClassFile.Error (Slot × Cursor) := do
  let (tag, c) ← c.take? .constantTag 1
  let tag := tag.headD 0
  if tag = utf8Tag then
    let (length, c) ← c.number? .utf8Length 2
    let (payload, c) ← c.take? .utf8Bytes length
    return (utf8 payload, c)
  else
    match bodySize? tag with
    | none => throw (.unknownTag tag index)
    | some size =>
      let (body, c) ← c.take? .constantBody size
      return (other tag body, c)

namespace ClassFile

/-- The constants that fill `left` more slots from `index` on, behind the slots read, which come
last first. A wide constant takes the slot behind it too, unless it ends the pool. -/
def readPool? : Nat → Nat → List Slot → Cursor → Except Error (List Slot × Cursor)
  | 0, _, read, c => .ok (read.reverse, c)
  | left + 1, index, read, c =>
    match Slot.read? index c with
    | .error e => .error e
    | .ok (s, c) =>
      if s.isWide then
        match left with
        | 0 => .ok ((s :: read).reverse, c)
        | left + 1 => readPool? left (index + 2) (.unusable :: s :: read) c
      else readPool? left (index + 1) (s :: read) c

/-- What has to follow the pool at the least: access flags, this class and its superclass. -/
def minRemainder : Nat := 6

/-- The class file that bytes hold. -/
def parse? (data : Bytes) : Except Error ClassFile := do
  let (magic, c) ← (⟨data, 0⟩ : Cursor).take? .magic 4
  if Bytes.ofBigEndian magic ≠ classMagic then
    throw (.badMagic (Bytes.ofBigEndian magic))
  let (version, c) ← c.take? .version 4
  let (count, c) ← c.number? .poolCount 2
  if count = 0 then
    throw .emptyPool
  let (pool, c) ← readPool? (count - 1) 1 [.unusable] c
  if (c.rest.take minRemainder).length < minRemainder then
    throw (.truncated .classHeader c.offset)
  return ⟨magic ++ version, pool, c.rest⟩

end ClassFile

end PackageMigration
