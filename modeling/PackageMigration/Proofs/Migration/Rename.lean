import PackageMigration.Migration.Tree
import PackageMigration.Proofs.FileSystem.Walk
import PackageMigration.Proofs.Mapping.Reworded
/-
  The new names of files and directories of a tree.

  Main statements: `Reworded.isName` (a path of names stays one), `renameDirectory?_eq_some_iff`,
  `reworded_renameDirectory?`.
-/
namespace PackageMigration

open PackageMigration.Path (IsName)

/-! ## Parts of reworded paths -/

/-- Some byte is one of an identifier. -/
def HasIdent (p : Bytes) : Prop := ∃ b ∈ p, Name.isIdent b

theorem HasIdent.isName {p : Bytes} (h : HasIdent p) (hslash : Byte.slash ∉ p) : IsName p := by
  obtain ⟨b, hb, hident⟩ := h
  have hdots : ∀ c ∈ Path.above, Name.isIdent c = false := by decide +kernel
  have hne : ∀ {q : Bytes}, q ⊆ Path.above → p ≠ q := by
    rintro q hq rfl
    rw [hdots b (hq hb)] at hident
    cases hident
  exact ⟨hne (by decide), hne (by decide), hne (by decide), hslash⟩

theorem HasIdent.of_isSegment {s : Bytes} (h : Name.IsSegment s) : HasIdent s := by
  obtain ⟨b, s, rfl⟩ := List.exists_cons_of_ne_nil h.1
  exact ⟨b, List.mem_cons_self, h.2 b List.mem_cons_self⟩

/-- All parts that a chain touches are names. -/
theorem Chain.IsProper.exists_splitOn {c : Chain} (hc : c.IsProper) {p : Bytes}
    (hp : Byte.slash ∉ p) : ∃ front q, Byte.slash ∉ q ∧ HasIdent q ∧ (∀ r ∈ front, IsName r) ∧
      ∀ s, Bytes.splitOn Byte.slash (p ++ (c.bytes ++ s)) =
        front ++ Bytes.splitOn Byte.slash (q ++ s) := by
  have hruns : ∀ {rest : List (UInt8 × Bytes)} {q : Bytes},
      (∀ x ∈ rest, isSeparator x.1 ∧ Name.IsSegment x.2) → Byte.slash ∉ q → HasIdent q →
      ∃ front q', Byte.slash ∉ q' ∧ HasIdent q' ∧ (∀ r ∈ front, IsName r) ∧
        ∀ s, Bytes.splitOn Byte.slash (q ++ (runBytes rest ++ s)) =
          front ++ Bytes.splitOn Byte.slash (q' ++ s) := by
    intro rest
    induction rest with
    | nil => exact fun {q} _ hq hident => ⟨[], q, hq, hident, nofun, fun s => rfl⟩
    | cons x rest ih =>
      intro q hrest hq hident
      obtain ⟨⟨hsep, hseg⟩, hrest⟩ := List.forall_mem_cons.1 hrest
      have hslash : Byte.slash ∉ x.2 := hseg.notMem (by decide)
      have hcons : ∀ s, runBytes (x :: rest) ++ s = x.1 :: (x.2 ++ (runBytes rest ++ s)) := by
        intro s
        simp [runBytes]
      by_cases hx : x.1 = Byte.slash
      · obtain ⟨front, q', hq', hident', hfront, hsplit⟩ := ih hrest hslash (.of_isSegment hseg)
        refine ⟨q :: front, q', hq', hident',
          List.forall_mem_cons.2 ⟨hident.isName hq, hfront⟩, fun s => ?_⟩
        rw [hcons, hx, Bytes.splitOn_append_cons hq, hsplit]
        rfl
      · have hq' : Byte.slash ∉ q ++ x.1 :: x.2 := by
          simp [hq, hslash, Ne.symm hx]
        obtain ⟨b, hb, hb'⟩ := hident
        obtain ⟨front, q', hq', hident', hfront, hsplit⟩ :=
          ih hrest hq' ⟨b, List.mem_append_left _ hb, hb'⟩
        refine ⟨front, q', hq', hident', hfront, fun s => ?_⟩
        rw [← hsplit s, hcons]
        simp
  have hfirst : Byte.slash ∉ p ++ c.first := by
    simp [hp, hc.first.notMem (show Name.isIdent Byte.slash = false by decide)]
  obtain ⟨b, hb, hb'⟩ := HasIdent.of_isSegment hc.first
  obtain ⟨front, q, hq, hident, hfront, hsplit⟩ := hruns
    (fun x hx => hc.rest x hx) hfirst ⟨b, List.mem_append_right _ hb, hb'⟩
  refine ⟨front, q, hq, hident, hfront, fun s => ?_⟩
  rw [← hsplit s, Chain.bytes]
  simp

/-- **A path of names is one after some chains are replaced.** -/
theorem Reworded.isName {s s' : Bytes} (h : Reworded s s')
    (hs : ∀ p ∈ Bytes.splitOn Byte.slash s, IsName p) :
    ∀ p ∈ Bytes.splitOn Byte.slash s', IsName p := by
  -- `p` and `p'` are the parts that have begun; they are the same or touch a chain
  have key : ∀ {p p' : Bytes}, (p = p' ∨ HasIdent p') → Byte.slash ∉ p → Byte.slash ∉ p' →
      (∀ r ∈ Bytes.splitOn Byte.slash (p ++ s), IsName r) →
        ∀ r ∈ Bytes.splitOn Byte.slash (p' ++ s'), IsName r := by
    clear hs
    induction h with
    | nil =>
      intro p p' hpp hp hp' hs
      rw [List.append_nil, Bytes.splitOn_of_notMem hp, List.forall_mem_singleton] at hs
      rw [List.append_nil, Bytes.splitOn_of_notMem hp', List.forall_mem_singleton]
      rcases hpp with rfl | hident
      · exact hs
      · exact hident.isName hp'
    | @keep b s s' _ ih =>
      intro p p' hpp hp hp' hs
      by_cases hb : b = Byte.slash
      · subst hb
        rw [Bytes.splitOn_append_cons hp, List.forall_mem_cons] at hs
        rw [Bytes.splitOn_append_cons hp', List.forall_mem_cons]
        refine ⟨?_, @ih [] [] (.inl rfl) nofun nofun hs.2⟩
        rcases hpp with rfl | hident
        · exact hs.1
        · exact hident.isName hp'
      · rw [List.append_cons] at hs ⊢
        refine ih ?_ (by simp [hp, Ne.symm hb]) (by simp [hp', Ne.symm hb]) hs
        rcases hpp with rfl | ⟨a, ha, hident⟩
        · exact .inl rfl
        · exact .inr ⟨a, List.mem_append_left _ ha, hident⟩
    | word hc hc' _ ih =>
      intro p p' hpp hp hp' hs
      obtain ⟨front, q, hq, -, -, hsplit⟩ := hc.exists_splitOn hp
      obtain ⟨front', q', hq', hident', hfront', hsplit'⟩ := hc'.exists_splitOn hp'
      rw [hsplit, List.forall_mem_append] at hs
      rw [hsplit', List.forall_mem_append]
      exact ⟨hfront', ih (.inr hident') hq hq' hs.2⟩
  exact @key [] [] (.inl rfl) nofun nofun hs

/-! ## Directories -/

/-- A byte at the end that stands in no name stays apart. -/
theorem Reworded.exists_append_singleton {u s' : Bytes} {b : UInt8} (h : Reworded (u ++ [b]) s')
    (hb : Name.isIdent b = false) : ∃ u', s' = u' ++ [b] ∧ Reworded u u' := by
  generalize hs : u ++ [b] = s at h
  induction h generalizing u with
  | nil => simp at hs
  | @keep a s s' h ih =>
    cases u with
    | nil =>
      obtain ⟨rfl, rfl⟩ := List.cons.inj hs
      obtain rfl := h.eq_nil_iff.1 rfl
      exact ⟨[], rfl, .nil⟩
    | cons c u =>
      obtain ⟨rfl, hrest⟩ := List.cons.inj hs
      obtain ⟨u', rfl, hu⟩ := ih hrest
      exact ⟨c :: u', rfl, .keep c hu⟩
  | @word c c' s s' hc hc' h ih =>
    by_cases hnil : s = []
    · obtain ⟨w, a, hw, ha⟩ := hc.exists_bytes_eq
      rw [hnil, List.append_nil, hw] at hs
      obtain ⟨-, hlast⟩ := List.append_inj' hs rfl
      obtain ⟨rfl, -⟩ := List.cons.inj hlast
      rw [hb] at ha
      cases ha
    · rw [← List.dropLast_append_getLast hnil, ← List.append_assoc] at hs
      obtain ⟨rfl, hlast⟩ := List.append_inj' hs rfl
      obtain ⟨u', rfl, hu⟩ := ih (u := s.dropLast) (by
        rw [hlast, List.dropLast_append_getLast hnil])
      exact ⟨c'.bytes ++ u', (List.append_assoc _ _ _).symm, .word hc hc' hu⟩

section
variable {t : Table} {name new : Bytes} (hname : name.getLast? ≠ some Byte.slash)
include hname

/-- A directory gets the name that the entry for it would get, without the slash at the end. -/
theorem renameDirectory?_eq_some_iff : Migration.renameDirectory? t name = some new ↔
    t.renameEntry? (name ++ [Byte.slash]) = some (new ++ [Byte.slash]) := by
  have htrim : ∀ {u : Bytes}, u.getLast? ≠ some Byte.slash →
      ((u ++ [Byte.slash]).reverse.dropWhile (· == Byte.slash)).reverse = u := by
    intro u hu
    rw [← List.head?_reverse] at hu
    have hlast : u.reverse.dropWhile (· == Byte.slash) = u.reverse := by
      cases hr : u.reverse with
      | nil => rfl
      | cons b rest =>
        rw [hr, List.head?_cons] at hu
        exact List.dropWhile_cons_of_neg (by simpa using hu)
    rw [List.reverse_concat, List.dropWhile_cons_of_pos (by simp), hlast, List.reverse_reverse]
  have hnew : ∀ {new'}, t.renameEntry? (name ++ [Byte.slash]) = some new' →
      ∃ u, new' = u ++ [Byte.slash] ∧ u.getLast? ≠ some Byte.slash := by
    intro new' hnew
    obtain ⟨u, rfl, hu⟩ := (Table.reworded_renameEntry? hnew).exists_append_singleton (by decide)
    exact ⟨u, rfl, mt (hu.getLast?_iff (by decide)).2 hname⟩
  rw [Migration.renameDirectory?, Option.map_eq_some_iff]
  constructor
  · rintro ⟨new', hrenamed, rfl⟩
    obtain ⟨u, rfl, hu⟩ := hnew hrenamed
    rw [htrim hu, hrenamed]
  · intro hrenamed
    obtain ⟨u, hu, hlast⟩ := hnew hrenamed
    obtain rfl := List.append_cancel_right hu
    exact ⟨_, hrenamed, htrim hlast⟩

theorem reworded_renameDirectory? (h : Migration.renameDirectory? t name = some new) :
    Reworded name new := by
  have hrenamed := Table.reworded_renameEntry? ((renameDirectory?_eq_some_iff hname).1 h)
  obtain ⟨u, hu, hreworded⟩ := hrenamed.exists_append_singleton (by decide)
  rwa [List.append_cancel_right hu]

theorem getD_renameDirectory? : (t.renameEntry? (name ++ [Byte.slash])).getD (name ++ [Byte.slash]) =
    (Migration.renameDirectory? t name).getD name ++ [Byte.slash] := by
  cases h : Migration.renameDirectory? t name with
  | some new => rw [(renameDirectory?_eq_some_iff hname).1 h, Option.getD_some, Option.getD_some]
  | none =>
    rw [Migration.renameDirectory?, Option.map_eq_none_iff] at h
    rw [h, Option.getD_none, Option.getD_none]

end

end PackageMigration
