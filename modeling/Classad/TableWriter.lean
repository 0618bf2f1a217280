import Classad.ByteParser

/-! Writers that replace names by their numbers in a table which grows as it is written to,
and parsers that have the table as it was left. A name is read back in the spelling under
which the table first met it. -/
namespace Classad.TableWriter
open ByteParser
open List hiding count

section Table
variable {α κ : Type} [DecidableEq κ] (fold : α → κ)

/-- The number of a name, and the table with the name in it. -/
def intern (name : α) (names : List α) : Nat × List α :=
  match names.findIdx? (fold · = fold name) with
  | some number => (number, names)
  | none => (names.length, names ++ [name])

/-- The spelling the table has for a name; a name it does not have keeps its own. -/
def canonical (names : List α) (name : α) : α :=
  (names.find? (fold · = fold name)).getD name

theorem intern_grows {name : α} {names : List α} : names <+: (intern fold name names).2 := by
  rw [intern]
  split
  · exact prefix_rfl
  · exact prefix_append names [name]

/-- The number is the place of the first spelling of the name. -/
theorem intern_found :
    (intern fold name names).2.findIdx? (fold · = fold name) = some (intern fold name names).1 := by
  rw [intern]
  split
  next number found => exact found
  next absent => rw [findIdx?_append, absent]; simp

theorem findIdx?_of_prefix (grown : names <+: final)
    (found : names.findIdx? p = some number) : final.findIdx? p = some number := by
  obtain ⟨more, rfl⟩ := grown
  rw [findIdx?_append, found, Option.some_or]

theorem find?_of_findIdx? {names : List α}
    (found : names.findIdx? p = some number) : names.find? p = names[number]? := by
  induction names generalizing number with
  | nil => simp at found
  | cons head rest ih =>
    rw [findIdx?_cons] at found
    by_cases holds : p head
    · rw [if_pos holds, Option.some.injEq] at found
      rw [← found, find?_cons_of_pos holds, getElem?_cons_zero]
    · rw [if_neg holds] at found
      obtain ⟨before, earlier, rfl⟩ := Option.map_eq_some_iff.mp found
      rw [find?_cons_of_neg holds, getElem?_cons_succ, ih earlier]

/-- A table that has grown since resolves the number to the first spelling of the name. -/
theorem getElem?_intern (grown : (intern fold name names).2 <+: final) :
    final[(intern fold name names).1]? = some (canonical fold final name) := by
  have found := findIdx?_of_prefix grown (intern_found fold)
  obtain ⟨present, -⟩ := findIdx?_eq_some_iff_getElem.mp found
  rw [canonical, find?_of_findIdx? found, getElem?_eq_getElem present, Option.getD_some]

theorem intern_lt (grown : (intern fold name names).2 <+: final) : (intern fold name names).1 < final.length := by
  have found := findIdx?_of_prefix grown (intern_found fold)
  exact (findIdx?_eq_some_iff_getElem.mp found).1

end Table

/-- A writer appends bytes and leaves a table. -/
structure Writer (α : Type) where
  run : List α → Bytes × List α

namespace Writer
variable {α : Type}

/-- Bytes that do not depend on the table. -/
def literal (bytes : Bytes) : Writer α := ⟨fun names => (bytes, names)⟩

instance : Append (Writer α) where
  append first second := ⟨fun names =>
    let (bytes, names₁) := first.run names
    let (more, names₂) := second.run names₁
    (bytes ++ more, names₂)⟩

@[simp] theorem literal_run (bytes : Bytes) (names : List α) : (literal bytes).run names = (bytes, names) := rfl

@[simp] theorem append_run (first second : Writer α) (names : List α) :
    (first ++ second).run names =
      ((first.run names).1 ++ (second.run (first.run names).2).1, (second.run (first.run names).2).2) := rfl

end Writer

/-- The writer never takes a name out of the table, and whatever the table comes to be at the
end, the parser reads the value off the written bytes. -/
structure RoundTrips {α ε β : Type} (final : List α) (w : Writer α) (p : Parser ε β) (value : β) : Prop where
  grows : ∀ names, names <+: (w.run names).2
  reads : ∀ names, (w.run names).2 <+: final → Reads p (w.run names).1 value

namespace RoundTrips
variable {α ε β γ : Type} {final : List α}

theorem literal (read : Reads p bytes value) : RoundTrips final (Writer.literal bytes) p value :=
  ⟨fun _ => prefix_rfl, fun _ _ => read⟩

theorem seq (left : RoundTrips final w p b) (right : RoundTrips final w' (f b) c) :
    RoundTrips final (w ++ w') (p >>= f) c := by
  constructor
  · intro names
    exact (left.grows names).trans (right.grows _)
  · intro names grown
    have between : (w.run names).2 <+: final := (right.grows _).trans grown
    exact (left.reads names between).bind (right.reads _ grown)

theorem map (f : β → γ) (left : RoundTrips final w p b) :
    RoundTrips final w (p >>= fun value => pure (f value)) (f b) :=
  ⟨left.grows, fun names grown => (left.reads names grown).map f⟩

theorem many_cons (head : RoundTrips final w p b) (tail : RoundTrips final w' (many p count) bs) :
    RoundTrips final (w ++ w') (many p (count + 1)) (b :: bs) :=
  head.seq (tail.map (b :: ·))

/-- A step that takes no bytes may come first. -/
theorem after (passes : Reads p [] b)
    (items : RoundTrips final w (f b) c) : RoundTrips final w (p >>= f) c :=
  ⟨items.grows, fun names grown => passes.bind (items.reads names grown)⟩

theorem checked (enough : ∀ names, count ≤ (w.run names).1.length) (items : RoundTrips final w p b) :
    RoundTrips final w (do checkCount excess count; p) b :=
  ⟨items.grows, fun names grown => checkCount_reads (enough names) (items.reads names grown)⟩

end RoundTrips

end Classad.TableWriter
