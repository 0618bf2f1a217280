import Mathlib
import Classad.WireCodec

/-! Decoding a node undoes encoding it. What comes back has every name in the spelling the
table first met it under and undefined for nil; nothing else changes. -/
namespace Classad.WireNodeProofs
open Ast ByteParser TableWriter WireCodec
open List hiding count
open Encoder (entries interned node nodes putKey)
open RoundTrips (after checked literal many_cons map)

section Trees

mutual

/-- The tree with all its names respelled, and no nil in it. -/
def respelled (spell : Text → Text) : Expr → Expr
  | .nil => .undefined
  | .undefined => .undefined
  | .error => .error
  | .boolean value => .boolean value
  | .integer value => .integer value
  | .real value => .real value
  | .string value => .string value
  | .reference name scope => .reference (spell name) scope
  | .binary op left right => .binary op (respelled spell left) (respelled spell right)
  | .unary op operand => .unary op (respelled spell operand)
  | .list elements => .list (respelledAll spell elements)
  | .record attributes => .record (respelledAd spell attributes)
  | .call name args => .call (spell name) (respelledAll spell args)
  | .conditional condition whenTrue whenFalse =>
    .conditional (respelled spell condition) (respelled spell whenTrue) (respelled spell whenFalse)
  | .elvis left right => .elvis (respelled spell left) (respelled spell right)
  | .select record attr => .select (respelled spell record) (spell attr)
  | .subscript container index => .subscript (respelled spell container) (respelled spell index)
  | .paren inner => .paren (respelled spell inner)

def respelledAll (spell : Text → Text) : List Expr → List Expr
  | [] => []
  | head :: rest => respelled spell head :: respelledAll spell rest

def respelledAd (spell : Text → Text) : List (Text × Expr) → List (Text × Expr)
  | [] => []
  | (name, value) :: rest => (spell name, respelled spell value) :: respelledAd spell rest

end

mutual

/-- The levels of nesting the decoder counts for a tree. A record takes one for itself and
one for its attributes. -/
def levels : Expr → Nat
  | .nil | .undefined | .error | .boolean _ | .integer _ | .real _ | .string _ | .reference _ _ => 1
  | .binary _ left right => 1 + max (levels left) (levels right)
  | .unary _ operand => 1 + levels operand
  | .list elements => 1 + levelsAll elements
  | .record attributes => 2 + levelsAd attributes
  | .call _ args => 1 + levelsAll args
  | .conditional condition whenTrue whenFalse =>
    1 + max (levels condition) (max (levels whenTrue) (levels whenFalse))
  | .elvis left right => 1 + max (levels left) (levels right)
  | .select record _ => 1 + levels record
  | .subscript container index => 1 + max (levels container) (levels index)
  | .paren inner => 1 + levels inner

def levelsAll : List Expr → Nat
  | [] => 0
  | head :: rest => max (levels head) (levelsAll rest)

def levelsAd : List (Text × Expr) → Nat
  | [] => 0
  | (_, value) :: rest => max (levels value) (levelsAd rest)

end

/-- A string has fewer bytes than an address space. -/
def Short (text : Text) : Prop := text.length < 2 ^ 63

mutual

/-- The strings and slices of the tree are no longer than the runtime makes them. -/
def Sized : Expr → Prop
  | .nil | .undefined | .error | .boolean _ | .integer _ | .real _ => True
  | .string value => Short value
  | .reference name _ => Short name
  | .binary op left right => Short op ∧ Sized left ∧ Sized right
  | .unary op operand => Short op ∧ Sized operand
  | .list elements => elements.length ≤ sliceLimit 16 ∧ SizedAll elements
  | .record attributes => attributes.length ≤ sliceLimit 8 ∧ SizedAd attributes
  | .call name args => Short name ∧ args.length ≤ sliceLimit 16 ∧ SizedAll args
  | .conditional condition whenTrue whenFalse => Sized condition ∧ Sized whenTrue ∧ Sized whenFalse
  | .elvis left right => Sized left ∧ Sized right
  | .select record attr => Sized record ∧ Short attr
  | .subscript container index => Sized container ∧ Sized index
  | .paren inner => Sized inner

def SizedAll : List Expr → Prop
  | [] => True
  | head :: rest => Sized head ∧ SizedAll rest

def SizedAd : List (Text × Expr) → Prop
  | [] => True
  | (name, value) :: rest => Short name ∧ Sized value ∧ SizedAd rest

end

theorem levels_pos (expr : Expr) : 1 ≤ levels expr := by
  cases expr <;> simp only [levels] <;> omega

end Trees

/-- The decoder reads names the way the encoder writes them, from the table it has left. -/
structure Suits (d : Decoder) (e : Encoder) (final : List Text) : Prop where
  inline : d.inline = e.inline
  resolves : e.inline = false → d.resolve = some (final[·]?)
  small : e.inline = false → final.length ≤ 2 ^ 32

/-- The spelling in which a name comes back. -/
def spelling (e : Encoder) (final : List Text) (name : Text) : Text :=
  if e.inline then name else canonical e.toLower final name

section Parts
variable {e : Encoder} {d : Decoder} {final : List Text}

theorem readString_reads (short : Short text) : Reads readString (lengthPrefixed text) text := by
  apply readPrefixed_reads
  rw [Short] at short
  omega

theorem makeSlice_reads (fits : count ≤ sliceLimit width) : Reads (makeSlice width count) [] () := by
  rw [makeSlice, if_pos fits]
  exact Reads.pure ()

theorem sliceLimit_lt (width : Nat) : sliceLimit width < 2 ^ 64 := by
  have le : 2 ^ 48 / width ≤ 2 ^ 48 := Nat.div_le_self _ _
  rw [sliceLimit]
  omega

theorem readNumber_reads (small : number < 2 ^ 64) : Reads readNumber (uvarint number) number :=
  readUvarint_reads _ small

theorem interned_roundTrips (suits : Suits d e final) (table : e.inline = false) (unknown : Nat → Malformed) :
    RoundTrips final (e.interned name) (d.resolved unknown) (spelling e final name) := by
  constructor
  · intro names
    exact intern_grows e.toLower
  · intro names grown
    have number : (intern e.toLower name names).1 < 2 ^ 32 := (intern_lt e.toLower grown).trans_le (suits.small table)
    have whole : (intern e.toLower name names).1 % 2 ^ 32 = (intern e.toLower name names).1 := Nat.mod_eq_of_lt number
    have read : Reads readNumber (uvarint ((intern e.toLower name names).1 % 2 ^ 32)) _ := readNumber_reads (by omega)
    refine read.finish ?_
    rw [whole, Decoder.nameOf, suits.resolves table]
    simp only [whole, getElem?_intern e.toLower grown, spelling, table]
    exact Reads.pure _

theorem putKey_roundTrips (suits : Suits d e final) (short : Short name) :
    RoundTrips final (e.putKey name) d.key (spelling e final name) := by
  rw [putKey, Decoder.key, suits.inline]
  cases names : e.inline with
  | true =>
    rw [spelling, names]
    exact .literal (readString_reads short)
  | false => exact interned_roundTrips suits names _

theorem tagged (payload : RoundTrips final w (d.payload (d.node left) (d.adBody left) tag) value) :
    RoundTrips final (.literal [tag.byte] ++ w) (d.node (left + 1)) value := by
  refine (literal (byteAt_reads)).seq ?_
  simp only [Tag.ofByte_byte]
  exact payload

theorem untagged (payload : d.payload (d.node left) (d.adBody left) tag = pure value) :
    RoundTrips final (.literal [tag.byte]) (d.node (left + 1)) value := by
  refine .literal ((byteAt_reads).finish ?_)
  simp only [Tag.ofByte_byte, payload]
  exact Reads.pure value

/-- An operator of the table is found at its number. -/
theorem listedOperator_reads (few : table.length ≤ 256)
    (found : table.findIdx? (· = op) = some number) : Reads (listedOperator table) [number.toUInt8] op := by
  obtain ⟨present, same, -⟩ := findIdx?_eq_some_iff_getElem.mp found
  have small : number.toUInt8.toNat = number := by
    simpa using (show number < 256 by omega)
  refine (byteAt_reads).finish ?_
  have entry : table[number]? = some op := by
    rw [getElem?_eq_getElem present]
    simpa using same
  rw [small, entry]
  exact Reads.pure op

theorem operation_roundTrips (few : table.length ≤ 256) (short : Short op)
    (readsListed : d.payload (d.node left) (d.adBody left) listed = listedOperator table >>= rest)
    (readsUnlisted : d.payload (d.node left) (d.adBody left) unlisted = readString >>= rest)
    (operand : RoundTrips final operands (rest op) value) :
    RoundTrips final (operation table listed unlisted op operands) (d.node (left + 1)) value := by
  rw [operation]
  split
  next number found =>
    refine tagged ?_
    rw [readsListed]
    exact (literal (listedOperator_reads few found)).seq operand
  next =>
    refine tagged ?_
    rw [readsUnlisted]
    exact (literal (readString_reads short)).seq operand

end Parts

section Nodes
variable {e : Encoder} {d : Decoder} {final : List Text}

theorem node_ne_nil (e : Encoder) (expr : Expr) (names : List Text) : 1 ≤ ((e.node expr).run names).1.length := by
  have opened : ∀ table listed unlisted op (w : Writer Text),
      1 ≤ ((operation table listed unlisted op w).run names).1.length := by
    intro table listed unlisted op w
    rw [operation]
    split <;> simp
  cases expr with
  | binary op left right => exact opened ..
  | unary op operand => exact opened ..
  | boolean value => cases value <;> simp [node]
  | reference name scope => rw [node]; split <;> simp
  | call name args => rw [node]; split <;> simp
  | select record attr => rw [node]; split <;> simp
  | _ => simp [node]

theorem nodes_length (e : Encoder) (elements : List Expr) (names : List Text) :
    elements.length ≤ ((e.nodes elements).run names).1.length := by
  induction elements generalizing names with
  | nil => simp
  | cons head rest ih =>
    have one := node_ne_nil e head names
    have more := ih ((e.node head).run names).2
    rw [nodes, Writer.append_run]
    simp only [length_cons, length_append]
    omega

/-- Nodes that fit into the levels left are read back. -/
def ReadsNodes (e : Encoder) (d : Decoder) (final : List Text) (left : Nat) : Prop :=
  ∀ expr, levels expr ≤ left → Sized expr →
    RoundTrips final (e.node expr) (d.node left) (respelled (spelling e final) expr)

theorem nodes_roundTrips (ih : ReadsNodes e d final left)
    (deep : levelsAll elements ≤ left) (sized : SizedAll elements) :
    RoundTrips final (e.nodes elements) (many (d.node left) elements.length)
    (respelledAll (spelling e final) elements) := by
  induction elements with
  | nil => exact .literal (many_reads_nil _)
  | cons head rest induct =>
    rw [levelsAll] at deep
    obtain ⟨headSized, restSized⟩ := sized
    exact (ih head (by omega) headSized).many_cons (induct (by omega) restSized)

theorem counted_roundTrips (ih : ReadsNodes e d final left)
    (deep : levelsAll elements ≤ left) (few : elements.length ≤ sliceLimit 16) (sized : SizedAll elements) :
    RoundTrips final (.literal (uvarint elements.length) ++ e.nodes elements) (counted (d.node left))
      (respelledAll (spelling e final) elements) := by
  have small : elements.length < 2 ^ 64 := few.trans_lt (sliceLimit_lt 16)
  refine (literal (readNumber_reads small)).seq ?_
  apply checked (nodes_length e elements)
  apply after (makeSlice_reads few)
  exact nodes_roundTrips ih deep sized

theorem entries_roundTrips (suits : Suits d e final) (ih : ReadsNodes e d final left)
    (deep : levelsAd attributes ≤ left) (sized : SizedAd attributes) :
    RoundTrips final (e.entries attributes) (many (d.attribute (d.node left)) attributes.length)
      (respelledAd (spelling e final) attributes) := by
  induction attributes with
  | nil => exact .literal (many_reads_nil _)
  | cons attr rest induct =>
    obtain ⟨name, value⟩ := attr
    rw [levelsAd] at deep
    obtain ⟨short, valueSized, restSized⟩ := sized
    refine many_cons ((putKey_roundTrips suits short).seq ?_) (induct (by omega) restSized)
    exact (ih value (by omega) valueSized).map _

theorem body_roundTrips (suits : Suits d e final) (ih : ReadsNodes e d final left)
    (deep : levelsAd attributes ≤ left) (few : attributes.length ≤ sliceLimit 8) (sized : SizedAd attributes) :
    RoundTrips final (body attributes.length (e.entries attributes)) (d.adBody (left + 1))
      (respelledAd (spelling e final) attributes) := by
  have small : attributes.length < 2 ^ 64 := few.trans_lt (sliceLimit_lt 8)
  refine (literal (readNumber_reads (by decide))).seq ?_
  apply after (Reads.pure [])
  refine (literal (readNumber_reads small)).seq ?_
  apply after (makeSlice_reads few)
  exact entries_roundTrips suits ih deep sized

/-- Every case of the encoder against the case of the decoder its tag selects. The induction is
on the levels left, which both the nodes and the records nested in a node have one less of. -/
theorem reads_nodes (suits : Suits d e final) (left : Nat) :
    ReadsNodes e d final left ∧ ∀ attributes, levelsAd attributes + 1 ≤ left → attributes.length ≤ sliceLimit 8 →
      SizedAd attributes → RoundTrips final (e.adBody attributes) (d.adBody left)
      (respelledAd (spelling e final) attributes) := by
  induction left with
  | zero =>
    refine ⟨fun expr deep => ?_, fun attributes deep => ?_⟩
    · have one := levels_pos expr
      omega
    · omega
  | succ left ih =>
    obtain ⟨nodes, records⟩ := ih
    refine ⟨fun expr deep sized => ?_, fun attributes deep few sized => ?_⟩
    · cases expr with
      | nil => exact untagged rfl
      | undefined => exact untagged rfl
      | error => exact untagged rfl
      | boolean value => cases value <;> exact untagged rfl
      | integer value => exact tagged (map Expr.integer (.literal (readVarint_reads _ value)))
      | real value =>
        have bits : RoundTrips final (.literal (littleEndian 8 value.toBits.toNat))
            (readUInt64 (Fault.malformed .shortFloat)) value.toBits := .literal (readUInt64_reads _ _)
        have read := bits.map fun word => Expr.real (Float.ofBits word)
        rw [Float.ofBits_toBits] at read
        exact tagged read
      | string value => exact tagged (map Expr.string (.literal (readString_reads sized)))
      | reference name scope =>
        rw [node]
        split
        next inline =>
          refine tagged ((literal (byteAt_reads)).seq ?_)
          rw [respelled, spelling, if_pos inline]
          exact (literal (readString_reads sized)).map _
        next table =>
          refine tagged ((literal (byteAt_reads)).seq ?_)
          exact (interned_roundTrips suits (by simpa using table) _).map _
      | binary op first second =>
        rw [levels] at deep
        obtain ⟨short, firstSized, secondSized⟩ := sized
        refine operation_roundTrips (by decide) short rfl rfl ?_
        refine (nodes first (by omega) firstSized).seq ?_
        exact (nodes second (by omega) secondSized).map _
      | unary op operand =>
        rw [levels] at deep
        refine operation_roundTrips (by decide) sized.1 rfl rfl ?_
        exact (nodes operand (by omega) sized.2).map _
      | list elements =>
        rw [levels] at deep
        exact tagged ((counted_roundTrips nodes (by omega) sized.1 sized.2).map _)
      | record attributes =>
        rw [levels] at deep
        exact tagged ((records attributes (by omega) sized.1 sized.2).map _)
      | call name args =>
        rw [levels] at deep
        obtain ⟨short, few, argsSized⟩ := sized
        have read := counted_roundTrips nodes (by omega) few argsSized
        rw [node]
        split
        next inline =>
          refine tagged ((literal (readString_reads short)).seq ?_)
          rw [respelled, spelling, if_pos inline]
          exact read.map _
        next table =>
          refine tagged ((interned_roundTrips suits (by simpa using table) _).seq ?_)
          exact read.map _
      | conditional condition whenTrue whenFalse =>
        rw [levels] at deep
        obtain ⟨first, second, third⟩ := sized
        refine tagged ((nodes condition (by omega) first).seq ?_)
        refine (nodes whenTrue (by omega) second).seq ?_
        exact (nodes whenFalse (by omega) third).map _
      | elvis first second =>
        rw [levels] at deep
        refine tagged ((nodes first (by omega) sized.1).seq ?_)
        exact (nodes second (by omega) sized.2).map _
      | select record attr =>
        rw [levels] at deep
        have read := nodes record (by omega) sized.1
        rw [node]
        split
        next inline =>
          refine tagged (read.seq ?_)
          rw [respelled, spelling, if_pos inline]
          exact (literal (readString_reads sized.2)).map _
        next table =>
          refine tagged (read.seq ?_)
          exact (interned_roundTrips suits (by simpa using table) _).map _
      | subscript container index =>
        rw [levels] at deep
        refine tagged ((nodes container (by omega) sized.1).seq ?_)
        exact (nodes index (by omega) sized.2).map _
      | paren inner =>
        rw [levels] at deep
        exact tagged ((nodes inner (by omega) sized).map _)
    · exact body_roundTrips suits nodes (by omega) few sized

end Nodes

section Tables

mutual

/-- The names of a tree, in the order in which they are written. -/
def namesOf : Expr → List Text
  | .nil | .undefined | .error | .boolean _ | .integer _ | .real _ | .string _ => []
  | .reference name _ => [name]
  | .binary _ left right => namesOf left ++ namesOf right
  | .unary _ operand => namesOf operand
  | .list elements => namesOfAll elements
  | .record attributes => namesOfAd attributes
  | .call name args => name :: namesOfAll args
  | .conditional condition whenTrue whenFalse => namesOf condition ++ (namesOf whenTrue ++ namesOf whenFalse)
  | .elvis left right => namesOf left ++ namesOf right
  | .select record attr => namesOf record ++ [attr]
  | .subscript container index => namesOf container ++ namesOf index
  | .paren inner => namesOf inner

def namesOfAll : List Expr → List Text
  | [] => []
  | head :: rest => namesOf head ++ namesOfAll rest

def namesOfAd : List (Text × Expr) → List Text
  | [] => []
  | (name, value) :: rest => name :: (namesOf value ++ namesOfAd rest)

end

/-- The table once the names are in it. -/
def internAll (toLower : Text → Text) : List Text → List Text → List Text
  | [], names => names
  | name :: rest, names => internAll toLower rest (intern toLower name names).2

variable {toLower : Text → Text}

theorem internAll_append (first second names : List Text) :
    internAll toLower (first ++ second) names = internAll toLower second (internAll toLower first names) := by
  induction first generalizing names with
  | nil => rfl
  | cons name rest ih => rw [cons_append, internAll, internAll, ih]

/-- Every name of the table was there or is one of those written. -/
theorem mem_internAll (member : name ∈ internAll toLower added names) : name ∈ names ∨ name ∈ added := by
  induction added generalizing names with
  | nil => exact .inl member
  | cons head rest ih =>
    obtain before | later := ih member
    · rw [intern] at before
      split at before
      · exact .inl before
      · obtain old | new := mem_append.mp before
        · exact .inl old
        · exact .inr (mem_cons.mpr (.inl (mem_singleton.mp new)))
    · exact .inr (.tail _ later)

theorem internAll_length (added names : List Text) :
    (internAll toLower added names).length ≤ names.length + added.length := by
  induction added generalizing names with
  | nil => exact le_rfl
  | cons head rest ih =>
    have one : (intern toLower head names).2.length ≤ names.length + 1 := by
      rw [intern]
      split <;> simp
    rw [internAll, length_cons]
    exact (ih _).trans (by omega)

/-- Names the table has leave it as it is. -/
theorem internAll_known (known : ∀ name ∈ added, ∃ old ∈ names, toLower old = toLower name) :
    internAll toLower added names = names := by
  induction added with
  | nil => rfl
  | cons name rest ih =>
    rw [forall_mem_cons] at known
    obtain ⟨⟨old, member, same⟩, others⟩ := known
    have same : (intern toLower name names).2 = names := by
      rw [intern]
      split
      · rfl
      next absent => exact absurd same (by simpa using findIdx?_eq_none_iff.mp absent old member)
    rw [internAll, same, ih others]

mutual

theorem node_table {expr : Expr} (names : List Text) :
    ((node ⟨toLower, false⟩ expr).run names).2 = internAll toLower (namesOf expr) names := by
  cases expr with
  | nil | undefined | error | integer | real | string => rfl
  | boolean value => cases value <;> rfl
  | reference name scope => rfl
  | binary op left right =>
    rw [node, operation]
    split <;> simp [namesOf, internAll_append, node_table]
  | unary op operand =>
    rw [node, operation]
    split <;> simp [namesOf, node_table]
  | list elements => simp [node, namesOf, nodes_table]
  | record attributes => simp [node, body, namesOf, entries_table]
  | call name args => simp [node, interned, namesOf, internAll, nodes_table]
  | conditional condition whenTrue whenFalse =>
    simp [node, namesOf, internAll_append, node_table]
  | elvis left right => simp [node, namesOf, internAll_append, node_table]
  | select record attr => simp [node, interned, namesOf, internAll, internAll_append, node_table]
  | subscript container index =>
    simp [node, namesOf, internAll_append, node_table]
  | paren inner => simp [node, namesOf, node_table]

theorem nodes_table (names : List Text) :
    ((nodes ⟨toLower, false⟩ elements).run names).2 = internAll toLower (namesOfAll elements) names := by
  cases elements with
  | nil => rfl
  | cons head rest => simp [nodes, namesOfAll, internAll_append, node_table, nodes_table]

theorem entries_table {attributes : List (Text × Expr)} (names : List Text) :
    ((entries ⟨toLower, false⟩ attributes).run names).2 = internAll toLower (namesOfAd attributes) names := by
  cases attributes with
  | nil => rfl
  | cons attr rest =>
    obtain ⟨name, value⟩ := attr
    simp [entries, putKey, interned, namesOfAd, internAll, internAll_append, node_table,
      entries_table]

end

mutual

theorem namesOf_short (expr : Expr) (sized : Sized expr) : ∀ name ∈ namesOf expr, Short name := by
  cases expr with
  | nil | undefined | error | boolean | integer | real | string => simp [namesOf]
  | reference name scope => exact forall_mem_singleton.mpr sized
  | binary op left right =>
    exact forall_mem_append.mpr ⟨namesOf_short left sized.2.1, namesOf_short right sized.2.2⟩
  | unary op operand => exact namesOf_short operand sized.2
  | list elements => exact namesOfAll_short elements sized.2
  | record attributes => exact namesOfAd_short sized.2
  | call name args => exact forall_mem_cons.mpr ⟨sized.1, namesOfAll_short args sized.2.2⟩
  | conditional condition whenTrue whenFalse =>
    exact forall_mem_append.mpr ⟨namesOf_short condition sized.1,
      forall_mem_append.mpr ⟨namesOf_short whenTrue sized.2.1, namesOf_short whenFalse sized.2.2⟩⟩
  | elvis left right => exact forall_mem_append.mpr ⟨namesOf_short left sized.1, namesOf_short right sized.2⟩
  | select record attr =>
    exact forall_mem_append.mpr ⟨namesOf_short record sized.1, by simpa using sized.2⟩
  | subscript container index =>
    exact forall_mem_append.mpr ⟨namesOf_short container sized.1, namesOf_short index sized.2⟩
  | paren inner => exact namesOf_short inner sized

theorem namesOfAll_short (elements : List Expr) (sized : SizedAll elements) :
    ∀ name ∈ namesOfAll elements, Short name := by
  cases elements with
  | nil => simp [namesOfAll]
  | cons head rest => exact forall_mem_append.mpr ⟨namesOf_short head sized.1, namesOfAll_short rest sized.2⟩

theorem namesOfAd_short {attributes : List (Text × Expr)} (sized : SizedAd attributes) :
    ∀ name ∈ namesOfAd attributes, Short name := by
  cases attributes with
  | nil => simp [namesOfAd]
  | cons attr rest =>
    exact forall_mem_cons.mpr ⟨sized.1,
      forall_mem_append.mpr ⟨namesOf_short attr.2 sized.2.1, namesOfAd_short sized.2.2⟩⟩

end

end Tables

end Classad.WireNodeProofs
