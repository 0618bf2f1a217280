import Classad.WireCursorProofs
import Classad.WireNodeProofs

/-! Skipping a node and decoding it take the same bytes: whatever a decoder makes of the node in
front of it, the skipper ends where the decoder did. -/
namespace Classad.WireSkip
open ByteParser WireCodec WireCursor WireCursorProofs List

/-- Where the parser succeeds, the walk ends in front of what the parser leaves, and what they
return is related. -/
def Follows (b : Bytes) {α β : Type} (related : α → β → Prop) (p : Decodes α) (walk : Walk β) : Prop :=
  ∀ (pos : Nat) value rest, pos ≤ b.length → p (b.drop pos) = .ok (value, rest) →
    ∃ (stop : Nat) (seen : β), pos ≤ stop ∧ stop ≤ b.length ∧ rest = b.drop stop ∧
      walk false ⟨pos, true⟩ = .ok (seen, ⟨stop, true⟩) ∧ related value seen

abbrev Skips (b : Bytes) {α β : Type} (p : Decodes α) (walk : Walk β) : Prop := Follows b (fun _ _ => True) p walk

/-- A parser that takes nothing off its input. -/
def Idle {α : Type} (p : Decodes α) : Prop := ∀ input value rest, p input = .ok (value, rest) → rest = input

section Rules
variable {b : Bytes} {α β γ δ : Type} {p : Decodes α} {walk : Walk β}

theorem Follows.bind {related : α → β → Prop} {related' : γ → δ → Prop} {f : α → Decodes γ} {next : β → Walk δ}
    (head : Follows b related p walk) (tail : ∀ value seen, related value seen →
      Follows b related' (f value) (next seen)) :
    Follows b related' (p >>= f) (walk >>= next) := by
  intro pos value rest inside read
  change (p (b.drop pos) >>= fun found => f found.1 found.2) = _ at read
  cases taken : p (b.drop pos) with
  | error fault => simp [taken, Bind.bind, Except.bind] at read
  | ok found =>
    obtain ⟨middle, after⟩ := found
    rw [taken] at read
    obtain ⟨mid, seen, forward, short, rfl, walked, meets⟩ := head pos middle after inside taken
    obtain ⟨stop, seen', forward', short', left, walked', meets'⟩ := tail middle seen meets mid value rest short read
    refine ⟨stop, seen', by omega, short', left, ?_, meets'⟩
    change (walk false ⟨pos, true⟩ >>= fun found => next found.1 false found.2) = _
    rw [walked]
    exact walked'

theorem Follows.skips (head : Follows b related p walk) : Skips b p walk := by
  intro pos value rest inside read
  obtain ⟨stop, seen, forward, short, left, walked, -⟩ := head pos value rest inside read
  exact ⟨stop, seen, forward, short, left, walked, trivial⟩

theorem Idle.skips (idle : Idle p) (value : β) : Skips b p (pure value) := by
  intro pos found rest inside read
  exact ⟨pos, value, le_rfl, inside, idle _ _ _ read, rfl, trivial⟩

theorem Idle.then (idle : Idle p) (tail : ∀ value, Follows b related (f value) walk) :
    Follows b related (p >>= f) walk := by
  have both := (idle.skips (b := b) ()).bind fun value _ _ => tail value
  rwa [pure_bind] at both

/-- The walk may be over before the parser has made its value. -/
theorem Follows.idle (head : Skips b p walk) (tail : ∀ value, Idle (f value)) : Skips b (p >>= f) walk := by
  have both := head.bind fun value seen _ => (tail value).skips seen
  rwa [bind_pure] at both

theorem Idle.pure (value : α) : Idle (Pure.pure value) := by
  intro input found rest read
  cases read
  rfl

theorem Idle.throw (fault : Fault) : Idle (throw fault : Decodes α) := fun _ _ _ read => nomatch read

theorem refuse_skips (reason : Malformed) : Skips b (refuse reason : Decodes α) walk :=
  fun _ _ _ _ read => nomatch read

theorem Follows.map (head : Skips b p walk) (f : α → γ) : Skips b (p >>= fun value => Pure.pure (f value)) walk :=
  head.idle fun value => .pure (f value)

/-- The check of the cursor before a step is passed. -/
theorem Follows.sound (head : Follows b related p walk) (other : Walk β) :
    Follows b related p (do if ← isOk then walk else other) :=
  head

/-- What the walk returns may be dropped. -/
theorem Follows.dropped (head : Skips b p walk) : Skips b p (walk >>= fun _ => Pure.pure ()) := by
  have both := head.bind fun value _ _ => (Idle.pure value).skips ()
  rwa [bind_pure] at both

theorem unopened_idle {d : Decoder} : Idle (d.unopened reason) := by
  rw [Decoder.unopened]
  split
  · exact .pure _
  · exact .throw _

theorem makeSlice_idle (width count : Nat) : Idle (makeSlice width count) := by
  rw [makeSlice]
  split
  · exact .pure ()
  · exact .throw _

theorem within_idle (p : Decodes α) (bytes : Bytes) : Idle (within p bytes) := by
  intro input value rest read
  rw [within] at read
  split at read <;> cases read
  rfl

theorem nextByte_takes (read : nextByte input = .ok (value, rest)) : input = value :: rest := by
  cases input with
  | nil => cases read
  | cons byte tail =>
    cases read
    rfl

end Rules

section Steps
variable {b : Bytes} (addressable : b.length < 2 ^ 63) {α : Type}
include addressable

theorem number_follows : Follows b (· = ·) (readUvarint bad) (number b) := by
  intro pos value rest inside read
  rw [readUvarint] at read
  split at read
  · cases read
  next found groups =>
    cases read
    obtain ⟨taken, more, rfl⟩ := readGroups_drop groups
    rw [length_drop] at more
    refine ⟨pos + (taken + 1), value, by omega, by omega, by rw [drop_drop], ?_, rfl⟩
    rw [number_eq addressable (by simp) (by simpa using inside)]
    simp only [Int.toNat_natCast, groups, length_drop]
    congr
    omega

theorem uvarint_follows : Follows b (· = ·) readNumber (uvarint b) :=
  (number_follows addressable).sound _

theorem takeBytes_skips (short : Fault) {count : Nat} (same : wrap count = size) :
    Skips b (takeBytes short count) (skip b size) := by
  intro pos value rest inside read
  rw [takeBytes] at read
  split at read
  · cases read
  next enough =>
    cases read
    rw [length_drop] at enough
    rw [wrap_small _ (by omega) (by omega)] at same
    have next : wrap (pos + size) = pos + size := wrap_small _ (by omega) (by omega)
    refine ⟨pos + count, (), by omega, by omega, drop_drop, ?_, trivial⟩
    rw [skip, next, if_neg (by simp; omega), Nat.cast_add, same]

theorem nextByte_skips : Skips b nextByte (skip b 1) := by
  intro pos value rest inside read
  refine takeBytes_skips addressable .panicked (by rfl : wrap (1 : Nat) = 1) pos [value] rest inside ?_
  rw [nextByte_takes read]
  simp [takeBytes]

theorem byteAt_follows : Follows b (· = ·) nextByte (WireCursor.byteAt b) := by
  intro pos value rest inside read
  have left := nextByte_takes read
  have more : pos < b.length := by
    by_contra past
    rw [drop_of_length_le (by omega)] at left
    cases left
  rw [drop_eq_getElem_cons more] at left
  cases left
  refine ⟨pos + 1, b[pos], by omega, by omega, rfl, ?_, rfl⟩
  have next : wrap (pos + 1) = pos + 1 := wrap_small _ (by omega) (by omega)
  rw [WireCursor.byteAt, next, if_neg (by simp; omega), if_neg (by dsimp only; omega)]
  simp [more]

theorem readString_skips : Skips b readString (skipString b) := by
  have size : Follows b (fun (count : Nat) seen => wrap count = seen) readNumber (length b) := by
    intro pos count rest inside read
    obtain ⟨stop, _, forward, short, left, walked, rfl⟩ := number_follows addressable pos count rest inside read
    exact ⟨stop, wrap count, forward, short, left, by rw [length_eq rfl, walked]; rfl, rfl⟩
  exact size.bind fun count seen same => takeBytes_skips addressable _ same

omit addressable in
theorem many_skips {body : Walk Unit} (each : Skips b p body) (count : Nat) :
    Skips b (many p count) (repeatOk body count) := by
  induction count with
  | zero => exact (Idle.pure []).skips ()
  | succ count ih => exact (each.bind fun value _ _ => ih.map (value :: ·)).sound _

theorem hotPairs_skips (count : Nat) : Skips b (many hotPair count) (hotPairs b count) := by
  have number := uvarint_follows addressable
  induction count with
  | zero => exact (Idle.pure []).skips []
  | succ count ih =>
    simp only [many, hotPair, bind_assoc, pure_bind]
    refine (number.bind fun _ _ _ => number.bind fun _ _ _ => ?_).sound _
    exact ih.bind fun _ _ _ => (Idle.pure _).skips _

theorem counted_skips {body : Walk Unit} (each : Skips b p body) :
    Skips b (WireCodec.counted p) (counted b body) := by
  refine (uvarint_follows addressable).bind ?_
  rintro count _ rfl
  refine Idle.then ?_ fun _ => (makeSlice_idle _ _).then fun _ => many_skips each count
  intro input _ rest read
  rw [checkCount] at read
  split at read <;> cases read
  rfl

end Steps

section Nodes
variable {b : Bytes} (addressable : b.length < 2 ^ 63) (d : Decoder)
include addressable

theorem resolved_skips : Skips b (d.resolved unknown) (uvarint b) := by
  refine (uvarint_follows addressable).skips.idle fun id => ?_
  rw [Decoder.nameOf]
  split
  · exact .throw _
  · split
    · exact .throw _
    · exact .pure _

theorem listedOperator_skips : Skips b (listedOperator table) (skip b 1) := by
  refine (nextByte_skips addressable).idle fun id => ?_
  split
  · exact .throw _
  · exact .pure _

theorem key_skips : Skips b d.key (skipKey b d.inline) := by
  rw [Decoder.key, skipKey]
  split
  · exact readString_skips addressable
  · exact (resolved_skips addressable d).dropped

theorem payload_skips {node : Decodes Ast.Expr} {record : Decodes Ast.ClassAd}
    (inner : Skips b node skipped) (body : Skips b record skippedRecord) (tag : Tag) :
    Skips b (d.payload node record tag) (skipPayload b skipped skippedRecord tag) := by
  have text := readString_skips addressable
  have items := counted_skips addressable inner
  cases tag with
  | undefined | error | boolFalse | boolTrue => exact (Idle.pure _).skips ()
  | int => exact (((number_follows addressable).skips.map _).map _).dropped
  | real => exact ((takeBytes_skips addressable _ rfl).map _).map _
  | string => exact text.map _
  | attrRef => exact (nextByte_skips addressable).bind fun _ _ _ => ((resolved_skips addressable d).map _).dropped
  | attrRefStr => exact (nextByte_skips addressable).bind fun _ _ _ => text.map _
  | binOp => exact (listedOperator_skips addressable).bind fun _ _ _ => inner.bind fun _ _ _ => inner.map _
  | binOpStr => exact text.bind fun _ _ _ => inner.bind fun _ _ _ => inner.map _
  | unOp => exact (listedOperator_skips addressable).bind fun _ _ _ => inner.map _
  | unOpStr => exact text.bind fun _ _ _ => inner.map _
  | list => exact items.map _
  | record => exact body.map _
  | func => exact (resolved_skips addressable d).bind fun _ _ _ => items.map _
  | funcStr => exact text.bind fun _ _ _ => items.map _
  | cond => exact inner.bind fun _ _ _ => inner.bind fun _ _ _ => inner.map _
  | elvis | subscript => exact inner.bind fun _ _ _ => inner.map _
  | select => exact inner.bind fun _ _ _ => ((resolved_skips addressable d).map _).dropped
  | selectStr => exact inner.bind fun _ _ _ => text.map _
  | paren => exact inner.map _
  | encrypted =>
    refine text.bind fun nonce _ _ => text.idle fun ciphertext => ?_
    split
    · exact unopened_idle
    · split
      · exact unopened_idle
      · exact within_idle _ _

/-- A skipper with no fewer levels left than the decoder follows it. -/
theorem node_skips (levels available : Nat) (enough : levels ≤ available) :
    Skips b (d.node levels) (skipNode b d.inline available) ∧ Skips b (d.adBody levels)
    (skipAdBody b d.inline available) := by
  induction levels generalizing available with
  | zero => exact ⟨refuse_skips _, refuse_skips _⟩
  | succ levels ih =>
    obtain ⟨available, rfl⟩ := Nat.exists_eq_add_of_le' (Nat.le_of_add_left_le enough)
    obtain ⟨node, record⟩ := ih available (by omega)
    constructor
    · refine Follows.sound ?_ _
      refine (byteAt_follows addressable).bind ?_
      rintro byte _ rfl
      cases Tag.ofByte byte with
      | none => exact refuse_skips _
      | some tag => exact payload_skips addressable d node record tag
    · refine Follows.sound ?_ _
      refine (uvarint_follows addressable).bind ?_
      rintro hotCount _ rfl
      refine (hotPairs_skips addressable hotCount).bind fun _ _ _ => (uvarint_follows addressable).bind ?_
      rintro attrCount _ rfl
      refine (makeSlice_idle _ _).then fun _ => many_skips ?_ attrCount
      exact (key_skips addressable d).bind fun _ _ _ => node.map _

end Nodes

/-- If decoding a node at an offset succeeds and consumes some bytes, skipping in the same mode advances by as many. -/
theorem skip_agrees (d : Decoder) (b : Bytes) (addressable : b.length < 2 ^ 63) (levels available offset : Nat)
    (enough : levels ≤ available) (value : Ast.Expr) (rest : Bytes)
    (decoded : d.node levels (b.drop offset) = .ok (value, rest)) :
    ∃ consumed, offset + consumed ≤ b.length ∧ rest = b.drop (offset + consumed) ∧
      skipNode b d.inline available false ⟨offset, true⟩ = .ok ((), ⟨(offset + consumed : Nat), true⟩) := by
  have inside : offset ≤ b.length := by
    by_contra past
    rw [drop_of_length_le (by omega)] at decoded
    cases levels <;> cases decoded
  obtain ⟨stop, seen, forward, short, left, walked, -⟩ :=
    (node_skips addressable d levels available enough).1 offset value rest inside decoded
  have span : offset + (stop - offset) = stop := by omega
  exact ⟨stop - offset, by omega, by rw [span, left], by rw [span, walked]⟩

theorem skip_agrees_on_list : ∃ consumed, 1 + consumed ≤ 6 ∧ ([7] : Bytes) = [0, 10, 1, 4, 2, 7].drop (1 + consumed) ∧
    skipNode [0, 10, 1, 4, 2, 7] true (maxDepth + 1) false ⟨(1 : Nat), true⟩ = .ok ((), ⟨(1 + consumed : Nat), true⟩) :=
  skip_agrees (inlineDecoder none false) [0, 10, 1, 4, 2, 7] (by decide) (maxDepth + 1) (maxDepth + 1) 1 le_rfl
    (.list [.integer 1]) [7] rfl

/-- Skipping a node that an encoder wrote ends right behind it, whatever stands around it. -/
theorem skip_written {d : Decoder} {e : Encoder} {final : List Ast.Text} (suits : WireNodeProofs.Suits d e final)
    (value : Ast.Expr) (sized : WireNodeProofs.Sized value) (deep : WireNodeProofs.levels value ≤ available)
    (write : (e.node value).run names = (written, grown)) (kept : grown <+: final) (before after : Bytes)
    (addressable : (before ++ (written ++ after)).length < 2 ^ 63) :
    skipNode (before ++ (written ++ after)) e.inline available false ⟨before.length, true⟩ =
      .ok ((), ⟨(before.length + written.length : Nat), true⟩) := by
  have reads := ((WireNodeProofs.reads_nodes suits available).1 value deep sized).reads names
  rw [write] at reads
  obtain ⟨stop, seen, -, inside, left, walked, -⟩ :=
    (node_skips addressable d available available le_rfl).1 before.length _ after
    (by simp) (by rw [drop_left]; exact reads kept after)
  have lengths := congrArg List.length left
  rw [length_drop] at lengths
  simp only [length_append] at lengths inside
  rw [← suits.inline, walked, show stop = before.length + written.length by omega]

theorem skip_written_list : skipNode [7, 10, 1, 4, 2, 7] true 2 false ⟨(1 : Nat), true⟩ = .ok ((), ⟨(5 : Nat), true⟩) :=
  have suits : WireNodeProofs.Suits (inlineDecoder none false) inlineEncoder [] := ⟨rfl, nofun, nofun⟩
  skip_written suits (.list [.integer 1]) ⟨by decide, trivial, trivial⟩ (show _ ≤ 2 by decide) rfl (prefix_refl []) [7]
    [7] (by decide)

end Classad.WireSkip
