import Mathlib
import Classad.WireCursor

/-! Where reading an encoded ad in place stays inside its bytes. Nothing an accessor does can go
wrong as long as no length it reads carries a position past the largest integer, the hot
offsets it follows in an inline ad point into the ad, and the number of hot pairs can be
allocated; a watched run tells. -/
namespace Classad.WireCursorProofs
open Ast ByteParser WireCodec WireCursor
open List hiding count length

/-- The watched walk ends for what it has read, or the walk ends, watched or not, at no earlier
position inside the bytes. -/
def Ends (b : Bytes) {α : Type} (walk : Walk α) (c : Cursor) : Prop := walk true c = .error .strays ∨
  ∃ value c', (∀ watched, walk watched c = .ok (value, c')) ∧ c.pos ≤ c'.pos ∧ c'.pos ≤ b.length

/-- It does from every position inside the bytes that is not before `start`. -/
def SafeAfter (b : Bytes) (start : Int) {α : Type} (walk : Walk α) : Prop :=
  ∀ c : Cursor, start ≤ c.pos → c.pos ≤ b.length → Ends b walk c

abbrev Safe (b : Bytes) {α : Type} (walk : Walk α) : Prop := SafeAfter b 0 walk

section Numbers

theorem wrap_small (number : Int) (low : -2 ^ 63 ≤ number) (high : number < 2 ^ 63) : wrap number = number := by
  exact Int.bmod_eq_of_le (by omega) (by omega)

theorem wrap_large {number : Int} (low : 2 ^ 63 ≤ number) (high : number < 2 ^ 64) : wrap number < 0 := by
  rw [wrap, Int.bmod_def]
  omega

variable {groups value : Nat} {input rest : Bytes}

/-- The first group of a number is its last, or the others follow it. -/
theorem readGroups_cases (read : readGroups (groups + 1) input = some (value, rest)) :
    ∃ byte tail, input = byte :: tail ∧ (rest = tail ∧ value < 128 ∧ (groups = 0 → value ≤ 1) ∨
      ∃ high, readGroups groups tail = some (high, rest) ∧ value < 128 * high + 128) := by
  cases input with
  | nil => simp [readGroups] at read
  | cons byte tail =>
    rw [readGroups] at read
    refine ⟨byte, tail, rfl, ?_⟩
    split at read
    · split at read
      · cases read
      · cases read
        exact .inl ⟨rfl, by omega, by omega⟩
    · obtain ⟨⟨high, after⟩, found, same⟩ := Option.map_eq_some_iff.mp read
      cases same
      exact .inr ⟨high, found, by omega⟩

theorem readGroups_drop (read : readGroups groups input = some (value, rest)) :
    ∃ taken < input.length, rest = input.drop (taken + 1) := by
  induction groups generalizing input value with
  | zero => simp [readGroups] at read
  | succ groups ih =>
    obtain ⟨byte, tail, rfl, ⟨rfl, -⟩ | ⟨high, found, -⟩⟩ := readGroups_cases read
    · exact ⟨0, Nat.succ_pos _, rfl⟩
    · obtain ⟨taken, inside, rfl⟩ := ih found
      exact ⟨taken + 1, Nat.succ_lt_succ inside, rfl⟩

theorem readGroups_shorter (read : readGroups groups input = some (value, rest)) :
    rest.length < input.length := by
  obtain ⟨taken, inside, rfl⟩ := readGroups_drop read
  rw [length_drop]
  omega

/-- The groups of a number hold seven bits each, the last of ten only one. -/
theorem readGroups_lt (read : readGroups (groups + 1) input = some (value, rest)) :
    value < 2 ^ (7 * groups + 1) := by
  induction groups generalizing input value with
  | zero =>
    obtain ⟨byte, tail, rfl, ⟨-, -, last⟩ | ⟨high, found, -⟩⟩ := readGroups_cases read
    · have := last rfl
      omega
    · simp [readGroups] at found
  | succ groups ih =>
    have power : 2 ^ (7 * (groups + 1) + 1) = 128 * 2 ^ (7 * groups + 1) := by ring
    have positive : 0 < 2 ^ (7 * groups + 1) := Nat.two_pow_pos _
    obtain ⟨byte, tail, rfl, ⟨-, small, -⟩ | ⟨high, found, bound⟩⟩ := readGroups_cases read
    · omega
    · have := ih found
      omega

end Numbers

section Steps
variable {b : Bytes} {α β : Type} {start : Int}

theorem SafeAfter.pure (value : α) : SafeAfter b start (Pure.pure value : Walk α) :=
  fun c _ high => .inr ⟨value, c, fun _ => rfl, le_rfl, high⟩

theorem bind_run (walk : Walk α) (next : α → Walk β) (watched : Bool) (c : Cursor) :
    (walk >>= next) watched c = walk watched c >>= fun (value, after) => next value watched after := rfl

theorem SafeAfter.bind {next : α → Walk β} (first : SafeAfter b start walk)
    (second : ∀ value, SafeAfter b start (next value)) : SafeAfter b start (walk >>= next) := by
  intro c low high
  simp only [Ends, bind_run]
  obtain strays | ⟨value, c', walked, forward, inside⟩ := first c low high
  · exact .inl (by rw [strays]; rfl)
  · simp only [walked]
    obtain strays | ⟨result, c'', walked', forward', inside'⟩ := second value c' (by omega) inside
    · exact .inl strays
    · exact .inr ⟨result, c'', walked', by omega, inside'⟩

theorem SafeAfter.later {later : Int} (safe : SafeAfter b start walk) (order : start ≤ later) :
    SafeAfter b later walk :=
  fun c low high => safe c (by omega) high

theorem SafeAfter.ite (p : Prop) [Decidable p] (yes : SafeAfter b start walk)
    (no : SafeAfter b start other) : SafeAfter b start (if p then walk else other) := by
  split
  · exact yes
  · exact no

theorem isOk_safe : SafeAfter b start isOk := fun c _ high => .inr ⟨c.ok, c, fun _ => rfl, le_rfl, high⟩

theorem fail_safe : SafeAfter b start fail := fun c _ high =>
    .inr ⟨(), { c with ok := false }, fun _ => rfl, le_rfl, high⟩

/-- A watched run ends, or what follows may rely on the test. -/
theorem watch_safe {test : Bool} {next : Unit → Walk α} (second : test = true → SafeAfter b start (next ())) :
    SafeAfter b start (watch test >>= next) := by
  intro c low high
  cases test with
  | false => exact .inl rfl
  | true =>
    have through : ∀ watched, (watch true >>= next) watched c = next () watched c := by rintro (_ | _) <;> rfl
    simpa only [Ends, through] using second rfl c low high

def Comes {α : Type} (result : Except Panic α) : Prop := ∃ value, result = .ok value

/-- The accessor comes back, with a value or without one. -/
def Returns {α : Type} (access : Access α) : Prop := Comes (access false)

/-- Nothing the accessor reads leads it outside the bytes. -/
def Stays {α : Type} (access : Access α) : Prop := access true ≠ .error .strays

/-- The watched run ends for what it has read, or the accessor comes back. -/
def Settles {α : Type} (access : Access α) : Prop :=
  access true = .error .strays ∨ ∃ value, ∀ watched, access watched = .ok value

theorem Settles.returns {access : Access α} (settles : Settles access) (stays : Stays access) : Returns access := by
  obtain ⟨value, returned⟩ := settles.resolve_left stays
  exact ⟨value, returned false⟩

theorem Settles.bind {access : Access α} {next : α → Access β} (settles : Settles access)
    (rest : ∀ value, Settles (next value)) :
    Settles (access >>= next) := by
  have run : ∀ watched, (access >>= next) watched = access watched >>= fun value => next value watched := fun _ => rfl
  simp only [Settles, run]
  obtain strays | ⟨value, returned⟩ := settles
  · exact .inl (by rw [strays]; rfl)
  · simp only [returned]
    exact rest value

theorem inside_safe {result : Access α} (settles : Settles result) : SafeAfter b start (inside result) := by
  intro c _ high
  simp only [Ends, inside]
  obtain strays | ⟨value, returned⟩ := settles
  · exact .inl (by rw [strays]; rfl)
  · exact .inr ⟨value, c, fun watched => by rw [returned]; rfl, le_rfl, high⟩

/-- What comes after taking down the position may rely on it. -/
theorem position_safe {next : Int → Walk α}
    (second : ∀ pos : Int, start ≤ pos → pos ≤ b.length → SafeAfter b pos (next pos)) :
    SafeAfter b start (position >>= next) :=
  fun c low high => second c.pos low high c le_rfl high

theorem slice_settles {low high : Int} (order : 0 ≤ low ∧ low ≤ high ∧ high ≤ b.length) :
    Settles fun _ => slice b low high := by
  simp only [Settles, slice, if_pos order]
  exact .inr ⟨_, fun _ => rfl⟩

/-- The bytes from an earlier position to the present one. -/
theorem spanned_safe (low : 0 ≤ start) : SafeAfter b start (do
    let stop ← position
    let node ← inside fun _ => slice b start stop
    Pure.pure (some node) : Walk (Option Bytes)) := by
  refine position_safe fun stop order high => ?_
  exact (inside_safe (slice_settles ⟨low, order, high⟩)).bind fun node => .pure _

theorem slice_rest {pos : Int} (low : 0 ≤ pos) (high : pos ≤ b.length) :
    slice b pos b.length = .ok (b.drop pos.toNat) := by
  have whole : (b.drop pos.toNat).take (b.length - pos).toNat = b.drop pos.toNat := by
    apply take_of_length_le
    rw [length_drop]
    omega
  rw [slice, if_pos ⟨low, high, le_rfl⟩, whole]

/-- Reading a number either fails in place or advances over it. -/
theorem number_eq {c : Cursor} (addressable : b.length < 2 ^ 63) (low : 0 ≤ c.pos) (high : c.pos ≤ b.length)
    (watched : Bool) :
    number b watched c = match readGroups 10 (b.drop c.pos.toNat) with
      | none => .ok (0, { c with ok := false })
      | some (value, rest) => .ok (value, { c with pos := b.length - rest.length }) := by
  have rest := slice_rest low high
  change (((slice b c.pos b.length).map fun rest => (rest, c)) >>= _) = _
  rw [rest]
  simp only [Except.map, bind, Except.bind]
  cases read : readGroups 10 (b.drop c.pos.toNat) with
  | none => rfl
  | some found =>
    obtain ⟨value, after⟩ := found
    have shorter := readGroups_shorter read
    rw [length_drop] at shorter
    have landed : wrap (c.pos + (((b.drop c.pos.toNat).length : Int) - after.length)) = b.length - after.length := by
      rw [length_drop, wrap_small] <;> omega
    change Except.ok (value, { c with pos := wrap (c.pos + (((b.drop c.pos.toNat).length : Int) - after.length)) }) = _
    rw [landed]

section
variable (short : b.length ≤ 2 ^ 48)
include short

theorem number_safe : Safe b (number b) := by
  intro c low high
  simp only [Ends, number_eq (show b.length < 2 ^ 63 by omega) low high]
  right
  cases read : readGroups 10 (b.drop c.pos.toNat) with
  | none => exact ⟨0, _, fun _ => rfl, le_rfl, high⟩
  | some found =>
    obtain ⟨value, rest⟩ := found
    have shorter := readGroups_shorter read
    rw [length_drop] at shorter
    refine ⟨value, _, fun _ => rfl, ?_, ?_⟩ <;> dsimp only <;> omega

theorem uvarint_safe : Safe b (WireCursor.uvarint b) :=
  isOk_safe.bind fun _ => (number_safe short).ite _ (SafeAfter.pure 0)

theorem byteAt_safe : Safe b (WireCursor.byteAt b) := by
  intro c low high
  right
  simp only [WireCursor.byteAt]
  split
  · exact ⟨0, _, fun _ => rfl, le_rfl, high⟩
  next more =>
    have inside : c.pos < b.length := by
      simp only [Bool.or_eq_true, decide_eq_true_eq, not_or, not_le] at more
      exact more.2
    have next : wrap (c.pos + 1) = c.pos + 1 := wrap_small _ (by omega) (by omega)
    rw [if_neg (by omega), next]
    exact ⟨_, _, fun _ => rfl, by dsimp only; omega, by dsimp only; omega⟩

end

/-- A length that is refused, or that no position inside the bytes wraps around with. -/
def Bounded (b : Bytes) (count : Int) : Prop := count < 0 ∨ count + b.length < 2 ^ 63

theorem skip_safe (bounded : Bounded b count) : Safe b (skip b count) := by
  intro c low high
  right
  simp only [skip]
  split
  · exact ⟨(), _, fun _ => rfl, le_rfl, high⟩
  next within =>
    simp only [Bool.or_eq_true, decide_eq_true_eq, not_or, not_lt] at within
    obtain ⟨⟨-, positive⟩, inside⟩ := within
    have below : count + b.length < 2 ^ 63 := bounded.resolve_left (by omega)
    have same : wrap (c.pos + count) = c.pos + count := wrap_small _ (by omega) (by omega)
    exact ⟨(), _, fun _ => rfl, by dsimp only; omega, inside⟩

theorem length_eq {c : Cursor} (sound : c.ok = true) :
    length b false c = (number b false c).map fun (count, c') => (wrap count, c') := by
  simp only [length, WireCursor.uvarint, isOk, bind, ReaderT.bind, StateT.bind, Except.bind, sound, ↓reduceIte]
  cases number b false c <;> rfl

section
variable (short : b.length ≤ 2 ^ 48)
include short

/-- A length that a watched run goes on with is bounded. -/
theorem length_safe {next : Int → Walk α} (second : ∀ count, Bounded b count → Safe b (next count)) :
    Safe b (length b >>= next) := by
  simp only [length, bind_assoc, pure_bind]
  exact (uvarint_safe short).bind fun count => watch_safe fun test =>
    second (wrap count) (by simpa [Bounded] using test)

theorem skipString_safe : Safe b (skipString b) := length_safe short fun _ => skip_safe

theorem readNameBytes_safe : Safe b (readNameBytes b) := by
  refine length_safe short fun count bounded c low high => .inr ?_
  have unfolded : ∀ (next : Int → Bool → Walk Bytes) watched,
      (position >>= fun start => isOk >>= next start) watched c = next c.pos c.ok watched c := fun _ _ => rfl
  simp only [unfolded]
  split
  · exact ⟨[], { c with ok := false }, fun _ => rfl, le_rfl, high⟩
  next within =>
    simp only [Bool.or_eq_true, decide_eq_true_eq, not_or, not_lt] at within
    obtain ⟨⟨-, positive⟩, landed⟩ := within
    have below : count + b.length < 2 ^ 63 := bounded.resolve_left (by omega)
    have same : wrap (c.pos + count) = c.pos + count := wrap_small _ (by omega) (by omega)
    obtain ⟨name, cut⟩ : ∃ name, slice b c.pos (wrap (c.pos + count)) = .ok name := by
      rw [slice, if_pos (by omega)]
      exact ⟨_, rfl⟩
    refine ⟨name, { c with pos := wrap (c.pos + count) }, fun _ => ?_, by dsimp only; omega, landed⟩
    rw [bind_run, inside, cut]
    rfl

end

theorem repeatOk_safe {body : Walk Unit} (each : Safe b body) : Safe b (repeatOk body count) := by
  induction count with
  | zero => exact SafeAfter.pure ()
  | succ count ih => exact isOk_safe.bind fun _ => (each.bind fun _ => ih).ite _ (SafeAfter.pure ())

theorem counted_safe (short : b.length ≤ 2 ^ 48) {body : Walk Unit} (each : Safe b body) : Safe b (counted b body) :=
  (uvarint_safe short).bind fun _ => repeatOk_safe each

theorem hotPairs_safe (short : b.length ≤ 2 ^ 48) : Safe b (hotPairs b count) := by
  induction count with
  | zero => exact SafeAfter.pure []
  | succ count ih =>
    refine isOk_safe.bind fun _ => SafeAfter.ite _ ?_ (SafeAfter.pure [])
    exact (uvarint_safe short).bind fun _ => (uvarint_safe short).bind fun _ => ih.bind fun _ => SafeAfter.pure _

end Steps

section Nodes
variable {b : Bytes} (short : b.length ≤ 2 ^ 48)
include short

variable (inline : Bool)

theorem skipKey_safe : Safe b (skipKey b inline) := by
  refine (skipString_safe short).ite _ ?_
  exact (uvarint_safe short).bind fun _ => SafeAfter.pure _

/-- Every case of the skipper, from the safety of what is nested in it. -/
theorem skipPayload_safe {node adBody : Walk Unit} (inner : Safe b node) (record : Safe b adBody) (tag : Tag) :
    Safe b (skipPayload b node adBody tag) := by
  have byte : Safe b (skip b 1) := skip_safe (.inr (by omega))
  have word : Safe b (skip b 8) := skip_safe (.inr (by omega))
  have text := skipString_safe short
  have uvarint : Safe b (WireCursor.uvarint b >>= fun _ => pure ()) := (uvarint_safe short).bind fun _ =>
    SafeAfter.pure ()
  have items := counted_safe short inner
  have two := inner.bind fun _ => inner
  cases tag with
  | undefined | error | boolFalse | boolTrue => exact SafeAfter.pure ()
  | int => exact (number_safe short).bind fun _ => SafeAfter.pure ()
  | real => exact word
  | string => exact text
  | attrRef => exact byte.bind fun _ => uvarint
  | attrRefStr => exact byte.bind fun _ => text
  | binOp => exact byte.bind fun _ => two
  | binOpStr => exact text.bind fun _ => two
  | unOp => exact byte.bind fun _ => inner
  | unOpStr => exact text.bind fun _ => inner
  | list => exact items
  | record => exact record
  | func => exact (uvarint_safe short).bind fun _ => items
  | funcStr => exact text.bind fun _ => items
  | cond => exact inner.bind fun _ => two
  | elvis | subscript => exact two
  | select => exact inner.bind fun _ => uvarint
  | selectStr => exact inner.bind fun _ => text
  | paren => exact inner
  | encrypted => exact text.bind fun _ => text

/-- Skipping a node stays inside the bytes, at every depth. -/
theorem skip_levels_safe (levels : Nat) :
    Safe b (skipNode b inline levels) ∧ Safe b (skipAdBody b inline levels) := by
  induction levels with
  | zero => exact ⟨isOk_safe.bind fun _ => fail_safe.ite _ (SafeAfter.pure ()), fail_safe⟩
  | succ levels ih =>
    obtain ⟨node, record⟩ := ih
    constructor
    · refine isOk_safe.bind fun _ => SafeAfter.ite _ ?_ (SafeAfter.pure ())
      refine (byteAt_safe short).bind fun byte => ?_
      split
      · exact fail_safe
      · exact skipPayload_safe short node record _
    · refine isOk_safe.bind fun _ => SafeAfter.ite _ ?_ fail_safe
      refine (uvarint_safe short).bind fun hotCount => (hotPairs_safe short).bind fun _ => ?_
      exact counted_safe short ((skipKey_safe short inline).bind fun _ => node)

theorem skipNode_safe : Safe b (skipNode b inline (maxDepth + 1)) :=
  (skip_levels_safe short inline _).1

theorem nodeBytes_safe : Safe b (nodeBytes b inline) := by
  refine position_safe fun start low _ => ?_
  refine ((skipNode_safe short inline).later low).bind fun _ => isOk_safe.bind fun _ => ?_
  exact (spanned_safe low).ite _ (.pure none)

theorem findEntry_safe {κ : Type} {inline : Bool} {key : Walk κ} (keys : Safe b key) {wanted : κ → Bool} :
    Safe b (findEntry b inline key wanted count) := by
  induction count with
  | zero => exact .pure none
  | succ count ih =>
    refine isOk_safe.bind fun _ => SafeAfter.ite _ ?_ (.pure none)
    refine keys.bind fun found => position_safe fun start low _ => ?_
    refine ((skipNode_safe short inline).later low).bind fun _ => isOk_safe.bind fun _ => ?_
    exact SafeAfter.ite _ (.pure none) ((spanned_safe low).ite _ (ih.later low))

theorem forEntries_safe {κ ν : Type} {inline : Bool} {key : Walk κ} (keys : Safe b key) {named : κ → Option ν}
    {fn : ν → Bytes → Bool}
    {count : Nat} : Safe b (forEntries b inline key named fn count) := by
  induction count with
  | zero => exact isOk_safe.bind fun _ => .pure _
  | succ count ih =>
    refine isOk_safe.bind fun _ => SafeAfter.ite _ ?_ (.pure _)
    refine keys.bind fun found => ?_
    split
    · exact (skipNode_safe short inline).bind fun _ => ih
    · refine (nodeBytes_safe short inline).bind fun node => ?_
      split
      · exact .pure _
      · exact SafeAfter.ite _ (ih.bind fun _ => .pure _) (.pure _)

end Nodes

section Accessors
variable {a : Bytes} (short : a.length ≤ 2 ^ 48)

theorem runAt_settles (safe : Safe a walk) {pos : Int} (low : 0 ≤ pos) (high : pos ≤ a.length) :
    Settles (runAt pos walk) := by
  simp only [Settles, runAt]
  obtain strays | ⟨value, c', walked, -, -⟩ := safe ⟨pos, true⟩ low high
  · exact .inl (by rw [strays]; rfl)
  · exact .inr ⟨value, fun watched => by rw [walked]; rfl⟩

include short

theorem readHeader_safe : Safe a (readHeader a) :=
  (uvarint_safe short).bind fun _ => (hotPairs_safe short).bind fun _ => (uvarint_safe short).bind fun _ => .pure _

theorem keyId_safe : Safe a (keyId a) := (uvarint_safe short).bind fun _ => .pure _

/-- The body starts inside the ad, if it has one. -/
theorem bodyStart_ends : bodyStart a true = .error .strays ∨ (∀ watched, bodyStart a watched = .ok none) ∨
    ∃ inline c, (∀ watched, bodyStart a watched = .ok (some (inline, c))) ∧ 0 ≤ c.pos ∧ c.pos ≤ a.length := by
  unfold bodyStart
  split
  next magic version flags rest =>
    split
    · exact .inr (.inl fun _ => rfl)
    · have table : Safe (magic :: version :: flags :: rest) (if flags &&& flagStandalone ≠ 0 then
          counted (magic :: version :: flags :: rest) (skipString (magic :: version :: flags :: rest))
          else pure () : Walk Unit) := SafeAfter.ite _ (counted_safe short (skipString_safe short)) (.pure ())
      obtain strays | ⟨value, c, walked, forward, inside⟩ := table ⟨3, true⟩ (by decide) (by simp; omega)
      · exact .inl (by rw [strays]; rfl)
      · simp only [walked]
        cases sound : c.ok with
        | false => exact .inr (.inl fun _ => by simp [bind, Except.bind, sound, pure, Except.pure])
        | true =>
          refine .inr (.inr ⟨decide (flags &&& flagInlineNames ≠ 0), c, ?_, le_trans (by decide) forward, inside⟩)
          exact fun _ => by simp [bind, Except.bind, sound, pure, Except.pure]
  next => exact .inr (.inl fun _ => rfl)

/-- An accessor settles if its walk does from where the body starts. -/
theorem fromBody_settles (safe : ∀ inline, Safe a (walk inline)) : Settles (fromBody a bad walk) := by
  simp only [Settles, fromBody]
  obtain strays | absent | ⟨inline, c, start, low, high⟩ := bodyStart_ends short
  · exact .inl (by rw [strays]; rfl)
  · exact .inr ⟨bad, fun watched => by rw [absent]; rfl⟩
  · simp only [start]
    obtain strays | ⟨value, c', walked, -, -⟩ := safe inline c low high
    · exact .inl (by simp [bind, Except.bind, strays, Except.map])
    · exact .inr ⟨value, fun watched => by simp [bind, Except.bind, walked, Except.map]⟩

theorem nodeBytesAt_settles (offset : Int) : Settles (nodeBytesAt a offset) := by
  rw [nodeBytesAt]
  split
  · exact .inr ⟨none, fun _ => rfl⟩
  next inside => exact runAt_settles (nodeBytes_safe short false) (by omega) (by omega)

theorem nodeLen_settles : Settles (nodeLen a) := by
  refine runAt_settles (a := a) ?_ le_rfl (by omega)
  refine (skipNode_safe short false).bind fun _ => position_safe fun stop low _ => ?_
  exact isOk_safe.bind fun _ => SafeAfter.ite _ (.pure _) (.pure none)

theorem lookup_settles (id : UInt32) : Settles (lookup a id) := by
  refine fromBody_settles short fun inline => ?_
  refine (readHeader_safe short).bind fun (hots, attrCount) => isOk_safe.bind fun _ => SafeAfter.ite _ (.pure none) ?_
  refine position_safe fun start low _ => ?_
  split
  · exact inside_safe (nodeBytesAt_settles short _)
  · exact (findEntry_safe short (keyId_safe short)).later low

theorem forBody_safe {κ ν : Type} {inline : Bool} {key : Walk κ} (keys : Safe a key) {named : κ → Option ν}
    {fn : ν → Bytes → Bool} :
    Safe a (forBody a inline key named fn) :=
  (readHeader_safe short).bind fun _ => forEntries_safe short keys

theorem forEach_settles (fn : Nat → Bytes → Bool) : Settles (forEach a fn) :=
  fromBody_settles short fun _ => forBody_safe short (keyId_safe short)

theorem forEachIDNode_settles (fn : Nat → Bytes → Bool) : Settles (forEachIDNode a fn) :=
  fromBody_settles short fun _ => SafeAfter.ite _ (.pure _) (forBody_safe short (keyId_safe short))

theorem forEachNameNode_settles (fn : Bytes → Bytes → Bool) : Settles (forEachNameNode a fn) :=
  fromBody_settles short fun _ => SafeAfter.ite _ (.pure _) (forBody_safe short (readNameBytes_safe short))

theorem forEachNamed_settles (byName : Bytes → Option Text) (byId : Nat → Option Text) (fn : Text → Bytes → Bool) :
    Settles (forEachNamed a byName byId fn) :=
  fromBody_settles short fun _ =>
    (forBody_safe short (readNameBytes_safe short)).ite _ (forBody_safe short (keyId_safe short))

theorem attrCount_settles : Settles (attrCount a) := by
  refine fromBody_settles short fun _ => ?_
  refine (readHeader_safe short).bind fun _ => isOk_safe.bind fun _ => ?_
  exact SafeAfter.ite _ (.pure _) (.pure 0)

end Accessors

section HotHeaders
variable {a : Bytes} (short : a.length ≤ 2 ^ 48)

theorem Settles.pure (value : α) : Settles (Pure.pure value : Access α) := .inr ⟨value, fun _ => rfl⟩

include short

theorem hotNodes_settles (fn : Nat → Bytes → Bool) : Settles (hotNodes a fn start hots) := by
  induction hots with
  | nil => exact .pure _
  | cons pair rest ih =>
    refine (nodeBytesAt_settles short _).bind fun node => ?_
    cases node with
    | none => exact .pure _
    | some node =>
      dsimp only
      split
      · exact ih.bind fun _ => .pure _
      · exact .pure _

/-- At a hot pair that points behind the end a watched run ends. -/
theorem hotEntry_settles (wanted : Bytes → Bool) (offset : Int) : Settles (hotEntry a wanted offset) := by
  by_cases inside : 0 ≤ offset ∧ offset ≤ a.length
  · refine runAt_settles (a := a) ?_ inside.1 inside.2
    refine watch_safe fun _ => (readNameBytes_safe short).bind fun name => isOk_safe.bind fun _ =>
      SafeAfter.ite _ ?_ (.pure none)
    exact (nodeBytes_safe short true).bind fun _ => .pure _
  · left
    rw [hotEntry, runAt, decide_eq_false inside]
    rfl

theorem hotNamed_settles (fn : Nat → Bytes → Bytes → Bool) : Settles (hotNamed a fn start hots) := by
  induction hots with
  | nil => exact .pure _
  | cons pair rest ih =>
    refine (hotEntry_settles short _ _).bind fun entry => ?_
    cases entry with
    | none => exact .pure _
    | some entry =>
      dsimp only
      split
      · exact ih.bind fun _ => .pure _
      · exact .pure _

theorem withHots_safe {α : Type} {empty : Bool → α} {bad : α} {each : Int → List (Nat × Nat) → Access α}
    (allocates : ∀ count, Safe a (allocate count)) (settles : ∀ start hots, Settles (each start hots)) :
    Safe a (withHots a empty bad allocate each) := by
  refine (uvarint_safe short).bind fun count => SafeAfter.ite _ (isOk_safe.bind fun _ => .pure _) ?_
  refine (allocates count).bind fun _ => (hotPairs_safe short).bind fun hots => (uvarint_safe short).bind fun _ => ?_
  refine isOk_safe.bind fun _ => SafeAfter.ite _ (position_safe fun start _ _ => ?_) (.pure _)
  exact inside_safe (settles start hots)

theorem forEachHotBuf_settles (fn : Nat → Bytes → Bool) : Settles (forEachHotBuf a fn) :=
  fromBody_settles short fun _ => SafeAfter.ite _ (.pure _)
    (withHots_safe short (fun _ => .pure ()) fun _ _ => hotNodes_settles short fn)

theorem forEachHot_settles (fn : Nat → Bytes → Bool) : Settles (forEachHot a fn) := by
  refine fromBody_settles short fun _ => withHots_safe short (fun count => ?_) fun _ _ => hotNodes_settles short fn
  refine watch_safe fun test => ?_
  rw [if_pos (of_decide_eq_true test)]
  exact .pure ()

theorem forEachHotInlineBuf_settles (fn : Nat → Bytes → Bytes → Bool) : Settles (forEachHotInlineBuf a fn) :=
  fromBody_settles short fun _ => SafeAfter.ite _ (.pure _)
    (withHots_safe short (fun _ => .pure ()) fun _ _ => hotNamed_settles short fn)

theorem lookupByName_settles (name : Bytes) : Settles (lookupByName a name) := by
  refine fromBody_settles short fun _ => SafeAfter.ite _ (.pure _) ?_
  refine (readHeader_safe short).bind fun (hots, count) => isOk_safe.bind fun _ => SafeAfter.ite _ (.pure none) ?_
  refine position_safe fun start low _ => ?_
  have linear : SafeAfter a start (findEntry a true _ (fun found => foldEqualBytes found name) count) :=
    (findEntry_safe short (readNameBytes_safe short)).later low
  split
  · exact linear
  · refine (inside_safe (hotEntry_settles short _ _)).bind fun entry => ?_
    split
    · exact .pure _
    · exact linear

end HotHeaders

section Sealed

variable {value pos : Nat}

/-- A length field that fits carries a position to the sum. -/
theorem landing_fits {start : Int} (low : 0 ≤ start) (fits : start + value < 2 ^ 63) :
    wrap (start + wrap value) = start + value := by
  rw [wrap_small value (by omega) (by omega), wrap_small _ (by omega) (by omega)]

/-- One that does not carries it back before the position. -/
theorem landing_over {start : Int} (low : 0 ≤ start) (high : start < 2 ^ 63) (word : value < 2 ^ 64)
    (beyond : 2 ^ 63 ≤ start + value) : wrap (start + wrap value) < start := by
  by_cases signed : value < 2 ^ 63
  · have negative := wrap_large beyond (by omega)
    rw [wrap_small value (by omega) (by omega)]
    omega
  · have negative : wrap value = value - 2 ^ 64 := by
      rw [wrap, Int.bmod_def]
      omega
    rw [negative, wrap_small _ (by omega) (by omega)]
    omega

/-- What a number leaves of the bytes is what follows its end. -/
theorem readGroups_rest {b rest : Bytes} (inside : pos ≤ b.length)
    (read : readGroups 10 (b.drop pos) = some (value, rest)) :
    rest = b.drop (b.length - rest.length) := by
  obtain ⟨taken, -, rfl⟩ := readGroups_drop read
  have shorter := readGroups_shorter read
  simp only [drop_drop, length_drop] at shorter ⊢
  by_cases all : pos + (taken + 1) ≤ b.length
  · congr 1
    omega
  · rw [drop_of_length_le (by omega), drop_of_length_le (by omega)]

theorem sealedField_run {node : Bytes} {next : Bytes → Walk (Option Bytes)}
    (read : length node false c = .ok (count, c')) :
    sealedField node next false c = if !c'.ok || decide (node.length < wrap (c'.pos + count)) then .ok (none, c')
      else slice node c'.pos (wrap (c'.pos + count)) >>= fun field =>
        next field false { c' with pos := wrap (c'.pos + count) } := by
  change (length node false c >>= _) = _
  rw [read]
  simp only [position, isOk, bind, ReaderT.bind, StateT.bind, Except.bind]
  split
  · rfl
  · cases slice node c'.pos (wrap (c'.pos + count)) <;> rfl

/-- A field is read as long as its length, taken without a sign, fits behind its start. -/
theorem sealedField_eq {node : Bytes} (short : node.length < 2 ^ 63) {next : Bytes → Walk (Option Bytes)}
    (high : pos ≤ node.length) :
    sealedField node next false ⟨pos, true⟩ = match readGroups 10 (node.drop pos) with
      | none => .ok (none, ⟨pos, false⟩)
      | some (count, rest) =>
        if 2 ^ 63 ≤ count + (node.length - rest.length) then .error .sliceBounds
        else if rest.length < count then .ok (none, ⟨(node.length - rest.length : Nat), true⟩)
        else next (rest.take count) false ⟨(node.length - rest.length + count : Nat), true⟩ := by
  have start := length_eq (b := node) (c := ⟨pos, true⟩) rfl
  rw [number_eq short (by simp) (by simpa using high), Int.toNat_natCast] at start
  cases read : readGroups 10 (node.drop pos) with
  | none =>
    rw [read] at start
    rw [sealedField_run start, Bool.not_false, Bool.true_or, if_pos rfl]
  | some found =>
    obtain ⟨count, rest⟩ := found
    rw [read] at start
    have shorter := readGroups_shorter read
    rw [length_drop] at shorter
    have place : (node.length : Int) - rest.length = (node.length - rest.length : Nat) := by omega
    have word : count < 2 ^ 64 := readGroups_lt read
    have low : (0 : Int) ≤ (node.length - rest.length : Nat) := Int.natCast_nonneg _
    rw [sealedField_run start]
    simp only [place, Bool.not_true, Bool.false_or, decide_eq_true_eq]
    by_cases beyond : 2 ^ 63 ≤ count + (node.length - rest.length)
    · have before := landing_over low (by omega) word (by omega)
      rw [if_pos beyond, if_neg (by omega), slice, if_neg (by omega)]
      rfl
    · rw [if_neg beyond, landing_fits low (by omega)]
      by_cases whole : count ≤ rest.length
      · have part : slice node (node.length - rest.length : Nat) ((node.length - rest.length : Nat) + count) =
            .ok (rest.take count) := by
          rw [slice, if_pos (by omega)]
          have same := readGroups_rest high read
          have taken : ((node.length - rest.length : Nat) + (count : Int) - (node.length - rest.length : Nat)).toNat =
            count := by omega
          rw [taken, Int.toNat_natCast, ← same]
        rw [if_neg (by omega), if_neg (by omega), part]
        rfl
      · rw [if_pos (by omega), if_pos (by omega)]

theorem sealedField_returns_iff {node : Bytes} (short : node.length < 2 ^ 63) {next : Bytes → Walk (Option Bytes)}
    (high : pos ≤ node.length) {last : Option Bytes × Cursor → Except Panic β} (stops : ∀ c, Comes (last (none, c))) :
    Comes (sealedField node next false ⟨pos, true⟩ >>= last) ↔
      ∀ count rest, readGroups 10 (node.drop pos) = some (count, rest) → count + (node.length - rest.length) < 2 ^ 63 ∧
        (count ≤ rest.length → Comes (next (rest.take count) false ⟨(node.length - rest.length + count : Nat),
          true⟩ >>= last)) := by
  rw [sealedField_eq short high]
  cases readGroups 10 (node.drop pos) with
  | none => exact iff_of_true (stops _) nofun
  | some found =>
    obtain ⟨count, rest⟩ := found
    suffices exact : _ ↔ count + (node.length - rest.length) < 2 ^ 63 ∧
        (count ≤ rest.length → Comes (next (rest.take count) false ⟨(node.length - rest.length + count : Nat),
          true⟩ >>= last)) from
      exact.trans ⟨by rintro fits _ _ ⟨⟩; exact fits, fun all => all count rest rfl⟩
    dsimp only
    by_cases beyond : 2 ^ 63 ≤ count + (node.length - rest.length)
    · rw [if_pos beyond]
      exact iff_of_false nofun fun both => absurd both.1 (by omega)
    · rw [if_neg beyond, and_iff_right (by omega)]
      split
      · exact iff_of_true (stops _) fun whole => absurd whole (by omega)
      · exact ⟨fun returns _ => returns, fun returns => returns (by omega)⟩

/-- The two length fields of a sealed node, taken without a sign, fit behind their starts. -/
def SealedFits (node : Bytes) : Prop :=
  ∀ nonceLength rest, readGroups 10 (node.drop 1) = some (nonceLength, rest) →
    nonceLength + (node.length - rest.length) < 2 ^ 63 ∧
      (nonceLength ≤ rest.length → ∀ length rest', readGroups 10 (rest.drop nonceLength) = some (length, rest') →
        length + (node.length - rest'.length) < 2 ^ 63)

/-- Opening a sealed node comes back exactly when both length fields fit. -/
theorem openEncryptedNode_returns_iff {sealer : Sealer} {body : Bytes}
    (short : (Tag.encrypted.byte :: body).length ≤ 2 ^ 48) :
    Returns (openEncryptedNode (Tag.encrypted.byte :: body) (some sealer)) ↔
    SealedFits (Tag.encrypted.byte :: body) := by
  have addressable : (Tag.encrypted.byte :: body).length < 2 ^ 63 := by omega
  have run : openEncryptedNode (Tag.encrypted.byte :: body) (some sealer) false =
      (sealedField (Tag.encrypted.byte :: body) (fun nonce => sealedField (Tag.encrypted.byte :: body) fun ciphertext =>
        pure (sealer.opens nonce ciphertext)) false ⟨(1 : Nat), true⟩ >>= fun found => .ok found.1) := by
    rw [openEncryptedNode, if_neg (by simp), runAt]
    cases sealedField (Tag.encrypted.byte :: body) _ false ⟨1, true⟩ <;> rfl
  rw [Returns, run]
  refine Iff.trans (sealedField_returns_iff addressable (by simp) fun _ => ⟨_, rfl⟩) ?_
  refine forall_congr' fun count => forall_congr' fun rest => imp_congr_right fun read => and_congr_right fun fits => ?_
  refine imp_congr_right fun whole => ?_
  have shorter := readGroups_shorter read
  have same := readGroups_rest (by simp) read
  refine Iff.trans (sealedField_returns_iff addressable (by simp at shorter ⊢; omega) fun _ => ⟨_, rfl⟩) ?_
  have after : (Tag.encrypted.byte :: body).drop ((Tag.encrypted.byte :: body).length - rest.length + count) =
      rest.drop count := by
    rw [← drop_drop, ← same]
  rw [after]
  refine forall_congr' fun length => forall_congr' fun rest' => imp_congr_right fun _ => ?_
  exact and_iff_left fun _ => ⟨_, rfl⟩

theorem openEncryptedNode_returns (short : node.length ≤ 2 ^ 48) (fits : SealedFits node) :
    Returns (openEncryptedNode node sealer) := by
  cases sealer with
  | none => exact ⟨none, rfl⟩
  | some sealer =>
    cases node with
    | nil => exact ⟨none, rfl⟩
    | cons tag body =>
      by_cases encrypted : tag = Tag.encrypted.byte
      · subst encrypted
        exact (openEncryptedNode_returns_iff short).mpr fits
      · exact ⟨none, by rw [openEncryptedNode, if_pos encrypted]; rfl⟩

end Sealed

section Totality

end Totality

end Classad.WireCursorProofs
