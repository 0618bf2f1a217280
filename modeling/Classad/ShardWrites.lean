import Classad.ShardInvariant

/-! Writes keep the invariant. Superseding a current record takes its key out of the contents,
appending a record at the head of its bucket puts one in, and a put is the two together: the old
version is looked up after the new record was appended, in a chain and in segments the new
record is not part of. -/
namespace Classad.ShardStore
open Arena Chains Listing Function
open List hiding head Chain

variable {A : Type}

/-! ## Superseding a current record -/

section Supersede
variable {cfg : Config} {σ : Shard A} {bound : Nat} {contents : Contents A} {l : Loc} {key : Key} {seq x : Nat} {ad : A}

/-- A record after a supersession is the one before, as far as chains are concerned. -/
theorem recordAt_supersedeRec_some (here : (σ.supersedeRec l x).recordAt l' = some r') :
    ∃ r, σ.recordAt l' = some r ∧ r'.seq = r.seq ∧ r'.body = r.body ∧
      ((l' ≠ l ∧ r' = r) ∨ (l' = l ∧ r'.superseded = some x)) := by
  rw [recordAt_supersedeRec] at here
  by_cases same : l' = l
  · subst same
    rw [if_pos rfl] at here
    obtain ⟨r, found, rfl⟩ := Option.map_eq_some_iff.mp here
    exact ⟨r, found, rfl, rfl, .inr ⟨rfl, rfl⟩⟩
  · rw [if_neg same] at here
    exact ⟨r', here, rfl, rfl, .inl ⟨same, rfl⟩⟩

theorem recordAt_supersedeRec_body (here : σ.recordAt l' = some r) :
    ∃ r', (σ.supersedeRec l x).recordAt l' = some r' ∧ r'.body = r.body := by
  rw [recordAt_supersedeRec]
  by_cases same : l' = l
  · subst same
    exact ⟨{ r with superseded := some x }, by rw [if_pos rfl, here]; rfl, rfl⟩
  · exact ⟨r, by rw [if_neg same, here], rfl⟩

theorem Shard.Writable.modifySeg (writable : σ.Writable) (id : Nat)
    (retired : ∀ seg, (f seg).retired = seg.retired) (indexed : ∀ seg, (f seg).keyIndexed = seg.keyIndexed) :
    (σ.modifySeg id f).Writable := by
  intro i isActive
  obtain ⟨seg, here, notRetired, notIndexed⟩ := writable i isActive
  rw [getElem?_modifySeg]
  split
  · rw [here]
    exact ⟨f seg, rfl, (retired seg).trans notRetired, (indexed seg).trans notIndexed⟩
  · exact ⟨seg, here, notRetired, notIndexed⟩

theorem Linked.supersedeRec (linked : Linked cfg σ) (l : Loc) (x : Nat) : Linked cfg (σ.supersedeRec l x) where
  chained h := by
    obtain ⟨nodes, chain, distinct, members⟩ := linked.chained h
    refine ⟨nodes, ?_, distinct, ?_⟩
    · rw [links_supersedeRec]
      exact chain
    · intro node member
      obtain ⟨r, key, ad, here, body, hash⟩ := members node member
      obtain ⟨r', here', body'⟩ := recordAt_supersedeRec_body here
      exact ⟨r', key, ad, here', body'.trans body, hash⟩
  writable := linked.writable.modifySeg l.seg (fun seg => retired_supersedeRec x)
    fun seg => keyIndexed_supersedeRec x

theorem mem_modifySeg {id : Nat} (member : seg ∈ (σ.modifySeg id f).segs) :
    seg ∈ σ.segs ∨ ∃ seg₀, σ.segs[id]? = some seg₀ ∧ seg = f seg₀ := mem_modify member

/-- Superseding the current record of a key takes the key out of the contents. -/
theorem Sound.supersedeRec (sound : Sound cfg σ bound contents) (current : σ.IsCurrent l key seq ad)
    (later : bound ≤ x) :
    Sound cfg (σ.supersedeRec l x) x (update contents key none) := by
  obtain ⟨r, here, body, unsuperseded, rfl⟩ := current
  refine { toLinked := sound.toLinked.supersedeRec l x, stamped := ?_, listed := ?_, reached := ?_, counted := ?_ }
  · intro l' r' here' keyed
    obtain ⟨r₀, found, seqs, bodies, sups⟩ := recordAt_supersedeRec_some here'
    rw [Record.isMarker, bodies] at keyed
    obtain ⟨stamp, sup⟩ := sound.stamped l' r₀ found keyed
    refine ⟨by omega, fun y superseded => ?_⟩
    rcases sups with ⟨-, rfl⟩ | ⟨-, new⟩
    · exact Nat.le_trans (sup y superseded) later
    · rw [new] at superseded
      cases superseded
      exact Nat.le_refl _
  · obtain ⟨before, after, whole, rest⟩ := currents_supersedeRec here body unsuperseded x
    rw [rest]
    have listed := sound.listed
    rw [whole] at listed
    exact listed.remove
  · rintro l' key' seq' ad' ⟨r', here', body', current', rfl⟩
    obtain ⟨r₀, found, seqs, -, ⟨-, rfl⟩ | ⟨-, new⟩⟩ := recordAt_supersedeRec_some here'
    · rw [links_supersedeRec, isProbed_supersedeRec]
      exact sound.reached l' key' r'.seq ad' ⟨r', found, body', current', rfl⟩
    · rw [current'] at new
      cases new
  · intro seg member
    rcases mem_modifySeg member with old | ⟨seg₀, found, rfl⟩
    · exact sound.counted seg old
    · have raw := pinnedAt_of_recordAt here
      rw [Shard.pinnedAt, found, Option.bind_some] at raw
      exact (sound.counted seg₀ (mem_of_getElem? found)).supersedeRec raw (Record.isMarker_of_ad body) unsuperseded x

end Supersede

/-! ## Appending a record -/

section Append
variable {cfg : Config} {σ τ : Shard A} {bound : Nat} {contents : Contents A} {new : Loc} {r : Record A}
  {key : Key} {ad : A}

section
variable (appends : Appends σ τ new r)
include appends

theorem Appends.ne_new (here : σ.recordAt l = some r') : l ≠ new := by
  rintro rfl
  rw [appends.free] at here
  cases here

theorem Appends.keeps (here : σ.recordAt l = some r') : τ.recordAt l = some r' := by
  rw [appends.recordAt, if_neg (appends.ne_new here), here]

/-- What is there after an append was there before, or is the record appended. -/
theorem Appends.some_cases (here : τ.recordAt l = some r') :
    (l = new ∧ r' = r) ∨ σ.recordAt l = some r' := by
  rw [appends.recordAt] at here
  split at here
  next same =>
    cases here
    exact .inl ⟨same, rfl⟩
  · exact .inr here

theorem Appends.chain (chain : Chain σ.links head nodes) : Chain τ.links head nodes := by
  apply chain.congr
  intro node member
  obtain ⟨link, found⟩ := chain.exists member
  obtain ⟨r', here, -⟩ := Option.map_eq_some_iff.mp found
  rw [appends.links, if_neg (appends.ne_new here)]

theorem Appends.members {nodes : List Loc}
    (members : ∀ l ∈ nodes, ∃ r key ad, σ.recordAt l = some r ∧ r.body = .ad key ad ∧ cfg.hash key = h) :
    ∀ l ∈ nodes, ∃ r key ad, τ.recordAt l = some r ∧ r.body = .ad key ad ∧ cfg.hash key = h := by
  intro l member
  obtain ⟨r', key', ad', here, facts⟩ := members l member
  exact ⟨r', key', ad', appends.keeps here, facts⟩

end

/-- A record appended at the head of its bucket. -/
theorem Linked.pushHead (linked : Linked cfg σ) (appends : Appends σ τ new r) (body : r.body = .ad key ad)
    (next : r.next = σ.dir (cfg.hash key)) (dir : τ.dir = update σ.dir (cfg.hash key) (some new))
    (writable : τ.Writable) : Linked cfg τ where
  writable := writable
  chained h := by
    obtain ⟨nodes, chain, distinct, members⟩ := linked.chained h
    by_cases same : h = cfg.hash key
    · subst same
      refine ⟨new :: nodes, ?_, ?_, ?_⟩
      · rw [dir, update_self]
        have link : τ.links new = some (σ.dir (cfg.hash key)) := by rw [appends.links, if_pos rfl, next]
        exact .cons link (appends.chain chain)
      · refine nodup_cons.mpr ⟨fun member => ?_, distinct⟩
        obtain ⟨r', -, -, here, -⟩ := members new member
        exact appends.ne_new here rfl
      · intro l member
        rcases mem_cons.mp member with rfl | member
        · exact ⟨r, key, ad, by rw [appends.recordAt, if_pos rfl], body, rfl⟩
        · exact appends.members members l member
    · refine ⟨nodes, ?_, distinct, appends.members members⟩
      rw [dir, update_of_ne same]
      exact appends.chain chain

/-- A record appended outside the chains. -/
theorem Linked.pushAside (linked : Linked cfg σ) (appends : Appends σ τ new r) (dir : τ.dir = σ.dir)
    (writable : τ.Writable) :
    Linked cfg τ where
  writable := writable
  chained h := by
    obtain ⟨nodes, chain, distinct, members⟩ := linked.chained h
    refine ⟨nodes, ?_, distinct, appends.members members⟩
    rw [dir]
    exact appends.chain chain

/-- Whether a search for a key comes by a location. -/
def Shard.Reached (cfg : Config) (σ : Shard A) (key : Key) (l : Loc) : Prop :=
  (∃ nodes, Chain σ.links (σ.dir (cfg.hash key)) nodes ∧ l ∈ nodes) ∨ σ.isProbed l.seg = true

/-- A record at the head of a bucket comes into reach, and nothing else does. -/
theorem reached_pushHead (linked : Linked cfg σ) (appends : Appends σ τ new r₁)
    (next : r₁.next = σ.dir (cfg.hash key)) (dir : τ.dir = update σ.dir (cfg.hash key) (some new))
    (probed : ∀ id, τ.isProbed id = σ.isProbed id) :
    τ.Reached cfg key' l ↔ σ.Reached cfg key' l ∨ cfg.hash key' = cfg.hash key ∧ l = new := by
  obtain ⟨nodes, chain, -⟩ := linked.chained (cfg.hash key)
  have link : τ.links new = some (σ.dir (cfg.hash key)) := by rw [appends.links, if_pos rfl, next]
  have longer : Chain τ.links (τ.dir (cfg.hash key)) (new :: nodes) := by
    rw [dir, update_self]
    exact .cons link (appends.chain chain)
  have others : ∀ h, h ≠ cfg.hash key → ∀ nodes', Chain σ.links (σ.dir h) nodes' → Chain τ.links (τ.dir h) nodes' := by
    intro h differs nodes' chain'
    rw [dir, update_of_ne differs]
    exact appends.chain chain'
  constructor
  · rintro (⟨nodes', chain', member⟩ | inIndex)
    · by_cases same : cfg.hash key' = cfg.hash key
      · rw [same] at chain'
        rw [chain'.unique longer] at member
        rcases mem_cons.mp member with isNew | old
        · exact .inr ⟨same, isNew⟩
        · exact .inl (.inl ⟨nodes, same ▸ chain, old⟩)
      · obtain ⟨before, chain₀, -⟩ := linked.chained (cfg.hash key')
        rw [chain'.unique (others _ same before chain₀)] at member
        exact .inl (.inl ⟨before, chain₀, member⟩)
    · exact .inl (.inr ((probed l.seg).symm.trans inIndex))
  · rintro ((⟨nodes', chain', member⟩ | inIndex) | ⟨same, rfl⟩)
    · by_cases same : cfg.hash key' = cfg.hash key
      · rw [same] at chain'
        rw [chain'.unique chain] at member
        exact .inl ⟨new :: nodes, same ▸ longer, .tail _ member⟩
      · exact .inl ⟨nodes', others _ same nodes' chain', member⟩
    · exact .inr ((probed l.seg).trans inIndex)
    · exact .inl ⟨l :: nodes, same ▸ longer, (.head _)⟩

/-- One appended outside the chains does not. -/
theorem reached_pushAside (linked : Linked cfg σ) (appends : Appends σ τ new r) (dir : τ.dir = σ.dir)
    (probed : ∀ id, τ.isProbed id = σ.isProbed id) : τ.Reached cfg key l ↔ σ.Reached cfg key l := by
  obtain ⟨nodes, chain, -⟩ := linked.chained (cfg.hash key)
  unfold Shard.Reached
  rw [dir, probed]
  refine or_congr_left ⟨?_, ?_⟩
  · rintro ⟨others, chain', member⟩
    rw [chain'.unique (appends.chain chain)] at member
    exact ⟨nodes, chain, member⟩
  · rintro ⟨others, chain', member⟩
    exact ⟨others, appends.chain chain', member⟩

section
variable (sound : Sound cfg σ bound contents) (appends : Appends σ τ new r)
include sound appends

theorem Sound.stamped_push (later : bound ≤ x)
    (seq : r.seq ≤ x) (current : r.superseded = none) : ∀ l r, τ.recordAt l = some r → r.StampedBy x := by
  intro l r' here
  rcases appends.some_cases here with ⟨-, rfl⟩ | old
  · refine fun _ => ⟨seq, fun y sup => ?_⟩
    rw [current] at sup
    cases sup
  · exact (sound.stamped l r' old).mono later

/-- Appending the record of a key that the shard does not hold. -/
theorem Sound.pushHead (body : r.body = .ad key ad)
    (current : r.superseded = none) (next : r.next = σ.dir (cfg.hash key))
    (dir : τ.dir = update σ.dir (cfg.hash key) (some new)) (writable : τ.Writable)
    (probed : ∀ id, τ.isProbed id = σ.isProbed id) (counted : ∀ seg ∈ τ.segs, Counted seg)
    (later : bound ≤ r.seq) (absent : contents key = none) :
    Sound cfg τ r.seq (update contents key (some (r.seq, ad))) := by
  have linked := sound.toLinked.pushHead appends body next dir writable
  refine { toLinked := linked, stamped := sound.stamped_push appends later (Nat.le_refl _) current,
           listed := ?_, reached := ?_, counted := counted }
  · have pair : r.currentPair = some (key, r.seq, ad) := Record.currentPair_eq_some.mpr ⟨body, current, rfl⟩
    have same := currents_of_appends appends
    rw [pair] at same
    exact (sound.listed.insert absent (r.seq, ad)).perm same.symm
  · rintro l key' seq' ad' ⟨r', here, body', current', rfl⟩
    apply (reached_pushHead sound.toLinked appends next dir probed).mpr
    rcases appends.some_cases here with ⟨rfl, rfl⟩ | old
    · rw [body] at body'
      cases body'
      exact .inr ⟨rfl, rfl⟩
    · exact .inl (sound.reached l key' r'.seq ad' ⟨r', old, body', current', rfl⟩)

/-- Appending a keyless record. -/
theorem Sound.pushMarker (marker : r.isMarker = true)
    (current : r.superseded = none) (seq : r.seq ≤ bound) (dir : τ.dir = σ.dir) (writable : τ.Writable)
    (probed : ∀ id, τ.isProbed id = σ.isProbed id) (counted : ∀ seg ∈ τ.segs, Counted seg) :
    Sound cfg τ bound contents := by
  have linked := sound.toLinked.pushAside appends dir writable
  have notAd : ∀ key ad, r.body ≠ .ad key ad := by
    intro key ad body
    rw [Record.isMarker_of_ad body] at marker
    cases marker
  refine { toLinked := linked, stamped := sound.stamped_push appends (Nat.le_refl _) seq current,
           listed := ?_, reached := ?_, counted := counted }
  · have none_ : r.currentPair = none := by
      cases pair : r.currentPair with
      | none => rfl
      | some p =>
        obtain ⟨key, seq, ad⟩ := p
        exact absurd (Record.currentPair_eq_some.mp pair).1 (notAd key ad)
    have same := currents_of_appends appends
    rw [none_] at same
    exact sound.listed.perm same.symm
  · rintro l key seq' ad ⟨r', here, body, current', rfl⟩
    rcases appends.some_cases here with ⟨-, rfl⟩ | old
    · exact absurd body (notAd key ad)
    · exact (reached_pushAside sound.toLinked appends dir probed).mpr
        (sound.reached l key r'.seq ad ⟨r', old, body, current', rfl⟩)

end

end Append

/-! ## Writing a record -/

section Write
variable (cfg : Config)

/-- A record was written to the active segment: where, and what else stayed as it was. -/
structure Written (σ τ : Shard A) (new : Loc) (r : Record A) : Prop where
  appends : Appends σ τ new r
  writable : σ.Writable → τ.Writable
  probed : σ.Writable → ∀ id, τ.isProbed id = σ.isProbed id
  unprobed : τ.isProbed new.seg = false
  counted : (∀ seg ∈ σ.segs, Counted seg) → 0 < r.seq → ∀ seg ∈ τ.segs, Counted seg
  grows : ∀ bound, Grows bound σ τ
  rest : ∃ segs act dirty, τ = { σ with segs := segs, act := act, dirty := dirty }

variable {σ : Shard A} {id seq : Nat} {next : Option Loc} {key : Key} {ad : A} {len : Nat}

theorem appendTo_eq {σ : Shard A} (id seq : Nat) {next : Option Loc} {body : Body A} {len : Nat} :
    ∃ dirty, σ.appendTo cfg id seq next body len =
      { σ.modifySeg id fun seg => seg.append seq next body len with dirty := dirty } := by
  unfold Shard.appendTo Shard.markDirty
  split
  · exact ⟨_, rfl⟩
  · exact ⟨_, rfl⟩

/-- An append to the active segment. -/
theorem written_appendTo (isActive : σ.act = some id) (here : σ.segs[id]? = some seg) (notRetired : seg.retired = false)
    (positive : 0 < len) :
    Written σ (σ.appendTo cfg id seq next (.ad key ad) len)
    ⟨id, seg.records.length⟩ ⟨seq, none, next, .ad key ad, len⟩ := by
  obtain ⟨dirty, form⟩ := appendTo_eq cfg id seq
  have appends := appends_modifySeg (f := fun seg => seg.append seq next (.ad key ad) len) here notRetired
    (live_append seg notRetired seq next _ len)
  have probed : ∀ i, (σ.modifySeg id fun seg => seg.append seq next (.ad key ad) len).isProbed i = σ.isProbed i :=
    fun i => isProbed_modifySeg i (fun _ => rfl) fun _ => rfl
  rw [form]
  refine ⟨appends.of_segs rfl, fun writable => writable.modifySeg id (fun _ => rfl) fun _ => rfl,
    fun _ => probed, ?_, ?_, ?_,
    _, _, dirty, rfl⟩
  · apply (probed id).trans
    rw [Shard.isProbed, here, isActive]
    simp
  · intro counted stamp seg' member
    rcases mem_modifySeg member with old | ⟨seg₀, found, rfl⟩
    · exact counted seg' old
    · exact (counted seg₀ (mem_of_getElem? found)).append stamp next key ad positive
  · intro bound
    have grown : Grows bound σ (σ.modifySeg id fun seg => seg.append seq next (.ad key ad) len) :=
      .modifySeg (.modifySeg σ id fun _ _ _ _ here => kept_append here) (fun _ => rfl) fun _ inactive =>
        absurd isActive inactive
    exact grown.trans (.of_fields rfl rfl)

theorem writable_allocate : (σ.allocate size codec).Writable := by
  intro i isActive
  cases isActive
  exact ⟨Segment.fresh size codec, by simp [Shard.allocate], rfl, rfl⟩

/-- The segment that was active has no key index, so it is not probed afterwards either. -/
theorem isProbed_allocate (writable : σ.Writable) (size codec i : Nat) :
    (σ.allocate size codec).isProbed i = σ.isProbed i := by
  unfold Shard.isProbed Shard.allocate
  by_cases inside : i < σ.segs.length
  · rw [getElem?_append_left inside, getElem?_eq_getElem inside]
    have notLast : (some σ.segs.length != some i) = true := bne_iff_ne.mpr fun same => by cases same; omega
    rw [notLast]
    cases active : σ.act with
    | none => rfl
    | some id =>
      by_cases same : id = i
      · subst same
        obtain ⟨seg, here, -, notIndexed⟩ := writable id active
        rw [getElem?_eq_getElem inside] at here
        cases here
        simp [notIndexed]
      · have other : (some id != some i) = true := bne_iff_ne.mpr fun equal => same (Option.some.inj equal)
        rw [other]
  · rw [getElem?_append_right (by omega), getElem?_eq_none (by omega : σ.segs.length ≤ i)]
    cases found : [(Segment.fresh size codec : Segment A)][i - σ.segs.length]? with
    | none => rfl
    | some seg =>
      obtain rfl := mem_singleton.mp (mem_of_getElem? found)
      simp [Segment.fresh]

theorem Written.of_allocate (written : Written (σ.allocate size codec) τ new r) : Written σ τ new r where
  appends :=
    { recordAt := fun l => by rw [written.appends.recordAt, recordAt_allocate]
      free := by rw [← recordAt_allocate σ size codec, written.appends.free]
      cells := by
        rw [← cells_allocate σ size codec]
        exact written.appends.cells }
  writable _ := written.writable (writable_allocate)
  probed writable id := by rw [written.probed (writable_allocate), isProbed_allocate writable]
  unprobed := written.unprobed
  counted counted stamp := by
    apply written.counted _ stamp
    intro seg member
    rcases mem_append.mp member with old | fresh
    · exact counted seg old
    · obtain rfl := mem_singleton.mp fresh
      exact .fresh size codec
  grows bound := (Grows.allocate σ size codec).trans (written.grows bound)
  rest := by
    obtain ⟨segs, act, dirty, rfl⟩ := written.rest
    exact ⟨segs, act, dirty, rfl⟩

theorem activeFor_some (found : σ.activeFor codec len = some id) : σ.act = some id ∧ ∃ seg, σ.segs[id]? = some seg := by
  unfold Shard.activeFor at found
  cases active : σ.act with
  | none => rw [active] at found; cases found
  | some id' =>
    rw [active] at found
    cases here : σ.segs[id']? with
    | none => simp only [here] at found; cases found
    | some seg =>
      simp only [here] at found
      split at found
      · cases found
        exact ⟨rfl, seg, here⟩
      · cases found

/-- Whether a put finds a segment to write to. -/
def Shard.stores (cfg : Config) (σ : Shard A) (w : PendingPut A) : Bool :=
  (σ.activeFor w.codec w.recordLen).isSome || !(cfg.persistent && !w.room)

/-- A write stores its record, or has no segment to store it in and changes nothing. -/
theorem writeRecord_spec (writable : σ.Writable) (seq : Nat) (next : Option Loc) (w : PendingPut A) :
    (σ.stores cfg w = false ∧ σ.writeRecord cfg seq next w = ({ σ with writeErr := true }, none)) ∨
      ∃ τ new, σ.stores cfg w = true ∧ σ.writeRecord cfg seq next w = (τ, some new) ∧
          Written σ τ new ⟨seq, none, next, .ad w.key w.ad, w.recordLen⟩ := by
  unfold Shard.writeRecord Shard.stores
  cases chosen : σ.activeFor w.codec w.recordLen with
  | some id =>
    right
    obtain ⟨isActive, seg, here⟩ := activeFor_some chosen
    obtain ⟨seg', here', notRetired, -⟩ := writable id isActive
    rw [here] at here'
    cases here'
    refine ⟨_, ⟨id, seg.records.length⟩, rfl, ?_, written_appendTo cfg isActive here notRetired (recordLen_pos _ _)⟩
    simp [Shard.endOf, here]
  | none =>
    by_cases refused : cfg.persistent = true ∧ ¬w.room = true
    · exact .inl ⟨by simp [refused], if_pos refused⟩
    · right
      have fresh : (σ.allocate (max cfg.segSize w.recordLen) w.codec).segs[σ.segs.length]? =
          some (Segment.fresh (max cfg.segSize w.recordLen) w.codec) := by simp [Shard.allocate]
      exact ⟨_, ⟨σ.segs.length, 0⟩, by simpa [imp_iff_not_or] using refused, if_neg refused,
        (written_appendTo cfg rfl fresh rfl (recordLen_pos _ _)).of_allocate⟩

end Write

/-! ## Puts -/

section Put
variable {cfg : Config} {σ τ : Shard A} {bound seq : Nat} {contents : Contents A} {new old : Loc} {r prev : Record A}
  {w : PendingPut A}

theorem noteSup_eq (cfg : Config) (τ : Shard A) (l : Loc) :
    ∃ dirtySup, τ.noteSup cfg l = { τ with dirtySup := dirtySup } := by
  unfold Shard.noteSup
  split
  · exact ⟨_, rfl⟩
  · exact ⟨_, rfl⟩

theorem replaceOld_spec (cfg : Config) (τ : Shard A) (head : Option Loc) (key : Key) (seq : Nat) :
    (∃ old dirtySup, τ.search head key = some old ∧
      τ.replaceOld cfg head key seq = { τ.supersedeRec old seq with dirtySup := dirtySup }) ∨
    (τ.search head key = none ∧ τ.replaceOld cfg head key seq = τ.countNew cfg key) := by
  unfold Shard.replaceOld Shard.search
  cases τ.findCurrent head key with
  | some old => exact .inl ⟨old, _, rfl, rfl⟩
  | none =>
    cases τ.lookupSealed key with
    | none => exact .inr ⟨rfl, rfl⟩
    | some old =>
      obtain ⟨dirtySup, form⟩ := noteSup_eq cfg (τ.supersedeRec old seq) old
      exact .inl ⟨old, dirtySup, rfl, form⟩

/-- The record a put writes. -/
def PendingPut.record (cfg : Config) (σ : Shard A) (seq : Nat) (w : PendingPut A) : Record A :=
  ⟨seq, none, σ.dir (cfg.hash w.key), .ad w.key w.ad, w.recordLen⟩

/-- The search of a put runs after the write, and finds what was there before it. -/
theorem Written.search_some (written : Written σ τ new r) (linked : Linked cfg σ)
    (found : τ.search (σ.dir h) key = some old) : ∃ prev, σ.Found key old prev := by
  obtain ⟨nodes, bucket⟩ := linked.chained h
  have ⟨chain, distinct, members⟩ := bucket
  obtain ⟨place, prev, here, current, same⟩ := ShardStore.search_some (written.appends.chain chain) distinct found
  rw [written.probed linked.writable] at place
  refine ⟨prev, bucket.found place ?_ current same⟩
  have differs : old ≠ new := by
    rintro rfl
    rcases place with member | probed
    · obtain ⟨r', -, -, here', -⟩ := members old member
      exact written.appends.ne_new here' rfl
    · rw [← written.probed linked.writable, written.unprobed] at probed
      cases probed
  rwa [written.appends.recordAt, if_neg differs] at here

theorem put_cases (linked : Linked cfg σ) (w : PendingPut A) :
    (σ.stores cfg w = false ∧ σ.put cfg seq w = { σ with writeErr := true }) ∨
    ∃ τ new, σ.stores cfg w = true ∧ Written σ τ new (w.record cfg σ seq) ∧
      ((∃ old prev dirtySup, σ.Found w.key old prev ∧
          σ.put cfg seq w = { τ.supersedeRec old seq with
            dirtySup := dirtySup, dir := update σ.dir (cfg.hash w.key) (some new) }) ∨
        (τ.search (σ.dir (cfg.hash w.key)) w.key = none ∧
          σ.put cfg seq w = { τ.countNew cfg w.key with dir := update σ.dir (cfg.hash w.key) (some new) })) := by
  unfold Shard.put
  rcases writeRecord_spec cfg linked.writable seq (σ.dir (cfg.hash w.key)) w with ⟨refused, failed⟩ | ⟨τ, new, stored,
    done, written⟩
  · left
    simp [failed, refused]
  · right
    obtain ⟨segs, act, dirty, form⟩ := written.rest
    have dir : τ.dir = σ.dir := by rw [form]
    refine ⟨τ, new, stored, written, ?_⟩
    rcases replaceOld_spec cfg τ (σ.dir (cfg.hash w.key)) w.key seq with ⟨old, dirtySup, found,
      replaced⟩ | ⟨missing, counted⟩
    · left
      obtain ⟨prev, found⟩ := written.search_some linked found
      refine ⟨old, prev, dirtySup, found, ?_⟩
      simp only [done, replaced]
      rw [← dir]
      rfl
    · right
      refine ⟨missing, ?_⟩
      simp only [done, counted]
      rw [← dir]
      rfl

theorem Linked.of_fields (linked : Linked cfg σ) (segs : τ.segs = σ.segs) (act : τ.act = σ.act) (dir : τ.dir = σ.dir) :
    Linked cfg τ where
  chained h := by
    obtain ⟨nodes, chain, distinct, members⟩ := linked.chained h
    refine ⟨nodes, ?_, distinct, fun l member => ?_⟩
    · rw [links_of_segs segs, dir]
      exact chain
    · rw [recordAt_of_segs segs]
      exact members l member
  writable id isActive := by
    rw [act] at isActive
    rw [segs]
    exact linked.writable id isActive

theorem Sound.of_fields (sound : Sound cfg σ bound contents) (segs : τ.segs = σ.segs) (act : τ.act = σ.act)
    (dir : τ.dir = σ.dir) : Sound cfg τ bound contents where
  toLinked := sound.toLinked.of_fields segs act dir
  stamped l r here := sound.stamped l r (by rwa [recordAt_of_segs segs] at here)
  listed := by
    rw [Shard.currents, Shard.arena, segs]
    exact sound.listed
  reached l key seq ad current := by
    rw [links_of_segs segs, dir, isProbed_of_segs segs act]
    apply sound.reached l key seq ad
    obtain ⟨r, here, facts⟩ := current
    exact ⟨r, by rwa [recordAt_of_segs segs] at here, facts⟩
  counted seg member := sound.counted seg (by rwa [segs] at member)

/-- What a put does to the records, in the terms of the lemmas above: perhaps superseding one of
them, and then appending at the head of a bucket. -/
structure Puts (cfg : Config) (σ σ₀ σ' : Shard A) (seq : Nat) (w : PendingPut A) (new : Loc) : Prop where
  appends : Appends σ₀ σ' new (w.record cfg σ seq)
  dir : σ'.dir = update σ.dir (cfg.hash w.key) (some new)
  writable : σ'.Writable
  probed : ∀ id, σ'.isProbed id = σ₀.isProbed id
  counted : σ.Admits w.key → (∀ seg ∈ σ.segs, Counted seg) → 0 < seq → ∀ seg ∈ σ'.segs, Counted seg
  clocks : σ'.commitSeq = σ.commitSeq ∧ σ'.gcFloor = σ.gcFloor ∧ σ'.tseq = σ.tseq
  grows : ∀ bound, bound < seq → Grows bound σ σ'

theorem Counted.supersedeAll (counted : ∀ seg ∈ σ.segs, Counted seg) (here : σ.recordAt old = some prev)
    (keyed : prev.isMarker = false) (current : prev.superseded = none) (seq : Nat) :
    ∀ seg ∈ (σ.supersedeRec old seq).segs, Counted seg := by
  intro seg member
  rcases mem_modifySeg member with same | ⟨seg₀, found, rfl⟩
  · exact counted seg same
  · have raw := pinnedAt_of_recordAt here
    rw [Shard.pinnedAt, found, Option.bind_some] at raw
    exact (counted seg₀ (mem_of_getElem? found)).supersedeRec raw keyed current seq

section
variable (written : Written σ τ new (w.record cfg σ seq)) (linked : Linked cfg σ)
include written linked

theorem Written.puts_replacing
    (found : σ.Found w.key old prev) :
    Puts cfg σ (σ.supersedeRec old seq)
      { τ.supersedeRec old seq with dirtySup := dirtySup, dir := update σ.dir (cfg.hash w.key) (some new) }
      seq w new where
  appends := (written.appends.supersedeRec found.here seq).of_segs rfl
  dir := rfl
  writable := (written.writable linked.writable).modifySeg old.seg (fun seg => retired_supersedeRec seq)
    fun seg => keyIndexed_supersedeRec seq
  probed id := by
    rw [isProbed_supersedeRec, ← written.probed linked.writable, ← isProbed_supersedeRec τ old seq]
    rfl
  counted admits counted stamp :=
    Counted.supersedeAll (written.counted counted stamp) (written.appends.keeps found.here)
      (found.keyed admits) found.current seq
  clocks := by
    obtain ⟨segs, act, dirty, rfl⟩ := written.rest
    exact ⟨rfl, rfl, rfl⟩
  grows bound later :=
    have kept := pinnedAt_of_recordAt (written.appends.keeps found.here)
    ((written.grows bound).trans (.supersedeRec kept found.current later)).trans (.of_fields rfl rfl)

theorem Written.puts_new :
    Puts cfg σ σ { τ.countNew cfg w.key with dir := update σ.dir (cfg.hash w.key) (some new) } seq w new where
  appends := written.appends.of_segs rfl
  dir := rfl
  writable := written.writable linked.writable
  probed := written.probed linked.writable
  counted _ := written.counted
  clocks := by
    obtain ⟨segs, act, dirty, rfl⟩ := written.rest
    exact ⟨rfl, rfl, rfl⟩
  grows bound _ := (written.grows bound).trans (.of_fields rfl rfl)

end

/-- A put that finds no old version has missed none that the shard reaches. -/
def Shard.Unreached (cfg : Config) (σ : Shard A) (key : Key) : Prop :=
  ∀ l seq ad, σ.IsCurrent l key seq ad →
    (∀ nodes, Chain σ.links (σ.dir (cfg.hash key)) nodes → l ∉ nodes) ∧ σ.isProbed l.seg = false

theorem Written.unreached (written : Written σ τ new r) (linked : Linked cfg σ)
    (missing : τ.search (σ.dir (cfg.hash key)) key = none) : σ.Unreached cfg key := by
  rintro l seq ad ⟨prev, here, facts⟩
  obtain ⟨nodes, chain, distinct, -⟩ := linked.chained (cfg.hash key)
  have current : τ.IsCurrent l key seq ad := ⟨prev, written.appends.keeps here, facts⟩
  obtain ⟨outside, unprobed⟩ := search_none (written.appends.chain chain) distinct missing current
  refine ⟨fun others chain' => ?_, ?_⟩
  · rw [chain'.unique chain]
    exact outside
  · rw [← written.probed linked.writable]
    exact unprobed

theorem put_puts (linked : Linked cfg σ) {seq : Nat} :
    (σ.stores cfg w = false ∧ σ.put cfg seq w = { σ with writeErr := true }) ∨
    ∃ new, σ.stores cfg w = true ∧ ((∃ old prev, σ.Found w.key old prev ∧
        Puts cfg σ (σ.supersedeRec old seq) (σ.put cfg seq w) seq w new ∧
        (σ.put cfg seq w).count = σ.count ∧ (σ.put cfg seq w).childCount = σ.childCount) ∨
      (Puts cfg σ σ (σ.put cfg seq w) seq w new ∧ σ.Unreached cfg w.key ∧
        (σ.put cfg seq w).count = (σ.countNew cfg w.key).count ∧
        (σ.put cfg seq w).childCount = (σ.countNew cfg w.key).childCount)) := by
  rcases put_cases linked w with failed | ⟨τ, new, stored, written,
    ⟨old, prev, dirtySup, found, form⟩ | ⟨missing, form⟩⟩
  · exact .inl failed
  · refine .inr ⟨new, stored, .inl ⟨old, prev, found, ?_⟩⟩
    rw [form]
    refine ⟨written.puts_replacing linked found, ?_⟩
    obtain ⟨segs, act, dirty, rfl⟩ := written.rest
    exact ⟨rfl, rfl⟩
  · refine .inr ⟨new, stored, .inr ?_⟩
    rw [form]
    refine ⟨written.puts_new linked, written.unreached linked missing, ?_⟩
    obtain ⟨segs, act, dirty, rfl⟩ := written.rest
    exact ⟨rfl, rfl⟩

theorem Linked.put (linked : Linked cfg σ) (seq : Nat) (w : PendingPut A) : Linked cfg (σ.put cfg seq w) := by
  rcases put_puts linked with ⟨-, failed⟩ | ⟨new, -, ⟨old, prev, -, puts, -⟩ | ⟨puts, -⟩⟩
  · rw [failed]
    exact linked.of_fields rfl rfl rfl
  · exact (linked.supersedeRec old seq).pushHead puts.appends rfl rfl puts.dir puts.writable
  · exact linked.pushHead puts.appends rfl rfl puts.dir puts.writable

/-- The contents after a put. -/
def Contents.put (cfg : Config) (σ : Shard A) (seq : Nat) (w : PendingPut A) (contents : Contents A) : Contents A :=
  if σ.stores cfg w then update contents w.key (some (seq, w.ad)) else contents

section
variable (sound : Sound cfg σ bound contents)
include sound

theorem Sound.mono (later : bound ≤ x) : Sound cfg σ x contents :=
  { sound with
    stamped := fun l r here => (sound.stamped l r here).mono later }

theorem Sound.absent (unreached : σ.Unreached cfg key) : contents key = none := by
  apply sound.listed.none_iff.mpr
  rintro ⟨seq, ad⟩ member
  obtain ⟨l, current⟩ := mem_currents.mp member
  obtain ⟨outside, unprobed⟩ := unreached l seq ad current
  rcases sound.reached l key seq ad current with ⟨nodes, chain, inside⟩ | probed
  · exact outside nodes chain inside
  · rw [unprobed] at probed
    cases probed

theorem Sound.put (admits : σ.Admits w.key) (later : bound ≤ seq) (positive : 0 < seq) :
    Sound cfg (σ.put cfg seq w) seq (contents.put cfg σ seq w) := by
  unfold Contents.put
  rcases put_puts sound.toLinked with ⟨refused, failed⟩ |
    ⟨new, stored, ⟨old, prev, found, puts, -⟩ | ⟨puts, unreached, -⟩⟩
  · rw [refused, failed]
    exact (sound.mono later).of_fields rfl rfl rfl
  · rw [if_pos stored]
    obtain ⟨ad, current⟩ := found.isCurrent admits
    have pushed := (sound.supersedeRec current later).pushHead puts.appends rfl rfl rfl puts.dir
      puts.writable puts.probed
      (puts.counted admits sound.counted positive) (Nat.le_refl _) (update_self _ _ _)
    rwa [update_idem] at pushed
  · rw [if_pos stored]
    exact sound.pushHead puts.appends rfl rfl rfl puts.dir puts.writable puts.probed
      (puts.counted admits sound.counted positive) later (sound.absent unreached)

end

end Put

/-! ## Deletes -/

section Delete
variable {cfg : Config} {σ : Shard A} {bound seq : Nat} {contents : Contents A} {key : Key}

theorem del_cases (cfg : Config) (σ : Shard A) (seq : Nat) (key : Key) :
    (σ.locate cfg key = none ∧ σ.del cfg seq key = (σ, false, false)) ∨
    ∃ old, σ.locate cfg key = some old ∧ ∃ dirtySup childCount emptied, σ.del cfg seq key =
      ({ σ.supersedeRec old seq with dirtySup := dirtySup, count := σ.count - 1, childCount := childCount }, true,
        emptied) := by
  unfold Shard.del
  cases σ.locate cfg key with
  | none => exact .inl ⟨rfl, rfl⟩
  | some old =>
    obtain ⟨dirtySup, form⟩ := noteSup_eq cfg (σ.supersedeRec old seq) old
    refine .inr ⟨old, rfl, dirtySup, ?_⟩
    simp only [form]
    split
    · exact ⟨_, _, rfl⟩
    · split
      · exact ⟨_, _, rfl⟩
      · exact ⟨_, _, rfl⟩

/-- What holds of a shard after a delete: it did before, and does once the record is superseded. -/
theorem del_rule (P : Shard A → Prop) (unchanged : P σ)
    (superseded : ∀ old dirtySup childCount, σ.locate cfg key = some old →
      P { σ.supersedeRec old seq with dirtySup := dirtySup, count := σ.count - 1, childCount := childCount }) :
    P (σ.del cfg seq key).1 := by
  rcases del_cases cfg σ seq key with ⟨-, form⟩ | ⟨old, found, dirtySup, childCount, emptied, form⟩
  · rwa [form]
  · rw [form]
    exact superseded old dirtySup childCount found

/-- What holds after a delete and its checkpoint, if it holds where nothing is deleted as well. -/
theorem delete_rule (P : Shard A → Prop) (unchanged : (σ.del cfg (σ.commitSeq + 1) key).1 = σ → P σ)
    (published : P (Shard.maybeCheckpoint cfg
      { (σ.del cfg (σ.commitSeq + 1) key).1 with commitSeq := σ.commitSeq + 1 } (σ.commitSeq + 1) now)) :
    P (σ.delete cfg key now).1 := by
  unfold Shard.delete
  rcases del_cases cfg σ (σ.commitSeq + 1) key with ⟨-, form⟩ | ⟨old, -, dirtySup, childCount, emptied, form⟩
  · simpa only [form, forall_const] using unchanged
  · simpa only [form] using published

/-- A transaction that changed nothing left the shard as it was. -/
theorem applyTxnWrites_unchanged (cfg : Config) (fast : Bool) (seq : Nat) (σ : Shard A) (writes : List (TxnWrite A))
    (unchanged : (σ.applyTxnWrites cfg fast seq writes).2.1 = false) :
    (σ.applyTxnWrites cfg fast seq writes).1 = σ := by
  induction writes generalizing σ with
  | nil => rfl
  | cons w rest ih =>
    have split : (σ.applyTxnWrites cfg fast seq (w :: rest)).2.1 =
        ((σ.applyTxnWrite cfg fast seq w).2.1 ||
          ((σ.applyTxnWrite cfg fast seq w).1.applyTxnWrites cfg fast seq rest).2.1) := rfl
    rw [split, Bool.or_eq_false_iff] at unchanged
    have later := ih (σ.applyTxnWrite cfg fast seq w).1 unchanged.2
    have first : (σ.applyTxnWrite cfg fast seq w).1 = σ := by
      have flag := unchanged.1
      unfold Shard.applyTxnWrite at flag ⊢
      split
      · rfl
      next conflictFree =>
        rw [if_neg conflictFree] at flag
        cases isOp : w.op with
        | put p => rw [isOp] at flag; cases flag
        | del key =>
          rw [isOp] at flag
          rcases del_cases cfg σ seq key with ⟨-, form⟩ | ⟨old, -, dirtySup, childCount, emptied, form⟩
          · simp [form]
          · simp only [form] at flag
            cases flag
    rw [first] at later
    change ((σ.applyTxnWrite cfg fast seq w).1.applyTxnWrites cfg fast seq rest).1 = σ
    rw [first]
    exact later

/-- What holds after a transaction and its checkpoint, if it holds where nothing is written as well. -/
theorem applyTxn_rule (P : Shard A → Prop)
    (unchanged : (σ.applyTxnWrites cfg (σ.isFast ws) (σ.commitSeq + 1) ws).1 = σ → P σ)
    (published : P (Shard.maybeCheckpoint cfg
      { (σ.applyTxnWrites cfg (σ.isFast ws) (σ.commitSeq + 1) ws).1 with commitSeq := σ.commitSeq + 1 }
      (σ.commitSeq + 1) now)) :
    P (σ.applyTxn cfg ws now).1 := by
  have same := applyTxnWrites_unchanged cfg (σ.isFast ws) (σ.commitSeq + 1) σ ws
  unfold Shard.applyTxn
  rcases done : σ.applyTxnWrites cfg (σ.isFast ws) (σ.commitSeq + 1) ws with ⟨τ, changed, oks⟩
  rw [done] at same unchanged published
  cases changed with
  | true => simpa only [done] using published
  | false => simpa only [done, same rfl] using unchanged (same rfl)

theorem locate_some (linked : Linked cfg σ) (found : σ.locate cfg key = some old) : ∃ prev, σ.Found key old prev := by
  obtain ⟨nodes, bucket⟩ := linked.chained (cfg.hash key)
  rw [locate_eq_search] at found
  obtain ⟨place, prev, here, current, same⟩ := search_some bucket.1 bucket.2.1 found
  exact ⟨prev, bucket.found place here current same⟩

theorem locate_none (linked : Linked cfg σ) (missing : σ.locate cfg key = none) : σ.Unreached cfg key := by
  intro l seq ad current
  obtain ⟨nodes, chain, distinct, -⟩ := linked.chained (cfg.hash key)
  rw [locate_eq_search] at missing
  obtain ⟨outside, unprobed⟩ := search_none chain distinct missing current
  refine ⟨fun others chain' => ?_, unprobed⟩
  rw [chain'.unique chain]
  exact outside

theorem Linked.del (linked : Linked cfg σ) (seq : Nat) (key : Key) : Linked cfg (σ.del cfg seq key).1 :=
  del_rule (Linked cfg) linked fun old _ _ _ => (linked.supersedeRec old seq).of_fields rfl rfl rfl

theorem Sound.del (sound : Sound cfg σ bound contents) (admits : σ.Admits key) (later : bound ≤ seq) :
    Sound cfg (σ.del cfg seq key).1 seq (update contents key none) := by
  rcases del_cases cfg σ seq key with ⟨missing, form⟩ | ⟨old, found, dirtySup, childCount, emptied, form⟩
  · rw [form]
    have absent := sound.absent (locate_none sound.toLinked missing)
    rw [← absent, update_eq_self]
    exact sound.mono later
  · rw [form]
    obtain ⟨prev, isOld⟩ := locate_some sound.toLinked found
    obtain ⟨ad, current⟩ := isOld.isCurrent admits
    exact (sound.supersedeRec current later).of_fields rfl rfl rfl

end Delete

/-! ## Checkpoints -/

section Checkpoint
variable {cfg : Config} {σ : Shard A} {bound seq : Nat} {contents : Contents A}

theorem writeMarker_some (done : σ.writeMarker cfg seq millis = some σ') :
    ∃ id seg dirty, σ.act = some id ∧ σ.segs[id]? = some seg ∧
      σ' = { σ.modifySeg id fun seg => seg.appendMarker seq millis with dirty := dirty } := by
  unfold Shard.writeMarker at done
  cases active : σ.act with
  | none => rw [active] at done; cases done
  | some id =>
    rw [active] at done
    cases here : σ.segs[id]? with
    | none => simp only [here] at done; cases done
    | some seg =>
      simp only [here] at done
      split at done
      · cases done
      · obtain rfl := Option.some.inj done
        unfold Shard.markDirty
        split
        · exact ⟨id, seg, _, rfl, here, rfl⟩
        · exact ⟨id, seg, _, rfl, here, rfl⟩

theorem maybeCheckpoint_cases (cfg : Config) (σ : Shard A) (seq now : Nat) :
    σ.maybeCheckpoint cfg seq now = σ ∨
    ∃ travel σ', cfg.travel = some travel ∧ σ.tseq.due now travel.interval = true ∧
    σ.writeMarker cfg seq now = some σ' ∧
      σ.maybeCheckpoint cfg seq now = { σ' with tseq := σ'.tseq.record seq now } := by
  unfold Shard.maybeCheckpoint
  cases cfg.travel with
  | none => exact .inl rfl
  | some travel =>
    by_cases due : σ.tseq.due now travel.interval = true
    · cases written : σ.writeMarker cfg seq now with
      | none => exact .inl (if_pos due)
      | some σ' => simp only [if_pos due]; exact .inr ⟨travel, σ', rfl, due, rfl, rfl⟩
    · exact .inl (if_neg due)

theorem live_appendMarker {seg : Segment A} (active : seg.retired = false) (seq millis : Nat) :
    (seg.appendMarker seq millis).live = seg.live ++ [⟨seq, none, none, .checkpoint millis, recordLen 0 8⟩] := by
  simp [Segment.live, Segment.appendMarker, Segment.append, active]

/-- The marker in terms of records. -/
theorem writeMarker_appends (writable : σ.Writable) (done : σ.writeMarker cfg seq millis = some σ') :
    ∃ new, Appends σ σ' new ⟨seq, none, none, .checkpoint millis, recordLen 0 8⟩ := by
  obtain ⟨id, seg, dirty, active, here, rfl⟩ := writeMarker_some done
  obtain ⟨seg', here', notRetired, -⟩ := writable id active
  rw [here] at here'
  cases here'
  exact ⟨_, (appends_modifySeg (f := fun seg => seg.appendMarker seq millis) here notRetired
    (live_appendMarker notRetired seq millis)).of_segs rfl⟩

theorem writeMarker_writable (writable : σ.Writable) (done : σ.writeMarker cfg seq millis = some σ') : σ'.Writable := by
  obtain ⟨id, seg, dirty, active, here, rfl⟩ := writeMarker_some done
  exact writable.modifySeg id (fun _ => rfl) fun _ => rfl

/-- A checkpoint appends a keyless record, or leaves the records alone. -/
theorem maybeCheckpoint_spec (cfg : Config) (writable : σ.Writable) (seq now : Nat) :
    let τ := σ.maybeCheckpoint cfg seq now
    τ.Writable ∧ τ.act = σ.act ∧ τ.dir = σ.dir ∧ (∀ id, τ.isProbed id = σ.isProbed id) ∧
      (τ.segs = σ.segs ∨ ∃ new, Appends σ τ new ⟨seq, none, none, .checkpoint now, recordLen 0 8⟩) := by
  intro τ
  rcases maybeCheckpoint_cases cfg σ seq now with same | ⟨travel, σ', -, -, done, form⟩
  · rw [show τ = σ from same]
    exact ⟨writable, rfl, rfl, fun _ => rfl, .inl rfl⟩
  · rw [show τ = _ from form]
    have writable' := writeMarker_writable writable done
    obtain ⟨new, appends⟩ := writeMarker_appends writable done
    obtain ⟨id, seg, dirty, -, -, rfl⟩ := writeMarker_some done
    exact ⟨writable', rfl, rfl, fun i => isProbed_modifySeg i (fun _ => rfl) fun _ => rfl,
      .inr ⟨new, appends.of_segs rfl⟩⟩

theorem Linked.maybeCheckpoint (linked : Linked cfg σ) (seq now : Nat) :
    Linked cfg (σ.maybeCheckpoint cfg seq now) := by
  obtain ⟨writable, act, dir, -, segs | ⟨new, appends⟩⟩ := maybeCheckpoint_spec cfg linked.writable seq now
  · exact linked.of_fields segs act dir
  · exact linked.pushAside appends dir writable

theorem Sound.maybeCheckpoint (sound : Sound cfg σ bound contents) (upTo : seq ≤ bound) (positive : 0 < seq)
    (now : Nat) :
    Sound cfg (σ.maybeCheckpoint cfg seq now) bound contents := by
  rcases maybeCheckpoint_cases cfg σ seq now with same | ⟨travel, σ', -, -, done, form⟩
  · rw [same]
    exact sound
  · rw [form]
    obtain ⟨new, appends⟩ := writeMarker_appends sound.writable done
    have writable := writeMarker_writable sound.writable done
    obtain ⟨id, seg, dirty, -, here, rfl⟩ := writeMarker_some done
    have marked := sound.pushMarker appends rfl rfl upTo rfl writable
      (fun i => isProbed_modifySeg i (fun _ => rfl) fun _ => rfl) fun seg member => by
        rcases mem_modifySeg member with old | ⟨seg₀, found, rfl⟩
        · exact sound.counted seg old
        · exact (sound.counted seg₀ (mem_of_getElem? found)).appendMarker positive now
    exact marked.of_fields rfl rfl rfl

end Checkpoint

/-! ## Commits, whatever the keys -/

section Progress
variable {cfg : Config} {σ τ : Shard A}

/-- A shard in the middle of the commit that began at `σ`, as far as no key and no eviction
matters. -/
structure Progress (cfg : Config) (σ τ : Shard A) : Prop extends Linked cfg τ where
  grows : Grows σ.commitSeq σ τ
  probed : ∀ id, τ.isProbed id = σ.isProbed id
  clocks : τ.commitSeq = σ.commitSeq ∧ τ.gcFloor = σ.gcFloor ∧ τ.tseq = σ.tseq

theorem Linked.progress (linked : Linked cfg σ) : Progress cfg σ σ := ⟨linked, .refl _ σ, fun _ => rfl, rfl, rfl, rfl⟩

theorem put_progress (linked : Linked cfg σ) (w : PendingPut A) (later : bound < seq) :
    Grows bound σ (σ.put cfg seq w) ∧ (∀ id, (σ.put cfg seq w).isProbed id = σ.isProbed id) ∧
      (σ.put cfg seq w).commitSeq = σ.commitSeq ∧ (σ.put cfg seq w).gcFloor = σ.gcFloor ∧
      (σ.put cfg seq w).tseq = σ.tseq := by
  rcases put_puts linked with ⟨-, failed⟩ | ⟨new, -, ⟨old, prev, found, puts, -⟩ | ⟨puts, -⟩⟩
  · rw [failed]
    exact ⟨.of_fields rfl rfl, fun _ => rfl, rfl, rfl, rfl⟩
  · exact ⟨puts.grows bound later, fun id => (puts.probed id).trans (isProbed_supersedeRec σ old seq id), puts.clocks⟩
  · exact ⟨puts.grows bound later, puts.probed, puts.clocks⟩

theorem del_progress (linked : Linked cfg σ) (later : bound < seq) :
    Grows bound σ (σ.del cfg seq key).1 ∧ (∀ id, (σ.del cfg seq key).1.isProbed id = σ.isProbed id) ∧
      (σ.del cfg seq key).1.commitSeq = σ.commitSeq ∧
      (σ.del cfg seq key).1.gcFloor = σ.gcFloor ∧ (σ.del cfg seq key).1.tseq = σ.tseq := by
  rcases del_cases cfg σ seq key with ⟨-, form⟩ | ⟨old, found, dirtySup, childCount, emptied, form⟩
  · rw [form]
    exact ⟨.refl bound σ, fun _ => rfl, rfl, rfl, rfl⟩
  · rw [form]
    obtain ⟨prev, isOld⟩ := locate_some linked found
    have grown := Grows.supersedeRec (pinnedAt_of_recordAt isOld.here) isOld.current later
    exact ⟨grown.trans (.of_fields rfl rfl), isProbed_supersedeRec σ old seq, rfl, rfl, rfl⟩

theorem Progress.put (progress : Progress cfg σ τ) (w : PendingPut A) :
    Progress cfg σ (τ.put cfg (σ.commitSeq + 1) w) := by
  obtain ⟨grows, probed, commitSeq, gcFloor, tseq⟩ := put_progress progress.toLinked w (Nat.lt_succ_self σ.commitSeq)
  exact ⟨progress.toLinked.put _ w, progress.grows.trans grows, fun id => (probed id).trans (progress.probed id),
    commitSeq.trans progress.clocks.1,
    gcFloor.trans progress.clocks.2.1, tseq.trans progress.clocks.2.2⟩

theorem Progress.del (progress : Progress cfg σ τ) (key : Key) :
    Progress cfg σ (τ.del cfg (σ.commitSeq + 1) key).1 := by
  obtain ⟨grows, probed, commitSeq, gcFloor, tseq⟩ := del_progress progress.toLinked (Nat.lt_succ_self σ.commitSeq)
  exact ⟨progress.toLinked.del _ key, progress.grows.trans grows, fun id => (probed id).trans (progress.probed id),
    commitSeq.trans progress.clocks.1,
    gcFloor.trans progress.clocks.2.1, tseq.trans progress.clocks.2.2⟩

theorem Progress.puts (writes : List (PendingPut A)) (progress : Progress cfg σ τ) :
    Progress cfg σ (writes.foldl (fun τ w => τ.put cfg (σ.commitSeq + 1) w) τ) := by
  induction writes generalizing τ with
  | nil => exact progress
  | cons w rest ih => exact ih (progress.put w)

theorem Progress.txnWrite (progress : Progress cfg σ τ) (fast : Bool) (w : TxnWrite A) :
    Progress cfg σ (τ.applyTxnWrite cfg fast (σ.commitSeq + 1) w).1 := by
  unfold Shard.applyTxnWrite
  split
  · exact progress
  · cases w.op with
    | put p => exact progress.put p
    | del key => exact progress.del key

theorem Progress.txnWrites (fast : Bool) (writes : List (TxnWrite A)) (progress : Progress cfg σ τ) :
    Progress cfg σ (τ.applyTxnWrites cfg fast (σ.commitSeq + 1) writes).1 := by
  induction writes generalizing τ with
  | nil => exact progress
  | cons w rest ih => exact ih (progress.txnWrite fast w)

/-- How a commit at a time moves the sequence and the time index. -/
inductive Clocked (now : Nat) (σ τ : Shard A) : Prop
  | unchanged (commitSeq : τ.commitSeq = σ.commitSeq) (tseq : τ.tseq = σ.tseq)
  | next (commitSeq : τ.commitSeq = σ.commitSeq + 1) (tseq : τ.tseq = σ.tseq)
  | checkpoint (commitSeq : τ.commitSeq = σ.commitSeq + 1) (tseq : τ.tseq = σ.tseq.record (σ.commitSeq + 1) now)

theorem Clocked.le (clocked : Clocked now σ τ) : σ.commitSeq ≤ τ.commitSeq := by
  cases clocked <;> omega

/-- A commit that is published. -/
structure Commits (cfg : Config) (now : Nat) (σ τ : Shard A) : Prop extends Linked cfg τ where
  grows : Grows σ.commitSeq σ τ
  probed : ∀ id, τ.isProbed id = σ.isProbed id
  clocked : Clocked now σ τ
  gcFloor : τ.gcFloor = σ.gcFloor

theorem Progress.unpublished (progress : Progress cfg σ τ) {now : Nat} : Commits cfg now σ τ :=
  ⟨progress.toLinked, progress.grows, progress.probed, .unchanged progress.clocks.1 progress.clocks.2.2,
    progress.clocks.2.1⟩

theorem Progress.publish (progress : Progress cfg σ τ) (now : Nat) :
    Commits cfg now σ (Shard.maybeCheckpoint cfg { τ with commitSeq := σ.commitSeq + 1 } (σ.commitSeq + 1) now) := by
  have linked : Linked cfg { τ with commitSeq := σ.commitSeq + 1 } := progress.toLinked.of_fields rfl rfl rfl
  have grows : Grows σ.commitSeq σ { τ with commitSeq := σ.commitSeq + 1 } := progress.grows.trans (.of_fields rfl rfl)
  have published := linked.maybeCheckpoint (σ.commitSeq + 1) now
  rcases maybeCheckpoint_cases cfg { τ with commitSeq := σ.commitSeq + 1 } (σ.commitSeq + 1) now with
    same | ⟨travel, σ', -, -, done, form⟩
  · rw [same] at published ⊢
    exact ⟨published, grows, progress.probed, .next rfl progress.clocks.2.2, progress.clocks.2.1⟩
  · rw [form] at published ⊢
    obtain ⟨id, seg, dirty, active, -, rfl⟩ := writeMarker_some done
    have marked : Grows σ.commitSeq { τ with commitSeq := σ.commitSeq + 1 }
        (Shard.modifySeg { τ with commitSeq := σ.commitSeq + 1 } id fun seg =>
            seg.appendMarker (σ.commitSeq + 1) now) :=
      .modifySeg (.modifySeg _ id fun _ _ _ _ here => kept_append here) (fun _ => rfl) fun _ inactive =>
        absurd active inactive
    have probed : ∀ i, (Shard.modifySeg { τ with commitSeq := σ.commitSeq + 1 } id fun seg =>
        seg.appendMarker (σ.commitSeq + 1) now).isProbed i = σ.isProbed i := by
      intro i
      refine Eq.trans (isProbed_modifySeg i ?_ ?_) (progress.probed i)
      · intro seg
        rfl
      · intro seg
        rfl
    have tseq : τ.tseq.record (σ.commitSeq + 1) now = σ.tseq.record (σ.commitSeq + 1) now := by rw [progress.clocks.2.2]
    exact ⟨published, (grows.trans marked).trans (.of_fields rfl rfl), probed, .checkpoint rfl tseq,
      progress.clocks.2.1⟩

theorem commits_applyBatch (linked : Linked cfg σ) (writes : List (PendingPut A)) (now : Nat) :
    Commits cfg now σ (σ.applyBatch cfg writes now) :=
  (linked.progress.puts writes).publish now

theorem commits_delete (linked : Linked cfg σ) {key : Key} {now : Nat} :
    Commits cfg now σ (σ.delete cfg key now).1 :=
  delete_rule (Commits cfg now σ) (fun _ => linked.progress.unpublished) ((linked.progress.del key).publish now)

theorem commits_applyTxn (linked : Linked cfg σ) {ws : List (TxnWrite A)} {now : Nat} :
    Commits cfg now σ (σ.applyTxn cfg ws now).1 :=
  applyTxn_rule (Commits cfg now σ) (fun _ => linked.progress.unpublished)
    ((linked.progress.txnWrites (σ.isFast ws) ws).publish now)

end Progress

end Classad.ShardStore
