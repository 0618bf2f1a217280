import Classad.RewriteVeil

/-! The invariant of a shard while rewritten segments wait for the reindex. A swap keeps it if
the active segment shares no bucket with the segment that goes, writes keep it if the shard sees
their keys, and the reindex that ends the pass restores the invariant of a shard at rest. -/
namespace Classad.ShardStore
open Arena Chains Listing Function
open Option hiding any_eq_true
open List hiding head Chain
open Shard (currents evictSegKeys pinnedAt put reaim stores visibles)

variable {A : Type}

/-- Whether a segment can be swapped: no bucket that leads into it has a record in the active
segment. -/
def Shard.SwapSafe (σ : Shard A) (id : Nat) : Prop :=
  ∀ h l node, Reaches σ.links (σ.dir h) l → l.seg = id → Reaches σ.links (σ.dir h) node → σ.act ≠ some node.seg

/-- Whether a reindex drops no bucket head that a current record of the active segment is behind. -/
def Shard.ReindexSafe (σ : Shard A) : Prop :=
  ∀ h l node r, σ.dir h = some l → σ.act ≠ some l.seg → Reaches σ.links (some l) node → σ.recordAt node = some r →
    r.superseded = none → σ.act ≠ some node.seg

/-- The segments that are not written to. -/
def Shard.inactive (σ : Shard A) (id : Nat) : Bool := decide (id < σ.segs.length) && σ.act != some id

/-- What holds of a shard between the first swap of a pass and its reindex. -/
structure Settling (cfg : Config) (kind : Rewrite) (torn : UInt64 → Bool) (marked : Nat → Bool) (σ : Shard A)
    (past : History A) :
    Prop where
  stored : Stored cfg (σ.veil kind torn marked) past
  bounded : ∀ id, marked id = true → id < σ.segs.length
  heads : ∀ h l, torn h = true → σ.dir h = some l → σ.act ≠ some l.seg ∧
    ∃ off r key ad, σ.pinnedAt ⟨l.seg, off⟩ = some r ∧ r.body = .ad key ad ∧ cfg.hash key = h

section Settling
variable {cfg : Config} {kind : Rewrite} {torn : UInt64 → Bool} {marked : Nat → Bool} {σ : Shard A} {past : History A}

theorem veil_none : σ.veil kind (fun _ => false) (fun _ => false) = σ := by
  have segs : (σ.veil kind (fun _ => false) fun _ => false).segs = σ.segs := by
    apply ext_getElem?
    intro i
    rw [getElem?_veil]
    cases σ.segs[i]? <;> rfl
  exact congrArg (fun segs => { σ with segs := segs }) segs

theorem Stored.settling (stored : Stored cfg σ past) (kind : Rewrite) :
    Settling cfg kind (fun _ => false) (fun _ => false) σ past where
  stored := (veil_none).symm ▸ stored
  bounded := nofun
  heads := nofun

/-- The counters of a segment, with the veil over it or, for the active one, without. -/
theorem Settling.counted_at (settling : Settling cfg kind torn marked σ past) (found : σ.segs[i]? = some seg) :
    Counted (seg.veiled kind) ∧ (σ.act = some i → Counted seg) := by
  have counted : Counted (if marked i then seg.veiled kind else seg) := by
    apply settling.stored.counted _ (mem_of_getElem? (i := i) _)
    rw [getElem?_veil, found]
    rfl
  cases isMarked : marked i with
  | true =>
    rw [isMarked, if_pos rfl] at counted
    refine ⟨counted, fun active => ?_⟩
    rw [(writable_of_veil settling.stored.writable).2 i active] at isMarked
    cases isMarked
  | false =>
    rw [isMarked] at counted
    exact ⟨Counted.veiled counted kind, fun _ => counted⟩

/-- A bucket that is in order need not be hidden. -/
theorem Settling.restore (settling : Settling cfg kind torn marked σ past) (bucket : ∃ nodes, σ.Bucket cfg h nodes) :
    ∃ torn', torn' h = false ∧ Settling cfg kind torn' marked σ past := by
  refine ⟨fun h' => torn h' && h' != h, by simp, ?_, settling.bounded, fun h' l isTorn => settling.heads h' l ?_⟩
  · have stored := settling.stored
    have dirs : ∀ h', h' ≠ h → (σ.veil kind (fun h' => torn h' && h' != h) marked).dir h' =
        (σ.veil kind torn marked).dir h' := by
      intro h' differs
      have same : (torn h' && h' != h) = torn h' := by simp [differs]
      change (if torn h' && h' != h then none else _) = (if torn h' then none else _)
      rw [same]
    have here : (σ.veil kind (fun h' => torn h' && h' != h) marked).dir h = σ.dir h := if_neg (by simp)
    refine stored.rearrange ⟨fun h' => ?_, stored.writable⟩ (fun l r here _ => ⟨l, r, here, rfl, rfl, rfl⟩) (.refl _)
      (fun _ _ => .refl _) ?_ stored.counted
      rfl (Nat.max_eq_left (Nat.zero_le _)).symm rfl rfl
    · by_cases isHere : h' = h
      · subst isHere
        obtain ⟨nodes, chain, distinct, members⟩ := bucket
        refine ⟨nodes, ?_, distinct, fun l member => ?_⟩
        · rw [here, links_veil]
          exact chain
        · rw [recordAt_veil]
          exact members l member
      · obtain ⟨nodes, chain, distinct, members⟩ := stored.chained h'
        refine ⟨nodes, ?_, distinct, members⟩
        rw [dirs h' isHere]
        exact chain
    · intro l key seq ad current
      rcases stored.reached l key seq ad current with ⟨nodes, chain, member⟩ | probed
      · left
        by_cases isHere : cfg.hash key = h
        · -- the hidden bucket was empty, so it is the bucket itself
          cases isTorn : torn h with
          | true =>
            rw [isHere, dir_of_torn isTorn] at chain
            cases chain
            cases member
          | false =>
            refine ⟨nodes, ?_, member⟩
            rw [isHere, dir_of_intact isTorn] at chain
            rw [isHere, here]
            exact chain
        · refine ⟨nodes, ?_, member⟩
          rw [dirs _ isHere]
          exact chain
      · exact .inr probed
  · simp only [Bool.and_eq_true] at isTorn
    exact isTorn.1

/-! ## Writes -/

theorem writeRecord_dir (cfg : Config) (σ : Shard A) (seq : Nat) (next : Option Loc) (w : PendingPut A) :
    (σ.writeRecord cfg seq next w).1.dir = σ.dir := by
  have marks : ∀ (ρ : Shard A) id, (ρ.markDirty cfg id).dir = ρ.dir := by
    intro ρ id
    unfold Shard.markDirty
    split <;> rfl
  unfold Shard.writeRecord
  cases σ.activeFor w.codec w.recordLen with
  | some id => exact marks _ id
  | none =>
    dsimp only
    split
    · rfl
    · exact marks _ _

theorem put_dir (cfg : Config) (σ : Shard A) (seq : Nat) (w : PendingPut A) (differs : h ≠ cfg.hash w.key) :
    (σ.put cfg seq w).dir h = σ.dir h := by
  have dirs := writeRecord_dir cfg σ seq (σ.dir (cfg.hash w.key)) w
  have replaced : ∀ ρ : Shard A, (ρ.replaceOld cfg (σ.dir (cfg.hash w.key)) w.key seq).dir = ρ.dir := by
    intro ρ
    rcases replaceOld_spec cfg ρ (σ.dir (cfg.hash w.key)) w.key seq with ⟨old, dirtySup, -, form⟩ | ⟨-, form⟩
    · rw [form]
      rfl
    · rw [form]
      rfl
  unfold put
  dsimp only
  generalize σ.writeRecord cfg seq (σ.dir (cfg.hash w.key)) w = outcome at dirs ⊢
  obtain ⟨ρ, new | new⟩ := outcome
  · exact congrFun dirs h
  · dsimp only at dirs ⊢
    rw [update_of_ne differs, replaced, dirs]

theorem maybeCheckpoint_dir (seq now : Nat) : (σ.maybeCheckpoint cfg seq now).dir = σ.dir := by
  rcases maybeCheckpoint_cases cfg σ seq now with same | ⟨travel, σ', -, -, done, form⟩
  · rw [same]
  · obtain ⟨id, seg, dirty, -, -, rfl⟩ := writeMarker_some done
    rw [form]
    rfl

theorem delete_dir : (σ.delete cfg key now).1.dir = σ.dir := by
  refine delete_rule (·.dir = σ.dir) (fun _ => rfl) ((maybeCheckpoint_dir _ now).trans ?_)
  exact del_rule (·.dir = σ.dir) rfl fun _ _ _ _ => rfl

section
variable (settling : Settling cfg kind torn marked σ past)
include settling

/-- A write that leaves the hidden buckets alone. -/
theorem Settling.write
    (stored : Stored cfg (τ.veil kind torn marked) past')
    (grows : Grows σ.commitSeq (σ.veil kind torn marked) (τ.veil kind torn marked))
    (dir : ∀ h, torn h = true → τ.dir h = σ.dir h) : Settling cfg kind torn marked τ past' where
  stored := stored
  bounded id isMarked := by
    have longer := grows.length_le
    rw [length_veil, length_veil] at longer
    exact Nat.lt_of_lt_of_le (settling.bounded id isMarked) longer
  heads h l isTorn head := by
    obtain ⟨notActive, off, r, key, ad, here, body, hash⟩ := settling.heads h l isTorn ((dir h isTorn).symm.trans head)
    obtain ⟨r', here', aged⟩ := grows.keeps ⟨l.seg, off⟩ r ((pinnedAt_veil _).trans here)
    refine ⟨?_, off, r', key, ad, (pinnedAt_veil _).symm.trans here', aged.body.trans body, hash⟩
    rcases grows.act with same | ⟨id, isActive, new⟩
    · exact fun active => notActive (same.symm.trans active)
    · intro active
      have inside : l.seg < σ.segs.length := by
        obtain ⟨seg, found, -⟩ := bind_eq_some_iff.mp here
        exact (List.getElem?_eq_some_iff.mp found).1
      rw [length_veil] at new
      have same : some id = some l.seg := isActive.symm.trans active
      cases same
      omega

theorem Settling.put (nonempty : w.key ≠ [])
    (sees : σ.Sees cfg w.key) (now : Nat) : ∃ torn', Settling cfg kind torn' marked (σ.applyBatch cfg [w] now)
        (update past (σ.commitSeq + 1) ((past σ.commitSeq).puts cfg (σ.commitSeq + 1) σ [w])) ∧
      Grows σ.commitSeq (σ.veil kind torn' marked) ((σ.applyBatch cfg [w] now).veil kind torn' marked) := by
  obtain ⟨torn', intact, settling'⟩ := settling.restore sees.1
  have free : marked σ.segs.length = false := by
    by_contra isMarked
    exact Nat.lt_irrefl _ (settling.bounded _ (by simpa using isMarked))
  have same := applyOne_veil settling'.stored free nonempty sees intact now
  have commits := commits_applyBatch settling'.stored.toLinked [w] now
  have admits : ∀ w' ∈ [w], (σ.veil kind torn' marked).Admits w'.key := by
    intro w' member
    obtain rfl := mem_singleton.mp member
    exact Shard.admits_of_ne _ nonempty
  have stored := settling'.stored.applyBatch admits now
  have stores : (σ.veil kind torn' marked).stores cfg w = σ.stores cfg w := by rw [stores, stores, activeFor_veil]
  have puts : ∀ contents : Contents A, contents.puts cfg (σ.commitSeq + 1) (σ.veil kind torn' marked) [w] =
      contents.puts cfg (σ.commitSeq + 1) σ [w] := by
    intro contents
    change contents.put cfg (σ.veil kind torn' marked) (σ.commitSeq + 1) w = contents.put cfg σ (σ.commitSeq + 1) w
    rw [Contents.put, Contents.put, stores]
  have grows : Grows σ.commitSeq (σ.veil kind torn' marked) ((σ.applyBatch cfg [w] now).veil kind torn' marked) := by
    rw [same]
    exact commits.grows
  refine ⟨torn', settling'.write ?_ grows fun h isTorn => ?_, grows⟩
  · rw [same, ← puts]
    exact stored
  · have differs : h ≠ cfg.hash w.key := by
      rintro rfl
      rw [intact] at isTorn
      cases isTorn
    exact (congrFun (maybeCheckpoint_dir _ now) h).trans (put_dir cfg σ _ w differs)

theorem Settling.delete (nonempty : key ≠ []) (sees : σ.Sees cfg key)
    (now : Nat) : ∃ torn', Settling cfg kind torn' marked (σ.delete cfg key now).1
        (update past (σ.commitSeq + 1) (update (past σ.commitSeq) key none)) ∧
      Grows σ.commitSeq (σ.veil kind torn' marked) ((σ.delete cfg key now).1.veil kind torn' marked) := by
  obtain ⟨torn', intact, settling'⟩ := settling.restore sees.1
  have same := delete_veil settling'.stored nonempty sees intact now
  have grows : Grows σ.commitSeq (σ.veil kind torn' marked) ((σ.delete cfg key now).1.veil kind torn' marked) := by
    rw [same]
    exact (commits_delete settling'.stored.toLinked).grows
  refine ⟨torn', settling'.write ?_ grows fun h _ => congrFun (delete_dir) h, grows⟩
  rw [same]
  exact settling'.stored.delete (Shard.admits_of_ne _ nonempty) now

theorem Settling.sealSegment (id : Nat) :
    Settling cfg kind torn marked (σ.sealSegmentIndex cfg id) past ∧
      Grows σ.commitSeq (σ.veil kind torn marked) ((σ.sealSegmentIndex cfg id).veil kind torn marked) := by
  have grows : Grows σ.commitSeq (σ.veil kind torn marked) ((σ.sealSegmentIndex cfg id).veil kind torn marked) := by
    rw [sealSegment_veil]
    exact grows_seal cfg _ id _
  refine ⟨settling.write ?_ grows fun h _ => ?_, grows⟩
  · rw [sealSegment_veil]
    exact settling.stored.sealSegment id
  · rcases seal_cases with same | ⟨-, form⟩
    · rw [same]
    · rw [form]
      rfl

end

/-! ## Swaps -/

section Swap
variable {id : Nat} {src new : Segment A}

section
variable (here : σ.segs[id]? = some src)
include here

theorem getElem?_swap (i : Nat) :
    (σ.swap id new).segs[i]? = if id = i then some new else (σ.segs[i]?).map fun seg =>
      { seg with records := seg.records.map fun r => { r with next := r.next.map (reaim id src new) } } := by
  have inside := (List.getElem?_eq_some_iff.mp here).1
  unfold Shard.swap
  rw [here]
  rw [getElem?_set]
  split
  · rw [if_pos (by rwa [length_map])]
  · rw [getElem?_map]

theorem length_swap : (σ.swap id new).segs.length = σ.segs.length := by
  unfold Shard.swap
  rw [here]
  rw [length_set, length_map]

theorem recordAt_swap (alive : new.retired = false) (l : Loc) :
    (σ.swap id new).recordAt l = if id = l.seg then new.records[l.off]?
      else (σ.recordAt l).map fun r => { r with next := r.next.map (reaim id src new) } := by
  rw [recordAt_eq, recordAt_eq, getElem?_swap here]
  split
  · rw [bind_some, alive]
    rfl
  · cases σ.segs[l.seg]? with
    | none => rfl
    | some seg =>
      simp only [Option.map_some, bind_some]
      split
      · rfl
      · rw [getElem?_map]

end

theorem filterMap_ads (keyless : ∀ r, r.isMarker = true → f r = none) (records : List (Record A)) :
    (ads records).filterMap f = records.filterMap f := by
  rw [ads, filterMap_filter]
  congr 1
  funext r
  cases marker : r.isMarker with
  | true => exact (keyless r marker).symm
  | false => rfl

theorem filterMap_forall₂ (blind : ∀ r r', SameReading r r' → f r' = f r)
    (reads : Forall₂ SameReading records others) : others.filterMap f = records.filterMap f := by
  induction reads with
  | nil => rfl
  | cons reading _ ih => rw [filterMap_cons, filterMap_cons, blind _ _ reading, ih]

/-- What only depends on how the ads read is the same after a swap. -/
theorem filterMap_swap (blind : ∀ r r', SameReading r r' → f r' = f r)
    (keyless : ∀ r, r.isMarker = true → f r = none) (here : σ.segs[id]? = some src) (alive : src.retired = false)
    (newAlive : new.retired = false) (reads : Forall₂ SameReading (ads src.records) (ads new.records)) :
    (σ.swap id new).arena.flatten.filterMap f = σ.arena.flatten.filterMap f := by
  rw [filterMap_flatten, filterMap_flatten]
  congr 1
  apply ext_getElem?
  intro i
  rw [Shard.arena, Shard.arena, getElem?_map, getElem?_map, getElem?_map, getElem?_map, getElem?_swap here]
  by_cases same : id = i
  · subst same
    rw [if_pos rfl, here]
    simp only [Option.map_some, Segment.live, alive, newAlive, Bool.false_eq_true, if_false]
    rw [← filterMap_ads keyless, ← filterMap_ads keyless src.records, filterMap_forall₂ blind reads]
  · rw [if_neg same]
    cases σ.segs[i]? with
    | none => rfl
    | some seg =>
      simp only [Option.map_some, Segment.live]
      split
      · rfl
      · rw [filterMap_map]
        congr 2
        funext r
        exact blind r _ ⟨rfl, rfl, rfl⟩

theorem reaim_of_ne (outside : l.seg ≠ id) : reaim id src new l = l := if_neg outside

section
variable (here : σ.segs[id]? = some src)
include here

/-- A chain that does not enter the segment is not changed by the swap. -/
theorem chain_swap (newAlive : new.retired = false)
    (chain : Chain σ.links head nodes) (outside : ∀ l ∈ nodes, l.seg ≠ id) :
    Chain (σ.swap id new).links (head.map (reaim id src new)) nodes := by
  induction chain with
  | nil => exact .nil
  | @cons l link nodes found _ ih =>
    have away := outside l (.head _)
    rw [Option.map_some, reaim_of_ne away]
    refine .cons ?_ (ih fun l' member => outside l' (.tail _ member))
    obtain ⟨r, at_, isNext⟩ := map_eq_some_iff.mp found
    rw [Shard.links, recordAt_swap here newAlive, if_neg (Ne.symm away), at_, Option.map_map, Option.map_some, ← isNext]
    rfl

theorem swap_fields {new : Segment A} :
    (σ.swap id new).act = σ.act ∧ (σ.swap id new).dir = (fun h => (σ.dir h).map (reaim id src new)) ∧
      (σ.swap id new).commitSeq = σ.commitSeq ∧ (σ.swap id new).gcFloor = σ.gcFloor ∧ (σ.swap id new).count = σ.count ∧
      (σ.swap id new).childCount = σ.childCount ∧ (σ.swap id new).tseq = σ.tseq := by
  unfold Shard.swap
  rw [here]
  exact ⟨rfl, rfl, rfl, rfl, rfl, rfl, rfl⟩

/-- An ad of the shard after a swap was there before, in the same segment. -/
theorem ad_of_swap (alive : src.retired = false) (newAlive : new.retired = false)
    (reads : Forall₂ SameReading (ads src.records) (ads new.records))
    (found : (σ.swap id new).recordAt l = some r) (keyed : r.isMarker = false) :
    ∃ off r₀, σ.recordAt ⟨l.seg, off⟩ = some r₀ ∧ SameReading r₀ r ∧ (l.seg ≠ id → off = l.off) := by
  rw [recordAt_swap here newAlive] at found
  split at found
  next same =>
    obtain ⟨r₀, member, reading⟩ := mem_of_forall₂ reads (mem_ads.mpr ⟨mem_of_getElem? found, keyed⟩)
    obtain ⟨off, at_⟩ := mem_iff_getElem?.mp (mem_ads.mp member).1
    refine ⟨off, r₀, ?_, reading, fun differs => absurd same.symm differs⟩
    rw [recordAt_eq, ← same, here, bind_some, alive]
    exact at_
  · obtain ⟨r₀, before, rfl⟩ := map_eq_some_iff.mp found
    exact ⟨l.off, r₀, before, ⟨rfl, rfl, rfl⟩, fun _ => rfl⟩

end

variable {torn' : UInt64 → Bool}

/-- A swap tears the buckets that lead into the segment. -/
def Shard.Tears (σ : Shard A) (id : Nat) (torn torn' : UInt64 → Bool) : Prop :=
  ∀ h, torn' h = true ↔ torn h = true ∨ ∃ l, Reaches σ.links (σ.dir h) l ∧ l.seg = id

variable (settling : Settling cfg kind torn marked σ past)
include settling

/-- A bucket that is not hidden after the swap was not before, and does not enter the segment. -/
theorem Settling.intact (tears : σ.Tears id torn torn') (untorn : torn' h = false) :
    torn h = false ∧ ∃ nodes, σ.Bucket cfg h nodes ∧ ∀ l ∈ nodes, l.seg ≠ id := by
  have neither : ¬(torn h = true ∨ ∃ l, Reaches σ.links (σ.dir h) l ∧ l.seg = id) := fun either => by
    rw [(tears h).mpr either] at untorn
    cases untorn
  have before : torn h = false := by simpa using fun isTorn => neither (.inl isTorn)
  obtain ⟨nodes, chain, distinct, members⟩ := settling.stored.chained h
  rw [dir_of_intact before, links_veil] at chain
  refine ⟨before, nodes, ⟨chain, distinct, fun l member => ?_⟩,
    fun l member same => neither (.inr ⟨l, chain.reaches member, same⟩)⟩
  obtain ⟨r, key, ad, at_, rest⟩ := members l member
  exact ⟨r, key, ad, (recordAt_veil).symm.trans at_, rest⟩

variable (here : σ.segs[id]? = some src)
include here

section
variable (notActive : σ.act ≠ some id)
include notActive

theorem Settling.swap_linked (newAlive : new.retired = false)
    (tears : σ.Tears id torn torn') : Linked cfg ((σ.swap id new).veil kind torn' σ.inactive) := by
  obtain ⟨act, dir, -⟩ := swap_fields here
  refine ⟨fun h => ?_, fun i active => ?_⟩
  · cases isTorn : torn' h with
    | true =>
      refine ⟨[], ?_, nodup_nil, nofun⟩
      rw [dir_of_torn isTorn]
      exact .nil
    | false =>
      obtain ⟨-, nodes, ⟨chain, distinct, members⟩, outside⟩ := settling.intact tears isTorn
      refine ⟨nodes, ?_, distinct, fun l member => ?_⟩
      · rw [dir_of_intact isTorn, links_veil, dir]
        exact chain_swap here newAlive chain outside
      · obtain ⟨r, key, ad, at_, body, hash⟩ := members l member
        refine ⟨{ r with next := r.next.map (reaim id src new) }, key, ad, ?_, body, hash⟩
        rw [recordAt_veil, recordAt_swap here newAlive, if_neg (Ne.symm (outside l member)), at_]
        rfl
  · have active' : σ.act = some i := act.symm.trans active
    have differs : id ≠ i := fun same => notActive (same ▸ active')
    obtain ⟨seg, found, notRetired, notIndexed⟩ := (writable_of_veil settling.stored.writable).1 i active'
    have unmarked : σ.inactive i = false := by simp [Shard.inactive, active']
    rw [getElem?_veil, getElem?_swap here, if_neg differs, found, unmarked]
    exact ⟨_, rfl, notRetired, notIndexed⟩

theorem Settling.swap_reached (alive : src.retired = false) (newAlive : new.retired = false) (safe : σ.SwapSafe id)
    (reads : Forall₂ SameReading (ads src.records) (ads new.records)) (tears : σ.Tears id torn torn')
    (current : ((σ.swap id new).veil kind torn' σ.inactive).IsCurrent l key seq ad) :
    (∃ nodes, Chain ((σ.swap id new).veil kind torn' σ.inactive).links
      (((σ.swap id new).veil kind torn' σ.inactive).dir (cfg.hash key)) nodes ∧
      l ∈ nodes) ∨ ((σ.swap id new).veil kind torn' σ.inactive).isProbed l.seg = true := by
  obtain ⟨act, dir, -⟩ := swap_fields here
  obtain ⟨r, found, body, unsuperseded, isSeq⟩ := isCurrent_veil.mp current
  obtain ⟨off, r₀, before, reading, stays⟩ := ad_of_swap here alive newAlive reads found (Record.isMarker_of_ad body)
  by_cases active : σ.act = some l.seg
  · -- In the active segment it is found through its bucket, which the swap leaves alone.
    left
    have differs : l.seg ≠ id := fun same => notActive (same ▸ active)
    have before' : σ.recordAt l = some r₀ := by
      have same := stays differs
      subst same
      exact before
    have was : (σ.veil kind torn marked).IsCurrent l key seq ad := isCurrent_veil.mpr
      ⟨r₀, before', reading.body.symm.trans body, reading.superseded.symm.trans unsuperseded,
        reading.seq.symm.trans isSeq⟩
    rcases settling.stored.reached l key seq ad was with ⟨nodes, chain, member⟩ | probed
    · have intact : torn (cfg.hash key) = false := by
        by_contra isTorn
        rw [dir_of_torn (by simpa using isTorn)] at chain
        cases chain
        cases member
      rw [dir_of_intact intact, links_veil] at chain
      have untorn : torn' (cfg.hash key) = false := by
        by_contra isTorn
        rcases (tears (cfg.hash key)).mp (by simpa using isTorn) with isTorn | ⟨l', reaches, inside⟩
        · rw [intact] at isTorn
          cases isTorn
        · exact safe _ l' l reaches inside (chain.reaches member) active
      obtain ⟨-, nodes', ⟨chain', -⟩, outside⟩ := settling.intact tears untorn
      refine ⟨nodes', ?_, chain.unique chain' ▸ member⟩
      rw [dir_of_intact untorn, links_veil, dir]
      exact chain_swap here newAlive chain' outside
    · exact absurd active (probed_inactive (σ := σ.veil kind torn marked) probed)
  · right
    have inside : l.seg < σ.segs.length := by
      rw [recordAt_eq] at before
      obtain ⟨seg, at_, -⟩ := bind_eq_some_iff.mp before
      exact (List.getElem?_eq_some_iff.mp at_).1
    refine isProbed_of_marked found ?_ fun isActive => active (act.symm.trans isActive)
    simp [Shard.inactive, inside, active]

/-- The counters of every segment after a swap. -/
theorem Settling.swap_counted (counted : Counted (new.veiled kind)) :
    ∀ seg ∈ ((σ.swap id new).veil kind torn' σ.inactive).segs, Counted seg := by
  intro seg member
  obtain ⟨i, at_⟩ := mem_iff_getElem?.mp member
  rw [getElem?_veil, getElem?_swap here] at at_
  by_cases same : id = i
  · subst same
    have isMarked : σ.inactive id = true := by simp [Shard.inactive, (List.getElem?_eq_some_iff.mp here).1, notActive]
    rw [if_pos rfl, Option.map_some, isMarked] at at_
    cases at_
    exact counted
  · rw [if_neg same, Option.map_map] at at_
    obtain ⟨seg₀, at₀, rfl⟩ := map_eq_some_iff.mp at_
    have before := settling.counted_at at₀
    have inside := (List.getElem?_eq_some_iff.mp at₀).1
    cases active : σ.inactive i with
    | true =>
      refine before.1.of_bare ?_
      cases kind <;> simp [Segment.veiled, Segment.bare, Record.bare]
    | false =>
      have isActive : σ.act = some i := by simpa [Shard.inactive, inside] using active
      refine (before.2 isActive).of_bare ?_
      simp [Segment.bare, Record.bare]

end

theorem Settling.swap_heads (safe : σ.SwapSafe id) (reads : Forall₂ SameReading (ads src.records) (ads new.records))
    (tears : σ.Tears id torn torn') (isTorn : torn' h = true) (head : (σ.swap id new).dir h = some l) :
    (σ.swap id new).act ≠ some l.seg ∧
      ∃ off r key ad, (σ.swap id new).pinnedAt ⟨l.seg, off⟩ = some r ∧ r.body = .ad key ad ∧ cfg.hash key = h := by
  obtain ⟨act, dir, -⟩ := swap_fields here
  rw [dir] at head
  obtain ⟨first, before, rfl⟩ := map_eq_some_iff.mp head
  have place : (reaim id src new first).seg = first.seg := by
    unfold reaim
    split
    next same =>
      exact same.symm
    · rfl
  -- The head before the swap was not in the active segment, and is of the bucket.
  have bucket : σ.act ≠ some first.seg ∧ ∃ off r key ad, σ.pinnedAt ⟨first.seg, off⟩ = some r ∧ r.body = .ad key ad ∧
      cfg.hash key = h := by
    cases hidden : torn h with
    | true => exact settling.heads h first hidden before
    | false =>
      obtain ⟨l', reaches, inside⟩ := ((tears h).mp isTorn).resolve_left (by simp [hidden])
      refine ⟨safe h l' first reaches inside (.head before), ?_⟩
      obtain ⟨nodes, chain, -, members⟩ := settling.stored.chained h
      rw [dir_of_intact hidden, links_veil] at chain
      obtain ⟨r, key, ad, at_, body, hash⟩ := members first (chain.mem_of_reaches (.head before))
      exact ⟨first.off, r, key, ad, pinnedAt_of_recordAt ((recordAt_veil).symm.trans at_), body, hash⟩
  obtain ⟨notActive, off, r, key, ad, at_, body, hash⟩ := bucket
  rw [act, place]
  refine ⟨notActive, ?_⟩
  obtain ⟨seg, found, inSeg⟩ := bind_eq_some_iff.mp at_
  by_cases same : id = first.seg
  · rw [← same] at found ⊢
    rw [here] at found
    cases found
    have turned : Forall₂ (flip SameReading) (ads new.records) (ads src.records) := Forall₂.flip reads
    obtain ⟨r', member, reading⟩ :=
      mem_of_forall₂ turned (mem_ads.mpr ⟨mem_of_getElem? inSeg, Record.isMarker_of_ad body⟩)
    obtain ⟨off', at'⟩ := mem_iff_getElem?.mp (mem_ads.mp member).1
    refine ⟨off', r', key, ad, ?_, SameReading.body reading ▸ body, hash⟩
    rw [pinnedAt, getElem?_swap here, if_pos rfl, bind_some]
    exact at'
  · refine ⟨off, { r with next := r.next.map (reaim id src new) }, key, ad, ?_, body, hash⟩
    rw [pinnedAt, getElem?_swap here, if_neg same, found]
    simp [inSeg]

open Classical in
/-- A swap hides the buckets that lead into the segment, and marks every segment that is not
written to. -/
theorem Settling.swap (alive : src.retired = false)
    (notActive : σ.act ≠ some id) (reads : Forall₂ SameReading (ads src.records) (ads new.records))
    (counted : Counted (new.veiled kind)) (newAlive : new.retired = false) (safe : σ.SwapSafe id) :
    ∃ torn', Settling cfg kind torn' σ.inactive (σ.swap id new) past := by
  have stored := settling.stored
  obtain ⟨act, dir, commitSeq, gcFloor, count, childCount, -⟩ := swap_fields here
  obtain ⟨torn', tears⟩ : ∃ torn', σ.Tears id torn torn' :=
    ⟨fun h => decide (torn h = true ∨ ∃ l, Reaches σ.links (σ.dir h) l ∧ l.seg = id), fun h => decide_eq_true_iff⟩
  refine ⟨torn', ?_, ?_, ?_⟩
  · refine stored.rearrange (settling.swap_linked here notActive newAlive tears)
      (fun l r found keyed => ?_) ?_ (fun x _ => ?_)
      (fun l key seq ad => settling.swap_reached here notActive alive newAlive safe reads tears) ?_
      commitSeq (gcFloor.trans (Nat.max_eq_left (Nat.zero_le _)).symm) count childCount
    · rw [recordAt_veil] at found
      obtain ⟨off, r₀, before, reading, -⟩ := ad_of_swap here alive newAlive reads found keyed
      exact ⟨_, r₀, (recordAt_veil).trans before, reading⟩
    · rw [currents, currents, arena_veil, arena_veil]
      exact .of_eq (filterMap_swap (fun _ _ => currentPair_sameReading) (fun _ => Record.currentPair_marker) here alive
        newAlive reads)
    · rw [visibles, visibles, arena_veil, arena_veil]
      exact .of_eq (filterMap_swap (fun _ _ => pairAt_sameReading x) (fun _ => Record.pairAt_marker) here alive
        newAlive reads)
    · exact settling.swap_counted here notActive counted
  · intro i isMarked
    rw [length_swap here]
    simp only [Shard.inactive, Bool.and_eq_true, decide_eq_true_iff] at isMarked
    exact isMarked.1
  · exact fun h l => settling.swap_heads here safe reads tears

end Swap

/-! ## The reindex -/

/-- Whether the key index of a segment has an entry under a hash. -/
def Shard.listsHash (cfg : Config) (σ : Shard A) (id : Nat) (h : UInt64) : Bool :=
  match σ.segs[id]? with
  | some seg => seg.keyIndexed && seg.records.any fun r => cfg.hash r.key == h
  | none => false

theorem evict_form (cfg : Config) (σ : Shard A) (id : Nat) :
    σ.evictSegKeys cfg id =
      { σ with dir := fun h =>
                 if (σ.dir h).any fun l => decide (l.seg = id) && σ.listsHash cfg l.seg h then none
                 else σ.dir h } := by
  have keeps : (∀ h, σ.listsHash cfg id h = false) →
      (fun h => if (σ.dir h).any fun l => decide (l.seg = id) && σ.listsHash cfg l.seg h then none else σ.dir h) =
          σ.dir := by
    intro nothing
    funext h
    cases head : σ.dir h with
    | none => rfl
    | some l =>
      by_cases same : l.seg = id
      · simp [same, nothing h]
      · simp [same]
  unfold evictSegKeys
  cases here : σ.segs[id]? with
  | none => exact (congrArg (fun dir => { σ with dir := dir }) (keeps fun h => by rw [Shard.listsHash, here])).symm
  | some seg =>
    dsimp only
    split
    next indexed =>
      congr 1
      funext h
      rw [foldl_dropHead]
      cases head : σ.dir h with
      | none => simp
      | some l =>
        by_cases same : l.seg = id
        · subst same
          simp [Shard.listsHash, here, indexed]
        · simp [same]
    next plain =>
      exact (congrArg (fun dir => { σ with dir := dir }) (keeps fun h => by simp [Shard.listsHash, here, plain])).symm

theorem evicts_form (cfg : Config) {ids : List Nat} (σ : Shard A) :
    ids.foldl (evictSegKeys cfg) σ =
      { σ with dir := fun h =>
                 if (σ.dir h).any fun l => decide (l.seg ∈ ids) && σ.listsHash cfg l.seg h then none
                 else σ.dir h } := by
  induction ids generalizing σ with
  | nil =>
    refine congrArg (fun dir => { σ with dir := dir }) (funext fun h => ?_)
    cases σ.dir h <;> simp
  | cons id rest ih =>
    rw [foldl_cons, ih, evict_form]
    refine congrArg (fun dir => { σ with dir := dir }) (funext fun h => ?_)
    cases head : σ.dir h with
    | none => simp [head]
    | some l =>
      have same : ∀ dir, Shard.listsHash cfg { σ with dir := dir } = σ.listsHash cfg := fun _ => rfl
      simp only [same, head, any_some, mem_cons]
      by_cases here : l.seg = id
      · subst here
        cases lists : σ.listsHash cfg l.seg h <;> simp [lists]
      · simp [here]

theorem seals_form (persistent : cfg.persistent = true) (ids : List Nat) (σ : Shard A) :
    ∃ segs, ids.foldl (Shard.sealSegmentIndex cfg) σ = { σ with segs := segs } ∧
      ∀ i, segs[i]? = (σ.segs[i]?).map fun seg => if i ∈ ids ∧ σ.act ≠ some i then { seg with keyIndexed := true }
          else seg := by
  induction ids generalizing σ with
  | nil =>
    refine ⟨σ.segs, rfl, fun i => ?_⟩
    cases σ.segs[i]? <;> simp
  | cons id rest ih =>
    obtain ⟨segs, rest_, each⟩ := ih (σ.sealSegmentIndex cfg id)
    rw [foldl_cons, rest_]
    unfold Shard.sealSegmentIndex at each ⊢
    by_cases active : σ.act = some id
    · rw [if_neg (by simp [active])] at each ⊢
      refine ⟨segs, rfl, fun i => (each i).trans ?_⟩
      congr 1
      by_cases here : i = id
      · simp [here, active]
      · simp [here]
    · rw [if_pos ⟨persistent, active⟩] at each ⊢
      refine ⟨segs, rfl, fun i => (each i).trans ?_⟩
      rw [getElem?_modifySeg]
      change Option.map (fun seg => if i ∈ rest ∧ σ.act ≠ some i then _ else _) _ = _
      by_cases here : id = i
      · subst here
        rw [if_pos rfl, Option.map_map]
        congr 1
        funext seg
        by_cases again : id ∈ rest <;> simp [again, active]
      · rw [if_neg here]
        congr 1
        simp [Ne.symm here]

/-- A segment of the shard is the active one or is marked. -/
theorem inactive_cases (found : σ.segs[i]? = some seg) :
    (σ.act = some i ∧ σ.inactive i = false) ∨ (σ.act ≠ some i ∧ σ.inactive i = true) := by
  have inside := (List.getElem?_eq_some_iff.mp found).1
  by_cases isActive : σ.act = some i
  · exact .inl ⟨isActive, by simp [Shard.inactive, isActive]⟩
  · exact .inr ⟨isActive, by simp [Shard.inactive, isActive, inside]⟩

section Reindexed
variable {τ : Shard A}

/-- What a reindex does, as far as the invariant is concerned. -/
structure Reindexed (cfg : Config) (σ τ : Shard A) : Prop where
  form : ∃ segs dir, τ = { σ with segs := segs, dir := dir }
  segs : ∀ i, τ.segs[i]? = (σ.segs[i]?).map fun seg => if σ.act ≠ some i then { seg with keyIndexed := true } else seg
  stays : ∀ h l, σ.dir h = some l → σ.act = some l.seg → σ.Writable → τ.dir h = σ.dir h
  either : ∀ h, τ.dir h = none ∨ τ.dir h = σ.dir h
  gone : ∀ h l off r, σ.dir h = some l → σ.act ≠ some l.seg → σ.pinnedAt ⟨l.seg, off⟩ = some r → cfg.hash r.key = h →
    τ.dir h = none

/-- The shard after a reindex: every segment that is not written to is indexed, and a bucket that
starts in one of them is gone if the index has its hash. -/
theorem reindexed_reindex (persistent : cfg.persistent = true) (σ : Shard A) : Reindexed cfg σ (σ.reindex cfg) := by
  obtain ⟨segs, sealed_, each⟩ := seals_form persistent (range σ.segs.length) σ
  have each' : ∀ i, segs[i]? = (σ.segs[i]?).map fun seg => if σ.act ≠ some i then { seg with keyIndexed := true }
      else seg := by
    intro i
    rw [each i]
    cases found : σ.segs[i]? with
    | none => rfl
    | some seg =>
      have inside := (List.getElem?_eq_some_iff.mp found).1
      simp [inside]
  have whole : σ.reindex cfg = _ := (congrArg ((range σ.segs.length).foldl (evictSegKeys cfg)) sealed_).trans
    (evicts_form cfg { σ with segs := segs })
  rw [whole]
  refine ⟨⟨segs, _, rfl⟩, each', ?_, ?_, ?_⟩
  · intro h l head active writable
    refine if_neg ?_
    obtain ⟨seg, found, -, notIndexed⟩ := writable l.seg active
    have plain : Shard.listsHash cfg { σ with segs := segs } l.seg h = false := by
      simp [Shard.listsHash, each', found, active, notIndexed]
    simp [head, plain]
  · intro h
    dsimp only
    split
    · exact .inl rfl
    · exact .inr rfl
  · intro h l off r head inactive at_ hash
    refine if_pos ?_
    obtain ⟨seg, found, inSeg⟩ := bind_eq_some_iff.mp at_
    have inside := (List.getElem?_eq_some_iff.mp found).1
    have lists : Shard.listsHash cfg { σ with segs := segs } l.seg h = true := by
      simp only [Shard.listsHash, each', found, Option.map_some, if_pos inactive, Bool.true_and,
        any_eq_true, beq_iff_eq]
      exact ⟨r, mem_of_getElem? inSeg, hash⟩
    simp [head, lists, inside]

section
variable (reindexed : Reindexed cfg σ τ)
include reindexed

theorem Reindexed.arena : τ.arena = σ.arena := by
  apply ext_getElem?
  intro i
  rw [Shard.arena, Shard.arena, getElem?_map, getElem?_map, reindexed.segs, Option.map_map]
  congr 1
  funext seg
  split <;> rfl

theorem Reindexed.recordAt (l : Loc) : τ.recordAt l = σ.recordAt l := congrArg (cellAt · l) reindexed.arena

theorem Reindexed.links : τ.links = σ.links :=
  funext fun l => congrArg (Option.map Record.next) (reindexed.recordAt l)

theorem Reindexed.act : τ.act = σ.act := by
  obtain ⟨segs, dir, rfl⟩ := reindexed.form
  rfl

end

section
variable (settling : Settling cfg kind torn marked σ past) (reindexed : Reindexed cfg σ τ)
include settling reindexed

/-- What is left of a bucket starts in the active segment, where none is hidden. -/
theorem Settling.reindexed_linked :
    Linked cfg (τ.veil kind (fun _ => false) σ.inactive) := by
  have stored := settling.stored
  refine ⟨fun h => ?_, fun i isActive => ?_⟩
  · have dropped : τ.dir h = none → ∃ nodes, (τ.veil kind (fun _ => false) σ.inactive).Bucket cfg h nodes := by
      intro none_
      refine ⟨[], ?_, nodup_nil, nofun⟩
      rw [dir_of_intact rfl, none_]
      exact .nil
    rcases reindexed.either h with none_ | same
    · exact dropped none_
    · cases isTorn : torn h with
      | true =>
        apply dropped
        cases head : σ.dir h with
        | none => rw [same, head]
        | some l =>
          obtain ⟨inactive, off, r, key, ad, at_, body, hash⟩ := settling.heads h l isTorn head
          exact reindexed.gone h l off r head inactive at_ (by rw [Record.key, body]; exact hash)
      | false =>
        obtain ⟨nodes, chain, distinct, members⟩ := stored.chained h
        rw [dir_of_intact isTorn, links_veil] at chain
        refine ⟨nodes, ?_, distinct, fun l member => ?_⟩
        · rw [dir_of_intact rfl, same, links_veil, reindexed.links]
          exact chain
        · rw [recordAt_veil, reindexed.recordAt]
          obtain ⟨r, key, ad, at_, rest⟩ := members l member
          exact ⟨r, key, ad, (recordAt_veil).symm.trans at_, rest⟩
  · have isActive' : σ.act = some i := reindexed.act.symm.trans isActive
    obtain ⟨seg, found, notRetired, notIndexed⟩ := (writable_of_veil stored.writable).1 i isActive'
    have plain := (inactive_cases found).resolve_right fun inactive => inactive.1 isActive'
    refine ⟨seg, ?_, notRetired, notIndexed⟩
    rw [getElem?_veil, reindexed.segs, found, plain.2]
    simp [plain.1]

theorem Settling.reindexed_reached
    (safe : σ.ReindexSafe) (isCurrent : σ.IsCurrent l key seq ad) :
    (∃ nodes, Chain τ.links (τ.dir (cfg.hash key)) nodes ∧ l ∈ nodes) ∨
    (τ.veil kind (fun _ => false) σ.inactive).isProbed l.seg = true := by
  obtain ⟨r, found, body, current, isSeq⟩ := isCurrent
  obtain ⟨seg, here, -⟩ := bind_eq_some_iff.mp ((recordAt_eq σ l).symm.trans found)
  rcases inactive_cases here with ⟨isActive, -⟩ | ⟨inactive, isMarked⟩
  · left
    have was : (σ.veil kind torn marked).IsCurrent l key seq ad := isCurrent_veil.mpr ⟨r, found, body, current, isSeq⟩
    rcases settling.stored.reached l key seq ad was with ⟨nodes, chain, member⟩ | probed
    · rw [links_veil] at chain
      cases isTorn : torn (cfg.hash key) with
      | true =>
        rw [dir_of_torn isTorn] at chain
        cases chain
        cases member
      | false =>
        rw [dir_of_intact isTorn] at chain
        cases head : σ.dir (cfg.hash key) with
        | none =>
          rw [head] at chain
          cases chain
          cases member
        | some first =>
          have starts : σ.act = some first.seg := by
            by_contra elsewhere
            exact safe _ first l r head elsewhere (head ▸ chain.reaches member) found current isActive
          refine ⟨nodes, ?_, member⟩
          rw [reindexed.links, reindexed.stays _ first head starts (writable_of_veil settling.stored.writable).1]
          exact chain
    · exact absurd isActive (probed_inactive (σ := σ.veil kind torn marked) probed)
  · exact .inr (isProbed_of_marked ((reindexed.recordAt l).trans found) isMarked fun active =>
      inactive (reindexed.act.symm.trans active))

theorem Settling.reindexed_counted :
    ∀ seg ∈ (τ.veil kind (fun _ => false) σ.inactive).segs, Counted seg := by
  intro seg member
  obtain ⟨i, at_⟩ := mem_iff_getElem?.mp member
  rw [getElem?_veil, reindexed.segs, Option.map_map] at at_
  obtain ⟨seg₀, at₀, rfl⟩ := map_eq_some_iff.mp at_
  have before := settling.counted_at at₀
  dsimp only [comp_apply]
  rcases inactive_cases at₀ with ⟨isActive, isPlain⟩ | ⟨inactive, isMarked⟩
  · rw [isPlain, if_neg (not_not.mpr isActive)]
    exact before.2 isActive
  · rw [isMarked, if_pos inactive, if_pos rfl]
    cases kind <;> exact ⟨before.1.dead, before.1.minSeq, before.1.positive, before.1.attained⟩

end

theorem Reindexed.isProbed (reindexed : Reindexed cfg σ τ) (kind : Rewrite) (id : Nat) :
    (τ.veil kind (fun _ => false) σ.inactive).isProbed id = τ.isProbed id := by
  unfold Shard.isProbed
  rw [getElem?_veil, reindexed.segs]
  cases found : σ.segs[id]? with
  | none => rfl
  | some seg =>
    rcases inactive_cases found with ⟨-, isPlain⟩ | ⟨inactive, isMarked⟩
    · simp only [Option.map_some, isPlain, Bool.false_eq_true, if_false]
      rfl
    · simp only [Option.map_some, isMarked, if_pos inactive, if_true, veiled_retired, veiled_keyIndexed]
      rfl

/-- The reindex that ends a pass leaves nothing for the veil to hide. -/
theorem Settling.reindexed (settling : Settling cfg kind torn marked σ past) (reindexed : Reindexed cfg σ τ)
    (safe : σ.ReindexSafe) :
    Stored cfg (τ.veil kind (fun _ => false) σ.inactive) past := by
  have stored := settling.stored
  have clocks : τ.commitSeq = σ.commitSeq ∧ τ.gcFloor = σ.gcFloor ∧ τ.count = σ.count ∧
      τ.childCount = σ.childCount := by
    obtain ⟨segs, dir, rfl⟩ := reindexed.form
    exact ⟨rfl, rfl, rfl, rfl⟩
  refine stored.rearrange (settling.reindexed_linked reindexed) (fun l r found _ => ?_) ?_ (fun x _ => ?_)
    (fun l key seq ad current => ?_)
    (settling.reindexed_counted reindexed) clocks.1 (clocks.2.1.trans (Nat.max_eq_left (Nat.zero_le _)).symm)
      clocks.2.2.1 clocks.2.2.2
  · rw [recordAt_veil, reindexed.recordAt] at found
    exact ⟨l, r, (recordAt_veil).trans found, rfl, rfl, rfl⟩
  · rw [currents, currents, arena_veil, arena_veil, reindexed.arena]
  · rw [visibles, visibles, arena_veil, arena_veil, reindexed.arena]
  · have isCurrent : σ.IsCurrent l key seq ad := by
      obtain ⟨r, found, rest⟩ := isCurrent_veil.mp current
      exact ⟨r, (reindexed.recordAt l).symm.trans found, rest⟩
    rw [links_veil, dir_of_intact rfl]
    exact settling.reindexed_reached reindexed safe isCurrent

end Reindexed

end Settling

end Classad.ShardStore
