import Classad.ShardSystem

/-! What a transaction can know of the commits since its snapshot. A commit leaves evidence in the
records of its key: a put a newer record, a delete a supersession. The conflict check looks at the
records its key's bucket and the sealed probe lead to, and where it finds none takes the floor of
the last reclaiming pass for the answer. So a pass may put evidence out of reach only below the
floor it leaves. -/
namespace Classad.ShardStore
open Arena Chains Listing List Function
open ShardStore.System (initial)

variable {A : Type} {cfg : Config} {σ τ : Shard A} {key : Key} {l : Loc} {r : Record A} {past : History A}
  {contents : Contents A} {floor : Nat}

/-! ## Versions in reach -/

/-- A version of a key. -/
structure Shard.Version (σ : Shard A) (key : Key) (l : Loc) (r : Record A) : Prop where
  here : σ.recordAt l = some r
  body : ∃ ad, r.body = .ad key ad

theorem Shard.Version.key_eq (version : σ.Version key l r) : r.key = key := by
  obtain ⟨ad, body⟩ := version.body
  rw [Record.key, body]

theorem Shard.Version.isMarker (version : σ.Version key l r) : r.isMarker = false := by
  obtain ⟨ad, body⟩ := version.body
  exact Record.isMarker_of_ad body

theorem Shard.Version.of_current (current : σ.IsCurrent l key seq ad) :
    ∃ r, σ.Version key l r ∧ r.superseded = none ∧ r.seq = seq := by
  obtain ⟨r, here, body, unsuperseded, isSeq⟩ := current
  exact ⟨r, ⟨here, ad, body⟩, unsuperseded, isSeq⟩

theorem mem_versionsOf (linked : Linked cfg σ) :
    r ∈ σ.versionsOf cfg key ↔ ∃ l, σ.recordAt l = some r ∧ r.key = key ∧ σ.Reached cfg key l := by
  obtain ⟨nodes, chain, distinct, -⟩ := linked.chained (cfg.hash key)
  have walked := walk_chain chain (chain_lt_walkBound chain distinct)
  unfold Shard.versionsOf
  rw [mem_append, mem_filter, mem_filterMap, mem_filterMap, walked]
  constructor
  · rintro (⟨⟨l, member, here⟩, same⟩ | ⟨l, member, here⟩)
    · exact ⟨l, here, by simpa using same, .inl ⟨nodes, chain, member⟩⟩
    · obtain ⟨probed, r', here', same⟩ := mem_sealedRecords.mp member
      rw [here] at here'
      cases here'
      exact ⟨l, here, same, .inr probed⟩
  · rintro ⟨l, here, same, ⟨others, chain', member⟩ | probed⟩
    · rw [chain'.unique chain] at member
      exact .inl ⟨⟨l, member, here⟩, by simpa using same⟩
    · exact .inr ⟨l, mem_sealedRecords.mpr ⟨probed, r, here, same⟩, here⟩

/-- A record the search of an admitted key comes by is a version of it. -/
theorem Linked.version_of_mem (linked : Linked cfg σ) (admits : σ.Admits key) (member : r ∈ σ.versionsOf cfg key) :
    ∃ l, σ.Version key l r ∧ σ.Reached cfg key l := by
  obtain ⟨l, here, rfl, reached⟩ := (mem_versionsOf linked).mp member
  refine ⟨l, ⟨here, Record.body_of_key ?_⟩, reached⟩
  rcases reached with ⟨nodes, chain, inside⟩ | probed
  · obtain ⟨others, chain', -, ads⟩ := linked.chained (cfg.hash r.key)
    rw [chain.unique chain'] at inside
    obtain ⟨r', key, ad, here', body, -⟩ := ads l inside
    rw [here] at here'
    cases here'
    exact Record.isMarker_of_ad body
  · by_cases empty : r.key = []
    · exact admits empty l r probed here
    · exact Record.isMarker_of_key rfl empty

/-- What a conflict check that passes has seen. -/
theorem conflictSince_false (linked : Linked cfg σ) (passes : σ.conflictSince cfg key base = false) :
    (∀ l r, σ.Version key l r → σ.Reached cfg key l → r.seq ≤ base ∧ ∀ x, r.superseded = some x → x ≤ base) ∧
      (σ.Admits key → (∀ l seq ad, ¬σ.IsCurrent l key seq ad) → σ.gcFloor ≤ base) := by
  unfold Shard.conflictSince at passes
  rw [Bool.or_eq_false_iff] at passes
  obtain ⟨unchanged, floor⟩ := passes
  refine ⟨fun l r version reached => ?_, fun admits absent => ?_⟩
  · rw [any_eq_false] at unchanged
    have still := unchanged r ((mem_versionsOf linked).mpr ⟨l, version.here, version.key_eq, reached⟩)
    unfold Shard.changedSince at still
    cases sup : r.superseded with
    | none => exact ⟨by simpa [sup] using still, nofun⟩
    | some x =>
      rw [sup] at still
      refine ⟨by simp at still; omega, fun x' same => ?_⟩
      cases same
      simp at still
      omega
  · have noneLive : (σ.versionsOf cfg key).any Record.isCurrent = false := by
      rw [any_eq_false]
      intro r member
      obtain ⟨l, ⟨here, ad, body⟩, -⟩ := linked.version_of_mem admits member
      intro isCurrent
      exact absent l r.seq ad ⟨r, here, body, by simpa [Record.isCurrent] using isCurrent, rfl⟩
    rw [noneLive, Bool.not_false, Bool.true_and, decide_eq_false_iff_not] at floor
    exact Nat.not_lt.mp floor

/-! ## Evidence -/

/-- Of whatever was superseded after a sequence a version in reach tells, with something that
happened to its key then or later. -/
def Evident (cfg : Config) (floor : Nat) (σ : Shard A) : Prop :=
  ∀ key l r d, σ.Version key l r → r.superseded = some d → r.seq < d → floor < d →
    ∃ l' r', σ.Version key l' r' ∧ σ.Reached cfg key l' ∧ ∀ d', r'.superseded = some d' → d ≤ d'

theorem Evident.mono (evident : Evident cfg floor σ) (le : floor ≤ higher) : Evident cfg higher σ :=
  fun key l r d version superseded proper above => evident key l r d version superseded proper (by omega)

theorem Shard.Reached.of_fields (reached : σ.Reached cfg key l) (segs : τ.segs = σ.segs) (dir : τ.dir = σ.dir)
    (probed : ∀ id, τ.isProbed id = σ.isProbed id) : τ.Reached cfg key l := by
  unfold Shard.Reached
  rw [links_of_segs segs, dir, probed]
  exact reached

theorem Evident.of_fields (evident : Evident cfg floor σ) (segs : τ.segs = σ.segs) (dir : τ.dir = σ.dir)
    (probed : ∀ id, τ.isProbed id = σ.isProbed id) : Evident cfg floor τ := by
  intro key l r d version superseded proper above
  obtain ⟨l', r', version', reached, later⟩ :=
    evident key l r d ⟨recordAt_of_segs segs ▸ version.here, version.body⟩ superseded proper above
  exact ⟨l', r', ⟨(recordAt_of_segs segs).trans version'.here, version'.body⟩, reached.of_fields segs dir probed, later⟩

/-- Nothing was superseded after the last commit. -/
theorem evident_of_stamped (stamped : ∀ l r, σ.recordAt l = some r → r.StampedBy bound) : Evident cfg bound σ := by
  intro key l r d version superseded _ above
  have upTo := (stamped l r version.here version.isMarker).2 d superseded
  omega

theorem reached_supersedeRec : (σ.supersedeRec old x).Reached cfg key l ↔ σ.Reached cfg key l := by
  unfold Shard.Reached
  rw [links_supersedeRec, isProbed_supersedeRec]
  rfl

/-- The version a write supersedes tells of it. -/
theorem Evident.supersedeRec (evident : Evident cfg floor σ) (current : σ.IsCurrent old key seq ad)
    (reached : σ.Reached cfg key old) (stamped : ∀ l r, σ.recordAt l = some r → r.StampedBy bound) (later : bound ≤ x) :
    Evident cfg floor (σ.supersedeRec old x) := by
  obtain ⟨prev, here, body, unsuperseded, -⟩ := current
  intro key' l r d version superseded proper above
  obtain ⟨r₀, here₀, isSeq, isBody, change⟩ := recordAt_supersedeRec_some version.here
  obtain ⟨ad', body'⟩ := version.body
  have version₀ : σ.Version key' l r₀ := ⟨here₀, ad', isBody ▸ body'⟩
  by_cases ours : key' = key
  · subst ours
    refine ⟨old, { prev with superseded := some x }, ⟨?_, ad, body⟩, reached_supersedeRec.mpr reached, fun d' is => ?_⟩
    · rw [recordAt_supersedeRec, if_pos rfl, here]
      rfl
    · cases is
      rcases change with ⟨-, rfl⟩ | ⟨-, isX⟩
      · exact Nat.le_trans ((stamped l r here₀ version₀.isMarker).2 d superseded) later
      · rw [superseded] at isX
        exact Nat.le_of_eq (Option.some.inj isX)
  · have elsewhere : ∀ {l₁ r₁}, σ.Version key' l₁ r₁ → l₁ ≠ old := by
      rintro l₁ r₁ other rfl
      have isPrev := other.here
      rw [here] at isPrev
      cases isPrev
      apply ours
      exact other.key_eq.symm.trans (by rw [Record.key, body])
    rcases change with ⟨-, rfl⟩ | ⟨isOld, -⟩
    · obtain ⟨l', r', version', reached', later'⟩ := evident key' l r d version₀ superseded proper above
      refine ⟨l', r', ⟨?_, version'.body⟩, reached_supersedeRec.mpr reached', later'⟩
      rw [recordAt_supersedeRec, if_neg (elsewhere version')]
      exact version'.here
    · exact absurd isOld (elsewhere version₀)

theorem Appends.version (appends : Appends σ τ new r₁) (version : σ.Version key l r) : τ.Version key l r :=
  ⟨appends.keeps version.here, version.body⟩

/-- A new version at the head of its bucket. -/
theorem Evident.pushHead (evident : Evident cfg floor σ) (linked : Linked cfg σ)
    (appends : Appends σ τ new r₁) (body : r₁.body = .ad key ad) (current : r₁.superseded = none)
    (next : r₁.next = σ.dir (cfg.hash key))
    (dir : τ.dir = Function.update σ.dir (cfg.hash key) (some new)) (probed : ∀ id, τ.isProbed id = σ.isProbed id) :
    Evident cfg floor τ := by
  intro key' l r d version superseded proper above
  by_cases ours : key' = key
  · subst ours
    refine ⟨new, r₁, ⟨by rw [appends.recordAt, if_pos rfl], ad, body⟩,
      (reached_pushHead linked appends next dir probed).mpr (.inr ⟨rfl, rfl⟩),
      fun d' is => ?_⟩
    rw [current] at is
    cases is
  · rcases appends.some_cases version.here with ⟨-, rfl⟩ | old
    · rw [current] at superseded
      cases superseded
    · obtain ⟨l', r', version', reached, later⟩ := evident key' l r d ⟨old, version.body⟩ superseded proper above
      exact ⟨l', r', appends.version version', (reached_pushHead linked appends next dir probed).mpr (.inl reached),
        later⟩

/-- A keyless record tells of nothing and hides nothing. -/
theorem Evident.pushAside (evident : Evident cfg floor σ) (linked : Linked cfg σ) (appends : Appends σ τ new r₁)
    (keyless : r₁.isMarker = true) (dir : τ.dir = σ.dir) (probed : ∀ id, τ.isProbed id = σ.isProbed id) :
    Evident cfg floor τ := by
  intro key l r d version superseded proper above
  rcases appends.some_cases version.here with ⟨-, rfl⟩ | old
  · rw [version.isMarker] at keyless
    cases keyless
  · obtain ⟨l', r', version', reached, later⟩ := evident key l r d ⟨old, version.body⟩ superseded proper above
    exact ⟨l', r', appends.version version', (reached_pushAside linked appends dir probed).mpr reached, later⟩

/-! ## Writes leave evidence -/

section
variable (evident : Evident cfg floor τ)
include evident

theorem Evident.put (sound : Sound cfg τ bound contents)
    (admits : τ.Admits w.key) (later : bound ≤ seq) : Evident cfg floor (τ.put cfg seq w) := by
  rcases put_puts sound.toLinked with ⟨-, failed⟩ | ⟨new, -, ⟨old, prev, found, puts, -⟩ | ⟨puts, -⟩⟩
  · rw [failed]
    exact evident.of_fields rfl rfl fun _ => rfl
  · obtain ⟨ad, current⟩ := found.isCurrent admits
    have superseded := evident.supersedeRec current (sound.reached old w.key _ ad current) sound.stamped later
    exact superseded.pushHead (sound.toLinked.supersedeRec old seq) puts.appends rfl rfl rfl puts.dir puts.probed
  · exact evident.pushHead sound.toLinked puts.appends rfl rfl rfl puts.dir puts.probed

theorem Evident.del (sound : Sound cfg τ bound contents) (admits : τ.Admits key)
    (later : bound ≤ seq) : Evident cfg floor (τ.del cfg seq key).1 := by
  refine del_rule (Evident cfg floor) evident fun old _ _ found => ?_
  obtain ⟨prev, isOld⟩ := locate_some sound.toLinked found
  obtain ⟨ad, current⟩ := isOld.isCurrent admits
  exact (evident.supersedeRec current (sound.reached old key _ ad current) sound.stamped later).of_fields rfl rfl
    fun _ => rfl

section
variable (writing : Writing cfg σ τ contents)
include writing

theorem Evident.puts {writes : List (PendingPut A)}
    (admits : ∀ w ∈ writes, σ.Admits w.key) :
    Evident cfg floor (writes.foldl (fun τ w => τ.put cfg (σ.commitSeq + 1) w) τ) := by
  induction writes generalizing τ contents with
  | nil => exact evident
  | cons w rest ih =>
    have admitted := admits w (.head _)
    exact ih (evident.put writing.toSound (writing.admits _ admitted) (Nat.le_refl _)) (writing.put admitted)
      fun w' member => admits w' (.tail _ member)

theorem Evident.txnWrite (fast : Bool)
    (admits : σ.Admits w.op.key) : Evident cfg floor (τ.applyTxnWrite cfg fast (σ.commitSeq + 1) w).1 := by
  unfold Shard.applyTxnWrite
  split
  · exact evident
  · cases isOp : w.op with
    | put p =>
      rw [isOp] at admits
      exact evident.put writing.toSound (writing.admits _ admits) (Nat.le_refl _)
    | del key =>
      rw [isOp] at admits
      exact evident.del writing.toSound (writing.admits _ admits) (Nat.le_refl _)

theorem Evident.txnWrites (fast : Bool)
    (admits : ∀ w ∈ ws, σ.Admits w.op.key) : Evident cfg floor (τ.applyTxnWrites cfg fast (σ.commitSeq + 1) ws).1 := by
  induction ws generalizing τ contents with
  | nil => exact evident
  | cons w rest ih =>
    have admitted := admits w (.head _)
    exact ih (evident.txnWrite writing fast admitted) (writing.txnWrite fast admitted) fun w' member =>
      admits w' (.tail _ member)

end

theorem Evident.publish (linked : Linked cfg τ) (seq now : Nat) :
    Evident cfg floor (Shard.maybeCheckpoint cfg { τ with commitSeq := seq } seq now) := by
  have published : Evident cfg floor { τ with commitSeq := seq } := evident.of_fields rfl rfl fun _ => rfl
  obtain ⟨-, -, dir, probed, segs | ⟨new, appends⟩⟩ :=
    maybeCheckpoint_spec cfg (σ := { τ with commitSeq := seq }) linked.writable seq now
  · exact published.of_fields segs dir probed
  · exact published.pushAside (linked.of_fields rfl rfl rfl) appends rfl dir probed

end

/-! ## Passes keep it above their floor -/

/-- A reclaim drops only what was superseded up to its floor. -/
theorem Evident.reclaim (evident : Evident cfg (max σ.gcFloor since) σ) (stored : Stored cfg σ past) (now : Nat) :
    Evident cfg (max (σ.reclaimDeadShard cfg now).gcFloor since) (σ.reclaimDeadShard cfg now) := by
  rcases reclaim_cases stored.toLinked with same | ⟨spliced, nodes, relinked, buckets, covered, form⟩
  · rw [same]
    exact evident
  · rw [form]
    generalize isRetain : σ.retainFloor cfg now = retain at *
    have gcFloor : (((spliced.retire (σ.isReclaimable retain)).dropDirtySegs (σ.isReclaimable retain)).raiseFloor
      retain).gcFloor =
        max σ.gcFloor retain := by
      obtain ⟨segs, dir, rfl⟩ := relinked.rest
      rfl
    intro key l r d version superseded proper above
    have here : (spliced.retire (σ.isReclaimable retain)).recordAt l = some r := version.here
    obtain ⟨-, r₀, here₀, bare⟩ := relinked.retired_record here
    have reading := sameReading_of_bare bare
    obtain ⟨ad, body⟩ := version.body
    obtain ⟨l', r', version', reached, later⟩ := evident key l r₀ d ⟨here₀, ad,
      reading.body ▸ body⟩ (reading.superseded ▸ superseded)
      (reading.seq ▸ proper) (by omega)
    -- The version that tells of it is not expired, so its segment stays.
    have alive : σ.isReclaimable retain l'.seg = false := by
      by_contra dead
      rcases reclaimable_expired stored.counted l' r' (by simpa using dead) version'.here with marker | ⟨x, isSup, upTo⟩
      · rw [version'.isMarker] at marker
        cases marker
      · have := later x isSup
        omega
    obtain ⟨ad', body'⟩ := version'.body
    have kept := relinked.recordAt l'
    rw [version'.here, Option.map_some] at kept
    obtain ⟨r'', here'', bare'⟩ := Option.map_eq_some_iff.mp kept
    have reading' := sameReading_of_bare bare'
    refine ⟨l', r'', ⟨?_, ad', reading'.body.trans body'⟩, ?_, fun d' is => later d' (reading'.superseded ▸ is)⟩
    · have found : (spliced.retire (σ.isReclaimable retain)).recordAt l' = some r'' := by
        rw [recordAt_retire, alive]
        exact here''
      exact found
    · exact (covered key l' alive).mpr reached

theorem pairAt_eq_some :
    r.pairAt x = some (key, seq, ad) ↔ r.body = .ad key ad ∧ r.seq = seq ∧ seq ≤ x ∧
    ∀ d, r.superseded = some d → x < d := by
  unfold Record.pairAt
  cases body : r.body with
  | checkpoint | dictionary => simp
  | ad key' ad' =>
    have visible : r.visibleAt x = true ↔ r.seq ≤ x ∧ ∀ d, r.superseded = some d → x < d := by
      rw [Record.visibleAt, Record.isMarker_of_ad body]
      cases sup : r.superseded with
      | none => simp [Record.supersededAfter, sup]
      | some y => simp [Record.supersededAfter, sup]
    dsimp only
    split
    next isVisible =>
      have facts := visible.mp isVisible
      constructor
      · intro same
        cases same
        exact ⟨rfl, rfl, facts⟩
      · rintro ⟨isBody, rfl, -⟩
        cases isBody
        rfl
    next hidden =>
      constructor
      · intro same
        cases same
      · rintro ⟨-, rfl, facts⟩
        exact absurd (visible.mpr facts) hidden

theorem mem_visibles : (key, seq, ad) ∈ σ.visibles x ↔
    ∃ l r, σ.recordAt l = some r ∧ r.body = .ad key ad ∧ r.seq = seq ∧ seq ≤ x ∧
    ∀ d, r.superseded = some d → x < d := by
  unfold Shard.visibles
  rw [mem_filterMap]
  constructor
  · rintro ⟨r, member, pair⟩
    obtain ⟨l, here⟩ := mem_records_iff.mp member
    exact ⟨l, r, here, pairAt_eq_some.mp pair⟩
  · rintro ⟨l, r, here, facts⟩
    exact ⟨r, mem_records_iff.mpr ⟨l, here⟩, pairAt_eq_some.mpr facts⟩

/-! ## Keys in reach -/

/-- Every version a search comes by is of a known key. -/
def Recalled (cfg : Config) (σ : Shard A) (known : Key → Prop) : Prop :=
  ∀ key l r, σ.Version key l r → σ.Reached cfg key l → known key

variable {known : Key → Prop}

section
variable (recalled : Recalled cfg σ known)
include recalled

theorem Recalled.mono (more : ∀ key, known key → known' key) :
    Recalled cfg σ known' := fun key l r version reached => more key (recalled key l r version reached)

theorem Recalled.of_fields (segs : τ.segs = σ.segs) (dir : τ.dir = σ.dir)
    (probed : ∀ id, τ.isProbed id = σ.isProbed id) : Recalled cfg τ known := by
  intro key l r version reached
  exact recalled key l r ⟨recordAt_of_segs segs ▸ version.here, version.body⟩
    (reached.of_fields segs.symm dir.symm fun id => (probed id).symm)

theorem Recalled.supersedeRec (old : Loc) (x : Nat) : Recalled cfg (σ.supersedeRec old x) known := by
  intro key l r version reached
  obtain ⟨r₀, here, -, bodies, -⟩ := recordAt_supersedeRec_some version.here
  obtain ⟨ad, body⟩ := version.body
  exact recalled key l r₀ ⟨here, ad, bodies ▸ body⟩ (reached_supersedeRec.mp reached)

theorem Recalled.pushHead (linked : Linked cfg σ)
    (appends : Appends σ τ new r₁) (body : r₁.body = .ad key ad) (next : r₁.next = σ.dir (cfg.hash key))
    (dir : τ.dir = Function.update σ.dir (cfg.hash key) (some new)) (probed : ∀ id, τ.isProbed id = σ.isProbed id)
    (isKnown : known key) : Recalled cfg τ known := by
  intro key' l r version reached
  rcases appends.some_cases version.here with ⟨-, rfl⟩ | old
  · have same : key' = key := version.key_eq.symm.trans (by rw [Record.key, body])
    exact same ▸ isKnown
  · refine recalled key' l r ⟨old, version.body⟩ ?_
    rcases (reached_pushHead linked appends next dir probed).mp reached with before | ⟨-, isNew⟩
    · exact before
    · exact absurd isNew (appends.ne_new old)

theorem Recalled.pushAside (linked : Linked cfg σ) (appends : Appends σ τ new r₁)
    (keyless : r₁.isMarker = true) (dir : τ.dir = σ.dir) (probed : ∀ id, τ.isProbed id = σ.isProbed id) :
    Recalled cfg τ known := by
  intro key l r version reached
  rcases appends.some_cases version.here with ⟨-, rfl⟩ | old
  · rw [version.isMarker] at keyless
    cases keyless
  · exact recalled key l r ⟨old, version.body⟩ ((reached_pushAside linked appends dir probed).mp reached)

theorem Recalled.put (linked : Linked cfg σ) (seq : Nat)
    (isKnown : σ.stores cfg w = true → known w.key) : Recalled cfg (σ.put cfg seq w) known := by
  rcases put_puts linked with ⟨-, failed⟩ | ⟨new, stored, ⟨old, prev, -, puts, -⟩ | ⟨puts, -⟩⟩
  · rw [failed]
    exact recalled.of_fields rfl rfl fun _ => rfl
  · exact (recalled.supersedeRec old seq).pushHead (linked.supersedeRec old seq) puts.appends rfl rfl puts.dir
      puts.probed (isKnown stored)
  · exact recalled.pushHead linked puts.appends rfl rfl puts.dir puts.probed (isKnown stored)

theorem Recalled.del (seq : Nat) (key : Key) : Recalled cfg (σ.del cfg seq key).1 known :=
  del_rule (Recalled cfg · known) recalled fun old _ _ _ =>
    (recalled.supersedeRec old seq).of_fields rfl rfl fun _ => rfl

end

theorem puts_keeps (σ : Shard A) (ws : List (PendingPut A)) (held : contents key ≠ none) :
    contents.puts cfg seq σ ws key ≠ none := by
  induction ws generalizing σ contents with
  | nil => exact held
  | cons w rest ih =>
    apply ih
    unfold Contents.put
    split
    · by_cases same : key = w.key
      · rw [same, update_self]
        exact Option.some_ne_none _
      · rwa [Function.update_of_ne same]
    · exact held

theorem Recalled.puts (recalled : Recalled cfg σ known) (linked : Linked cfg σ)
    (held : ∀ key, contents.puts cfg seq σ ws key ≠ none → known key) :
    Recalled cfg (ws.foldl (fun τ w => τ.put cfg seq w) σ) known := by
  induction ws generalizing σ contents with
  | nil => exact recalled
  | cons w rest ih =>
    refine ih (recalled.put linked seq fun stores => held w.key (puts_keeps _ rest ?_)) (linked.put seq w) held
    rw [Contents.put, if_pos stores, update_self]
    exact Option.some_ne_none _

theorem txnWrites_other (fast : Bool) (seq : Nat) (σ : Shard A) (outside : key ∉ ws.map fun w => w.op.key) :
    contents.txnWrites cfg fast seq σ ws key = contents key := by
  induction ws generalizing σ contents with
  | nil => rfl
  | cons w rest ih =>
    rw [map_cons, mem_cons, not_or] at outside
    refine (ih _ outside.2).trans ?_
    have differs := outside.1
    unfold Contents.txnWrite
    split
    · rfl
    · cases isOp : w.op with
      | put p =>
        rw [isOp] at differs
        change contents.put cfg σ seq p key = contents key
        unfold Contents.put
        split
        · exact Function.update_of_ne differs _ _
        · rfl
      | del key' =>
        rw [isOp] at differs
        exact Function.update_of_ne differs _ _

/-- The writes of a transaction, each to a key of its own. -/
theorem Recalled.txnWrites (recalled : Recalled cfg σ known) (linked : Linked cfg σ)
    (distinct : (ws.map fun w => w.op.key).Nodup) (held : ∀ key, contents.txnWrites cfg fast seq σ ws key ≠ none →
      known key) :
    Recalled cfg (σ.applyTxnWrites cfg fast seq ws).1 known := by
  induction ws generalizing σ contents with
  | nil => exact recalled
  | cons w rest ih =>
    obtain ⟨outside, distinct'⟩ := nodup_cons.mp distinct
    have kept : contents.txnWrites cfg fast seq σ (w :: rest) w.op.key = contents.txnWrite cfg fast seq σ w w.op.key :=
      txnWrites_other fast seq _ outside
    have here := held w.op.key
    rw [kept] at here
    have next : Recalled cfg (σ.applyTxnWrite cfg fast seq w).1 known ∧
        Linked cfg (σ.applyTxnWrite cfg fast seq w).1 := by
      unfold Contents.txnWrite at here
      unfold Shard.applyTxnWrite
      split
      · exact ⟨recalled, linked⟩
      next passes =>
        rw [if_neg passes] at here
        cases isOp : w.op with
        | put p =>
          rw [isOp] at here
          refine ⟨recalled.put linked seq fun stores => here ?_, linked.put seq p⟩
          change contents.put cfg σ seq p p.key ≠ none
          rw [Contents.put, if_pos stores, update_self]
          exact Option.some_ne_none _
        | del key' => exact ⟨recalled.del seq key', linked.del seq key'⟩
    exact ih next.1 next.2 distinct' held

theorem Recalled.publish (recalled : Recalled cfg τ known) (linked : Linked cfg τ) (seq now : Nat) :
    Recalled cfg (Shard.maybeCheckpoint cfg { τ with commitSeq := seq } seq now) known := by
  have published : Recalled cfg { τ with commitSeq := seq } known := recalled.of_fields rfl rfl fun _ => rfl
  have linked' : Linked cfg { τ with commitSeq := seq } := linked.of_fields rfl rfl rfl
  obtain ⟨-, -, dir, probed, segs | ⟨new, appends⟩⟩ := maybeCheckpoint_spec cfg linked'.writable seq now
  · exact published.of_fields segs dir probed
  · exact published.pushAside linked' appends rfl dir probed

theorem Recalled.reclaim (recalled : Recalled cfg σ known) (linked : Linked cfg σ) (now : Nat) :
    Recalled cfg (σ.reclaimDeadShard cfg now) known := by
  rcases reclaim_cases linked with same | ⟨spliced, nodes, relinked, buckets, covered, form⟩
  · rw [same]
    exact recalled
  · rw [form]
    generalize σ.retainFloor cfg now = retain at *
    intro key l r version reached
    have here : (spliced.retire (σ.isReclaimable retain)).recordAt l = some r := version.here
    obtain ⟨stays, r₀, here₀, bare⟩ := relinked.retired_record here
    obtain ⟨ad, body⟩ := version.body
    exact recalled key l r₀ ⟨here₀, ad, (sameReading_of_bare bare).body ▸ body⟩ ((covered key l stays).mp reached)

/-- After an install a search comes by current records only. -/
theorem recalled_install (flight : InFlight σ c) (liveDict histDict : Nat)
    (unprobed : ∀ id, (σ.installCompaction cfg c liveDict histDict).isProbed id = false)
    (held : ∀ key l seq ad, (σ.installCompaction cfg c liveDict histDict).IsCurrent l key seq ad → known key) :
    Recalled cfg (σ.installCompaction cfg c liveDict histDict) known := by
  intro key l r version reached
  rcases reached with ⟨nodes, chain, member⟩ | inIndex
  · have ready := flight.ready liveDict histDict
    obtain ⟨dirty, dirtySup, tseq, form⟩ := install_eq cfg σ c liveDict histDict
    rw [form] at version chain held
    generalize installedLive σ c liveDict = live at ready version chain held
    generalize finalizeLast c.intern histDict c.hist = hist at ready version chain held
    have bucket := ready.bucket cfg (cfg.hash key)
    have isBucket := Chain.unique chain bucket.1
    rw [isBucket] at member
    have among := mem_of_mem_filter (mem_reverse.mp member)
    obtain ⟨-, r₀, here₀, -, current⟩ := ready.mem_currentAfter among
    have here : (σ.installed cfg c live hist).recordAt l = some r := version.here
    rw [Shard.installed, recordAt_retire, ready.not_isSource among] at here
    obtain ⟨r₁, here₁, bare⟩ := (ready.rebuilt cfg).1.record here
    rw [here₀] at here₁
    cases here₁
    obtain ⟨ad, body⟩ := version.body
    exact held key l r.seq ad ⟨r, version.here, body, (sameReading_of_bare bare).superseded.trans current, rfl⟩
  · rw [unprobed] at inIndex
    cases inIndex

/-! ## What a history tells of a key -/

/-- What is held at a sequence has been held since it was put. -/
def Since (past : History A) (c : Nat) : Prop :=
  ∀ key seq ad, past c key = some (seq, ad) → seq ≤ c ∧ ∀ x, seq ≤ x → x ≤ c → past x key = some (seq, ad)

theorem Since.update (since : Since past c)
    (stamped : ∀ key seq ad, new key = some (seq, ad) → past c key = some (seq, ad) ∨ seq = c + 1) :
    Since (Function.update past (c + 1) new) (c + 1) := by
  intro key seq ad held
  rw [update_self] at held
  rcases stamped key seq ad held with before | rfl
  · obtain ⟨upTo, kept⟩ := since key seq ad before
    refine ⟨by omega, fun x above below => ?_⟩
    by_cases last : x = c + 1
    · rw [last, update_self]
      exact held
    · rw [Function.update_of_ne last]
      exact kept x above (by omega)
  · refine ⟨Nat.le_refl _, fun x above below => ?_⟩
    obtain rfl : x = c + 1 := by omega
    rw [update_self]
    exact held

theorem Since.future (since : Since past c) (new : Contents A) : Since (Function.update past (c + 1) new) c := by
  intro key seq ad held
  rw [Function.update_of_ne (by omega)] at held
  obtain ⟨upTo, kept⟩ := since key seq ad held
  refine ⟨upTo, fun x above below => ?_⟩
  rw [Function.update_of_ne (by omega)]
  exact kept x above below

theorem put_stamp (held : contents.put cfg σ seq w key = some (seq', ad)) :
    contents key = some (seq', ad) ∨ seq' = seq := by
  unfold Contents.put at held
  split at held
  · by_cases same : key = w.key
    · rw [same, update_self] at held
      cases held
      exact .inr rfl
    · rw [Function.update_of_ne same] at held
      exact .inl held
  · exact .inl held

theorem puts_stamp (held : contents.puts cfg seq σ ws key = some (seq', ad)) :
    contents key = some (seq', ad) ∨ seq' = seq := by
  induction ws generalizing σ contents with
  | nil => exact .inl held
  | cons w rest ih =>
    rcases ih held with before | isNew
    · exact put_stamp before
    · exact .inr isNew

theorem update_none_stamp (held : Function.update contents other none key = some (seq, ad)) :
    contents key = some (seq, ad) := by
  by_cases same : key = other
  · rw [same, update_self] at held
    cases held
  · rwa [Function.update_of_ne same] at held

theorem txnWrites_stamp
    (held : contents.txnWrites cfg fast seq σ ws key = some (seq', ad)) :
    contents key = some (seq', ad) ∨ seq' = seq := by
  induction ws generalizing σ contents with
  | nil => exact .inl held
  | cons w rest ih =>
    rcases ih held with before | isNew
    · unfold Contents.txnWrite at before
      split at before
      · exact .inl before
      · cases isOp : w.op with
        | put p =>
          rw [isOp] at before
          exact put_stamp before
        | del other =>
          rw [isOp] at before
          exact .inl (update_none_stamp before)
    · exact .inr isNew

/-- A key was last held at a sequence: its delete committed right after, and no put since. -/
structure LastHeld (past : History A) (c : Nat) (key : Key) (x : Nat) : Prop where
  held : past x key ≠ none
  before : x < c
  absent : ∀ y, x < y → y ≤ c → past y key = none

theorem lastHeld_of_held (held : past x key ≠ none) (upTo : x ≤ c) :
    past c key ≠ none ∨ ∃ y, x ≤ y ∧ LastHeld past c key y := by
  induction upTo with
  | refl => exact .inl held
  | @step c upTo ih =>
    by_cases gone : past (c + 1) key = none
    · right
      rcases ih with here | ⟨y, above, last⟩
      · refine ⟨c, upTo, here, Nat.lt_succ_self c, fun y after below => ?_⟩
        obtain rfl : y = c + 1 := by omega
        exact gone
      · refine ⟨y, above, last.held, Nat.lt_succ_of_lt last.before, fun z after below => ?_⟩
        by_cases isLast : z = c + 1
        · rw [isLast]
          exact gone
        · exact last.absent z after (by omega)
    · exact .inl gone

/-- Whether a committed write or delete changed a key at a sequence. -/
def ModifiedAt (past : History A) (key : Key) (x : Nat) : Prop := past x key ≠ past (x - 1) key

theorem unmodified_of_constant (constant : ∀ x, base ≤ x → x ≤ c → past x key = past c key) (after : base < x)
    (upTo : x ≤ c) : ¬ModifiedAt past key x := by
  intro modified
  apply modified
  rw [constant x (by omega) upTo, constant (x - 1) (by omega) (by omega)]

theorem constant_of_unmodified (unmodified : ∀ x, base < x → x ≤ c → ¬ModifiedAt past key x) (upTo : base ≤ c) :
    past base key = past c key := by
  induction upTo with
  | refl => rfl
  | @step c upTo ih =>
    have same : past (c + 1) key = past c key :=
      not_not.mp (unmodified (c + 1) (Nat.lt_succ_of_le upTo) (Nat.le_refl _))
    rw [same]
    exact ih fun x after below => unmodified x after (by omega)

/-! ## The check -/

/-- Whether the check can know of every delete: one at or below the floor is taken for granted, one
after the last install is still told of. -/
def DeletesKnown (σ : Shard A) (past : History A) (since : Nat) : Prop :=
  ∀ key x, LastHeld past σ.commitSeq key x → x < σ.gcFloor ∨ since ≤ x

/-- A check that passes in the middle of a commit: the key is as it was at the snapshot. -/
theorem constant_of_passes (stored : Stored cfg σ past) (kept : Since past σ.commitSeq)
    (writing : Writing cfg σ τ contents) (evident : Evident cfg (max σ.gcFloor since) τ)
    (since_le : since ≤ σ.commitSeq)
    (deletesKnown : DeletesKnown σ past since) (admits : σ.Admits key) (passes : τ.conflictSince cfg key base = false)
    (after : base ≤ x) (upTo : x ≤ σ.commitSeq) : past x key = past σ.commitSeq key := by
  obtain ⟨unchanged, floor⟩ := conflictSince_false writing.toLinked passes
  have gcFloor : τ.gcFloor = σ.gcFloor := writing.progress.clocks.2.1
  by_cases present : ∃ l seq ad, τ.IsCurrent l key seq ad
  · -- The current version is in reach and older than the snapshot.
    obtain ⟨l, seq, ad, current⟩ := present
    obtain ⟨r, version, unsuperseded, isSeq⟩ := Shard.Version.of_current current
    have old := (unchanged l r version (writing.reached l key seq ad current)).1
    obtain ⟨r', here', body, -, isSeq'⟩ := current
    have visible : (key, seq, ad) ∈ τ.visibles σ.commitSeq :=
      mem_visibles.mpr ⟨l, r', here', body, isSeq', by omega, fun d is => by
        rw [version.here] at here'
        cases here'
        rw [unsuperseded] at is
        cases is⟩
    have before := (writing.below σ.commitSeq (Nat.lt_succ_self _)).mem_iff.mp visible
    rw [stored.toSound.visibles_bound] at before
    have held := (stored.listed.exact _ _).mp before
    rw [held]
    exact (kept key seq ad held).2 x (by omega) upTo
  · -- Absent: were it held since the snapshot, something in reach would tell of its end.
    have absent : ∀ l seq ad, ¬τ.IsCurrent l key seq ad := fun l seq ad current => present ⟨l, seq, ad, current⟩
    have above := floor (writing.admits key admits) absent
    have never : ∀ y, base ≤ y → y ≤ σ.commitSeq → since ≤ y → past y key = none := by
      intro y from_ to_ recent
      by_contra held
      obtain ⟨⟨seq, ad⟩, held⟩ := Option.ne_none_iff_exists'.mp held
      have visible := ((stored.history y (by omega) to_).exact _ _).mpr held
      have visible' := (writing.below y (by omega)).mem_iff.mpr visible
      obtain ⟨l, r, here, body, isSeq, upTo', later⟩ := mem_visibles.mp visible'
      cases sup : r.superseded with
      | none => exact absent l r.seq ad ⟨r, here, body, sup, rfl⟩
      | some d =>
        have isLater := later d sup
        obtain ⟨l', r', version, reached, tells⟩ := evident key l r d ⟨here, ad, body⟩ sup (by omega) (by omega)
        cases sup' : r'.superseded with
        | none =>
          obtain ⟨ad', body'⟩ := version.body
          exact absent l' r'.seq ad' ⟨r', version.here, body', sup', rfl⟩
        | some d' =>
          have := tells d' sup'
          have := (unchanged l' r' version reached).2 d' sup'
          omega
    have still : past x key = none := by
      by_contra held
      rcases lastHeld_of_held held upTo with here | ⟨y, later, last⟩
      · exact here (never _ (by omega) (Nat.le_refl _) since_le)
      · have before := last.before
        rcases deletesKnown key y last with below | recent
        · omega
        · exact last.held (never y (by omega) (by omega) recent)
    rw [still]
    exact (never _ (by omega) (Nat.le_refl _) since_le).symm

/-! ## Runs -/

variable {s : System A} {since : Nat}

/-- The writers, the reclaims and the phases of a compaction. A transaction buffers one write a
key. -/
def Op.IsWriteOrPass : Op A → Prop
  | .sealSegment _ | .evict _ => False
  | .txn ws => (ws.map fun w => w.op.key).Nodup
  | _ => True

/-- The commit sequence at the last install. -/
def System.noteInstall (s : System A) (since : Nat) : Op A → Nat
  | .install _ _ => match s.round with
    | some c => if c.todo = [] then s.shard.commitSeq else since
    | none => since
  | _ => since

def System.installedAt (cfg : Config) : System A → Nat → List (Op A) → Nat
  | _, since, [] => since
  | s, since, op :: rest => installedAt cfg (s.step cfg op) (s.noteInstall since op) rest

/-- A key was held at the last install or later. -/
def HeldSince (past : History A) (since c : Nat) (key : Key) : Prop := ∃ x, since ≤ x ∧ x ≤ c ∧ past x key ≠ none

/-- What a shard without sealed indexes knows of its past. -/
structure System.Informed (cfg : Config) (s : System A) (past : History A) (since : Nat) : Prop
    extends System.Faithful cfg s past where
  unprobed : ∀ id, s.shard.isProbed id = false
  evident : Evident cfg (max s.shard.gcFloor since) s.shard
  recalled : Recalled cfg s.shard (HeldSince past since s.shard.commitSeq)
  kept : Since past s.shard.commitSeq
  since_le : since ≤ s.shard.commitSeq

theorem informed_initial : (initial : System A).Informed cfg (fun _ _ => none) 0 where
  toFaithful := faithful_initial cfg
  unprobed := fun _ => rfl
  evident := fun _ _ _ _ version => nomatch version.here
  recalled := fun _ _ _ version => nomatch version.here
  kept := nofun
  since_le := Nat.le_refl _

theorem HeldSince.update (held : HeldSince past since c key) (new : Contents A) :
    HeldSince (Function.update past (c + 1) new) since (c + 1) key := by
  obtain ⟨x, above, below, isHeld⟩ := held
  refine ⟨x, above, by omega, ?_⟩
  rwa [Function.update_of_ne (by omega)]

theorem HeldSince.future (held : HeldSince past since c key) (new : Contents A) :
    HeldSince (Function.update past (c + 1) new) since c key := by
  obtain ⟨x, above, below, isHeld⟩ := held
  refine ⟨x, above, below, ?_⟩
  rwa [Function.update_of_ne (by omega)]

theorem heldSince_now (since_le : since ≤ c) (held : new key ≠ none) :
    HeldSince (Function.update past (c + 1) new) since (c + 1) key := by
  refine ⟨c + 1, by omega, Nat.le_refl _, ?_⟩
  rwa [update_self]

/-- A commit that is published. -/
theorem System.Informed.publish (informed : s.Informed cfg past since) (faithful : System.Faithful cfg
      { s with shard := Shard.maybeCheckpoint cfg { τ with commitSeq := s.shard.commitSeq + 1 }
                 (s.shard.commitSeq + 1) s.clock }
      (Function.update past (s.shard.commitSeq + 1) new))
    (progress : Progress cfg s.shard τ) (evident : Evident cfg (max s.shard.gcFloor since) τ)
    (recalled : Recalled cfg τ (HeldSince (Function.update past (s.shard.commitSeq + 1) new) since
      (s.shard.commitSeq + 1)))
    (stamped : ∀ key seq ad, new key = some (seq, ad) → past s.shard.commitSeq key = some (seq, ad) ∨
      seq = s.shard.commitSeq + 1) :
    System.Informed cfg
      { s with shard := Shard.maybeCheckpoint cfg { τ with commitSeq := s.shard.commitSeq + 1 }
                 (s.shard.commitSeq + 1) s.clock }
      (Function.update past (s.shard.commitSeq + 1) new) since := by
  have commits := progress.publish s.clock
  obtain ⟨commitSeq, -⟩ := maybeCheckpoint_clocks { τ with commitSeq := s.shard.commitSeq + 1 }
    (s.shard.commitSeq + 1) s.clock
  refine { toFaithful := faithful, unprobed := fun id => (commits.probed id).trans (informed.unprobed id),
           evident := ?_, recalled := ?_, kept := ?_, since_le := ?_ }
  · rw [commits.gcFloor]
    exact evident.publish progress.toLinked _ _
  · rw [commitSeq]
    exact recalled.publish progress.toLinked _ _
  · rw [commitSeq]
    exact informed.kept.update stamped
  · rw [commitSeq]
    exact Nat.le_succ_of_le informed.since_le

/-- A commit that changed nothing. -/
theorem System.Informed.idle (informed : s.Informed cfg past since) (new : Contents A)
    (faithful : s.Faithful cfg (Function.update past (s.shard.commitSeq + 1) new)) :
    s.Informed cfg (Function.update past (s.shard.commitSeq + 1) new) since :=
  { informed with
    toFaithful := faithful
    recalled := informed.recalled.mono fun _ held => held.future new
    kept := informed.kept.future new }

theorem allowed_of_writeOrPass {op : Op A} (unprobed : ∀ id, s.shard.isProbed id = false) (among : op.IsWriteOrPass) :
    op.Allowed s := by
  cases op with
  | commit writes => exact fun w _ => admits_of_unprobed unprobed
  | delete key => exact admits_of_unprobed unprobed
  | txn writes => exact fun w _ => admits_of_unprobed unprobed
  | evict id => exact among.elim
  | _ => trivial

theorem isProbed_reclaim {id : Nat} (linked : Linked cfg σ) (probed : (σ.reclaimDeadShard cfg now).isProbed id = true) :
    σ.isProbed id = true := by
  rcases reclaim_cases linked with same | ⟨spliced, nodes, relinked, -, -, form⟩
  · rwa [same] at probed
  · rw [form] at probed
    have retired : (spliced.retire (σ.isReclaimable (σ.retainFloor cfg now))).isProbed id = true := probed
    by_cases gone : σ.isReclaimable (σ.retainFloor cfg now) id = true
    · unfold Shard.isProbed at retired
      rw [getElem?_retire] at retired
      cases found : spliced.segs[id]? with
      | none => rw [found] at retired; cases retired
      | some seg => simp [found, gone] at retired
    · rwa [isProbed_retire (by simpa using gone), relinked.isProbed] at retired

theorem noteInstall_of_waits {op : Op A} (idle : op.Waits s) : s.noteInstall since op = since := by
  cases op with
  | install liveDict histDict =>
    unfold System.noteInstall
    cases isRound : s.round with
    | none => rfl
    | some c => exact if_neg (idle c isRound)
  | _ => rfl

/-- One step of a writer, a reclaim or a compaction. -/
theorem System.Informed.step {op : Op A} (informed : s.Informed cfg past since) (among : op.IsWriteOrPass) :
    (s.step cfg op).Informed cfg (s.record cfg past op) (s.noteInstall since op) := by
  have allowed : op.Allowed s := allowed_of_writeOrPass informed.unprobed among
  have faithful := informed.toFaithful.step allowed
  have stored := informed.stored
  let informs (past' : History A) (τ : Shard A) : Prop :=
    System.Faithful cfg { s with shard := τ } past' → System.Informed cfg { s with shard := τ } past' since
  have steps := s.steps cfg op
  generalize s.step cfg op = s' at steps faithful ⊢
  cases steps with
  | commit writes =>
    have writing := stored.writing.puts allowed
    refine informed.publish faithful writing.progress (informed.evident.puts stored.writing allowed) ?_
      fun _ _ _ => puts_stamp
    exact (informed.recalled.mono fun _ held => held.update _).puts stored.toLinked fun _ =>
      heldSince_now informed.since_le
  | delete key =>
    have writing := stored.writing.del allowed
    have evident := informed.evident.del stored.toSound allowed (Nat.le_succ _)
    have recalled := (informed.recalled.mono fun _ held =>
      held.update (Function.update (past s.shard.commitSeq) key none)).del (s.shard.commitSeq + 1) key
    refine delete_rule (informs _) (fun _ => informed.idle _) (fun faithful => ?_) faithful
    exact informed.publish faithful writing.progress evident recalled fun _ _ _ held => .inl (update_none_stamp held)
  | txn ws =>
    let new := (past s.shard.commitSeq).txnWrites cfg (s.shard.isFast ws) (s.shard.commitSeq + 1) s.shard ws
    have recalled : Recalled cfg (s.shard.applyTxnWrites cfg (s.shard.isFast ws) (s.shard.commitSeq + 1) ws).1
        (HeldSince (Function.update past (s.shard.commitSeq + 1) new) since (s.shard.commitSeq + 1)) :=
      (informed.recalled.mono fun _ held => held.update new).txnWrites stored.toLinked among fun _ =>
        heldSince_now informed.since_le
    refine applyTxn_rule (informs _) (fun _ => informed.idle _) (fun faithful => ?_) faithful
    exact informed.publish faithful (stored.writing.txnWrites (s.shard.isFast ws) allowed).progress
      (informed.evident.txnWrites stored.writing (s.shard.isFast ws) allowed) recalled fun _ _ _ => txnWrites_stamp
  | sealSegment | evict => exact among.elim
  | reclaim =>
    have commitSeq := commitSeq_reclaim (σ := s.shard) stored.toLinked s.clock
    refine { toFaithful := faithful, unprobed := fun id => ?_, evident := informed.evident.reclaim stored s.clock,
             recalled := ?_,
             kept := ?_, since_le := ?_ }
    · by_contra probed
      have before := isProbed_reclaim stored.toLinked (by simpa using probed)
      rw [informed.unprobed] at before
      cases before
    · rw [commitSeq]
      exact informed.recalled.reclaim stored.toLinked s.clock
    · rw [commitSeq]
      exact informed.kept
    · rw [commitSeq]
      exact informed.since_le
  | beginRound =>
    have probed := isProbed_deactivate (σ := s.shard) stored.toLinked.writable
    exact { toFaithful := faithful, unprobed := fun id => (probed id).trans (informed.unprobed id)
            evident := informed.evident.of_fields rfl rfl probed, recalled := informed.recalled.of_fields rfl rfl probed
            kept := informed.kept, since_le := informed.since_le }
  | @install c isRound next liveDict histDict =>
    have flight := informed.toFaithful.valid.round c isRound
    have unprobed := unprobed_install stored.toLinked flight liveDict histDict informed.unprobed
    have commitSeq : (s.shard.installCompaction cfg c liveDict histDict).commitSeq = s.shard.commitSeq :=
      commitSeq_install flight liveDict histDict
    have stored' : Stored cfg (s.shard.installCompaction cfg c liveDict histDict) past := faithful.stored
    have stamped := stored'.stamped
    rw [commitSeq] at stamped
    have since' : s.noteInstall since (.install liveDict histDict) = s.shard.commitSeq := by
      simp [System.noteInstall, isRound, next]
    rw [since']
    refine { toFaithful := faithful, unprobed := unprobed,
             evident := (evident_of_stamped stamped).mono (Nat.le_max_right _ _),
             recalled := ?_, kept := ?_, since_le := Nat.le_of_eq commitSeq.symm }
    · refine recalled_install flight liveDict histDict unprobed fun key l seq ad current => ?_
      have held := (stored'.listed.exact _ _).mp (mem_currents.mpr ⟨l, current⟩)
      refine ⟨s.shard.commitSeq, Nat.le_refl _, Nat.le_of_eq commitSeq.symm, ?_⟩
      rw [← commitSeq]
      change past (s.shard.installCompaction cfg c liveDict histDict).commitSeq key ≠ none
      rw [held]
      exact Option.some_ne_none _
    · rw [commitSeq]
      exact informed.kept
  | copy | abort | tick => exact { informed with toFaithful := faithful }
  | waits idle =>
    rw [record_of_waits idle, noteInstall_of_waits idle]
    exact informed

theorem System.Informed.run (informed : s.Informed cfg past since) (among : ∀ op ∈ ops, op.IsWriteOrPass) :
    (s.run cfg ops).Informed cfg (s.history cfg past ops) (s.installedAt cfg since ops) := by
  induction ops generalizing s past since with
  | nil => exact informed
  | cons op rest ih =>
    exact ih (informed.step (among op (.head _))) fun op' member => among op' (.tail _ member)

/-! ## First committer wins -/

/-- The key of a write that is applied is as it was at the snapshot. -/
theorem constant_of_applied (stored : Stored cfg σ past)
    (kept : Since past σ.commitSeq) (since_le : since ≤ σ.commitSeq) (deletesKnown : DeletesKnown σ past since)
    (writing : Writing cfg σ τ contents) (evident : Evident cfg (max σ.gcFloor since) τ)
    (admits : ∀ w ∈ ws, σ.Admits w.op.key)
    (same : ∀ w ∈ ws, w.base = base) (isFast : fast = true → σ.commitSeq = base) {i : Nat} (here : ws[i]? = some w)
    (applied : (τ.applyTxnWrites cfg fast (σ.commitSeq + 1) ws).2.2[i]? = some true) (after : base ≤ x)
    (upTo : x ≤ σ.commitSeq) : past x w.op.key = past σ.commitSeq w.op.key := by
  induction ws generalizing τ contents i with
  | nil => cases here
  | cons w' rest ih =>
    cases i with
    | zero =>
      obtain rfl : w' = w := by simpa using here
      have ok : (τ.applyTxnWrite cfg fast (σ.commitSeq + 1) w').2.2 = true := by
        simpa [Shard.applyTxnWrites] using applied
      cases isFast' : fast with
      | true =>
        have isBase := isFast isFast'
        obtain rfl : x = σ.commitSeq := by omega
        rfl
      | false =>
        have passes : τ.conflictSince cfg w'.op.key base = false := by
          rw [← same w' (.head _)]
          by_contra conflicts
          unfold Shard.applyTxnWrite at ok
          rw [isFast', Bool.not_false, Bool.true_and, if_pos (by simpa using conflicts)] at ok
          cases ok
        exact constant_of_passes stored kept writing evident since_le deletesKnown (admits w' (.head _))
          passes after upTo
    | succ i =>
      have admitted := admits w' (.head _)
      exact ih (writing.txnWrite fast admitted) (evident.txnWrite writing fast admitted)
        (fun w member => admits w (.tail _ member)) (fun w member => same w (.tail _ member))
        (by simpa using here) (by simpa [Shard.applyTxnWrites] using applied)

theorem applyTxn_flags (cfg : Config) (σ : Shard A) (ws : List (TxnWrite A)) (now : Nat) :
    (σ.applyTxn cfg ws now).2 = (σ.applyTxnWrites cfg (σ.isFast ws) (σ.commitSeq + 1) ws).2.2 := by
  unfold Shard.applyTxn
  dsimp only
  rcases σ.applyTxnWrites cfg (σ.isFast ws) (σ.commitSeq + 1) ws with ⟨τ, changed, oks⟩
  cases changed <;> rfl

/-- A delete the shard forgot: a check whose snapshot is older passes all the same. -/
theorem passes_of_forgotten (informed : s.Informed cfg past since) (last : LastHeld past s.shard.commitSeq key x)
    (above : s.shard.gcFloor ≤ x) (forgotten : x < since) : s.shard.conflictSince cfg key x = false := by
  have linked := informed.stored.toLinked
  have none_ : s.shard.versionsOf cfg key = [] := by
    rw [eq_nil_iff_forall_not_mem]
    intro r member
    obtain ⟨l, version, reached⟩ := linked.version_of_mem (admits_of_unprobed informed.unprobed) member
    obtain ⟨y, recent, upTo, held⟩ := informed.recalled key l r version reached
    exact held (last.absent y (by omega) upTo)
  unfold Shard.conflictSince
  rw [none_]
  simpa using above

/-- First committer wins: after any interleaving of writers, reclaims and the phases of compactions,
a transactional write that is applied finds its key untouched since its snapshot. It does so exactly
when every delete not followed by a put is at or below the floor or later than the last install: the
install keeps no superseded record in reach, and the floor it leaves was taken when it began. -/
theorem first_committer_wins_iff (cfg : Config) (ops : List (Op A)) (among : ∀ op ∈ ops, op.IsWriteOrPass) :
    let s := (initial : System A).run cfg ops
    let past := (initial : System A).history cfg (fun _ _ => none) ops
    (∀ ws base, (∀ w ∈ ws, w.base = base) → base ≤ s.shard.commitSeq → ∀ (i : Nat) w, ws[i]? = some w →
        (s.shard.applyTxn cfg ws s.clock).2[i]? = some true →
        ∀ x, base < x → x < s.shard.commitSeq + 1 → ¬ModifiedAt past w.op.key x) ↔
      DeletesKnown s.shard past ((initial : System A).installedAt cfg 0 ops) := by
  intro s past
  have informed : s.Informed cfg past _ := (informed_initial).run among
  constructor
  · intro wins key x last
    by_contra unknown
    rw [not_or, Nat.not_lt, Nat.not_le] at unknown
    have before := last.before
    have passes := passes_of_forgotten informed last unknown.1 unknown.2
    have slow : s.shard.isFast [⟨.del key, x⟩] = false := by
      have differs : s.shard.commitSeq ≠ x := by omega
      simpa [Shard.isFast] using differs
    have applied : (s.shard.applyTxn cfg [⟨.del key, x⟩] s.clock).2[0]? = some true := by
      rw [applyTxn_flags, slow]
      simp [Shard.applyTxnWrites, Shard.applyTxnWrite, TxnOp.key, passes]
    have unmodified := wins [⟨.del key, x⟩] x (by simp) (Nat.le_of_lt before) 0 ⟨.del key, x⟩ rfl applied
    have constant := constant_of_unmodified (fun y after upTo => unmodified y after (by omega)) (Nat.le_of_lt before)
    exact last.held (constant.trans (last.absent _ before (Nat.le_refl _)))
  · intro deletesKnown ws base same upTo i w here applied x after below
    rw [applyTxn_flags] at applied
    have isFast : s.shard.isFast ws = true → s.shard.commitSeq = base := by
      intro fast
      cases ws with
      | nil => cases fast
      | cons first rest =>
        rw [← same first (.head _)]
        simpa [Shard.isFast] using fast
    refine unmodified_of_constant (fun y from_ to_ => ?_) after (Nat.le_of_lt_succ below)
    exact constant_of_applied informed.stored informed.kept informed.since_le deletesKnown informed.stored.writing
      informed.evident
      (fun w _ => admits_of_unprobed informed.unprobed) same isFast here applied from_ to_

def conflictConfig : Config := ⟨fun key => (key.headD 0).toUInt64, fun _ => none, 1024, false, none⟩

/-- A delete before the round: its floor covers it. -/
theorem first_committer_wins_on_sample :
    let ops : List (Op Nat) :=
      [.commit [⟨[1], 10, 8, 0, true⟩], .delete [1], .beginRound, .copy ⟨8, 0, true, 0⟩, .install 0 0,
        .commit [⟨[9], 90, 8, 0, true⟩]]
    let s := (initial : System Nat).run conflictConfig ops
    (s.shard.applyTxn conflictConfig [⟨.put ⟨[2], 20, 8, 0, true⟩, 2⟩] s.clock).2 = [true] ∧
      ¬ModifiedAt ((initial : System Nat).history conflictConfig (fun _ _ => none) ops) [2] 3 := by
  intro ops s
  have applied : (s.shard.applyTxn conflictConfig [⟨.put ⟨[2], 20, 8, 0, true⟩, 2⟩] s.clock).2 = [true] := by
    decide +kernel
  have clocks : s.shard.commitSeq = 3 ∧ s.shard.gcFloor = 2 ∧
      (initial : System Nat).installedAt conflictConfig 0 ops = 2 := by
    decide +kernel
  have wins := (first_committer_wins_iff conflictConfig ops (by simp [ops, Op.IsWriteOrPass])).mpr fun key x _ => by
    have floor : ((initial : System Nat).run conflictConfig ops).shard.gcFloor = 2 := clocks.2.1
    have since := clocks.2.2
    omega
  refine ⟨applied, wins [⟨.put ⟨[2], 20, 8, 0, true⟩, 2⟩] 2 (by simp) ?_ 0 _ rfl (congrArg (·[0]?) applied) 3
    (by decide) ?_⟩
  · exact Nat.le_of_lt (Nat.lt_of_lt_of_eq (by decide) clocks.1.symm)
  · exact Nat.lt_of_lt_of_eq (by decide) (congrArg (· + 1) clocks.1).symm

/-- A delete between the copy and the install of a round: a put whose snapshot is older than the
delete is applied. -/
theorem delete_lost_to_install :
    let ops : List (Op Nat) :=
      [.commit [⟨[1], 10, 8, 0, true⟩], .beginRound, .copy ⟨8, 0, true, 0⟩, .delete [1], .install 0 0,
        .commit [⟨[9], 90, 8, 0, true⟩]]
    let s := (initial : System Nat).run conflictConfig ops
    (∀ op ∈ ops, op.IsWriteOrPass) ∧ s.shard.commitSeq = 3 ∧
      (s.shard.applyTxn conflictConfig [⟨.put ⟨[1], 11, 8, 0, true⟩, 1⟩] s.clock).2 = [true] ∧
      ModifiedAt ((initial : System Nat).history conflictConfig (fun _ _ => none) ops) [1] 2 := by
  refine ⟨by simp [Op.IsWriteOrPass], by decide +kernel, by decide +kernel, ?_⟩
  unfold ModifiedAt
  decide +kernel

end Classad.ShardStore
