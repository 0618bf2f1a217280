import Classad.ShardWrites

/-! What a shard holds, commit by commit. The abstract store is a history: the contents after
each commit sequence. A commit, a delete and a transaction extend the history by one entry, and
the records visible at a sequence list the entry of that sequence. -/
namespace Classad.ShardStore
open Arena Chains Listing Function List

variable {A : Type}

/-! ## The abstract store -/

/-- The contents after each commit sequence. -/
abbrev History (A : Type) := Nat → Contents A

section Contents
variable (cfg : Config)

/-- The contents after the puts of a batch. Which of them found room depends on the shard. -/
def Contents.puts (seq : Nat) : Shard A → List (PendingPut A) → Contents A → Contents A
  | _, [], contents => contents
  | σ, w :: rest, contents => puts seq (σ.put cfg seq w) rest (contents.put cfg σ seq w)

/-- The contents after one write of a transaction. -/
def Contents.txnWrite (fast : Bool) (seq : Nat) (σ : Shard A) (w : TxnWrite A) (contents : Contents A) : Contents A :=
  if !fast && σ.conflictSince cfg w.op.key w.base then contents
  else match w.op with
    | .put p => contents.put cfg σ seq p
    | .del key => update contents key none

def Contents.txnWrites (fast : Bool) (seq : Nat) : Shard A → List (TxnWrite A) → Contents A → Contents A
  | _, [], contents => contents
  | σ, w :: rest, contents =>
    txnWrites fast seq (σ.applyTxnWrite cfg fast seq w).1 rest (contents.txnWrite cfg fast seq σ w)

end Contents

/-! ## Counting current records -/

section Counting
variable {cfg : Config} {σ : Shard A} {seq : Nat} {w : PendingPut A} {key : Key}

/-- How many of the keys held satisfy a test. -/
def Shard.tally (σ : Shard A) (test : Key → Bool) : Nat := σ.currents.countP fun pair => test pair.1

theorem tally_supersedeRec (current : σ.IsCurrent l key seq ad) (x : Nat) :
    σ.tally test = (σ.supersedeRec l x).tally test + if test key then 1 else 0 := by
  obtain ⟨r, here, body, unsuperseded, rfl⟩ := current
  obtain ⟨before, after, whole, rest⟩ := currents_supersedeRec here body unsuperseded x
  unfold Shard.tally
  rw [whole, rest, countP_append, countP_append, countP_cons]
  dsimp only
  omega

theorem tally_of_appends (appends : Appends σ σ' new r)
    (body : r.body = .ad key ad) (current : r.superseded = none) (test : Key → Bool) :
    σ'.tally test = σ.tally test + if test key then 1 else 0 := by
  have pair : r.currentPair = some (key, r.seq, ad) := Record.currentPair_eq_some.mpr ⟨body, current, rfl⟩
  have same := currents_of_appends appends
  rw [pair] at same
  unfold Shard.tally
  rw [same.countP_eq]
  exact countP_cons

/-- The counters of a shard: its keys, and the children of every parent. -/
structure Tallied (cfg : Config) (σ : Shard A) : Prop where
  count : σ.count = σ.tally fun _ => true
  children : ∀ parent, σ.childCount parent = σ.tally fun key => cfg.childParentHash key == some parent

theorem Tallied.of_fields (tallied : Tallied cfg σ) (segs : τ.segs = σ.segs) (count : τ.count = σ.count)
    (children : τ.childCount = σ.childCount) : Tallied cfg τ := by
  have same : τ.currents = σ.currents := by rw [Shard.currents, Shard.currents, Shard.arena, Shard.arena, segs]
  refine ⟨?_, fun parent => ?_⟩
  · rw [count, tallied.count, Shard.tally, Shard.tally, same]
  · rw [children, tallied.children parent, Shard.tally, Shard.tally, same]

theorem countNew_childCount (cfg : Config) (σ : Shard A) (key : Key) (parent : UInt64) :
    (σ.countNew cfg key).childCount parent =
      σ.childCount parent + if cfg.childParentHash key == some parent then 1 else 0 := by
  unfold Shard.countNew
  cases cfg.childParentHash key with
  | none => simp
  | some other =>
    by_cases same : parent = other
    · subst same
      simp
    · have differs : other ≠ parent := Ne.symm same
      simp [update_of_ne same, differs]

theorem Tallied.put (tallied : Tallied cfg σ) (linked : Linked cfg σ) (admits : σ.Admits w.key) (seq : Nat) :
    Tallied cfg (σ.put cfg seq w) := by
  rcases put_puts linked with ⟨-, failed⟩ |
    ⟨new, -, ⟨old, prev, found, puts, count, children⟩ | ⟨puts, -, count, children⟩⟩
  · rw [failed]
    exact tallied.of_fields rfl rfl rfl
  · obtain ⟨ad, current⟩ := found.isCurrent admits
    -- The old version leaves the count as the new one enters it.
    have same : ∀ test, (σ.put cfg seq w).tally test = σ.tally test := by
      intro test
      rw [tally_supersedeRec current seq]
      exact tally_of_appends puts.appends rfl rfl test
    refine ⟨?_, fun parent => ?_⟩
    · rw [count, tallied.count, same]
    · rw [children, tallied.children parent, same]
  · have more := fun test => tally_of_appends puts.appends rfl rfl test
    refine ⟨?_, fun parent => ?_⟩
    · rw [count, more]
      change σ.count + 1 = _
      rw [tallied.count]
      rfl
    · rw [children, countNew_childCount, more, tallied.children parent]
      split <;> simp

/-- A delete that removes a child takes it out of the count of its parent, and says whether the
count got to zero. -/
theorem del_children (found : (σ.del cfg seq key).2.1 = true) :
    (σ.del cfg seq key).1.childCount parent =
        (if cfg.childParentHash key = some parent then max (σ.childCount parent - 1) 0 else σ.childCount parent) ∧
      (cfg.childParentHash key = some parent → ((σ.del cfg seq key).2.2 = true ↔ σ.childCount parent ≤ 1)) := by
  unfold Shard.del at found ⊢
  cases located : σ.locate cfg key with
  | none => rw [located] at found; cases found
  | some old =>
    obtain ⟨dirtySup, form⟩ := noteSup_eq cfg (σ.supersedeRec old seq) old
    simp only [form]
    cases isChild : cfg.childParentHash key with
    | none => simp [Shard.supersedeRec, Shard.modifySeg]
    | some other =>
      by_cases same : parent = other
      · subst same
        have kept : (σ.supersedeRec old seq).childCount parent = σ.childCount parent := rfl
        by_cases last : σ.childCount parent - 1 ≤ 0
        · simp only [kept, if_pos last, update_self, if_true, true_imp_iff, true_iff]
          omega
        · simp only [kept, if_neg last, update_self, if_true, true_imp_iff, Bool.false_eq_true, false_iff]
          omega
      · have differs : some other ≠ some parent := fun equal => same (Option.some.inj equal).symm
        have kept : (σ.supersedeRec old seq).childCount = σ.childCount := rfl
        by_cases last : σ.childCount other - 1 ≤ 0
        · simp only [kept, if_pos last, if_neg differs, update_of_ne same, true_and]
          exact fun equal => absurd equal differs
        · simp only [kept, if_neg last, if_neg differs, update_of_ne same, true_and]
          exact fun equal => absurd equal differs

theorem Tallied.del (tallied : Tallied cfg σ) (linked : Linked cfg σ) (admits : σ.Admits key) (seq : Nat) :
    Tallied cfg (σ.del cfg seq key).1 := by
  rcases del_cases cfg σ seq key with ⟨-, form⟩ | ⟨old, found, dirtySup, childCount, emptied, form⟩
  · rw [form]
    exact tallied
  · obtain ⟨prev, isOld⟩ := locate_some linked found
    obtain ⟨ad, current⟩ := isOld.isCurrent admits
    have fewer : ∀ test, (σ.del cfg seq key).1.tally test + (if test key then 1 else 0) = σ.tally test := by
      intro test
      rw [tally_supersedeRec current seq, form]
      rfl
    refine ⟨?_, fun parent => ?_⟩
    · have total := fewer fun _ => true
      have count : (σ.del cfg seq key).1.count = σ.count - 1 := by rw [form]
      rw [count, tallied.count, ← total]
      simp
    · have total := fewer fun key => cfg.childParentHash key == some parent
      have removed : (σ.del cfg seq key).2.1 = true := by rw [form]
      rw [(del_children removed).1, tallied.children parent, ← total]
      by_cases isChild : cfg.childParentHash key = some parent
      · simp only [isChild, beq_self_eq_true, if_true]
        omega
      · simp [isChild]

end Counting

/-! ## What stays visible -/

section Visible
variable {cfg : Config} {σ τ ρ : Shard A} {seq x : Nat}

/-- The same records are visible at every sequence before one. -/
def SameBelow (seq : Nat) (σ τ : Shard A) : Prop := ∀ x, x < seq → (τ.visibles x).Perm (σ.visibles x)

theorem SameBelow.refl (seq : Nat) (σ : Shard A) : SameBelow seq σ σ := fun _ _ => .refl _

theorem SameBelow.trans (first : SameBelow seq σ τ) (second : SameBelow seq τ ρ) : SameBelow seq σ ρ :=
  fun x below => (second x below).trans (first x below)

theorem visibles_of_segs (segs : τ.segs = σ.segs) (x : Nat) : τ.visibles x = σ.visibles x := by
  rw [Shard.visibles, Shard.visibles, Shard.arena, Shard.arena, segs]

theorem SameBelow.of_segs (segs : τ.segs = σ.segs) : SameBelow seq σ τ := fun x _ => by rw [visibles_of_segs segs]

theorem SameBelow.supersedeRec (here : σ.recordAt l = some r) (current : r.superseded = none) :
    SameBelow seq σ (σ.supersedeRec l seq) := by
  intro x below
  rw [visibles_supersedeRec here current below]

theorem SameBelow.of_appends (appends : Appends σ τ new r) (hidden : ∀ x, x < seq → r.pairAt x = none) :
    SameBelow seq σ τ := by
  intro x below
  have same := visibles_of_appends appends x
  rw [hidden x below] at same
  exact same

/-- A record is not visible before its own sequence. -/
theorem Record.pairAt_before {r : Record A} (before : x < r.seq) : r.pairAt x = none := by
  have invisible : r.visibleAt x = false := by
    rw [Record.visibleAt, decide_eq_false (Nat.not_le.mpr before), Bool.and_false, Bool.false_and]
  unfold Record.pairAt
  split
  · rw [invisible]
    rfl
  · rfl

theorem Record.pairAt_marker {r : Record A} (marker : r.isMarker = true) : r.pairAt x = none := by
  unfold Record.pairAt
  split
  next body =>
    rw [Record.isMarker_of_ad body] at marker
    cases marker
  · rfl

theorem SameBelow.put (linked : Linked cfg σ) (seq : Nat) (w : PendingPut A) : SameBelow seq σ (σ.put cfg seq w) := by
  rcases put_puts linked with ⟨-, failed⟩ | ⟨new, -, ⟨old, prev, found, puts, -⟩ | ⟨puts, -⟩⟩
  · rw [failed]
    exact .of_segs rfl
  · exact (SameBelow.supersedeRec found.here found.current).trans (.of_appends puts.appends fun _ before =>
      Record.pairAt_before before)
  · exact .of_appends puts.appends fun _ before => Record.pairAt_before before

theorem SameBelow.del (linked : Linked cfg σ) (seq : Nat) (key : Key) : SameBelow seq σ (σ.del cfg seq key).1 := by
  refine del_rule (SameBelow seq σ) (.refl seq σ) fun old _ _ found => ?_
  obtain ⟨prev, isOld⟩ := locate_some linked found
  exact (SameBelow.supersedeRec isOld.here isOld.current).trans (.of_segs rfl)

/-- A checkpoint is visible nowhere. -/
theorem visibles_maybeCheckpoint (linked : Linked cfg σ) (seq now x : Nat) :
    ((σ.maybeCheckpoint cfg seq now).visibles x).Perm (σ.visibles x) := by
  rcases maybeCheckpoint_cases cfg σ seq now with same | ⟨travel, σ', -, -, done, form⟩
  · rw [same]
  · rw [form]
    obtain ⟨new, appends⟩ := writeMarker_appends linked.writable done
    exact SameBelow.of_appends appends (fun _ _ => Record.pairAt_marker rfl) x (Nat.lt_succ_self x)

/-- What is visible at the last sequence is what is current. -/
theorem Sound.visibles_bound (sound : Sound cfg σ bound contents) : σ.visibles bound = σ.currents := by
  apply filterMap_congr
  intro r member
  obtain ⟨l, here⟩ := mem_records_iff.mp member
  unfold Record.pairAt Record.currentPair
  cases body : r.body with
  | ad key ad =>
    obtain ⟨stamp, sup⟩ := sound.stamped l r here (Record.isMarker_of_ad body)
    cases superseded : r.superseded with
    | none => simp [Record.visibleAt, Record.isMarker_of_ad body, stamp, Record.supersededAfter, superseded]
    | some y =>
      have upTo := sup y superseded
      simp [Record.visibleAt, Record.supersededAfter, superseded, upTo]
  | checkpoint _ | dictionary => rfl

end Visible

/-! ## In the middle of a commit -/

section Writing
variable {cfg : Config} {σ τ : Shard A} {seq : Nat} {contents : Contents A} {key : Key}

section
variable (admits : σ.Admits key)
include admits

theorem Shard.Admits.supersedeRec (l : Loc) (x : Nat) : (σ.supersedeRec l x).Admits key := by
  intro empty l' r' probed here
  rw [isProbed_supersedeRec] at probed
  obtain ⟨r, found, -, bodies, -⟩ := recordAt_supersedeRec_some here
  have keyed := admits empty l' r probed found
  rwa [Record.isMarker, bodies, ← Record.isMarker]

theorem Shard.Admits.push (appends : Appends σ τ new r) (keyed : r.isMarker = false)
    (probed : ∀ id, τ.isProbed id = σ.isProbed id) : τ.Admits key := by
  intro empty l r' inIndex here
  rw [probed] at inIndex
  rcases appends.some_cases here with ⟨-, rfl⟩ | old
  · exact keyed
  · exact admits empty l r' inIndex old

theorem Shard.Admits.put (linked : Linked cfg σ) (seq : Nat) (w : PendingPut A) :
    (σ.put cfg seq w).Admits key := by
  rcases put_puts linked with ⟨-, failed⟩ | ⟨new, -, ⟨old, prev, found, puts, -⟩ | ⟨puts, -⟩⟩
  · rw [failed]
    exact admits
  · exact (admits.supersedeRec old seq).push puts.appends rfl puts.probed
  · exact admits.push puts.appends rfl puts.probed

theorem Shard.Admits.del (seq : Nat) (other : Key) : (σ.del cfg seq other).1.Admits key :=
  del_rule (·.Admits key) admits fun old _ _ _ => admits.supersedeRec old seq

end

/-- A shard in the middle of the commit that began at `σ`. -/
structure Writing (cfg : Config) (σ τ : Shard A) (contents : Contents A) : Prop
    extends Sound cfg τ (σ.commitSeq + 1) contents, Tallied cfg τ where
  below : SameBelow (σ.commitSeq + 1) σ τ
  progress : Progress cfg σ τ
  admits : ∀ key, σ.Admits key → τ.Admits key

section
variable (writing : Writing cfg σ τ contents)
include writing

theorem Writing.put (admits : σ.Admits w.key) :
    Writing cfg σ (τ.put cfg (σ.commitSeq + 1) w) (contents.put cfg τ (σ.commitSeq + 1) w) where
  toSound := writing.toSound.put (writing.admits _ admits) (Nat.le_refl _) (Nat.succ_pos _)
  toTallied := writing.toTallied.put writing.toLinked (writing.admits _ admits) _
  below := writing.below.trans (.put writing.toLinked _ w)
  progress := writing.progress.put w
  admits key admitted := (writing.admits key admitted).put writing.toLinked _ w

theorem Writing.del (admits : σ.Admits key) :
    Writing cfg σ (τ.del cfg (σ.commitSeq + 1) key).1 (update contents key none) where
  toSound := writing.toSound.del (writing.admits _ admits) (Nat.le_refl _)
  toTallied := writing.toTallied.del writing.toLinked (writing.admits _ admits) _
  below := writing.below.trans (.del writing.toLinked _ key)
  progress := writing.progress.del key
  admits other admitted := (writing.admits other admitted).del _ key

/-- The puts of a batch, by induction on them. -/
theorem Writing.puts (admits : ∀ w ∈ writes, σ.Admits w.key) :
    Writing cfg σ (writes.foldl (fun τ w => τ.put cfg (σ.commitSeq + 1) w) τ)
      (contents.puts cfg (σ.commitSeq + 1) τ writes) := by
  induction writes generalizing τ contents with
  | nil => exact writing
  | cons w rest ih =>
    exact ih (writing.put (admits w (.head _))) fun w' member => admits w' (.tail _ member)

theorem Writing.txnWrite (fast : Bool) (admits : σ.Admits w.op.key) :
    Writing cfg σ (τ.applyTxnWrite cfg fast (σ.commitSeq + 1) w).1
      (contents.txnWrite cfg fast (σ.commitSeq + 1) τ w) := by
  unfold Shard.applyTxnWrite Contents.txnWrite
  split
  · exact writing
  · cases isOp : w.op with
    | put p =>
      rw [isOp] at admits
      exact writing.put admits
    | del key =>
      rw [isOp] at admits
      exact writing.del admits

end

theorem Writing.txnWrites (fast : Bool) (writing : Writing cfg σ τ contents)
    (admits : ∀ w ∈ writes, σ.Admits w.op.key) :
    Writing cfg σ (τ.applyTxnWrites cfg fast (σ.commitSeq + 1) writes).1
      (contents.txnWrites cfg fast (σ.commitSeq + 1) τ writes) := by
  induction writes generalizing τ contents with
  | nil => exact writing
  | cons w rest ih =>
    exact ih (writing.txnWrite fast (admits w (.head _))) fun w' member => admits w' (.tail _ member)

end Writing

/-! ## From commit to commit -/

section Commits
variable {cfg : Config} {σ τ : Shard A} {past : History A} {contents : Contents A}

/-- What holds between commits: the invariant for the last sequence, the counters, for every
sequence from the floor on the records visible there, and for the ones before that those visible
are what was stored. -/
structure Stored (cfg : Config) (σ : Shard A) (past : History A) : Prop
    extends Sound cfg σ σ.commitSeq (past σ.commitSeq), Tallied cfg σ where
  history : ∀ x, σ.gcFloor ≤ x → x ≤ σ.commitSeq → Lists (σ.visibles x) (past x)
  recorded : ∀ x, x ≤ σ.commitSeq → ∀ key pair, (key, pair) ∈ σ.visibles x → past x key = some pair

theorem Stored.writing (stored : Stored cfg σ past) : Writing cfg σ σ (past σ.commitSeq) where
  toSound := stored.toSound.mono (Nat.le_succ _)
  toTallied := stored.toTallied
  below := .refl _ σ
  progress := stored.toLinked.progress
  admits _ admitted := admitted

theorem maybeCheckpoint_clocks {cfg : Config} (σ : Shard A) (seq now : Nat) :
    (σ.maybeCheckpoint cfg seq now).commitSeq = σ.commitSeq ∧ (σ.maybeCheckpoint cfg seq now).gcFloor = σ.gcFloor := by
  rcases maybeCheckpoint_cases cfg σ seq now with same | ⟨travel, σ', -, -, done, form⟩
  · rw [same]
    exact ⟨rfl, rfl⟩
  · rw [form]
    obtain ⟨id, seg, dirty, -, -, rfl⟩ := writeMarker_some done
    exact ⟨rfl, rfl⟩

theorem Record.currentPair_marker {r : Record A} (marker : r.isMarker = true) : r.currentPair = none := by
  cases pair : r.currentPair with
  | none => rfl
  | some p =>
    rw [Record.isMarker_of_ad (Record.currentPair_eq_some.mp pair).1] at marker
    cases marker

theorem Tallied.maybeCheckpoint (tallied : Tallied cfg σ) (linked : Linked cfg σ) (seq now : Nat) :
    Tallied cfg (σ.maybeCheckpoint cfg seq now) := by
  rcases maybeCheckpoint_cases cfg σ seq now with same | ⟨travel, σ', -, -, done, form⟩
  · rw [same]
    exact tallied
  · rw [form]
    obtain ⟨new, appends⟩ := writeMarker_appends linked.writable done
    have same := currents_of_appends appends
    have tally : ∀ test, σ'.tally test = σ.tally test := fun test => same.countP_eq _
    have marked : Tallied cfg σ' := by
      obtain ⟨id, seg, dirty, -, -, rfl⟩ := writeMarker_some done
      exact ⟨tallied.count.trans (by rw [tally]), fun parent => (tallied.children parent).trans (by rw [tally])⟩
    exact marked.of_fields rfl rfl rfl

/-- The commit is published, and a checkpoint perhaps taken. -/
theorem Writing.publish (writing : Writing cfg σ τ contents) (stored : Stored cfg σ past) (now : Nat) :
    Stored cfg (Shard.maybeCheckpoint cfg { τ with commitSeq := σ.commitSeq + 1 } (σ.commitSeq + 1) now)
      (update past (σ.commitSeq + 1) contents) := by
  have sound : Sound cfg { τ with commitSeq := σ.commitSeq + 1 } (σ.commitSeq + 1) contents :=
    writing.toSound.of_fields rfl rfl rfl
  have tallied : Tallied cfg { τ with commitSeq := σ.commitSeq + 1 } := writing.toTallied.of_fields rfl rfl rfl
  have marked := sound.maybeCheckpoint (Nat.le_refl _) (Nat.succ_pos _) now
  have visible := visibles_maybeCheckpoint sound.toLinked (σ.commitSeq + 1) now
  have counted := tallied.maybeCheckpoint sound.toLinked (σ.commitSeq + 1) now
  obtain ⟨commitSeq, gcFloor⟩ :=
    maybeCheckpoint_clocks { τ with commitSeq := σ.commitSeq + 1 } (σ.commitSeq + 1) now
  simp only at commitSeq gcFloor
  have before : ∀ {x}, x ≠ σ.commitSeq + 1 → x ≤ σ.commitSeq + 1 →
      ((Shard.maybeCheckpoint cfg { τ with commitSeq := σ.commitSeq + 1 } (σ.commitSeq + 1) now).visibles x).Perm
          (σ.visibles x) :=
    fun {x} other upTo => (visible x).trans (writing.below x (by omega))
  refine { toSound := ?_, toTallied := counted, history := fun x above upTo => ?_,
           recorded := fun x upTo key pair member => ?_ }
  · rw [commitSeq, update_self]
    exact marked
  · rw [gcFloor, writing.progress.clocks.2.1] at above
    by_cases last : x = σ.commitSeq + 1
    · subst last
      rw [update_self, marked.visibles_bound]
      exact marked.listed
    · rw [update_of_ne last]
      exact (stored.history x above (by omega)).perm (before last (by omega)).symm
  · by_cases last : x = σ.commitSeq + 1
    · subst last
      rw [marked.visibles_bound] at member
      rw [update_self]
      exact (marked.listed.exact key pair).mp member
    · rw [update_of_ne last]
      exact stored.recorded x (by omega) key pair ((before last (by omega)).mem_iff.mp member)

section
variable (stored : Stored cfg σ past)
include stored

theorem Stored.update_future (contents : Contents A) :
    Stored cfg σ (update past (σ.commitSeq + 1) contents) where
  toSound := by
    rw [update_of_ne (Nat.ne_of_lt (Nat.lt_succ_self _))]
    exact stored.toSound
  toTallied := stored.toTallied
  history x above upTo := by
    rw [update_of_ne (by omega)]
    exact stored.history x above upTo
  recorded x upTo key pair member := by
    rw [update_of_ne (by omega)]
    exact stored.recorded x upTo key pair member

theorem Stored.applyBatch (admits : ∀ w ∈ writes, σ.Admits w.key) (now : Nat) :
    Stored cfg (σ.applyBatch cfg writes now)
      (update past (σ.commitSeq + 1) ((past σ.commitSeq).puts cfg (σ.commitSeq + 1) σ writes)) :=
  (stored.writing.puts admits).publish stored now

theorem Stored.delete (admits : σ.Admits key) (now : Nat) :
    Stored cfg (σ.delete cfg key now).1
      (update past (σ.commitSeq + 1) (update (past σ.commitSeq) key none)) :=
  delete_rule (Stored cfg · _) (fun _ => stored.update_future _) ((stored.writing.del admits).publish stored now)

theorem Stored.applyTxn (admits : ∀ w ∈ ws, σ.Admits w.op.key) (now : Nat) :
    Stored cfg (σ.applyTxn cfg ws now).1 (update past (σ.commitSeq + 1)
        ((past σ.commitSeq).txnWrites cfg (σ.isFast ws) (σ.commitSeq + 1) σ ws)) :=
  applyTxn_rule (Stored cfg · _) (fun _ => stored.update_future _)
    ((stored.writing.txnWrites (σ.isFast ws) admits).publish stored now)

end

end Commits

end Classad.ShardStore
