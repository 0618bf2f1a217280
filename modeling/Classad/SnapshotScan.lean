import Classad.ShardSystem

/-! Scans of a snapshot. A scan freezes its windows under the lock and then reads record after
record without it, while the shard goes on: each record as it is when it is read, in segments
that may be retired by then. What it yields is what was visible when the windows were frozen. -/
namespace Classad.ShardStore
open Arena Chains Listing List
open ShardStore.System (initial)

variable {A : Type}

/-- A scan at work: its snapshot, the records it has yet to read and the ads it yielded. -/
structure Scan (A : Type) where
  s0 : Nat
  todo : List Loc
  seen : List (Key × Nat × A)

/-- The records of a window in the order of the walk. -/
def Window.locs (w : Window) : List Loc := (range w.used).map fun off => ⟨w.seg, off⟩

def Shard.snapshotAt (σ : Shard A) (s0 : Nat) : Scan A := ⟨s0, (σ.buildWindows s0).flatMap Window.locs, []⟩

def Shard.snapshot (σ : Shard A) : Scan A := σ.snapshotAt σ.commitSeq

/-- One round of `forEachVisibleRef`. -/
def Scan.read (σ : Shard A) (scan : Scan A) : Scan A :=
  match scan.todo with
  | [] => scan
  | l :: rest =>
    { scan with todo := rest, seen := scan.seen ++ ((σ.pinnedAt l).bind (Record.pairAt scan.s0)).toList }

/-- What happens while a scan is open. -/
inductive Event (A : Type) where
  | op (op : Op A)
  | read
  deriving DecidableEq, Repr

def Event.isRead : Event A → Bool
  | .read => true
  | .op _ => false

def System.scan (cfg : Config) : System A → Scan A → List (Event A) → Scan A
  | _, scan, [] => scan
  | s, scan, .op op :: rest => System.scan cfg (s.step cfg op) scan rest
  | s, scan, .read :: rest => System.scan cfg s (scan.read s.shard) rest

/-! ## Reading late -/

section Late
variable {cfg : Config} {s : System A} {σ : Shard A}

theorem Aged.pairAt (aged : Aged bound r r') (upTo : s0 ≤ bound) : r'.pairAt s0 = r.pairAt s0 := by
  rw [Record.pairAt, Record.pairAt, aged.body, aged.visibleAt upTo, aged.seq]

/-- What a reader that pinned a shard yields for a location. -/
def Shard.yields (σ : Shard A) (s0 : Nat) (l : Loc) :
    List (Key × Nat × A) := ((σ.pinnedAt l).bind (Record.pairAt s0)).toList

theorem Keeps.yields (keeps : Keeps bound σ τ) (upTo : s0 ≤ bound)
    (here : σ.pinnedAt l = some r) : τ.yields s0 l = σ.yields s0 l := by
  obtain ⟨r', here', aged⟩ := keeps l r here
  rw [Shard.yields, Shard.yields, here, here', Option.bind_some, Option.bind_some, aged.pairAt upTo]

/-- A scan reads on in the order of its records, each as it was when the windows were frozen. -/
theorem scan_eq (valid : s.Valid cfg) (upTo : scan.s0 ≤ s.shard.commitSeq)
    (keeps : Keeps scan.s0 σ s.shard) (pinned : ∀ l ∈ scan.todo, ∃ r, σ.pinnedAt l = some r) :
    s.scan cfg scan events = ⟨scan.s0, scan.todo.drop (events.countP Event.isRead),
        scan.seen ++ (scan.todo.take (events.countP Event.isRead)).flatMap (σ.yields scan.s0)⟩ := by
  induction events generalizing s scan with
  | nil => simp [System.scan]
  | cons event rest ih =>
    cases event with
    | op op =>
      obtain ⟨valid', keeps', later⟩ := valid.step op
      exact ih valid' (Nat.le_trans upTo later) (keeps.trans (keeps'.mono upTo)) pinned
    | read =>
      have counts : (Event.read :: rest).countP (Event.isRead (A := A)) = rest.countP Event.isRead + 1 :=
        countP_cons_of_pos rfl
      obtain ⟨s0, todo, seen⟩ := scan
      rw [counts]
      cases todo with
      | nil =>
        have := ih valid upTo keeps pinned
        simpa [System.scan, Scan.read] using this
      | cons l rest' =>
        obtain ⟨r, here⟩ := pinned l (.head _)
        have read : Scan.read s.shard ⟨s0, l :: rest', seen⟩ = ⟨s0, rest', seen ++ σ.yields s0 l⟩ := by
          rw [← keeps.yields (Nat.le_refl s0) here]
          rfl
        have rest_pinned : ∀ l' ∈ rest', ∃ r, σ.pinnedAt l' = some r := fun l' member => pinned l' (.tail _ member)
        have later : s.scan cfg ⟨s0, rest', seen ++ σ.yields s0 l⟩ rest = _ := ih valid upTo keeps rest_pinned
        rw [System.scan, read, later, take_succ_cons, flatMap_cons, append_assoc]
        rfl

end Late

/-! ## What the windows hold -/

section Windows
variable {σ : Shard A} {s0 : Nat}

/-- A segment that is left out of the windows has nothing visible. -/
theorem Counted.hidden (counted : Counted seg) (skipped : seg.visibleAt s0 = false)
    (member : r ∈ seg.records) : r.visibleAt s0 = false := by
  cases keyed : r.isMarker with
  | true =>
    rw [Record.visibleAt, keyed]
    rfl
  | false =>
    have born := counted.minSeq r member keyed
    unfold Segment.visibleAt at skipped
    rw [Bool.and_eq_false_iff, Bool.not_eq_false', Bool.not_eq_false', decide_eq_true_iff, Bool.and_eq_true,
      decide_eq_true_iff, decide_eq_true_iff] at skipped
    rcases skipped with early | ⟨allDead, superseded⟩
    · rw [Record.visibleAt, decide_eq_false (by omega), Bool.and_false, Bool.false_and]
    · obtain ⟨x, sup, upTo⟩ := counted.settled allDead member keyed
      rw [Record.visibleAt, Record.supersededAfter, sup]
      simp [decide_eq_false (show ¬s0 < x by omega), Bool.and_false]

theorem Counted.invisible (counted : Counted seg) (skipped : seg.visibleAt s0 = false)
    (member : r ∈ seg.records) : r.pairAt s0 = none := by
  rw [Record.pairAt]
  split
  · rw [counted.hidden skipped member]
    rfl
  · rfl

theorem pinnedAt_eq {id : Nat} (here : σ.segs[id]? = some seg) : σ.pinnedAt ⟨id, off⟩ = seg.records[off]? := by
  rw [Shard.pinnedAt, here, Option.bind_some]

theorem mem_buildWindows (member : w ∈ σ.buildWindows s0) :
    ∃ seg, σ.segs[w.seg]? = some seg ∧ w.used = seg.records.length := by
  obtain ⟨id, -, framed⟩ := mem_filterMap.mp member
  cases here : σ.segs[id]? with
  | none => rw [here] at framed; cases framed
  | some seg =>
    rw [here] at framed
    simp only at framed
    split at framed
    · cases framed
    · cases framed
      exact ⟨seg, here, rfl⟩

theorem snapshotAt_pinned {l : Loc} (member : l ∈ (σ.snapshotAt s0).todo) : ∃ r, σ.pinnedAt l = some r := by
  obtain ⟨w, inWindows, inside⟩ := mem_flatMap.mp member
  obtain ⟨off, bound, rfl⟩ := mem_map.mp inside
  obtain ⟨seg, here, used⟩ := mem_buildWindows inWindows
  rw [mem_range, used] at bound
  exact ⟨seg.records[off], (pinnedAt_eq here).trans (getElem?_eq_getElem bound)⟩

/-- Reading the windows at once yields what is visible in the shard. -/
theorem yields_windows (dark : ∀ seg ∈ σ.segs, seg.visibleAt s0 = false → ∀ r ∈ seg.records, r.pairAt s0 = none) :
    (σ.snapshotAt s0).todo.flatMap (σ.yields s0) = σ.visibles s0 := by
  have perWindow : ∀ {id : Nat} {seg : Segment A}, σ.segs[id]? = some seg →
      (Window.locs ⟨id, seg.records.length⟩).flatMap (σ.yields s0) = seg.records.filterMap (Record.pairAt s0) := by
    intro id seg here
    rw [Window.locs, flatMap_map, ← filterMap_range, filterMap_eq_flatMap_toList]
    apply flatMap_congr
    intro off _
    rw [Shard.yields, pinnedAt_eq here]
  rw [Shard.visibles, Shard.arena, ← flatMap_def, filterMap_flatMap, ← flatMap_range σ.segs, Shard.snapshotAt,
    Shard.buildWindows, filterMap_eq_flatMap_toList, flatMap_assoc, flatMap_assoc]
  apply flatMap_congr
  intro id _
  cases here : σ.segs[id]? with
  | none => rfl
  | some seg =>
    dsimp only [Option.elim_some]
    split
    next skipped =>
      rw [Option.toList_none, flatMap_nil]
      rcases skipped with gone | empty | unseen
      · rw [Segment.live, if_pos gone, filterMap_nil]
      · rw [Segment.live, empty, ite_self, filterMap_nil]
      · have nothing : seg.records.filterMap (Record.pairAt s0) = [] := by
          rw [filterMap_eq_nil_iff]
          exact dark seg (mem_of_getElem? here) (by simpa using unseen)
        rw [Segment.live]
        split
        · rfl
        · exact nothing.symm
    next kept =>
      rw [Segment.live, if_neg fun gone => kept (.inl gone), Option.toList_some, flatMap_singleton]
      exact perWindow here

end Windows

/-! ## Exact scans -/

section Exact
variable {cfg : Config}

/-- A scan yields each key live at its snapshot once, with the ad it had, and no other key,
whatever the shard does until the scan has read its windows. -/
theorem snapshot_exact (ops : List (Op A)) (allowed : (initial : System A).AllowedRun cfg ops) (events : List (Event A))
    (finishes : ((initial : System A).run cfg ops).shard.snapshot.todo.length ≤ events.countP Event.isRead) :
    let s := (initial : System A).run cfg ops
    (s.scan cfg s.shard.snapshot events).todo = [] ∧
      Lists (s.scan cfg s.shard.snapshot events).seen
        ((initial : System A).history cfg (fun _ _ => none) ops s.shard.commitSeq) := by
  intro s
  have faithful := (faithful_initial cfg).run ops allowed
  have form : s.scan cfg s.shard.snapshot events = _ :=
    scan_eq faithful.valid (Nat.le_refl _) (.refl _ s.shard) fun l => snapshotAt_pinned
  rw [form, drop_eq_nil_of_le finishes, take_of_length_le finishes]
  refine ⟨rfl, ?_⟩
  have yielded : (s.shard.snapshotAt s.shard.commitSeq).todo.flatMap (s.shard.yields s.shard.commitSeq) = _ :=
    yields_windows fun seg member skipped r inside => (faithful.stored.counted seg member).invisible skipped inside
  change Lists ([] ++ (s.shard.snapshotAt s.shard.commitSeq).todo.flatMap (s.shard.yields s.shard.commitSeq)) _
  rw [nil_append, yielded]
  rw [faithful.stored.visibles_bound]
  exact faithful.stored.listed

/-- A scan of two keys, one of which is deleted and the other put again before they are read,
with a compaction of both. -/
def sampleEvents : List (Event Nat) :=
  [.read, .op (.delete [2]), .op (.copy ⟨8, 0, false, 8⟩), .op (.install 8 8),
    .op (.commit [⟨[1], 11, 8, 0, true⟩]), .read]

@[inherit_doc sampleEvents]
def sampleWrites : List (Op Nat) :=
  [.commit [⟨[1], 10, 8, 0, true⟩, ⟨[2], 20, 8, 0, true⟩], .beginRound, .copy ⟨8, 0, false, 8⟩]

theorem snapshot_exact_on_sample :
    let s := (initial : System Nat).run sampleConfig sampleWrites
    ([1], 1, 10) ∈ (s.scan sampleConfig s.shard.snapshot sampleEvents).seen ∧
      ([2], 1, 20) ∈ (s.scan sampleConfig s.shard.snapshot sampleEvents).seen := by
  have allowed : (initial : System Nat).AllowedRun sampleConfig sampleWrites :=
    (allowedRun_of_unprobed (faithful_initial sampleConfig) (fun _ => rfl) (by decide)).1
  have lists := (snapshot_exact sampleWrites allowed sampleEvents (by decide +kernel)).2
  refine ⟨(lists.exact [1] (1, 10)).mpr ?_, (lists.exact [2] (1, 20)).mpr ?_⟩
  · decide +kernel
  · decide +kernel

/-- The dictionary of a compacted segment answers a search for the empty key. The old ad of that
key is not superseded when it is put again, and a scan yields both. -/
theorem snapshot_repeats_empty_key :
    let cfg : Config := ⟨fun key => (key.headD 0).toUInt64, fun _ => none, 1024, true, none⟩
    let ops : List (Op Nat) :=
      [.commit [⟨[1], 10, 8, 0, true⟩], .beginRound, .copy ⟨8, 0, false, 8⟩, .install 8 8,
        .commit [⟨[], 20, 8, 0, true⟩],
        .commit [⟨[2], 30, 8, 1, true⟩], .sealSegment 1, .sealSegment 2, .evict 1, .evict 2,
          .commit [⟨[], 21, 8, 1, true⟩]]
    let s := (initial : System Nat).run cfg ops
    (s.scan cfg s.shard.snapshot (replicate 8 .read)).seen = [([1], 1, 10), ([], 2, 20), ([2], 3, 30),
        ([], 4, 21)] := by
  decide +kernel

end Exact

end Classad.ShardStore
