import Classad.TxnViews

/-! Reads merge the parent into the ad they hand out. Where that ad is stored afterwards the child
keeps what it had inherited: `Rewrite` puts back what it gets, and a transaction commits the very
ad that its `Get` has merged into. -/
namespace Classad.MergedReads
open TxnViews Function

/-- The current ads of a collection as they are stored. -/
abbrev Table (Key Name V : Type) := Key → Option (Stored Name V)

section
variable {Key Name V : Type} (c : Collection Key Name V)

/-- Every attribute that an ad would inherit is defined in it. -/
def Complete (ad parent : Ad Name V) : Prop :=
  ∀ name, c.parentPrivate name = false → (parent name).isSome → (ad name).isSome

/-! ## Rewriting -/

/-- The ads before any parent is merged in, as a reader who has the key decodes them. -/
def own (table : Table Key Name V) (key : Key) : Option (Ad Name V) := (table key).map decodeAd

/-- `getAs` for such a reader. -/
def getAs (ads : Key → Option (Ad Name V)) (key : Key) : Option (Ad Name V) :=
  (ads key).map fun ad => ((c.parentKeyFor key).bind ads).elim ad (mergeParent c ad)

variable [DecidableEq Key]

/-- One round of the loop of `Rewrite`, with whether its `Put` finds room. -/
def rewriteKey (table : Table Key Name V) (round : Key × Bool) : Table Key Name V :=
  if round.2 then update table round.1 ((getAs c (own table) round.1).map (encodeAd c)) else table

/-- An append-only collection encodes its records again where they are; any other puts back, in
turn, the keys that `Keys` lists. -/
def rewrite (appendOnly : Bool) (rounds : List (Key × Bool)) (table : Table Key Name V) : Table Key Name V :=
  if appendOnly then fun key => (table key).map fun stored => encodeAd c (decodeAd stored)
  else rounds.foldl (rewriteKey c) table

def write (table : Table Key Name V) (writes : List (Key × Option (Stored Name V))) : Table Key Name V :=
  writes.foldl (fun table write => update table write.1 write.2) table

/-- Every key has its own ad, and what is written later, to a parent or not, is read the same. -/
def Unnoticed (table table' : Table Key Name V) : Prop :=
  own table' = own table ∧ ∀ writes, getAs c (own (write table' writes)) = getAs c (own (write table writes))

end

section
variable {Key Name V : Type} {c : Collection Key Name V} {ad parent : Ad Name V} {ads : Key → Option (Ad Name V)}

theorem mergeParent_isSome (ad parent : Ad Name V) (name : Name) :
    (mergeParent c ad parent name).isSome = ((ad name).isSome || (!c.parentPrivate name && (parent name).isSome)) := by
  unfold mergeParent
  split <;> simp_all

theorem mergeParent_eq_iff : mergeParent c ad parent = ad ↔ Complete c ad parent := by
  constructor
  · intro same name inherited there
    rw [← same, mergeParent_isSome, inherited, there]
    simp
  · intro complete
    funext name
    unfold mergeParent
    split
    · rfl
    next inherited =>
      cases there : parent name with
      | none => simp
      | some value =>
        obtain ⟨own, defined⟩ :=
          Option.isSome_iff_exists.mp (complete name (by simpa using inherited) (by simp [there]))
        rw [defined, Option.some_or]

/-- Among several merges none takes back what another has added. -/
theorem merged_eq_iff (parents : List (Ad Name V)) :
    parents.foldl (mergeParent c) ad = ad ↔ ∀ parent ∈ parents, Complete c ad parent := by
  have keeps : ∀ (parents : List (Ad Name V)) ad name, (ad name).isSome →
      (parents.foldl (mergeParent c) ad name).isSome := by
    intro parents
    induction parents with
    | nil => exact fun _ _ => id
    | cons parent rest ih => exact fun ad name defined => ih _ name (by rw [mergeParent_isSome, defined, Bool.true_or])
  induction parents with
  | nil => simp
  | cons parent rest ih =>
    rw [List.forall_mem_cons, List.foldl_cons]
    constructor
    · intro same
      have first : Complete c ad parent := by
        intro name inherited there
        rw [← same]
        exact keeps rest _ name (by simp [mergeParent_isSome, inherited, there])
      rw [mergeParent_eq_iff.mpr first] at same
      exact ⟨first, ih.mp same⟩
    · rintro ⟨first, others⟩
      rw [mergeParent_eq_iff.mpr first, ih.mpr others]

theorem getAs_eq_iff : getAs c ads key = ads key ↔
    ∀ ad parent, ads key = some ad → (c.parentKeyFor key).bind ads = some parent → Complete c ad parent := by
  unfold getAs
  cases ads key with
  | none => simp
  | some ad =>
    cases (c.parentKeyFor key).bind ads with
    | none => simp
    | some parent => simp [mergeParent_eq_iff]

variable [DecidableEq Key]

theorem own_update (table : Table Key Name V) (key : Key) (stored : Option (Stored Name V)) :
    own (update table key stored) = update (own table) key (stored.map decodeAd) := by
  funext other
  unfold own
  rw [apply_update fun _ => Option.map decodeAd]

theorem unnoticed_iff : Unnoticed c table table' ↔ own table' = own table := by
  refine ⟨And.left, fun same => ⟨same, fun writes => congrArg _ ?_⟩⟩
  induction writes generalizing table table' with
  | nil => exact same
  | cons write rest ih =>
    apply ih
    rw [own_update, own_update, same]

theorem own_rewriteKey (table : Table Key Name V) (round : Key × Bool) : own (rewriteKey c table round) =
    if round.2 then update (own table) round.1 (getAs c (own table) round.1) else own table := by
  unfold rewriteKey
  split
  · rw [own_update, Option.map_map]
    simp [comp_def, decode_encode]
  · rfl

/-- What an ad defines, it defines after any rounds. -/
theorem rewritten_defines (rounds : List (Key × Bool)) (there : ∃ ad, own table key = some ad ∧ (ad name).isSome) :
    ∃ ad, own (rounds.foldl (rewriteKey c) table) key = some ad ∧ (ad name).isSome := by
  induction rounds generalizing table with
  | nil => exact there
  | cons round rest ih =>
    apply ih
    rw [own_rewriteKey]
    split
    · by_cases same : key = round.1
      · subst same
        obtain ⟨ad, mine, defined⟩ := there
        rw [update_self, getAs, mine]
        refine ⟨_, rfl, ?_⟩
        cases (c.parentKeyFor round.1).bind (own table) <;> simp [mergeParent_isSome, defined]
      · rwa [update_of_ne same]
    · exact there

theorem rewritten_iff (rounds : List (Key × Bool)) : own (rounds.foldl (rewriteKey c) table) = own table ↔
    ∀ round ∈ rounds, round.2 = true → getAs c (own table) round.1 = own table round.1 := by
  induction rounds generalizing table with
  | nil => simp
  | cons round rest ih =>
    have kept (first : round.2 = true → getAs c (own table) round.1 = own table round.1) :
        own (rewriteKey c table round) = own table := by
      rw [own_rewriteKey]
      split
      next puts => rw [first puts, update_eq_self]
      · rfl
    rw [List.forall_mem_cons, List.foldl_cons]
    constructor
    · intro same
      -- what this round adds is there at the end, so it was there before
      have first : round.2 = true → getAs c (own table) round.1 = own table round.1 := by
        refine fun puts => getAs_eq_iff.mpr fun ad parent mine above name inherited there => ?_
        have merged : own (rewriteKey c table round) round.1 = some (mergeParent c ad parent) := by
          rw [own_rewriteKey, if_pos puts, update_self, getAs, mine, above]
          rfl
        have adds : (mergeParent c ad parent name).isSome := by simp [mergeParent_isSome, inherited, there]
        obtain ⟨ad', mine', defined⟩ := rewritten_defines (c := c) rest ⟨_, merged, adds⟩
        rw [same, mine] at mine'
        cases mine'
        exact defined
      rw [← kept first, ih, kept first] at same
      exact ⟨first, same⟩
    · rintro ⟨first, others⟩
      rw [← kept first] at others ⊢
      exact ih.mpr others

end

/-- `Rewrite` goes unnoticed exactly where it works in place, or each ad it puts back already
defines all that it would inherit. -/
theorem rewrite_unnoticed_iff {Key Name V : Type} [DecidableEq Key] (c : Collection Key Name V) (appendOnly : Bool)
    (table : Table Key Name V) (rounds : List (Key × Bool)) :
    Unnoticed c table (rewrite c appendOnly rounds table) ↔ appendOnly = true ∨ ∀ round ∈ rounds, round.2 = true →
      ∀ ad parent, own table round.1 = some ad → (c.parentKeyFor round.1).bind (own table) = some parent →
      Complete c ad parent := by
  rw [unnoticed_iff, rewrite]
  split
  next inPlace =>
    refine iff_of_true (funext fun key => ?_) (.inl inPlace)
    simp [own, comp_def, decode_encode]
  next puts =>
    rw [rewritten_iff, or_iff_right puts]
    exact forall₃_congr fun _ _ _ => getAs_eq_iff

/-- The child has no command of its own, is put back with its parent's, and keeps that when the
parent has a new one. -/
theorem rewrite_freezes_inherited :
    let c := sampleCollection (fun key => if key = 1 then some 2 else none) first_under_second
    let command (value : Nat) : Stored String Nat := fun name => if name = "cmd" then some (false, value) else none
    let table (key : Nat) := if key = 1 then some fun _ => none else if key = 2 then some (command 7) else none
    let rewritten := rewrite c false [(1, true), (2, true)] table
    (own table 1).bind (· "cmd") = none ∧ (own rewritten 1).bind (· "cmd") = some 7 ∧
    (getAs c (own (write table [(2, some (command 8))])) 1).bind (· "cmd") = some 8 ∧
    (getAs c (own (write rewritten [(2, some (command 8))])) 1).bind (· "cmd") = some 7 := by
  refine ⟨rfl, rfl, rfl, rfl⟩

/-! ## Reading in a transaction -/

/-- What is buffered for a key: an ad of the caller's, which other keys may share; the encoding of a
text, with the ad that a read parses it to; or a delete. -/
inductive Buffer (Obj Name V : Type) where
  | ad (obj : Obj)
  | wire (stored : Stored Name V) (parsed : Option Obj)
  | del

def Buffer.materialize : Buffer Obj Name V → Option Obj
  | .ad obj => some obj
  | .wire _ parsed => parsed
  | .del => none

inductive Action (Key Obj Name V : Type) where
  | get (key : Key)
  | buffer (key : Key) (write : Buffer Obj Name V)

def Action.isWrite : Action Key Obj Name V → Bool
  | .get _ => false
  | .buffer _ _ => true

/-- An action, with the commit sequences of the shards at that time. -/
abbrev Step {Key Name V : Type} (c : Collection Key Name V) (Obj : Type) := (Fin c.count → Nat) × Action Key Obj Name V

/-- A transaction with the ads in memory. -/
structure Session (Key Obj Name V : Type) (count : Nat) where
  heap : Obj → Ad Name V
  snap : Fin count → Option Nat := fun _ => none
  writes : Key → Option (Buffer Obj Name V) := fun _ => none

section
variable {Key Obj Name V : Type} [DecidableEq Key] [DecidableEq Obj] (c : Collection Key Name V) (redact : Bool)
  (conflicts : Key → Nat → Bool) (s : Session Key Obj Name V c.count)

/-- The first touch of a shard captures its commit sequence. -/
def Session.snapOf (seq : Fin c.count → Nat) (key : Key) : Session Key Obj Name V c.count :=
  { s with snap := update s.snap (c.shardOf key) ((s.snap (c.shardOf key)).or (some (seq (c.shardOf key)))) }

def Session.base (key : Key) : Nat := (s.snap (c.shardOf key)).getD 0

/-- `getOwn` touches the shard of a key that is not buffered. -/
def Session.touch (seq : Fin c.count → Nat) (key : Key) : Session Key Obj Name V c.count :=
  if (s.writes key).isSome then s else s.snapOf c seq key

def Session.getOwn (key : Key) : Option (Ad Name V) :=
  match s.writes key with
  | some write => write.materialize.map s.heap
  | none => ((c.shards (c.shardOf key)).contents (s.base c key) key).map (decodeAdDictAs c redact)

/-- What `Get` finds of the parent. -/
def Session.parent (seq : Fin c.count → Nat) (key : Key) : Option (Ad Name V) :=
  (c.parentKeyFor key).bind fun parentKey => (s.touch c seq parentKey).getOwn c redact parentKey

/-- A buffered ad is handed out itself and the parent merged into it; what is decoded instead is the
caller's alone. -/
def Session.get (seq : Fin c.count → Nat) (key : Key) : Session Key Obj Name V c.count :=
  let s₁ := s.touch c seq key
  { (if (s₁.getOwn c redact key).isSome then (c.parentKeyFor key).elim s₁ (s₁.touch c seq) else s₁) with
    heap := fun obj =>
      if (s.writes key).bind Buffer.materialize = some obj then (s.parent c redact seq key).elim (s.heap obj)
        (mergeParent c (s.heap obj))
      else s.heap obj }

def Session.step : Step c Obj → Session Key Obj Name V c.count
  | (seq, .get key) => s.get c redact seq key
  | (seq, .buffer key write) => { s.snapOf c seq key with writes := update s.writes key (some write) }

def Session.run (steps : List (Step c Obj)) : Session Key Obj Name V c.count :=
  steps.foldl (Session.step c redact) s

/-- The parents that are merged into an ad in memory. -/
def merges (obj : Obj) (s : Session Key Obj Name V c.count) : List (Step c Obj) → List (Ad Name V)
  | [] => []
  | (seq, .get key) :: rest =>
    (if (s.writes key).bind Buffer.materialize = some obj then (s.parent c redact seq key).toList else []) ++
      merges obj (s.get c redact seq key) rest
  | step :: rest => merges obj (s.step c redact step) rest

/-- What is stored for a buffered write. -/
def Buffer.record (heap : Obj → Ad Name V) : Buffer Obj Name V → Option (Stored Name V)
  | .ad obj => some (encodeAd c (heap obj))
  | .wire stored _ => some stored
  | .del => none

/-- What `Commit` does for a key, `conflicts` being its check against the captured sequence. -/
def Session.commit (key : Key) : Option (Option (Stored Name V)) :=
  (s.writes key).bind fun write => if conflicts key (s.base c key) then none else some (write.record c s.heap)

end

section
variable {Key Obj Name V : Type} [DecidableEq Obj] {c : Collection Key Name V} {redact : Bool}
  {s : Session Key Obj Name V c.count}

theorem get_writes : (s.get c redact seq key).writes = s.writes := by
  have touched (s : Session Key Obj Name V c.count) (key : Key) : (s.touch c seq key).writes = s.writes := by
    unfold Session.touch
    split <;> rfl
  simp only [Session.get]
  split
  · cases c.parentKeyFor key with
    | none => exact touched s key
    | some parentKey => exact (touched _ parentKey).trans (touched s key)
  · exact touched s key

variable [DecidableEq Key]

theorem run_heap (obj : Obj) (steps : List (Step c Obj)) :
    (s.run c redact steps).heap obj = (merges c redact obj s steps).foldl (mergeParent c) (s.heap obj) := by
  induction steps generalizing s with
  | nil => rfl
  | cons step rest ih =>
    obtain ⟨seq, action⟩ := step
    cases action with
    | get key =>
      rw [merges, List.foldl_append]
      refine ih.trans (congrArg (List.foldl _ · _) ?_)
      simp only [Session.step, Session.get]
      split
      · cases s.parent c redact seq key <;> rfl
      · rfl
    | buffer key write => exact ih

/-- Without its reads a transaction buffers the same writes, and changes no ad in memory. -/
theorem run_writes {s' : Session Key Obj Name V c.count} (same : s'.writes = s.writes) :
    (s'.run c redact (steps.filter (·.2.isWrite))).writes = (s.run c redact steps).writes ∧
      (s'.run c redact (steps.filter (·.2.isWrite))).heap = s'.heap := by
  induction steps generalizing s s' with
  | nil => exact ⟨same, rfl⟩
  | cons step rest ih =>
    obtain ⟨seq, action⟩ := step
    cases action with
    | get key => exact ih (same.trans (get_writes).symm)
    | buffer key write =>
      refine ih ?_
      simp only [Session.step, same]

end

/-- The reads of a transaction have no effect on its commit exactly where, for every key it writes,
the check does not depend on the reads' having touched the shard earlier, and an ad that is
stored defined, when it was put, all that a read would merge into it. -/
theorem reads_unnoticed_iff {Key Obj Name V : Type} [DecidableEq Key] [DecidableEq Obj] (c : Collection Key Name V)
    (redact : Bool)
    (conflicts : Key → Nat → Bool) (heap : Obj → Ad Name V) (steps : List (Step c Obj)) :
    let whole := Session.run c redact { heap } steps
    let bare := Session.run c redact { heap } (steps.filter (·.2.isWrite))
    whole.commit c conflicts = bare.commit c conflicts ↔
      ∀ key write, bare.writes key = some write →
        conflicts key (whole.base c key) = conflicts key (bare.base c key) ∧
        (conflicts key (bare.base c key) = false → ∀ obj, write = .ad obj →
          ∀ parent ∈ merges c redact obj { heap } steps, Complete c (heap obj) parent) := by
  intro whole bare
  obtain ⟨writes, memory⟩ : bare.writes = whole.writes ∧ bare.heap = heap := run_writes rfl
  rw [funext_iff]
  refine forall_congr' fun key => ?_
  unfold Session.commit
  rw [← writes]
  cases bare.writes key with
  | none => simp
  | some write =>
    simp only [Option.bind_some, Option.some.injEq, forall_eq']
    have records : write.record c whole.heap = write.record c bare.heap ↔ ∀ obj, write = .ad obj →
        ∀ parent ∈ merges c redact obj { heap } steps, Complete c (heap obj) parent := by
      cases write with
      | ad obj =>
        have injective : encodeAd c (whole.heap obj) = encodeAd c (bare.heap obj) ↔ whole.heap obj = bare.heap obj :=
          ⟨fun same => by rw [← decode_encode (c := c) (whole.heap obj), same, decode_encode], congrArg _⟩
        simp only [Buffer.record, Option.some.injEq, injective, Buffer.ad.injEq, forall_eq']
        rw [memory, run_heap, merged_eq_iff]
      | wire stored parsed => simp [Buffer.record]
      | del => simp [Buffer.record]
    rw [← records]
    cases conflicts key (whole.base c key) <;> cases conflicts key (bare.base c key) <;> simp

/-- The ad put for the child is stored with the parent's command if the transaction reads it, and as
it was put if not. -/
theorem read_changes_commit :
    let c := sampleCollection (fun key => if key = 1 then some 2 else none) first_under_second
    let put : Action Nat Unit String Nat := .buffer 1 (.ad ())
    let stored (actions : List (Action Nat Unit String Nat)) :=
      (Session.run c false { heap := fun _ _ => none } (actions.map fun action => (fun _ => 0, action))).commit c
        (fun _ _ => false) 1
    ((stored [put, .get 1]).bind id).bind (· "cmd") = some (false, 7) ∧
        ((stored [put]).bind id).bind (· "cmd") = none := by
  refine ⟨rfl, rfl⟩

end Classad.MergedReads
