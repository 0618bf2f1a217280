import Mathlib.Data.List.Nodup

/-! What a transaction sees of a table. A point read takes the transaction's own buffered write,
or else the version at its snapshot decoded for its entitlement, and merges the parent into it.
An attribute update stores a point read back. -/
namespace Classad.TxnViews
open List hiding count
open Function (update update_of_ne)

/-- The attributes of an ad, by their folded names. -/
abbrev Ad (Name V : Type) := Name → Option V

/-- A stored ad: each value with whether it is sealed. -/
abbrev Stored (Name V : Type) := Name → Option (Bool × V)

/-- The versions of one shard: what it holds as of each sequence number. -/
structure History (Key Name V : Type) where
  contents : Nat → Key → Option (Stored Name V)

/-- Routing follows `parentKeyFor` to its end, so no key is its own parent. -/
structure Collection (Key Name V : Type) where
  count : Nat
  shards : Fin count → History Key Name V
  shardOf : Key → Fin count
  parentKeyFor : Key → Option Key
  rooted : ∀ key, parentKeyFor key ≠ some key
  parentPrivate : Name → Bool
  shouldEncrypt : Name → Bool
  undefined : V

/-- `snap` is the sequence number each shard is read at: its commit sequence when the transaction
first touched it. A buffered delete is `some none`. -/
structure Txn (Key Name V : Type) (count : Nat) where
  redact : Bool
  snap : Fin count → Nat
  writes : Key → Option (Option (Ad Name V))

section
variable {Key Name V : Type} (c : Collection Key Name V)

/-! ## Point reads -/

/-- The ad as the key opens it. -/
def decodeAd (stored : Stored Name V) : Ad Name V := fun name => (stored name).map Prod.snd

/-- Without the key a sealed attribute is undefined. -/
def decodeAdDictAs (redact : Bool) (stored : Stored Name V) : Ad Name V := fun name =>
  (stored name).map fun value => if redact && value.1 then c.undefined else value.2

def encodeAd (ad : Ad Name V) : Stored Name V := fun name =>
  (ad name).map fun value => (c.shouldEncrypt name, value)

def mergeParent (child parent : Ad Name V) : Ad Name V := fun name =>
  if c.parentPrivate name then child name else (child name).or (parent name)

variable (t : Txn Key Name V c.count) (key : Key)

/-- The version of a key at the transaction's snapshot. -/
def storedAt : Option (Stored Name V) :=
  (c.shards (c.shardOf key)).contents (t.snap (c.shardOf key)) key

def getOwn : Option (Ad Name V) :=
  match t.writes key with
  | some buffered => buffered
  | none => (storedAt c t key).map (decodeAdDictAs c t.redact)

/-- The parent whose attributes a key inherits. -/
def parentOf : Option (Ad Name V) :=
  (c.parentKeyFor key).bind (getOwn c t)

def inherit (ad : Ad Name V) : Ad Name V :=
  match parentOf c t key with
  | some parent => mergeParent c ad parent
  | none => ad

/-- `Get` as a value. -/
def view : Option (Ad Name V) :=
  (getOwn c t key).map (inherit c t key)

variable [DecidableEq Key] [DecidableEq Name]

def Txn.put (t : Txn Key Name V count) (key : Key) (ad : Ad Name V) : Txn Key Name V count :=
  { t with writes := update t.writes key (some (some ad)) }

/-- `Get` as an action: a buffered ad is handed out itself, so the parent is merged into the buffer. -/
def afterGet : Txn Key Name V c.count :=
  match t.writes key with
  | some (some ad) => t.put key (inherit c t key ad)
  | _ => t

/-! ## Attribute updates -/

/-- `set` carries what its text was parsed to. -/
inductive Call (Name V : Type) where
  | set (name : Name) (parsed : Option V)
  | delete (name : Name)

def Call.name : Call Name V → Name
  | .set name _ | .delete name => name

def Call.value : Call Name V → Option V
  | .set _ parsed => parsed
  | .delete _ => none

def Call.apply : Call Name V → Txn Key Name V c.count
  | .set _ none => t
  | .set name (some value) =>
    (afterGet c t key).put key (update ((view c t key).getD fun _ => none) name (some value))
  | .delete name => match view c t key with
    | none => t
    | some ad => if (ad name).isSome then (afterGet c t key).put key (update ad name none)
      else afterGet c t key

def applyAll (t : Txn Key Name V c.count) (key : Key) : List (Call Name V) → Txn Key Name V c.count
  | [] => t
  | call :: rest => applyAll (call.apply c t key) key rest

/-- What a commit without conflict leaves under a key. -/
def committed : Option (Stored Name V) :=
  match t.writes key with
  | none => storedAt c t key
  | some buffered => buffered.map (encodeAd c)

/-- An attribute of a key's own ad, read with the key. -/
def ownValue (stored : Option (Stored Name V)) (name : Name) : Option V :=
  stored.bind fun stored => decodeAd stored name

/-- The ad an update starts from. -/
def start : Ad Name V := (view c t key).getD fun _ => none

/-- The key's own ad, if it has one, merged with what it inherits. -/
def seen : Ad Name V :=
  inherit c t key ((getOwn c t key).getD fun _ => none)

/-- The call gets as far as reading the ad. -/
def Call.attempts : Call Name V → Bool
  | .set _ none => false
  | _ => true

/-- The call stores the ad it has read. -/
def Call.writes (ad : Ad Name V) : Call Name V → Bool
  | .set _ parsed => parsed.isSome
  | .delete name => (ad name).isSome

/-- Some call stores an ad merged with its parent: the first that writes does where there was an
ad, and otherwise the next one that reads what the first has created. -/
def rewrites (present : Bool) (ad : Ad Name V) : List (Call Name V) → Bool
  | [] => false
  | call :: rest =>
    if call.writes ad then present || rest.any Call.attempts else rewrites present ad rest

end

section
variable {Key Name V : Type} {c : Collection Key Name V}

theorem decode_encode (ad : Ad Name V) : decodeAd (encodeAd c ad) = ad := by
  funext name
  simp [decodeAd, encodeAd, Function.comp_def]

theorem mergeParent_twice (near : ad name = base name ∨ ad name = mergeParent c base parent name) :
    mergeParent c ad parent name = mergeParent c base parent name := by
  unfold mergeParent at near ⊢
  obtain same | same := near <;> rw [same]
  split
  · rfl
  · cases base name <;> cases parent name <;> rfl

variable [DecidableEq Key] {t : Txn Key Name V c.count} {key : Key}

theorem put_put (t : Txn Key Name V count) (key : Key) (ad ad' : Ad Name V) :
    (t.put key ad).put key ad' = t.put key ad' := by
  simp [Txn.put]

theorem writes_put (t : Txn Key Name V count) (key : Key) (ad : Ad Name V) :
    (t.put key ad).writes key = some (some ad) :=
  Function.update_self ..

theorem afterGet_put (t : Txn Key Name V c.count) (key : Key) (ad : Ad Name V) :
    afterGet c (t.put key ad) key = t.put key (inherit c (t.put key ad) key ad) := by
  rw [afterGet, writes_put]
  exact put_put ..

theorem start_put (t : Txn Key Name V c.count) (key : Key) (ad : Ad Name V) :
    start c (t.put key ad) key = inherit c (t.put key ad) key ad := by
  rw [start, view, getOwn, writes_put]
  rfl

theorem getOwn_put (t : Txn Key Name V c.count) (apart : other ≠ key) :
    getOwn c (t.put key ad) other = getOwn c t other := by
  have same : (t.put key ad).writes other = t.writes other := update_of_ne apart ..
  rw [getOwn, getOwn, same]
  rfl

/-- Merging again changes nothing: an attribute of the buffer that is as it was, or already merged,
is read as the first read saw it. -/
theorem inherit_put (near : ad name = (getOwn c t key).getD (fun _ => none) name ∨ ad name = seen c t key name) :
    inherit c (t.put key ad) key ad name = seen c t key name := by
  have above : parentOf c (t.put key ad) key = parentOf c t key := by
    unfold parentOf
    cases chained : c.parentKeyFor key with
    | none => rfl
    | some parent => exact getOwn_put t fun self => c.rooted key (self ▸ chained)
  unfold seen inherit at *
  rw [above]
  cases held : parentOf c t key with
  | none =>
    rw [held] at near
    exact near.elim id id
  | some parent =>
    rw [held] at near
    exact mergeParent_twice near

/-- The transaction has buffered an ad that is, but for the named attributes, `base`. -/
def Holds (t : Txn Key Name V count) (key : Key) (named : List Name) (base : Ad Name V)
    (t' : Txn Key Name V count) : Prop :=
  ∃ ad, t' = t.put key ad ∧ ∀ name, name ∉ named → ad name = base name

theorem committed_holds (holds : Holds t key named base t')
    (free : name ∉ named) : ownValue (committed c t' key) name = base name := by
  obtain ⟨ad, rfl, unnamed⟩ := holds
  rw [committed, writes_put, ← unnamed name free]
  exact congrFun (decode_encode ad) name

variable [DecidableEq Name] {named : List Name} {calls : List (Call Name V)}

/-- A call stores the ad it starts from with its attribute changed, or only reads it. -/
theorem apply_eq (call : Call Name V) : call.apply c t key =
    if call.writes (start c t key) then t.put key (update (start c t key) call.name call.value)
    else if call.attempts then afterGet c t key else t := by
  have puts (ad : Ad Name V) : (afterGet c t key).put key ad = t.put key ad := by
    unfold afterGet
    split
    · exact put_put ..
    · rfl
  cases call with
  | set name parsed =>
    cases parsed with
    | none => rfl
    | some value => exact puts _
  | delete name =>
    simp only [Call.apply, Call.writes, Call.attempts, start, if_true, Call.name, Call.value]
    cases found : view c t key with
    | some ad => simp [puts]
    | none =>
      have unread : afterGet c t key = t := by
        unfold afterGet
        split
        next ad buffered =>
          rw [view, getOwn, buffered] at found
          cases found
        · rfl
      simp [unread]

theorem holds_update {call : Call Name V} (same : ∀ name, name ∉ named → ad name = base name)
    (known : call.name ∈ named) :
    Holds t key named base (t.put key (update ad call.name call.value)) := by
  refine ⟨_, rfl, fun other free => ?_⟩
  have apart : other ≠ call.name := fun equal => free (equal ▸ known)
  rw [update_of_ne apart, same other free]

/-- Once an ad is buffered, the next call that reads it merges it. -/
theorem applyAll_buffered {t' : Txn Key Name V c.count} (holds : Holds t key named base t')
    (near : base = (getOwn c t key).getD (fun _ => none) ∨ base = seen c t key)
    (known : ∀ call ∈ calls, call.name ∈ named) :
    Holds t key named (if calls.any Call.attempts then seen c t key else base) (applyAll c t' key calls) := by
  induction calls generalizing base t' with
  | nil => exact holds
  | cons call rest ih =>
    obtain ⟨ad, rfl, unnamed⟩ := holds
    have merged : ∀ name, name ∉ named → inherit c (t.put key ad) key ad name = seen c t key name := by
      intro name free
      apply inherit_put
      rw [unnamed name free]
      exact near.imp (congrFun · name) (congrFun · name)
    have later := fun call member => known call (.tail _ member)
    rw [applyAll, apply_eq, start_put, afterGet_put, put_put, any_cons]
    cases attempted : call.attempts with
    | false =>
      have skips : call.writes (inherit c (t.put key ad) key ad) = false := by
        cases call with
        | set name parsed => cases parsed <;> first | rfl | cases attempted
        | delete name => cases attempted
      rw [skips, Bool.false_or]
      exact ih ⟨ad, rfl, unnamed⟩ near later
    | true =>
      have stored : Holds t key named (seen c t key) (if call.writes (inherit c (t.put key ad) key ad) then
          t.put key (update (inherit c (t.put key ad) key ad) call.name call.value)
          else t.put key (inherit c (t.put key ad) key ad)) := by
        split
        · exact holds_update merged (known call (.head _))
        · exact ⟨_, rfl, merged⟩
      have rest := ih stored (.inr rfl) later
      rw [ite_self] at rest
      exact rest

/-- What the calls leave in a transaction that had not buffered the key. -/
theorem applyAll_fresh (fresh : t.writes key = none) (known : ∀ call ∈ calls, call.name ∈ named) :
    if rewrites (getOwn c t key).isSome (start c t key) calls then Holds t key named (seen c t key)
    (applyAll c t key calls)
    else applyAll c t key calls = t ∨ getOwn c t key = none ∧ Holds t key named (fun _ => none)
    (applyAll c t key calls) := by
  have unread : afterGet c t key = t := by rw [afterGet, fresh]
  induction calls with
  | nil => exact .inl rfl
  | cons call rest ih =>
    have later := fun call member => known call (.tail _ member)
    rw [applyAll, apply_eq, unread, ite_self, rewrites]
    by_cases writes : call.writes (start c t key) = true
    · simp only [if_pos writes]
      have first : Holds t key named (start c t key)
          (t.put key (update (start c t key) call.name call.value)) :=
        holds_update (fun _ _ => rfl) (known call (.head _))
      cases held : getOwn c t key with
      | none =>
        have empty : start c t key = fun _ => none := by rw [start, view, held]; rfl
        rw [empty] at first ⊢
        have after := applyAll_buffered first (.inl (by rw [held]; rfl)) later
        cases read : rest.any Call.attempts with
        | true =>
          rw [read] at after
          exact after
        | false =>
          rw [read] at after
          exact .inr ⟨rfl, after⟩
      | some own =>
        have merged : start c t key = seen c t key := by rw [start, view, seen, held]; rfl
        rw [merged] at first ⊢
        have after := applyAll_buffered first (.inr rfl) later
        rw [ite_self] at after
        exact after
    · simp only [if_neg writes]
      exact ih later

end

/-- The calls change only the attributes they name exactly where no call stores a merged ad, or
the ad as the transaction reads it, merged and redacted, has the stored values of all others. -/
theorem attribute_updates_framed_iff {Key Name V : Type} [DecidableEq Key] [DecidableEq Name]
    (c : Collection Key Name V)
    (t : Txn Key Name V c.count) (key : Key) (fresh : t.writes key = none) (calls : List (Call Name V)) :
    (∀ name, name ∉ calls.map Call.name →
      ownValue (committed c (applyAll c t key calls) key) name = ownValue (storedAt c t key) name) ↔
    (rewrites (getOwn c t key).isSome (start c t key) calls = true →
      ∀ name, name ∉ calls.map Call.name → seen c t key name = ownValue (storedAt c t key) name) := by
  have known : ∀ call ∈ calls, call.name ∈ calls.map Call.name := fun call => mem_map_of_mem
  have after := applyAll_fresh (c := c) fresh known
  cases merged : rewrites (getOwn c t key).isSome (start c t key) calls with
  | true =>
    rw [if_pos merged] at after
    rw [imp_iff_right rfl]
    refine forall₂_congr fun name free => ?_
    rw [committed_holds after free]
  | false =>
    rw [merged] at after
    refine iff_of_true (fun name free => ?_) nofun
    obtain same | ⟨absent, created⟩ := after
    · rw [same, committed, fresh]
    · rw [committed_holds created free]
      rw [getOwn, fresh, Option.map_eq_none_iff] at absent
      rw [absent]
      rfl

/-- One shard: key 1 with a sealed claim, and key 2, which holds a command. -/
def sampleCollection (parentKeyFor : Nat → Option Nat) (rooted : ∀ key, parentKeyFor key ≠ some key) :
    Collection Nat String Nat where
  count := 1
  shards _ :=
    let child : Stored String Nat := fun name => if name = "claimid" then some (true, 5) else none
    let parent : Stored String Nat := fun name => if name = "cmd" then some (false, 7) else none
    { contents := fun _ key => if key = 1 then some child else if key = 2 then some parent else none }
  shardOf _ := 0
  parentKeyFor := parentKeyFor
  rooted := rooted
  parentPrivate _ := false
  shouldEncrypt name := name == "claimid"
  undefined := 0

theorem attribute_updates_framed_on_sample :
    let c := sampleCollection (fun _ => none) nofun
    let t : Txn Nat String Nat 1 := ⟨true, fun _ => 0, fun _ => none⟩
    ∀ name, name ∉ ["cmd"] →
      ownValue (committed c (applyAll c t 2 [.set "cmd" (some 8)]) 2) name = ownValue (storedAt c t 2) name := by
  intro c t
  refine (attribute_updates_framed_iff c t 2 rfl [.set "cmd" (some 8)]).mpr fun _ name other => ?_
  have absent : name ≠ "cmd" := fun same => other (same ▸ .head _)
  simp [seen, inherit, parentOf, getOwn, ownValue, storedAt, decodeAd, decodeAdDictAs, c, t, sampleCollection, absent]

theorem first_under_second (key : Nat) : (if key = 1 then some 2 else none) ≠ some key := by
  split <;> simp_all

/-- A redacted transaction that sets the owner loses the claim, and one on a child ad copies the
parent's command into it. -/
theorem attribute_update_rewrites_others :
    let plain := sampleCollection (fun _ => none) nofun
    let chained := sampleCollection (fun key => if key = 1 then some 2 else none) first_under_second
    let t (redact : Bool) : Txn Nat String Nat 1 := ⟨redact, fun _ => 0, fun _ => none⟩
    ownValue (storedAt plain (t true) 1) "claimid" = some 5 ∧
    ownValue (committed plain (applyAll plain (t true) 1 [.set "owner" (some 3)]) 1) "claimid" = some 0 ∧
    ownValue (storedAt chained (t false) 1) "cmd" = none ∧
    ownValue (committed chained (applyAll chained (t false) 1 [.set "owner" (some 3)]) 1) "cmd" = some 7 := by
  refine ⟨rfl, rfl, rfl, rfl⟩

end Classad.TxnViews
