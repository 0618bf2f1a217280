import Classad.AsciiFolding
import Classad.SegmentIndex
import Classad.ZoneMapProofs

/-! What building a segment's index files about one record: under each indexed attribute, the
text or the number the record's node holds as a literal, or that it is an exception. Everything
a probe reads from the index is determined by that. -/
namespace Classad.SegIndexProofs
open Syntax Operators TreeWalk TreeWalkSimulation ConstantFold ConstantFoldProofs QueryProbe QueryProbeProofs FloatOrder
open Option hiding map_id'
open List
open ProbeComparisons Wire WireProofs ZoneMap ZoneMapProofs PostingLists BinarySearch AsciiFolding SegmentIndex

theorem toLower_boolText (lowers : LowersASCII host) (value : Bool) :
    host.toLower (boolText value) = boolText value := by
  apply lowers.keeps
  cases value
  · rfl
  · rfl

theorem toLower_empty (lowers : LowersASCII host) : host.toLower "" = "" :=
  lowers.keeps "" rfl

/-! ## Records -/

theorem walkRecords_le (member : (offset, ad) ∈ walkRecords upto start records) :
    start ≤ offset := by
  induction records generalizing start with
  | nil => cases member
  | cons record rest ih =>
    unfold walkRecords at member
    split at member
    · rcases mem_cons.mp member with same | member
      · cases same
        exact le_rfl
      · exact le_trans (Nat.le_add_right ..) (ih member)
    · cases member

/-- No two records have one offset. -/
theorem walkRecords_unique (first : (offset, ad) ∈ walkRecords upto start records)
    (second : (offset, ad') ∈ walkRecords upto start records) : ad = ad' := by
  induction records generalizing start with
  | nil => cases first
  | cons record rest ih =>
    unfold walkRecords at first second
    split at first
    next inside =>
      rw [if_pos inside] at second
      have later : ∀ {offset ad}, (offset, ad) ∈ walkRecords upto (start + record.total) rest → start < offset :=
        fun member => lt_of_lt_of_le (Nat.lt_add_of_pos_right (Nat.pos_of_ne_zero inside.2)) (walkRecords_le member)
      rcases mem_cons.mp first with same | first
      · cases same
        rcases mem_cons.mp second with same | second
        · cases same
          rfl
        · exact absurd (later second) (lt_irrefl _)
      · rcases mem_cons.mp second with same | second
        · cases same
          exact absurd (later first) (lt_irrefl _)
        · exact ih first second
    · cases first

section
variable {host : Host} {spec : IndexSpec} {mode : KeyMode host} {id : Nat}

/-- What the visited records hold for an attribute, by offset. -/
def heldNodes (spec : IndexSpec) (mode : KeyMode host) (id : Nat) (walked : List (Nat × Option Ad)) :
    List (Nat × Node) :=
  walked.filterMap fun record => record.2.bind fun ad => (spec.attrNode mode ad id).map (record.1, ·)

theorem visit_all (walked : List (Nat × Option Ad)) (si : SegIndex) :
    (walked.foldl (SegIndex.visit spec mode) si).all = (walked.map Prod.fst).reverse ++ si.all := by
  induction walked generalizing si with
  | nil => rfl
  | cons record rest ih =>
    rw [foldl_cons, ih]
    obtain ⟨offset, ad⟩ := record
    cases ad <;> simp [SegIndex.visit, SegIndex.indexRecord]

/-- The postings of one attribute are filed from what the records hold for it, in order. -/
theorem visit_postings (spec : IndexSpec) (mode : KeyMode host) (id : Nat) (field : SegIndex → Option P)
    (index : Option Node → Nat → P → P)
    (missing : ∀ offset postings, index none offset postings = postings)
    (visits : ∀ si offset ad, field (SegIndex.visit spec mode si (offset, ad)) = match ad with
      | none => field si
      | some ad => (field si).map (index (spec.attrNode mode ad id) offset))
    (walked : List (Nat × Option Ad)) : ∀ (si : SegIndex) (postings : P), field si = some postings →
      field (walked.foldl (SegIndex.visit spec mode) si) =
        some ((heldNodes spec mode id walked).foldl (fun postings held => index (some held.2) held.1 postings)
            postings) := by
  induction walked with
  | nil => exact fun si postings present => present
  | cons record rest ih =>
    intro si postings present
    obtain ⟨offset, ad⟩ := record
    have step := visits si offset ad
    cases ad with
    | none => exact ih _ postings (step.trans present)
    | some ad =>
      simp only [present, map_some] at step
      cases looked : spec.attrNode mode ad id with
      | none =>
        rw [looked, missing] at step
        simpa [heldNodes, looked] using ih _ postings step
      | some node =>
        simpa [heldNodes, looked] using ih _ _ step

/-- A record contributes its own node only. -/
theorem mem_heldNodes (visited : (offset, some ad) ∈ walkRecords upto 0 records) :
    (offset, node) ∈ heldNodes spec mode id (walkRecords upto 0 records) ↔ spec.attrNode mode ad id = some node := by
  constructor
  · intro member
    obtain ⟨⟨other, ad'⟩, visited', held⟩ := mem_filterMap.mp member
    obtain ⟨ad', rfl, mapped⟩ := bind_eq_some_iff.mp held
    obtain ⟨_, looked, same⟩ := map_eq_some_iff.mp mapped
    cases same
    cases walkRecords_unique visited visited'
    exact looked
  · intro looked
    exact mem_filterMap.mpr ⟨_, visited, by simp [looked]⟩

end

/-! ## Filing by key -/

/-- The entries of an index that files a node under a key read from it. -/
def keyEntries {κ : Type} (read : Node → Option κ) (held : List (Nat × Node)) : List (κ × Nat) :=
  held.filterMap fun held => (read held.2).map (·, held.1)

section
variable {κ P : Type} (read : Node → Option κ) (index : Option Node → Nat → P → P)

theorem mem_keyEntries (only : ∀ other, (offset, other) ∈ held ↔ node = some other) (key : κ) :
    (key, offset) ∈ keyEntries read held ↔ node.bind read = some key := by
  constructor
  · intro member
    obtain ⟨⟨other, filed⟩, mine, mapped⟩ := mem_filterMap.mp member
    obtain ⟨_, found, same⟩ := map_eq_some_iff.mp mapped
    cases same
    rw [(only filed).mp mine]
    exact found
  · intro found
    obtain ⟨filed, same, key_eq⟩ := bind_eq_some_iff.mp found
    exact mem_filterMap.mpr ⟨_, (only filed).mpr same, by simp [key_eq]⟩

/-- Postings to which each node adds its key hold the entries of all of them. -/
theorem post_held [BEq κ'] (post : P → Postings κ') (f : κ → κ')
    (step : ∀ node offset p, post (index (some node) offset p) = match read node with
      | some key => addOffset (post p) (f key) offset
      | none => post p) (held : List (Nat × Node)) (p : P) :
    post (held.foldl (fun p held => index (some held.2) held.1 p) p) =
      postAll (post p) ((keyEntries read held).map fun entry => (f entry.1, entry.2)) := by
  induction held generalizing p with
  | nil => rfl
  | cons head rest ih =>
    rw [foldl_cons, ih, step]
    cases found : read head.2 <;> simp [keyEntries, found, postAll]

/-- A bitmap to which each node of a kind adds its record. -/
theorem mem_held {held : List (Nat × Node)} (bitmap : P → Bitmap) (wanted : Option κ → Bool) (p : P)
    (start : bitmap p = [])
    (step : ∀ node offset p, bitmap (index (some node) offset p) = if wanted (read node) then offset :: bitmap p
      else bitmap p)
    (only : ∀ other, (offset, other) ∈ held ↔ node = some other) :
    offset ∈ bitmap (held.foldl (fun p held => index (some held.2) held.1 p) p) ↔ ∃ mine, node = some mine ∧
    wanted (read mine) := by
  suffices run : ∀ p, offset ∈ bitmap (held.foldl (fun p held => index (some held.2) held.1 p) p) ↔
      offset ∈ bitmap p ∨ ∃ mine, (offset, mine) ∈ held ∧ wanted (read mine) by
    simp [run, start, only]
  clear only
  induction held with
  | nil => simp
  | cons head rest ih =>
    intro p
    rw [foldl_cons, ih, step]
    grind

end

/-! ## Categorical attributes -/

/-- The text a categorical index files a node under. -/
def nodeText (node : Node) : Option String := (literalValue node).bind catExact

section
variable {host : Host}

theorem indexCat_some (lowers : LowersASCII host) (node : Node) (offset : Nat) (cp : CatPostings) :
    indexCat host (some node) offset cp = match nodeText node with
      | some text => { cp with
          post := addOffset cp.post (host.toLower text) offset
          exact := addOffset cp.exact text offset
          posted := offset :: cp.posted }
      | none => { cp with exc := offset :: cp.exc } := by
  cases read : literalValue node with
  | none => simp [indexCat, nodeText, read]
  | some value => cases value <;> simp [indexCat, nodeText, read, catExact, toLower_boolText lowers]

/-- An exact bitmap has the records of exactly that text, whether it is kept or stood in for by
the bitmap of the folded text. -/
theorem mem_exactBitmap (lowers : LowersASCII host)
    (post : cp.post = postAll [] (entries.map fun entry => (host.toLower entry.1, entry.2)))
    (exact : cp.exact = postAll [] entries) (text : String) (offset : Nat) :
    offset ∈ exactBitmap host (finalizeExact host cp).finishStats text ↔ (text, offset) ∈ entries := by
  have bucket : ∀ folded, offset ∈ offsets cp.post folded ↔
      ∃ spelled, (spelled, offset) ∈ entries ∧ host.toLower spelled = folded := by
    intro folded
    rw [post, mem_offsets_postAll]
    constructor
    · rintro ⟨_, member, same⟩
      obtain ⟨⟨spelled, position⟩, filed, mapped⟩ := mem_map.mp member
      cases mapped
      exact ⟨spelled, filed, by simpa using same⟩
    · rintro ⟨spelled, filed, rfl⟩
      exact ⟨_, mem_map.mpr ⟨_, filed, rfl⟩, by simp⟩
  have kept : ∀ spelled position, (spelled, position) ∈ entries →
      spelled ∈ spellings host cp (host.toLower spelled) := by
    intro spelled position filed
    obtain ⟨used, member, same⟩ := key_of_entry [] entries filed
    have same : used = spelled := by simpa using same
    subst same
    exact mem_filter.mpr ⟨exact ▸ member, by simp⟩
  unfold exactBitmap finalizeExact CatPostings.finishStats
  cases found : get cp.post (host.toLower text) with
  | none =>
    have unfiled : ¬(text, offset) ∈ entries := by
      intro filed
      have member := (bucket (host.toLower text)).mpr ⟨text, filed, rfl⟩
      simp [offsets, found] at member
    simpa using unfiled
  | some positions =>
    have inBucket := bucket (host.toLower text)
    rw [offsets, found, getD_some] at inBucket
    have mixed : (spellings host cp (host.toLower text)).length ≠ 1 →
        (offset ∈ offsets (cp.exact.filter fun entry => (spellings host cp (host.toLower entry.1)).length != 1) text ↔
          (text, offset) ∈ entries) := by
      intro several
      rw [offsets_filter cp.exact (fun text => (spellings host cp (host.toLower text)).length != 1),
        if_pos (by simpa using several), exact, mem_offsets_postAll]
      simp
    dsimp only
    split
    next spelling uniform =>
      split at uniform
      next only spelled =>
        have folds : host.toLower only = host.toLower text := by
          have member : only ∈ spellings host cp (host.toLower text) := by simp [spelled]
          simpa using (mem_filter.mp member).2
        have canon : (if spelling = "" then host.toLower text else spelling) = only := by
          cases uniform
          by_cases lower : only = host.toLower text
          · simp [lower]
          · have nonempty : only ≠ "" := by
              rintro rfl
              exact lower ((toLower_empty lowers).symm.trans folds)
            simp [lower, nonempty]
        have sole : ∀ spelled position, (spelled, position) ∈ entries → host.toLower spelled = host.toLower text →
            spelled = only := by
          intro other position filed same
          have member := kept other position filed
          rw [same, spelled] at member
          exact mem_singleton.mp member
        rw [canon]
        split
        next same =>
          subst same
          rw [inBucket]
          constructor
          · rintro ⟨other, filed, same⟩
            rw [← sole other offset filed same]
            exact filed
          · exact fun filed => ⟨only, filed, rfl⟩
        next other =>
          simp only [not_mem_nil, false_iff]
          exact fun filed => other (sole text offset filed rfl).symm
      · cases uniform
    next none =>
      apply mixed
      intro single
      obtain ⟨only, spelled⟩ := length_eq_one_iff.mp single
      simp [spelled] at none

theorem addHash_all (hashes : List UInt64) (filter : BloomFilter) :
    hashes.foldl BloomFilter.addHash filter =
      { filter with bits := hashes.foldl (setBits filter.places) filter.bits } := by
  induction hashes generalizing filter with
  | nil => rfl
  | cons hash rest ih =>
    rw [foldl_cons, ih]
    rfl

/-- The filter of a categorical attribute passes every key that has postings. -/
theorem mayContain_key (cp : CatPostings) (member : key ∈ keys cp.post) :
    cp.finishStats.bloom.mayContain (hashString key) = true := by
  have filled : cp.finishStats.bloom = ((keys cp.post).map hashString).foldl BloomFilter.addHash
      (newBloom cp.post.length) := by
    rw [foldl_map]
    rfl
  rw [filled, addHash_all]
  exact mayContain_of_mem _ _ _ (mem_map_of_mem member)

/-- What a categorical index knows of a record that has the given node for the attribute. -/
structure FilesText (host : Host) (cp : CatPostings) (offset : Nat) (node : Option Node) : Prop where
  post : ∀ key, offset ∈ offsets cp.post key ↔ ∃ text, node.bind nodeText = some text ∧ host.toLower text = key
  exact : ∀ text, offset ∈ exactBitmap host cp text ↔ node.bind nodeText = some text
  posted : offset ∈ cp.posted ↔ (node.bind nodeText).isSome
  exc : offset ∈ cp.exc ↔ node.isSome ∧ node.bind nodeText = none
  bloom : ∀ text, node.bind nodeText = some text → cp.bloom.mayContain (hashString (host.toLower text)) = true

theorem indexCat_files (lowers : LowersASCII host) {held : List (Nat × Node)}
    (only : ∀ other, (offset, other) ∈ held ↔ node = some other) :
    FilesText host (finalizeExact host
      (held.foldl (fun cp held => indexCat host (some held.2) held.1 cp) .empty)).finishStats offset node := by
  have entries := mem_keyEntries nodeText only
  have step := indexCat_some lowers
  have post := post_held nodeText (indexCat host) CatPostings.post host.toLower
    (fun node offset cp => by rw [step]; cases nodeText node <;> rfl) held .empty
  have exact := post_held nodeText (indexCat host) CatPostings.exact id
    (fun node offset cp => by rw [step]; cases nodeText node <;> rfl) held .empty
  have posted := mem_held nodeText (indexCat host) CatPostings.posted isSome .empty rfl
    (fun node offset cp => by rw [step]; cases nodeText node <;> rfl) only
  have exc := mem_held nodeText (indexCat host) CatPostings.exc isNone .empty rfl
    (fun node offset cp => by rw [step]; cases nodeText node <;> rfl) only
  refine ⟨?_, ?_, ?_, ?_, ?_⟩
  · intro key
    change offset ∈ offsets (held.foldl (fun cp held => indexCat host (some held.2) held.1 cp) .empty).post key ↔ _
    rw [post, CatPostings.empty, mem_offsets_postAll]
    simp [entries]
  · intro text
    rw [mem_exactBitmap lowers post (by simpa [CatPostings.empty] using exact), entries]
  · refine posted.trans ?_
    cases node <;> simp
  · refine exc.trans ?_
    cases node <;> simp
  · intro text spelled
    apply mayContain_key
    change host.toLower text ∈ keys (held.foldl (fun cp held => indexCat host (some held.2) held.1 cp) .empty).post
    rw [post]
    have filed : (host.toLower text, offset) ∈ (keyEntries nodeText held).map fun entry =>
        (host.toLower entry.1, entry.2) :=
      mem_map.mpr ⟨(text, offset), (entries text).mpr spelled, rfl⟩
    obtain ⟨used, member, same⟩ := key_of_entry CatPostings.empty.post _ filed
    have same : used = host.toLower text := by simpa using same
    exact same ▸ member

end

/-! ## Value attributes -/

/-- A NaN comes before everything. -/
theorem floatLE_iff (left right : Float) : floatLE left right ↔ left.isNaN = true ∨ left ≤ right := by
  constructor
  · intro allowed
    cases nan : left.isNaN with
    | true => exact .inl rfl
    | false =>
      cases nan' : right.isNaN with
      | true => exact absurd (.inr ⟨nan', nan⟩) allowed
      | false => exact .inr ((not_lt_iff nan' nan).mp fun less => allowed (.inl less))
  · rintro (nan | below) (less | ⟨nan', number⟩)
    · rw [((lt_iff_before right left).mp less).2.1] at nan
      cases nan
    · rw [number] at nan
      cases nan
    · obtain ⟨number, number', _⟩ := (le_iff_places).mp below
      exact (not_lt_iff number' number).mpr below less
    · rw [((le_iff_places).mp below).2.1] at nan'
      cases nan'

instance : Std.Total floatLE where
  total left right := by
    rw [floatLE_iff, floatLE_iff]
    cases nan : left.isNaN with
    | true => exact .inl (.inl rfl)
    | false =>
      cases nan' : right.isNaN with
      | true => exact .inr (.inl rfl)
      | false =>
        by_cases less : left < right
        · exact .inl (.inr (le_of_lt less))
        · exact .inr (.inr ((not_lt_iff nan nan').mp less))

instance : IsTrans Float floatLE where
  trans a b c first second := by
    rw [floatLE_iff] at *
    rcases first with nan | below
    · exact .inl nan
    · rcases second with nan | below'
      · rw [((le_iff_places).mp below).2.1] at nan
        cases nan
      · exact .inr (le_trans below below')

/-- What a value index knows of a record that has the given node for the attribute. -/
structure FilesNumber (vp : ValPostings) (offset : Nat) (node : Option Node) : Prop where
  post : ∀ key, offset ∈ offsets vp.post key ↔ ∃ number, node.bind literalFloat = some number ∧ (number == key) = true
  posted : offset ∈ vp.posted ↔ (node.bind literalFloat).isSome
  exc : offset ∈ vp.exc ↔ node.isSome ∧ node.bind literalFloat = none
  sorted : vp.sortedKeys.Pairwise (· ≤ ·)
  keyed : ∀ number, node.bind literalFloat = some number → ∃ key ∈ vp.sortedKeys, (number == key) = true
  spans : ∀ number, node.bind literalFloat = some number → Spans vp.range number

/-- Numbers that are stretched over are in the span, if none of them is a NaN. -/
theorem widen_all (numbers : List Float) (sane : ∀ number ∈ numbers, number.isNaN = false) (member : number ∈ numbers) :
    Spans (numbers.foldl (fun range number => some (widen range number)) none) number := by
  apply foldl_brings Sane (fun range => Spans range number) _ _ member
  · exact fun range before => widen_spans before (sane number member)
  · rintro range ⟨⟩
  · exact fun range before other mine => widen_sane before (sane other mine)
  · exact fun range _ spans other _ => widen_keeps spans

theorem number_of_beq {number : Float} (same : (number == key) = true) : number.isNaN = false ∧ key.isNaN = false := by
  obtain ⟨left, right, _⟩ := (beq_iff_samePlace number key).mp same
  exact ⟨left, right⟩

/-- The postings of a value attribute, once finished. Had a NaN been filed, finishing would have
panicked. -/
theorem indexVal_files {held : List (Nat × Node)}
    (only : ∀ other, (offset, other) ∈ held ↔ node = some other)
    (finished : (held.foldl (fun vp held => indexVal (some held.2) held.1 vp) .empty).finishStats = some vp) :
    FilesNumber vp offset node := by
  have entries := mem_keyEntries literalFloat only
  have post := post_held literalFloat indexVal ValPostings.post id
    (fun node offset vp => by rw [indexVal]; cases literalFloat node <;> rfl) held .empty
  simp only [id_eq, Prod.mk.eta, map_id'] at post
  have posted := mem_held literalFloat indexVal ValPostings.posted isSome .empty rfl
    (fun node offset vp => by rw [indexVal]; cases literalFloat node <;> rfl) only
  have exc := mem_held literalFloat indexVal ValPostings.exc isNone .empty rfl
    (fun node offset vp => by rw [indexVal]; cases literalFloat node <;> rfl) only
  generalize held.foldl (fun vp held => indexVal (some held.2) held.1 vp) .empty = filed at *
  simp only [ValPostings.finishStats] at finished
  split at finished
  next found =>
    cases finished
    have sound : ∀ key ∈ keys filed.post, (key == key) = true := by
      intro key member
      have hit := all_eq_true.mp found key ((mem_insertionSort _).mpr member)
      obtain ⟨positions, got⟩ := isSome_iff_exists.mp hit
      exact self_of_get got
    have sane : ∀ key ∈ keys filed.post, key.isNaN = false := fun key member => (number_of_beq (sound key member)).1
    have keyed : ∀ number, node.bind literalFloat = some number →
        ∃ key ∈ keys filed.post, (number == key) = true := by
      intro number read
      obtain ⟨used, member, same⟩ := key_of_entry ValPostings.empty.post _ ((entries number).mpr read)
      rw [← post] at member
      rcases same with same | rfl
      · exact ⟨used, member, PartialEquivBEq.symm same⟩
      · exact ⟨used, member, sound used member⟩
    refine ⟨?_, ?_, ?_, ?_, ?_, ?_⟩
    · intro key
      rw [post, ValPostings.empty, mem_offsets_postAll]
      simp [entries]
    · refine posted.trans ?_
      cases node <;> simp
    · refine exc.trans ?_
      cases node <;> simp
    · refine (pairwise_insertionSort floatLE (keys filed.post)).imp_of_mem ?_
      intro left right mine _ below
      rcases (floatLE_iff left right).mp below with nan | below
      · rw [sane left ((mem_insertionSort _).mp mine)] at nan
        cases nan
      · exact below
    · intro number read
      obtain ⟨key, member, same⟩ := keyed number read
      exact ⟨key, (mem_insertionSort _).mpr member, same⟩
    · intro number read
      obtain ⟨key, member, same⟩ := keyed number read
      obtain ⟨range, held, low, high⟩ := widen_all (keys filed.post) sane member
      obtain ⟨below, above⟩ := le_of_beq same
      exact ⟨range, held, le_trans low above, le_trans below high⟩
  · cases finished

/-! ## Runs of keys -/

variable {keys : List Float}

theorem mem_run (held : keys[i]? = some key) (after : first ≤ i)
    (before : i < stop) : key ∈ (keys.take stop).drop first := by
  apply mem_of_getElem? (i := i - first)
  rw [getElem?_drop, Nat.add_sub_cancel' after, getElem?_take_of_lt before, held]

/-- A search over sorted keys passes over exactly those that have not reached the bound. -/
theorem searchKeys_spec (reached : Float → Bool) (sorted : keys.Pairwise (· ≤ ·))
    (upward : ∀ a b, a ≤ b → reached a = true → reached b = true) (held : keys[i]? = some key) :
    i < searchKeys keys reached ↔ reached key = false := by
  exact search_list (fun held => by rw [held]) (sorted.imp fun ordered => upward _ _ ordered) held

/-- How a range operator orders a number against its bound. -/
def InRange (op : CompareOp) (number t : Float) : Prop :=
  match op with
  | .less => number < t
  | .lessEqual => number ≤ t
  | .greater => t < number
  | .greaterEqual => t ≤ number
  | _ => False

theorem not_le_of_lt {a b : Float} (less : a < b) : ¬b ≤ a := by
  obtain ⟨left, right, _⟩ := (lt_iff_before a b).mp less
  exact (not_le_iff right left).mpr less

theorem not_lt_of_le {a b : Float} (below : a ≤ b) : ¬b < a := by
  obtain ⟨left, right, _⟩ := (le_iff_places).mp below
  exact (not_lt_iff right left).mpr below

theorem mem_rangeSpan (sorted : keys.Pairwise (· ≤ ·))
    (member : key ∈ keys) (inside : InRange op key t) :
    key ∈ (keys.take (rangeSpan keys op t none).2).drop (rangeSpan keys op t none).1 := by
  obtain ⟨i, held⟩ := getElem?_of_mem member
  obtain ⟨bounded, _⟩ := List.getElem?_eq_some_iff.mp held
  have lower := searchKeys_spec (fun key => decide (t ≤ key)) sorted (fun a b ordered reaches =>
    decide_eq_true (le_trans (of_decide_eq_true reaches) ordered)) held
  have upper := searchKeys_spec (fun key => decide (t < key)) sorted (fun a b ordered reaches =>
    decide_eq_true (lt_of_lt_of_le (of_decide_eq_true reaches) ordered)) held
  cases op with
  | less =>
    have early := lower.mpr (decide_eq_false (not_le_of_lt inside))
    exact mem_run held (Nat.zero_le i) (lt_of_lt_of_le early (Nat.le_max_right ..))
  | lessEqual =>
    have early := upper.mpr (decide_eq_false (not_lt_of_le inside))
    exact mem_run held (Nat.zero_le i) (lt_of_lt_of_le early (Nat.le_max_right ..))
  | greater =>
    refine mem_run held (Nat.le_of_not_lt fun early => ?_) (lt_of_lt_of_le bounded (Nat.le_max_right ..))
    exact of_decide_eq_false (upper.mp early) inside
  | greaterEqual =>
    refine mem_run held (Nat.le_of_not_lt fun early => ?_) (lt_of_lt_of_le bounded (Nat.le_max_right ..))
    exact of_decide_eq_false (lower.mp early) inside
  | equal | notEqual | is | isnt => cases inside

theorem inRange_congr (same : (number == key) = true) (inside : InRange op number t) : InRange op key t := by
  obtain ⟨below, above⟩ := le_of_beq same
  cases op with
  | less => exact lt_of_le_of_lt above inside
  | lessEqual => exact le_trans above inside
  | greater => exact lt_of_lt_of_le inside below
  | greaterEqual => exact le_trans inside below
  | equal | notEqual | is | isnt => cases inside

end Classad.SegIndexProofs
