import Rui.Rsql.PageChunks

/-!
# What reading a list delivers

A chunk takes the keys that follow, each strictly after the one before, and looks
one ahead. So at each chunk what was delivered is the list up to the last key
taken; and when a chunk finds no more, it is the list.
-/

namespace Rui.Rsql

open Library

/-! ## One chunk -/

section
variable {engine : Engine} {schema : Schema} {spec : PageSpec} {walk : Walk} {reads : Reads}

def PageRow.ints (row : PageRow) : List Int := row.key.map fun (n : Nat) => (n : Int)

theorem readKey_ints {fields : List FieldType} {values : List Value} {key : List Nat}
    (h : readKey fields values = some key) :
    key.length = fields.length ∧
      ∀ ints : List Int, values.take fields.length = ints.map .int →
        ints = key.map fun (n : Nat) => (n : Int) := by
  induction fields generalizing values key with
  | nil =>
    obtain rfl := Option.some.inj h
    refine ⟨rfl, fun ints htake => ?_⟩
    simpa using htake.symm
  | cons field rest ih =>
    cases values with
    | nil => cases h
    | cons value values =>
      simp only [readKey, Option.bind_eq_some_iff, Option.map_eq_some_iff] at h
      obtain ⟨n, hn, key, hkey, rfl⟩ := h
      obtain ⟨hlength, hints⟩ := ih hkey
      refine ⟨by simp [hlength], fun ints htake => ?_⟩
      rw [List.length_cons, List.take_succ_cons] at htake
      cases ints with
      | nil => cases htake
      | cons x xs =>
        simp only [List.map_cons, List.cons.injEq] at htake
        obtain ⟨rfl, hrest⟩ := htake
        have hx : x = n := by
          cases field <;> simp only [FieldType.read, Option.ite_none_right_eq_some,
            Option.some.injEq, reduceCtorEq] at hn <;> omega
        rw [List.map_cons, hx, hints xs hrest]

theorem readRow_ints (hgated : Gated schema spec walk) {values : List Value} {row : PageRow}
    (h : readRow spec walk reads values = some row)
    (hints : ∃ key : List Int, key.length = walk.names.length ∧
      values.take walk.names.length = key.map .int) :
    valuesKey walk.names.length values = row.ints ∧ row.key.length = walk.names.length := by
  obtain ⟨ints, -, htake⟩ := hints
  simp only [readRow] at h
  split at h
  case isFalse => cases h
  case isTrue =>
    obtain ⟨key, hkey, rfl⟩ := Option.map_eq_some_iff.mp h
    obtain ⟨hlength, hsame⟩ := readKey_ints hkey
    have hcount : ((spec.fields.take walk.names.length).map (·.2)).length = walk.names.length := by
      simp [hgated.long]
    rw [hcount] at hlength hsame
    refine ⟨?_, hlength⟩
    rw [valuesKey, htake, numbers_ints, hsame ints htake]
    rfl

theorem keyOrder_gt {key after : List Nat} (hlength : key.length = after.length) :
    keyOrder key after = .gt ↔
      (after.map fun (n : Nat) => (n : Int)) < key.map fun (n : Nat) => (n : Int) := by
  induction key generalizing after with
  | nil =>
    obtain rfl := List.length_eq_zero_iff.mp hlength.symm
    simp [keyOrder]
  | cons x xs ih =>
    cases after with
    | nil => cases hlength
    | cons y ys =>
      simp only [keyOrder, List.map_cons, List.cons_lt_cons_iff, ← ih (Nat.succ.inj hlength)]
      rcases Nat.lt_trichotomy x y with hlt | rfl | hgt
      · have hcompare : compare x y = .lt := Nat.compare_eq_lt.mpr hlt
        simp [hcompare]
        omega
      · simp
      · have hcompare : compare x y = .gt := Nat.compare_eq_gt.mpr hgt
        simp [hcompare]
        omega

/-- How a chunk ends that starts after a key and takes some rows of those it reads. -/
inductive Ended (spec : PageSpec) (walk : Walk) (reads : Reads) (after : List Int)
    (rows : List (List Value)) (taken : List (List Int)) : Chunk → Prop
  /-- It took all. -/
  | all {chunk : Chunk} (failed : chunk.failed = false) (more : chunk.more = false)
      (keys : rows.map (valuesKey walk.names.length) = taken) :
      Ended spec walk reads after rows taken chunk
  /-- It took what a chunk takes, and left a row that follows. -/
  | more {chunk : Chunk} {key : List Int} {rest : List (List Int)} (failed : chunk.failed = false)
      (more : chunk.more = true) (full : chunk.taken.length = spec.take)
      (keys : rows.map (valuesKey walk.names.length) = taken ++ key :: rest)
      (ascends : (after :: taken ++ [key]).Pairwise (· < ·)) :
      Ended spec walk reads after rows taken chunk
  /-- It met a row that is no Row or not after the last. -/
  | failed {chunk : Chunk} {values : List Value} {rest : List (List Int)}
      (failed : chunk.failed = true) (met : values ∈ rows)
      (keys : rows.map (valuesKey walk.names.length) =
        taken ++ valuesKey walk.names.length values :: rest)
      (why : readRow spec walk reads values = none ∨
        ¬ taken.getLastD after < valuesKey walk.names.length values) :
      Ended spec walk reads after rows taken chunk

theorem Ended.cons {after key : List Int} {values : List Value} {rows : List (List Value)}
    {taken : List (List Int)} {chunk : Chunk}
    (h : Ended spec walk reads key rows taken chunk)
    (hkey : valuesKey walk.names.length values = key) (hlt : after < key) :
    Ended spec walk reads after (values :: rows) (key :: taken) chunk := by
  cases h with
  | all failed more keys => exact .all failed more (by rw [List.map_cons, hkey, keys])
  | more failed more full keys ascends =>
    refine .more failed more full (by rw [List.map_cons, hkey, keys]; rfl) ?_
    refine List.pairwise_cons.mpr ⟨fun each hin => ?_, ascends⟩
    rcases List.mem_cons.mp hin with rfl | hin
    · exact hlt
    · exact lt_trans hlt ((List.pairwise_cons.mp ascends).1 each hin)
  | failed failed met keys why =>
    refine .failed failed (List.mem_cons_of_mem _ met) (by rw [List.map_cons, hkey, keys]; rfl) ?_
    rwa [List.getLastD_cons]

variable (reads) in
/-- **What a chunk does with the rows it reads.** -/
theorem readEach_ended (hgated : Gated schema spec walk) (rows : List (List Value)) (chunk : Chunk)
    (hfailed : chunk.failed = false) (hmore : chunk.more = false)
    (htaken : chunk.taken.length ≤ spec.take)
    (hafter : chunk.after.key.length = walk.names.length)
    (hints : ∀ values ∈ rows, ∃ key : List Int, key.length = walk.names.length ∧
      values.take walk.names.length = key.map .int) :
    ∃ taken : List PageRow,
      (readEach spec walk reads chunk rows).taken = chunk.taken ++ taken ∧
      (readEach spec walk reads chunk rows).after.session = chunk.after.session ∧
      (readEach spec walk reads chunk rows).after.key.length = walk.names.length ∧
      (readEach spec walk reads chunk rows).after.ints =
        (taken.map (·.ints)).getLastD chunk.after.ints ∧
      (readEach spec walk reads chunk rows).taken.length ≤ spec.take ∧
      (chunk.after.ints :: taken.map (·.ints)).Pairwise (· < ·) ∧
      Ended spec walk reads chunk.after.ints rows (taken.map (·.ints))
        (readEach spec walk reads chunk rows) := by
  induction rows generalizing chunk with
  | nil =>
    refine ⟨[], by simp [readEach], rfl, hafter, rfl, htaken, List.pairwise_singleton _ _, ?_⟩
    exact .all hfailed hmore rfl
  | cons values rest ih =>
    simp only [readEach]
    cases hread : readRow spec walk reads values with
    | none =>
      refine ⟨[], by simp, rfl, hafter, rfl, htaken, List.pairwise_singleton _ _, ?_⟩
      exact .failed rfl List.mem_cons_self rfl (.inl hread)
    | some row =>
      obtain ⟨hkey, hlength⟩ := readRow_ints hgated hread (hints values List.mem_cons_self)
      have horder := keyOrder_gt (hlength.trans hafter.symm)
      by_cases hgt : keyOrder row.key chunk.after.key = .gt
      case neg =>
        have hvisit : chunk.visit spec row = ({ chunk with failed := true }, false) := by
          simp only [Chunk.visit, next, if_neg hgt]
        simp only [hvisit]
        refine ⟨[], by simp, trivial, hafter, rfl, htaken, List.pairwise_singleton _ _, ?_⟩
        refine .failed rfl List.mem_cons_self rfl (.inr ?_)
        rw [hkey]
        exact fun hlt => hgt (horder.mpr hlt)
      case pos =>
        have hlt : chunk.after.ints < row.ints := horder.mp hgt
        by_cases hfull : chunk.taken.length = spec.take
        case pos =>
          have hvisit : chunk.visit spec row = ({ chunk with more := true }, false) := by
            simp only [Chunk.visit, next, if_pos hgt, if_pos hfull]
          simp only [hvisit]
          refine ⟨[], by simp, trivial, hafter, rfl, htaken, List.pairwise_singleton _ _, ?_⟩
          refine .more hfailed rfl hfull (by rw [List.map_cons, hkey]; rfl) ?_
          simpa using hlt
        case neg =>
          have hvisit : chunk.visit spec row =
              (⟨{ chunk.after with key := row.key }, chunk.taken ++ [row], chunk.more,
                chunk.failed⟩, true) := by
            simp only [Chunk.visit, next, if_pos hgt, if_neg hfull]
          simp only [hvisit]
          obtain ⟨taken, htakes, hsession, hsize, hlast, hcount, hascends, hended⟩ :=
            ih ⟨{ chunk.after with key := row.key }, chunk.taken ++ [row], chunk.more, chunk.failed⟩
              hfailed hmore (by simp only [List.length_append, List.length_singleton]; omega) hlength
              fun each hin => hints each (List.mem_cons_of_mem _ hin)
          refine ⟨row :: taken, by rw [htakes]; simp, hsession, hsize, ?_, hcount, ?_, ?_⟩
          · rw [hlast, List.map_cons, List.getLastD_cons]
            rfl
          · refine List.pairwise_cons.mpr ⟨fun each hin => ?_, hascends⟩
            rcases List.mem_cons.mp hin with rfl | hin
            · exact hlt
            · exact lt_trans hlt ((List.pairwise_cons.mp hascends).1 each hin)
          · exact hended.cons hkey hlt

end

/-! ## A list and what its text returns -/

section
variable {engine : Engine} {schema : Schema} {spec : PageSpec} {walk : Walk} {reads : Reads}
  {db : Db}

theorem sublist_flatMap {α β : Type} {l : List α} {f g : α → List β}
    (h : ∀ a ∈ l, (f a).Sublist (g a)) : (l.flatMap f).Sublist (l.flatMap g) := by
  induction l with
  | nil => exact List.Sublist.refl _
  | cons a rest ih =>
    rw [List.flatMap_cons, List.flatMap_cons]
    exact (h a List.mem_cons_self).append (ih fun b hin => h b (List.mem_cons_of_mem _ hin))

theorem pageKeys_covers (hgated : Gated schema spec walk) (after : Args) :
    Covers (pageKeys engine schema spec walk db after)
      (listKeys engine spec walk after.session db) where
  sub := by
    have hrows : ∀ (rows : List Row) (f : Row → List Int) (n : Row → Nat), (∀ row, 0 < n row) →
        (rows.map f).Sublist (rows.flatMap fun row => List.replicate (n row) (f row)) := by
      intro rows f n hn
      induction rows with
      | nil => exact List.Sublist.refl _
      | cons row rest ih =>
        have hone : [f row].Sublist (List.replicate (n row) (f row)) :=
          List.singleton_sublist.mpr (List.mem_replicate.mpr ⟨(hn row).ne', rfl⟩)
        rw [List.map_cons, List.flatMap_cons]
        exact hone.append ih
    simp only [listKeys, pageKeys]
    refine List.Sublist.subperm ?_
    have hpairs : ∀ pair ∈ spec.arms.zip walk.arms,
        (((db.table pair.2.table).filter (inList engine after.session pair.1 pair.2)).map
          (keyOf engine pair.2)).Sublist (armKeys engine schema db after pair.1 pair.2) :=
      fun pair hin => hrows _ _ _ fun row => copies_pos (hgated.left pair hin)
    exact sublist_flatMap hpairs
  mem := by
    intro key hin
    simp only [pageKeys, armKeys, List.mem_flatMap, List.mem_replicate] at hin
    obtain ⟨pair, hpair, row, hrow, -, rfl⟩ := hin
    simp only [listKeys, List.mem_flatMap]
    exact ⟨pair, hpair, List.mem_map_of_mem hrow⟩

/-- The keys of the rows delivered. -/
def Reading.keys (reading : Reading) : List (List Int) := reading.delivered.map (·.ints)

/-- Why a chunk is refused: its text names what no one source has, or a row it returns is no Row, or
two of them share a key. -/
def Refusal (engine : Engine) (schema : Schema) (spec : PageSpec) (walk : Walk) (reads : Reads)
    (db : Db) (after : Args) : Prop :=
  chunkRows spec walk engine schema db after = none ∨
    ∃ rows, chunkRows spec walk engine schema db after = some rows ∧
      ((∃ values ∈ rows, readRow spec walk reads values = none) ∨
        ¬ (rows.map (valuesKey walk.names.length)).Nodup)

/-- What is known of a list that is being read. -/
structure Reading.Sound (engine : Engine) (spec : PageSpec) (walk : Walk) (session : String)
    (db : Db) (reading : Reading) : Prop where
  own : reading.after.session = session
  key : reading.after.key.length = walk.names.length
  taken : Taken (listKeys engine spec walk session db) reading.after.ints reading.keys

/-- What one more chunk makes of a list. -/
inductive Chunked (engine : Engine) (schema : Schema) (spec : PageSpec) (walk : Walk)
    (reads : Reads) (session : String) (db : Db) (before : Reading) : Reading → Prop
  | going {reading : Reading} (outcome : reading.outcome = .going)
      (sound : reading.Sound engine spec walk session db)
      (count : reading.keys.length = before.keys.length + spec.take) :
      Chunked engine schema spec walk reads session db before reading
  | finished {reading : Reading} (outcome : reading.outcome = .finished)
      (ascends : reading.keys.Pairwise (· < ·))
      (all : (listKeys engine spec walk session db).Perm reading.keys) :
      Chunked engine schema spec walk reads session db before reading
  | refused {reading : Reading} (outcome : reading.outcome = .refused)
      (ascends : reading.keys.Pairwise (· < ·))
      (listed : ∀ key ∈ reading.keys, key ∈ listKeys engine spec walk session db)
      (skipped : ∀ key ∈ listKeys engine spec walk session db,
        key ≤ reading.after.ints → key ∈ reading.keys)
      (why : Refusal engine schema spec walk reads db before.after) :
      Chunked engine schema spec walk reads session db before reading

/-- **One more chunk** takes the next rows of the list. -/
theorem Reading.Sound.chunk (hgated : Gated schema spec walk) (hplain : spec.Plain)
    (htyped : db.Typed engine schema) {session : String} {reading : Reading}
    (h : reading.Sound engine spec walk session db) (hgoing : reading.outcome = .going) :
    Chunked engine schema spec walk reads session db reading
      (reading.chunk spec walk reads engine schema db) := by
  have hmem : ∀ key ∈ reading.keys, key ∈ listKeys engine spec walk session db :=
    fun key hin => (List.mem_filter.mp (h.taken.all.mem_iff.mpr hin)).1
  simp only [Reading.chunk, hgoing]
  cases hrows : chunkRows spec walk engine schema db reading.after with
  | none =>
    refine .refused rfl h.taken.ascends hmem (fun key hin hle => ?_) (.inl hrows)
    exact h.taken.all.mem_iff.mp (List.mem_filter.mpr ⟨hin, decide_eq_true hle⟩)
  | some rows =>
    dsimp only
    obtain ⟨hkeys, hints⟩ := chunkRows_keys hgated hplain htyped h.key hrows
    obtain ⟨taken, htakes, hsession, hsize, hlast, hcount, hascends, hended⟩ :=
      readEach_ended reads hgated rows { after := reading.after } rfl rfl (Nat.zero_le _) h.key hints
    generalize readEach spec walk reads { after := reading.after } rows = chunk
      at htakes hsession hsize hlast hcount hended ⊢
    simp only [List.nil_append] at htakes
    have hcovers : Covers (pageKeys engine schema spec walk db reading.after)
        (listKeys engine spec walk session db) := h.own ▸ pageKeys_covers hgated reading.after
    have hdelivered : ∀ outcome, (⟨chunk.after, reading.delivered ++ chunk.taken, outcome⟩ :
        Reading).keys = reading.keys ++ taken.map (·.ints) := by
      intro outcome
      simp only [Reading.keys, List.map_append, htakes]
    have hall : (reading.keys ++ taken.map (·.ints)).Pairwise (· < ·) := by
      obtain ⟨hlater, hown⟩ := List.pairwise_cons.mp hascends
      exact List.pairwise_append.mpr ⟨h.taken.ascends, hown, fun a ha b hb =>
        lt_of_le_of_lt (h.taken.reached a ha) (hlater b hb)⟩
    cases hended with
    | all failed more keys =>
      simp only [failed, more, Bool.false_eq_true, if_false]
      have hfollowing : following reading.after.ints
          (pageKeys engine schema spec walk db reading.after) = taken.map (·.ints) := by
        rw [← keys, hkeys, List.take_of_length_le]
        have hlength := congrArg List.length (hkeys.symm.trans keys)
        rw [List.length_take, List.length_map, ← htakes] at hlength
        omega
      refine .finished rfl ?_ ?_
      · rw [hdelivered]
        exact hall
      · rw [hdelivered, ← hfollowing]
        exact (h.taken.finish_of hcovers (hfollowing ▸ hascends)).2
    | more failed more full keys ascends =>
      simp only [failed, more, Bool.false_eq_true, if_false, if_true]
      have hfollowing := List.take_append_drop (spec.take + 1) (following reading.after.ints
        (pageKeys engine schema spec walk db reading.after))
      rw [← hkeys, keys, List.append_assoc] at hfollowing
      refine .going rfl ⟨hsession.trans h.own, hsize, ?_⟩ ?_
      · rw [hdelivered, hlast]
        exact h.taken.more_of hcovers hfollowing.symm ascends
      · rw [hdelivered, List.length_append, List.length_map, ← htakes, full]
    | failed failed met keys why =>
      simp only [failed, if_true]
      have hread := hkeys.symm.trans keys
      refine .refused rfl ?_ ?_ ?_ (.inr ⟨rows, hrows, ?_⟩)
      · rw [hdelivered]
        exact hall
      · intro key hin
        rw [hdelivered] at hin
        rcases List.mem_append.mp hin with hin | hin
        · exact hmem key hin
        · have hfollows : key ∈ following reading.after.ints
              (pageKeys engine schema spec walk db reading.after) :=
            List.mem_of_mem_take (hread ▸ List.mem_append_left _ hin)
          exact hcovers.mem key (mem_following.mp hfollows).1
      · intro key hin hle
        rw [hdelivered]
        rcases lt_or_ge reading.after.ints key with hlt | hge
        · refine List.mem_append_right _ (following_taken hread ?_ (hlast ▸ hle))
          exact mem_following.mpr ⟨hcovers.sub.subset hin, hlt⟩
        · exact List.mem_append_left _
            (h.taken.all.mem_iff.mp (List.mem_filter.mpr ⟨hin, decide_eq_true hge⟩))
      · rcases why with hnone | hnot
        · exact .inl ⟨_, met, hnone⟩
        · refine .inr fun hnodup => ?_
          rw [keys] at hnodup
          exact (List.nodup_append.mp hnodup).2.2 _ (following_again hread hnot) _
            List.mem_cons_self rfl

end

/-! ## The whole list -/

section
variable (engine : Engine) (schema : Schema) (spec : PageSpec) (walk : Walk) (reads : Reads)
  (session : String) (dbs : Nat → Db)

/-- What a list's reading delivers, chunk by chunk, of what the Store holds at each. -/
structure Delivers : Prop where
  /-- Keys are delivered in ascending order, each once. -/
  ascends : ∀ n, (readingAt spec walk reads engine schema session dbs n).keys.Pairwise (· < ·)
  /-- A list that is read to its end was delivered whole. -/
  finished : ∀ n, (readingAt spec walk reads engine schema session dbs n).outcome = .going →
    (readingAt spec walk reads engine schema session dbs (n + 1)).outcome = .finished →
    (listKeys engine spec walk session (dbs n)).Perm
      (readingAt spec walk reads engine schema session dbs (n + 1)).keys
  /-- A list that is refused was delivered up to the last key taken, for a reason. -/
  refused : ∀ n, (readingAt spec walk reads engine schema session dbs n).outcome = .going →
    (readingAt spec walk reads engine schema session dbs (n + 1)).outcome = .refused →
    (∀ key ∈ (readingAt spec walk reads engine schema session dbs (n + 1)).keys,
      key ∈ listKeys engine spec walk session (dbs n)) ∧
    (∀ key ∈ listKeys engine spec walk session (dbs n),
      key ≤ (readingAt spec walk reads engine schema session dbs (n + 1)).after.ints →
      key ∈ (readingAt spec walk reads engine schema session dbs (n + 1)).keys) ∧
    Refusal engine schema spec walk reads (dbs n)
      (readingAt spec walk reads engine schema session dbs n).after
  /-- A list in which two rows share a key is never read to its end. -/
  repeats : ∀ n, (readingAt spec walk reads engine schema session dbs n).outcome = .going →
    ¬ (listKeys engine spec walk session (dbs n)).Nodup →
    (readingAt spec walk reads engine schema session dbs (n + 1)).outcome ≠ .finished
  /-- Where nothing is written meanwhile, reading ends. -/
  ends : (∀ n, dbs n = dbs 0) →
    ∃ n, (readingAt spec walk reads engine schema session dbs n).outcome ≠ .going

/-- What a Store may do to a list between chunks: the rows up to the last key taken stay. -/
def Grows : Prop :=
  ∀ n, (readingAt spec walk reads engine schema session dbs (n + 1)).outcome = .going →
    (upTo (readingAt spec walk reads engine schema session dbs (n + 1)).after.ints
      (listKeys engine spec walk session (dbs (n + 1)))).Perm
    (upTo (readingAt spec walk reads engine schema session dbs (n + 1)).after.ints
      (listKeys engine spec walk session (dbs n)))

end

section
variable {engine : Engine} {schema : Schema} {spec : PageSpec} {walk : Walk} {reads : Reads}
  {session : String} {dbs : Nat → Db}

theorem Sound.start {db : Db}
    (hpositive : ∀ key ∈ listKeys engine spec walk session db, 0 < key.headD 0) :
    (Reading.start walk session).Sound engine spec walk session db where
  own := rfl
  key := List.length_map _
  taken := by
    apply Taken.start
    intro key hin
    have hpos := hpositive key hin
    cases key with
    | nil => exact absurd hpos (by decide)
    | cons x xs =>
      simp only [Reading.start, Args.ints, List.map_map]
      cases hnames : walk.names with
      | nil => exact List.nil_lt_cons _ _
      | cons name rest =>
        rw [List.map_cons, List.cons_lt_cons_iff]
        exact .inl hpos

theorem chunk_ended {reading : Reading} {db : Db} (h : reading.outcome ≠ .going) :
    reading.chunk spec walk reads engine schema db = reading := by
  unfold Reading.chunk
  cases houtcome : reading.outcome with
  | going => exact absurd houtcome h
  | finished => rfl
  | refused => rfl

section
variable (hgated : Gated schema spec walk) (hplain : spec.Plain)
  (htyped : ∀ n, (dbs n).Typed engine schema)
  (hpositive : ∀ n, ∀ key ∈ listKeys engine spec walk session (dbs n), 0 < key.headD 0)
  (hgrows : Grows engine schema spec walk reads session dbs)

include hgated hplain htyped hpositive hgrows

/-- While a list is being read, what was delivered is the list up to the last key taken. -/
theorem readingAt_sound (n : Nat)
    (hgoing : (readingAt spec walk reads engine schema session dbs n).outcome = .going) :
    (readingAt spec walk reads engine schema session dbs n).Sound engine spec walk session
      (dbs n) := by
  induction n with
  | zero => exact Sound.start (hpositive 0)
  | succ n ih =>
    have hbefore : (readingAt spec walk reads engine schema session dbs n).outcome = .going := by
      by_contra hnot
      rw [readingAt, chunk_ended hnot] at hgoing
      exact hnot hgoing
    have hchunk : Chunked engine schema spec walk reads session (dbs n) _
        (readingAt spec walk reads engine schema session dbs (n + 1)) :=
      (ih hbefore).chunk hgated hplain (htyped n) hbefore
    cases hchunk with
    | going outcome sound count =>
      exact ⟨sound.own, sound.key, sound.taken.grown (hgrows n hgoing)⟩
    | finished outcome => exact absurd (outcome.symm.trans hgoing) (by decide)
    | refused outcome => exact absurd (outcome.symm.trans hgoing) (by decide)

theorem readingAt_chunked (n : Nat)
    (hgoing : (readingAt spec walk reads engine schema session dbs n).outcome = .going) :
    Chunked engine schema spec walk reads session (dbs n)
      (readingAt spec walk reads engine schema session dbs n)
      (readingAt spec walk reads engine schema session dbs (n + 1)) :=
  (readingAt_sound hgated hplain htyped hpositive hgrows n hgoing).chunk hgated hplain (htyped n)
    hgoing

theorem readingAt_ascends (n : Nat) :
    (readingAt spec walk reads engine schema session dbs n).keys.Pairwise (· < ·) := by
  induction n with
  | zero => exact List.Pairwise.nil
  | succ n ih =>
    by_cases hgoing : (readingAt spec walk reads engine schema session dbs n).outcome = .going
    case pos =>
      cases readingAt_chunked hgated hplain htyped hpositive hgrows n hgoing with
      | going _ sound => exact sound.taken.ascends
      | finished _ ascends => exact ascends
      | refused _ ascends => exact ascends
    case neg =>
      rw [readingAt, chunk_ended hgoing]
      exact ih

theorem readingAt_count (n : Nat)
    (hgoing : (readingAt spec walk reads engine schema session dbs n).outcome = .going) :
    (readingAt spec walk reads engine schema session dbs n).keys.length = n * spec.take := by
  induction n with
  | zero => simp [readingAt, Reading.start, Reading.keys]
  | succ n ih =>
    have hbefore : (readingAt spec walk reads engine schema session dbs n).outcome = .going := by
      by_contra hnot
      rw [readingAt, chunk_ended hnot] at hgoing
      exact hnot hgoing
    cases readingAt_chunked hgated hplain htyped hpositive hgrows n hbefore with
    | going _ _ count => rw [count, ih hbefore, Nat.succ_mul]
    | finished outcome => exact absurd (outcome.symm.trans hgoing) (by decide)
    | refused outcome => exact absurd (outcome.symm.trans hgoing) (by decide)

/-- **What reading a list delivers.** -/
theorem readingAt_delivers : Delivers engine schema spec walk reads session dbs := by
  have hchunked := readingAt_chunked hgated hplain htyped hpositive hgrows
  constructor
  case ascends => exact readingAt_ascends hgated hplain htyped hpositive hgrows
  case finished =>
    intro n hgoing hfinished
    cases hchunked n hgoing with
    | going outcome => exact absurd (outcome.symm.trans hfinished) (by decide)
    | finished _ _ all => exact all
    | refused outcome => exact absurd (outcome.symm.trans hfinished) (by decide)
  case refused =>
    intro n hgoing hrefused
    cases hchunked n hgoing with
    | going outcome => exact absurd (outcome.symm.trans hrefused) (by decide)
    | finished outcome => exact absurd (outcome.symm.trans hrefused) (by decide)
    | refused _ _ listed skipped why => exact ⟨listed, skipped, why⟩
  case repeats =>
    intro n hgoing hrepeats hfinished
    cases hchunked n hgoing with
    | going outcome => exact absurd (outcome.symm.trans hfinished) (by decide)
    | finished _ ascends all =>
      exact hrepeats (all.nodup_iff.mpr (ascends.imp fun hlt => ne_of_lt hlt))
    | refused outcome => exact absurd (outcome.symm.trans hfinished) (by decide)
  case ends =>
    intro hsame
    by_contra hnone
    simp only [not_exists, not_not] at hnone
    let n := (listKeys engine spec walk session (dbs 0)).length + 1
    have hsound := readingAt_sound hgated hplain htyped hpositive hgrows n (hnone n)
    have hcount := readingAt_count hgated hplain htyped hpositive hgrows n (hnone n)
    have hle := (hsound.taken.all.symm.subperm.trans (List.filter_sublist).subperm).length_le
    rw [hcount, hsame n] at hle
    have htake := Nat.le_mul_of_pos_right n hgated.take
    omega

end

end

/-- **A Page delivers its list.** Reading from the zero key, whatever comes in after the last key
taken, the rows of its arms come in ascending key order, each once; or the reading is refused. -/
theorem page_delivers (engine : Engine) (schema : Schema) (spec : PageSpec) (walk : Walk)
    (reads : Reads) (session : String) (dbs : Nat → Db) (hformed : schema.Formed)
    (hpasses : PageSpec.Passes engine schema spec walk) (hplain : spec.Plain)
    (htyped : ∀ n, (dbs n).Typed engine schema)
    (hpositive : ∀ n, ∀ key ∈ listKeys engine spec walk session (dbs n), 0 < key.headD 0)
    (hgrows : Grows engine schema spec walk reads session dbs) :
    Delivers engine schema spec walk reads session dbs :=
  readingAt_delivers (hpasses.gated hformed) hplain htyped hpositive hgrows

/-! ## One Operation's calls -/

/-- The tool calls, with the index that lists a Session's. -/
def toolCalls : Schema where
  tables := [
    { name := "model_tool_call"
      columns := [⟨"operation_id", true, false⟩, ⟨"session_ref", false, false⟩,
        ⟨"call_ordinal", true, false⟩]
      primaryKey := ["operation_id", "call_ordinal"]
      withoutRowid := true }]
  indexes := [
    { name := "model_tool_call_session_order"
      table := "model_tool_call"
      columns := [⟨"session_ref", false⟩, ⟨"operation_id", false⟩, ⟨"call_ordinal", false⟩] }]

/-- Operation 1's calls by ordinal, with more columns and joins as given. -/
def callsBy (columns : List Result) (joins : List Source) (fields : List (String × FieldType))
    (distinct : (fields.map (·.1)).Nodup) : PageSpec where
  arms := [
    { walks := .index "model_tool_call_session_order"
      aliasName := "tool_call"
      fixed := [⟨"operation_id", "1"⟩]
      columns := columns
      joins := joins }]
  fields := fields
  distinct := distinct
  take := 8

def callOrdinals : PageSpec := callsBy [] [] [("call_ordinal", .positive)] (by decide)

/-- `count(*)` beside the key. -/
def countedCalls : PageSpec :=
  callsBy [⟨.other true [] fun group _ => .int group.length, some "calls"⟩] []
    [("call_ordinal", .positive), ("calls", .u64)] (by decide)

/-- A LEFT JOIN that matches every call. -/
def joinedCalls : PageSpec :=
  callsBy [] [⟨"model_tool_call", "other", false, .left, none, none⟩]
    [("call_ordinal", .positive)] (by decide)

def callsWalk : Walk where
  names := ["call_ordinal"]
  arms := [
    { table := "model_tool_call"
      aliasName := "tool_call"
      index := some "model_tool_call_session_order"
      prefixColumns := [⟨"session_ref", false⟩, ⟨"operation_id", false⟩]
      key := ["call_ordinal"]
      where_ := none }]

/-- Operation 1's calls of Session `s`. -/
def callsAt (ordinals : List Int) : Db where
  table := fun table =>
    if table = "model_tool_call" then
      ordinals.map fun n name =>
        if name = "session_ref" then .text "s"
        else if name = "operation_id" then .int 1
        else if name = "call_ordinal" then .int n
        else .null
    else []
  defined := fun _ => ([], [])

theorem callOrdinals_passes : PageSpec.Passes lowerCase toolCalls callOrdinals callsWalk :=
  ⟨rfl, rfl, rfl⟩

theorem countedCalls_passes : PageSpec.Passes lowerCase toolCalls countedCalls callsWalk :=
  ⟨rfl, rfl, rfl⟩

theorem joinedCalls_passes : PageSpec.Passes lowerCase toolCalls joinedCalls callsWalk :=
  ⟨rfl, rfl, rfl⟩

/-- The first Args of Session `s`. -/
def callsStart : Args := ⟨"s", [0]⟩

/-- A call whose ordinal is zero is not after the zero key. -/
theorem callOrdinals_rows :
    chunkRows callOrdinals callsWalk lowerCase toolCalls (callsAt [0]) callsStart = some [] := by
  simp only [chunkRows, SelectText.rows]
  rw [if_pos (by decide)]
  have hmerged : (pageText lowerCase callOrdinals callsWalk).merged lowerCase toolCalls
      (callsAt [0]) callsStart.binding = [] := by
    apply List.length_eq_zero_iff.mp
    decide
  rw [hmerged, List.mergeSort_nil]
  rfl

theorem countedCalls_rows :
    chunkRows countedCalls callsWalk lowerCase toolCalls (callsAt [1, 2]) callsStart =
      some [[.int 1, .int 2]] := by
  simp only [chunkRows, SelectText.rows]
  rw [if_pos (by decide)]
  have hvalues : ((pageText lowerCase countedCalls callsWalk).merged lowerCase toolCalls
      (callsAt [1, 2]) callsStart.binding).map (·.values) = [[.int 1, .int 2]] := by
    decide
  obtain ⟨row, hmerged, hrow⟩ := List.map_eq_singleton_iff.mp hvalues
  rw [hmerged, List.mergeSort_singleton]
  simp only [pageText, skipped, limited, Option.map_none, Option.map_some, Expr.value,
    lowerCase.numerals, countedCalls, callsBy]
  rw [← hrow]
  rfl

theorem joinedCalls_rows :
    chunkRows joinedCalls callsWalk lowerCase toolCalls (callsAt [1, 2]) callsStart =
      some [[.int 1], [.int 1], [.int 2], [.int 2]] := by
  simp only [chunkRows, SelectText.rows]
  rw [if_pos (by decide)]
  have hsorted : ((pageText lowerCase joinedCalls callsWalk).merged lowerCase toolCalls
      (callsAt [1, 2]) callsStart.binding).Pairwise fun a b =>
        ordered lowerCase callsStart.binding
          (pageText lowerCase joinedCalls callsWalk).first.toCore.names
          (pageText lowerCase joinedCalls callsWalk).orderBy a b = true := by
    decide
  rw [List.mergeSort_of_pairwise hsorted]
  rfl

theorem callsAt_typed (ordinals : List Int) : (callsAt ordinals).Typed lowerCase toolCalls := by
  intro table row hrow name column hcolumn
  by_cases htable : table = "model_tool_call"
  case neg => simp [callsAt, htable] at hrow
  case pos =>
    subst htable
    simp only [callsAt, if_true, List.mem_map] at hrow
    obtain ⟨n, -, rfl⟩ := hrow
    have hfound : [(⟨"operation_id", true, false⟩ : TableColumn), ⟨"session_ref", false, false⟩,
        ⟨"call_ordinal", true, false⟩].find? (fun column => column.name = name) = some column :=
      hcolumn
    have hin := List.mem_of_find?_eq_some hfound
    have hname : column.name = name := by simpa using List.find?_some hfound
    simp only [List.mem_cons, List.not_mem_nil, or_false] at hin
    rcases hin with rfl | rfl | rfl <;> subst hname <;> simp [lowerCase]

def callPairs : PageSpec := { callOrdinals with take := 2 }

theorem callPairs_passes : PageSpec.Passes lowerCase toolCalls callPairs callsWalk := ⟨rfl, rfl, rfl⟩

/-- Three calls, and a fourth that comes in behind the first chunk. -/
def callsGrowing (n : Nat) : Db := callsAt (if n = 0 then [5, 1, 3] else [5, 1, 3, 7])

theorem mergeSort_rotated {α : Type} {le : α → α → Bool} {a b c : α} (hab : le a b = false)
    (hac : le a c = false) (hbc : le b c = true) : [a, b, c].mergeSort le = [b, c, a] := by
  simp [List.mergeSort, List.MergeSort.Internal.splitInTwo, hab, hac, hbc]

theorem callPairs_first :
    readingAt callPairs callsWalk (fun _ => true) lowerCase toolCalls "s" callsGrowing 1 =
      ⟨⟨"s", [3]⟩, [⟨[1], []⟩, ⟨[3], []⟩], .going⟩ := by
  have hstart : (Reading.start callsWalk "s").after = callsStart := rfl
  have hrows : chunkRows callPairs callsWalk lowerCase toolCalls (callsGrowing 0) callsStart =
      some [[.int 1], [.int 3], [.int 5]] := by
    let text := pageText lowerCase callPairs callsWalk
    let merged := text.merged lowerCase toolCalls (callsGrowing 0) callsStart.binding
    have hsorted : merged.mergeSort
        (ordered lowerCase callsStart.binding text.first.toCore.names text.orderBy) =
          [merged.get ⟨1, by decide⟩, merged.get ⟨2, by decide⟩, merged.get ⟨0, by decide⟩] :=
      mergeSort_rotated (by decide) (by decide) (by decide)
    simp only [chunkRows, SelectText.rows]
    rw [if_pos (by decide)]
    exact congrArg (fun rows => some ((limited lowerCase callsStart.binding text.limit
      (skipped lowerCase callsStart.binding text.offset rows)).map (·.values))) hsorted
  rw [readingAt, readingAt, Reading.chunk]
  simp only [hstart, hrows]
  rfl

theorem callPairs_second :
    readingAt callPairs callsWalk (fun _ => true) lowerCase toolCalls "s" callsGrowing 2 =
      ⟨⟨"s", [7]⟩, [⟨[1], []⟩, ⟨[3], []⟩, ⟨[5], []⟩, ⟨[7], []⟩], .finished⟩ := by
  have hrows : chunkRows callPairs callsWalk lowerCase toolCalls (callsGrowing 1) ⟨"s", [3]⟩ =
      some [[.int 5], [.int 7]] := by
    simp only [chunkRows, SelectText.rows]
    rw [if_pos (by decide)]
    have hsorted : ((pageText lowerCase callPairs callsWalk).merged lowerCase toolCalls
        (callsGrowing 1) (Args.binding ⟨"s", [3]⟩)).Pairwise fun a b =>
          ordered lowerCase (Args.binding ⟨"s", [3]⟩)
            (pageText lowerCase callPairs callsWalk).first.toCore.names
            (pageText lowerCase callPairs callsWalk).orderBy a b = true := by
      decide
    rw [List.mergeSort_of_pairwise hsorted]
    rfl
  rw [readingAt, callPairs_first, Reading.chunk]
  simp only [hrows]
  rfl

/-- All four are delivered. -/
theorem callPairs_delivers :
    Delivers lowerCase toolCalls callPairs callsWalk (fun _ => true) "s" callsGrowing ∧
      (readingAt callPairs callsWalk (fun _ => true) lowerCase toolCalls "s" callsGrowing 2).keys =
        [[1], [3], [5], [7]] := by
  have hends : ∀ n, (readingAt callPairs callsWalk (fun _ => true) lowerCase toolCalls "s"
      callsGrowing (n + 2)).outcome = .finished := by
    intro n
    induction n with
    | zero => rw [callPairs_second]
    | succ n ih =>
      rw [readingAt, Reading.chunk, ih]
      exact ih
  refine ⟨page_delivers lowerCase toolCalls callPairs callsWalk (fun _ => true) "s" callsGrowing
    ⟨by decide, by decide⟩ callPairs_passes ?_ (fun _ => callsAt_typed _) ?_ ?_,
    by rw [callPairs_second]; rfl⟩
  · intro arm harm result hresult
    simp only [callPairs, callOrdinals, callsBy, List.mem_singleton] at harm
    rw [harm] at hresult
    cases hresult
  · intro n
    rcases Nat.eq_zero_or_pos n with rfl | hpos
    · decide
    · simp only [callsGrowing, if_neg (Nat.ne_of_gt hpos)]
      decide
  · intro n hgoing
    cases n with
    | zero =>
      rw [callPairs_first]
      decide
    | succ n =>
      rw [hends n] at hgoing
      cases hgoing

/-- A call whose ordinal is zero is not delivered, nor is each of two calls that are counted; and
where a call joins more than one row, the reading is refused. -/
theorem page_skips :
    (PageSpec.Passes lowerCase toolCalls callOrdinals callsWalk ∧
      listKeys lowerCase callOrdinals callsWalk "s" (callsAt [0]) = [[0]] ∧
      readingAt callOrdinals callsWalk (fun _ => true) lowerCase toolCalls "s"
        (fun _ => callsAt [0]) 1 = ⟨callsStart, [], .finished⟩) ∧
    (PageSpec.Passes lowerCase toolCalls countedCalls callsWalk ∧
      listKeys lowerCase countedCalls callsWalk "s" (callsAt [1, 2]) = [[1], [2]] ∧
      readingAt countedCalls callsWalk (fun _ => true) lowerCase toolCalls "s"
        (fun _ => callsAt [1, 2]) 1 = ⟨⟨"s", [1]⟩, [⟨[1], [.int 2]⟩], .finished⟩) ∧
    (PageSpec.Passes lowerCase toolCalls joinedCalls callsWalk ∧
      listKeys lowerCase joinedCalls callsWalk "s" (callsAt [1, 2]) = [[1], [2]] ∧
      readingAt joinedCalls callsWalk (fun _ => true) lowerCase toolCalls "s"
        (fun _ => callsAt [1, 2]) 1 = ⟨⟨"s", [1]⟩, [⟨[1], []⟩], .refused⟩) := by
  have hstart : (Reading.start callsWalk "s").after = callsStart := rfl
  refine ⟨⟨callOrdinals_passes, by decide, ?_⟩, ⟨countedCalls_passes, by decide, ?_⟩,
    joinedCalls_passes, by decide, ?_⟩
  · rw [readingAt, readingAt, Reading.chunk]
    simp only [hstart, callOrdinals_rows]
    rfl
  · rw [readingAt, readingAt, Reading.chunk]
    simp only [hstart, countedCalls_rows]
    rfl
  · rw [readingAt, readingAt, Reading.chunk]
    simp only [hstart, joinedCalls_rows]
    rfl

end Rui.Rsql
