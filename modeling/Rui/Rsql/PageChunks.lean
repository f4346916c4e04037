import Rui.Rsql.PageGates

/-!
# A chunk's keys

A chunk's text returns the keys of its list that follow the one it starts after,
in order, one more than it takes. Each of the list's keys is among them, and no
other: a row a LEFT JOIN matches more than once comes more than once.
-/

namespace Rui.Rsql

open Library

section
variable {engine : Engine} {schema : Schema} {spec : PageSpec} {walk : Walk} {db : Db}

/-- **The keys of a list**: of every arm, the rows that are in it. -/
def listKeys (engine : Engine) (spec : PageSpec) (walk : Walk) (session : String) (db : Db) :
    List (List Int) :=
  (spec.arms.zip walk.arms).flatMap fun (arm, path) =>
    ((db.table path.table).filter (inList engine session arm path)).map (keyOf engine path)

/-- A returned row's key. -/
def valuesKey (length : Nat) (values : List Value) : List Int := (values.take length).map (·.number)

/-! ## One arm -/

section
variable {arm : Arm} {path : WalkArm}

variable {names : List String} {args : Nat → Value}

theorem armCore_rows (hplain : ∀ result ∈ arm.columns, result.value.aggregates = false)
    (hlength : path.key.length = names.length) :
    ((armCore engine names arm path).rows engine schema db args).map
        (fun row => row.values.take names.length) =
      ((armCore engine names arm path).toCore.scopes engine schema db args).map fun scope =>
        path.key.map fun name => Scope.value engine scope ⟨some arm.aliasName, name⟩ := by
  have hnone : (armCore engine names arm path).results.any (·.value.aggregates) = false := by
    simp only [armCore, List.any_append, List.any_map, Bool.or_eq_false_iff]
    refine ⟨List.any_eq_false.mpr fun pair _ => by simp [Expr.aggregates], ?_⟩
    exact List.any_eq_false.mpr fun result hin => by simp [hplain result hin]
  have hgroups : (armCore engine names arm path).groups engine schema db args =
      ((armCore engine names arm path).toCore.scopes engine schema db args).map fun scope =>
        ((armCore engine names arm path).toCore.scopes engine schema db args, scope) := by
    simp only [CoreText.groups]
    rw [show (armCore engine names arm path).groupBy = none from rfl]
    simp only [hnone, Bool.false_eq_true, if_false]
  simp only [CoreText.rows, hgroups]
  rw [show (armCore engine names arm path).distinct = false from rfl,
    show (armCore engine names arm path).having = none from rfl]
  simp only [Option.all_none, List.filter_true, Bool.false_eq_true, if_false, List.map_map]
  apply List.map_congr_left
  intro scope _
  simp only [Function.comp, armCore, List.map_append, List.map_map]
  rw [List.take_append_of_le_length (by simp [hlength]), List.take_of_length_le (by simp)]
  have hfst : (path.key.zip names).map Prod.fst = path.key := List.map_fst_zip (Nat.le_of_eq hlength)
  conv_rhs => rw [← hfst, List.map_map]
  rfl

/-- How often a row of the walked table comes. -/
def copies (engine : Engine) (schema : Schema) (db : Db) (args : Nat → Value) (arm : Arm)
    (path : WalkArm) (row : Row) : Nat :=
  (joinFrom engine schema db args arm.joins
    [[(walkedSource arm path).bind schema db (some row)]]).length

theorem copies_pos (hleft : ∀ source ∈ arm.joins, source.join = .left) {row : Row} :
    0 < copies engine schema db args arm path row :=
  List.length_pos_iff.mpr (joinFrom_ne_nil hleft (by simp))

/-- The keys an arm's SELECT would return from the start. -/
def armKeys (engine : Engine) (schema : Schema) (db : Db) (after : Args) (arm : Arm)
    (path : WalkArm) : List (List Int) :=
  ((db.table path.table).filter (inList engine after.session arm path)).flatMap fun row =>
    List.replicate (copies engine schema db after.binding arm path row) (keyOf engine path row)

/-- **The keys an arm's SELECT returns.** -/
theorem armCore_keys {after : Args} (hsound : ArmSound schema arm path)
    (htyped : db.Typed engine schema)
    (hplain : ∀ result ∈ arm.columns, result.value.aggregates = false)
    (hlength : path.key.length = names.length) (hafter : after.key.length = names.length)
    (hresolves : (armCore engine names arm path).toCore.resolves engine schema db = true) :
    ((armCore engine names arm path).rows engine schema db after.binding).map
        (fun row => row.values.take names.length) =
      ((armKeys engine schema db after arm path).filter fun key => after.ints < key).map
        (·.map .int) := by
  rw [armCore_rows hplain hlength, armCore_scopes hsound htyped (hafter.trans hlength.symm)
    hresolves, List.map_flatMap, armKeys]
  rw [flatMap_filter_rows (p := fun row => decide (after.ints < keyOf engine path row))
    (fun row _ key hkey => by rw [(List.mem_replicate.mp hkey).2]), List.map_flatMap,
    List.filter_filter]
  simp only [Bool.and_comm]
  apply List.flatMap_congr
  intro row hrow
  obtain ⟨hrow, hlisted⟩ := List.mem_filter.mp hrow
  have hlisted : inList engine after.session arm path row = true := (Bool.and_eq_true_iff.mp hlisted).1
  rw [List.map_replicate, List.eq_replicate_iff]
  refine ⟨List.length_map _, fun key hkey => ?_⟩
  obtain ⟨scope, hscope, rfl⟩ := List.mem_map.mp hkey
  rw [← key_ints hsound htyped hrow hlisted]
  apply List.map_congr_left
  intro name hname
  have hcolumn : (⟨some arm.aliasName, name⟩ : Column) ∈ (armAfter arm path).columns :=
    List.mem_map_of_mem hname
  obtain ⟨column, hfound, -⟩ := hsound.int name hname
  exact walked_value hrow rfl (by rw [hfound]; rfl)
    (where_find hresolves (List.mem_append_right _ List.mem_cons_self) hcolumn) hscope

end

/-! ## All arms -/

theorem merged_values {args : Nat → Value} (text : SelectText)
    (hall : ∀ other ∈ text.others, other.1 = .unionAll) :
    (text.merged engine schema db args).map (·.values) =
      (text.first :: text.others.map (·.2)).flatMap fun core =>
        (core.rows engine schema db args).map (·.values) := by
  have hfold : ∀ (others : List (Compound × CoreText)) (rows : List (List Value)),
      (∀ other ∈ others, other.1 = .unionAll) →
      others.foldl (fun rows other =>
        other.1.merge rows ((other.2.rows engine schema db args).map (·.values))) rows =
      rows ++ (others.map (·.2)).flatMap fun core =>
        (core.rows engine schema db args).map (·.values) := by
    intro others
    induction others with
    | nil => simp
    | cons other rest ih =>
      intro rows hothers
      obtain ⟨op, core⟩ := other
      obtain rfl : op = .unionAll := hothers (op, core) List.mem_cons_self
      rw [List.foldl_cons, ih _ fun each hin => hothers each (List.mem_cons_of_mem _ hin)]
      simp [Compound.merge]
  cases hothers : text.others with
  | nil => simp [SelectText.merged, hothers]
  | cons other rest =>
    have hrest := hfold text.others ((text.first.rows engine schema db args).map (·.values)) hall
    rw [hothers] at hrest
    simp only [SelectText.merged, hothers, List.map_map, Function.comp_def, List.map_id']
    exact hrest

/-- The keys a Page's text would return from the start. -/
def pageKeys (engine : Engine) (schema : Schema) (spec : PageSpec) (walk : Walk) (db : Db)
    (after : Args) : List (List Int) :=
  (spec.arms.zip walk.arms).flatMap fun (arm, path) => armKeys engine schema db after arm path

/-- No arm's columns aggregate its rows. -/
def PageSpec.Plain (spec : PageSpec) : Prop :=
  ∀ arm ∈ spec.arms, ∀ result ∈ arm.columns, result.value.aggregates = false

section
variable (hgated : Gated schema spec walk) (hplain : spec.Plain)
  (htyped : db.Typed engine schema) {after : Args} (hafter : after.key.length = walk.names.length)

include hgated in
theorem pageText_resolves {args : Nat → Value} {rows : List (List Value)}
    (h : (pageText engine spec walk).rows engine schema db args = some rows) :
    ∀ pair ∈ spec.arms.zip walk.arms,
      (armCore engine walk.names pair.1 pair.2).toCore.resolves engine schema db = true := by
  intro pair hin
  have hmem : armCore engine walk.names pair.1 pair.2 ∈ (pageText engine spec walk).first ::
      (pageText engine spec walk).others.map (·.2) := by
    rw [pageText_cores engine hgated.some hgated.arms]
    exact List.mem_map_of_mem hin
  simp only [SelectText.rows] at h
  split at h
  case isFalse => cases h
  case isTrue hresolves =>
    simp only [Bool.and_eq_true, List.all_eq_true] at hresolves
    rcases List.mem_cons.mp hmem with heq | hmem
    · rw [heq]
      exact hresolves.1
    · obtain ⟨other, hother, heq⟩ := List.mem_map.mp hmem
      rw [← heq]
      exact hresolves.2 other hother

include hgated hplain htyped hafter in
theorem merged_keys
    (hresolves : ∀ pair ∈ spec.arms.zip walk.arms,
      (armCore engine walk.names pair.1 pair.2).toCore.resolves engine schema db = true) :
    ((pageText engine spec walk).merged engine schema db after.binding).map
        (fun row => row.values.take walk.names.length) =
      ((pageKeys engine schema spec walk db after).filter fun key => after.ints < key).map
        (·.map .int) := by
  have hunion : ∀ other ∈ (pageText engine spec walk).others, other.1 = .unionAll := by
    intro other hin
    simp only [pageText, List.mem_map] at hin
    obtain ⟨core, -, rfl⟩ := hin
    rfl
  have hvalues : ((pageText engine spec walk).merged engine schema db after.binding).map
      (·.values) = _ := merged_values (pageText engine spec walk) hunion
  have htake := congrArg (List.map (List.take walk.names.length)) hvalues
  rw [List.map_map, pageText_cores engine hgated.some hgated.arms] at htake
  rw [show (fun row : Returned => row.values.take walk.names.length) =
    List.take walk.names.length ∘ fun row => row.values from rfl, htake, pageKeys,
    List.filter_flatMap, List.map_flatMap, List.map_flatMap, List.flatMap_map]
  apply List.flatMap_congr
  intro pair hin
  rw [List.map_map]
  exact armCore_keys (hgated.sound pair hin) htyped
    (hplain pair.1 (List.of_mem_zip hin).1) (hgated.keys pair hin) hafter (hresolves pair hin)

end

/-! ## In key order -/

section
variable {args : Nat → Value}

variable {more : List (Option String)}

theorem orderValue_key {before : List String} {name : String} (hname : name ∉ before)
    {row : Returned} {xs : List Int} {x : Int} {rest : List Value}
    (hvalues : row.values = xs.map .int ++ .int x :: rest) (hlength : xs.length = before.length) :
    orderValue engine args (before.map some ++ some name :: more) row (.column ⟨none, name⟩) =
      .int x := by
  have hbefore : ((before.map some).zip (xs.map .int)).find?
      (fun pair : Option String × Value => pair.1 = some name) = none := by
    apply List.find?_eq_none.mpr
    intro pair hin
    obtain ⟨each, heach, hsome⟩ := List.mem_map.mp (List.of_mem_zip hin).1
    rw [← hsome]
    simp only [Option.some.injEq, decide_eq_true_eq]
    exact fun heq => hname (heq ▸ heach)
  simp only [orderValue, hvalues]
  rw [List.zip_append (by simp [hlength]), List.find?_append, hbefore]
  simp

theorem ordered_keys {a b : Returned} {ra rb : List Value} (names before : List String)
    (xs ys pa pb : List Int) (hnodup : (before ++ names).Nodup)
    (ha : a.values = (pa ++ xs).map .int ++ ra) (hb : b.values = (pb ++ ys).map .int ++ rb)
    (hpa : pa.length = before.length) (hpb : pb.length = before.length)
    (hxs : xs.length = names.length) (hys : ys.length = names.length) :
    ordered engine args ((before ++ names).map some ++ more)
      (names.map fun name => (.column ⟨none, name⟩, false)) a b = decide (xs ≤ ys) := by
  induction names generalizing before xs ys pa pb with
  | nil =>
    obtain rfl := List.length_eq_zero_iff.mp hxs
    obtain rfl := List.length_eq_zero_iff.mp hys
    simp [ordered]
  | cons name rest ih =>
    obtain ⟨x, xs, rfl⟩ := List.exists_cons_of_length_eq_add_one hxs
    obtain ⟨y, ys, rfl⟩ := List.exists_cons_of_length_eq_add_one hys
    have hname : name ∉ before := by
      intro hin
      exact (List.nodup_append.mp hnodup).2.2 name hin name List.mem_cons_self rfl
    have ha' : a.values = pa.map .int ++ .int x :: (xs.map .int ++ ra) := by
      rw [ha]
      simp
    have hb' : b.values = pb.map .int ++ .int y :: (ys.map .int ++ rb) := by
      rw [hb]
      simp
    have hsplit : (before ++ name :: rest).map some ++ more =
        before.map some ++ some name :: (rest.map some ++ more) := by
      simp
    have hx : orderValue engine args ((before ++ name :: rest).map some ++ more) a
        (.column ⟨none, name⟩) = .int x := by
      rw [hsplit]
      exact orderValue_key hname ha' hpa
    have hy : orderValue engine args ((before ++ name :: rest).map some ++ more) b
        (.column ⟨none, name⟩) = .int y := by
      rw [hsplit]
      exact orderValue_key hname hb' hpb
    have hrest := ih (before ++ [name]) xs ys (pa ++ [x]) (pb ++ [y]) (by simpa using hnodup)
      (by rw [ha]; simp) (by rw [hb]; simp) (by simp [hpa]) (by simp [hpb])
      (Nat.succ.inj hxs) (Nat.succ.inj hys)
    simp only [List.append_assoc, List.cons_append, List.nil_append] at hrest
    have hcons : x :: xs ≤ y :: ys ↔ x < y ∨ x = y ∧ xs ≤ ys := by
      rw [← not_lt, List.cons_lt_cons_iff, ← not_lt]
      rcases Int.lt_trichotomy x y with hlt | rfl | hgt
      · simp [hlt, hlt.ne', hlt.le]
      · simp
      · simp [hgt, hgt.ne', hgt.le]
    simp only [List.map_cons, ordered, hx, hy, hrest, Value.int.injEq, Value.before, hcons]
    by_cases heq : x = y
    · simp [heq]
    · simp [heq]

end

theorem numbers_ints (key : List Int) : (key.map Value.int).map (·.number) = key := by
  rw [List.map_map]
  exact List.map_id key

variable {after : Args}

theorem listKeys_length (hgated : Gated schema spec walk) :
    ∀ key ∈ pageKeys engine schema spec walk db after, key.length = walk.names.length := by
  intro key hin
  simp only [pageKeys, List.mem_flatMap, armKeys, List.mem_replicate] at hin
  obtain ⟨pair, hpair, row, -, -, rfl⟩ := hin
  simp only [keyOf, List.length_map]
  exact hgated.keys pair hpair

variable (engine) in
theorem firstCore_names (hgated : Gated schema spec walk) :
    ∃ more, (pageText engine spec walk).first.toCore.names = walk.names.map some ++ more := by
  have hcores := pageText_cores engine hgated.some hgated.arms
  have hmem : (pageText engine spec walk).first ∈ (spec.arms.zip walk.arms).map fun pair =>
      armCore engine walk.names pair.1 pair.2 := by
    rw [← hcores]
    exact List.mem_cons_self
  obtain ⟨pair, hpair, heq⟩ := List.mem_map.mp hmem
  rw [← heq]
  refine ⟨((armCore engine walk.names pair.1 pair.2).toCore.names).drop walk.names.length, ?_⟩
  rw [← armCore_names (hgated.keys pair hpair), List.take_append_drop]

/-- **The keys a chunk reads**: those that follow, in order, one more than it takes. -/
theorem chunkRows_keys (hgated : Gated schema spec walk) (hplain : spec.Plain)
    (htyped : db.Typed engine schema) (hafter : after.key.length = walk.names.length)
    {rows : List (List Value)} (h : chunkRows spec walk engine schema db after = some rows) :
    rows.map (valuesKey walk.names.length) =
        (following after.ints (pageKeys engine schema spec walk db after)).take (spec.take + 1) ∧
      ∀ values ∈ rows, ∃ key : List Int, key.length = walk.names.length ∧
        values.take walk.names.length = key.map .int := by
  have hkeys := merged_keys hgated hplain htyped hafter (pageText_resolves hgated h)
  have hints : ∀ row ∈ (pageText engine spec walk).merged engine schema db after.binding,
      ∃ key : List Int, key.length = walk.names.length ∧
        row.values.take walk.names.length = key.map .int := by
    intro row hin
    have hmem := hkeys ▸ List.mem_map_of_mem (f := fun row : Returned =>
      row.values.take walk.names.length) hin
    obtain ⟨key, hkey, heq⟩ := List.mem_map.mp hmem
    exact ⟨key, listKeys_length hgated key (List.mem_filter.mp hkey).1, heq.symm⟩
  simp only [chunkRows, SelectText.rows] at h
  split at h
  case isFalse => cases h
  case isTrue =>
    obtain rfl := Option.some.inj h
    have hlimit : ∀ sorted, limited engine after.binding (pageText engine spec walk).limit
        (skipped engine after.binding (pageText engine spec walk).offset sorted) =
          sorted.take (spec.take + 1) := by
      intro sorted
      simp only [pageText, skipped, limited, Option.map_none, Option.map_some, Expr.value,
        engine.numerals]
      rw [if_neg (by omega)]
      rfl
    rw [hlimit]
    constructor
    · obtain ⟨more, hnames⟩ := firstCore_names engine hgated
      have hagree : ∀ a ∈ (pageText engine spec walk).merged engine schema db after.binding,
          ∀ b ∈ (pageText engine spec walk).merged engine schema db after.binding,
          ordered engine after.binding (pageText engine spec walk).first.toCore.names
            (pageText engine spec walk).orderBy a b =
          decide (valuesKey walk.names.length a.values ≤ valuesKey walk.names.length b.values) := by
        intro a ha b hb
        obtain ⟨ka, hka, htakea⟩ := hints a ha
        obtain ⟨kb, hkb, htakeb⟩ := hints b hb
        have hvalues : ∀ (row : Returned) (key : List Int),
            row.values.take walk.names.length = key.map .int →
            row.values = ([] ++ key).map .int ++ row.values.drop walk.names.length := by
          intro row key htake
          rw [List.nil_append, ← htake, List.take_append_drop]
        rw [hnames, valuesKey, valuesKey, htakea, htakeb, numbers_ints, numbers_ints]
        exact ordered_keys walk.names [] ka kb [] [] hgated.names (hvalues a ka htakea)
          (hvalues b kb htakeb) rfl rfl hka hkb
      have hsorted := List.map_mergeSort (s := fun a b : List Int => a ≤ b)
        (f := valuesKey walk.names.length ∘ fun row : Returned => row.values) hagree
      rw [List.map_map, List.map_take, hsorted]
      have hmapped : ((pageText engine spec walk).merged engine schema db after.binding).map
          (valuesKey walk.names.length ∘ fun row => row.values) =
          (pageKeys engine schema spec walk db after).filter fun key => after.ints < key := by
        have := congrArg (List.map (List.map Value.number)) hkeys
        rw [List.map_map, List.map_map] at this
        rw [show (valuesKey walk.names.length ∘ fun row : Returned => row.values) =
          List.map Value.number ∘ fun row => row.values.take walk.names.length from rfl, this]
        conv_rhs => rw [← List.map_id ((pageKeys engine schema spec walk db after).filter _)]
        exact List.map_congr_left fun key _ => numbers_ints key
      rw [hmapped, following]
      congr!
    · intro values hin
      obtain ⟨row, hrow, rfl⟩ := List.mem_map.mp hin
      exact hints row (List.mem_mergeSort.mp (List.mem_of_mem_take hrow))

end

end Rui.Rsql
