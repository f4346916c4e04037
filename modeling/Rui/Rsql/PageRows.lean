import Rui.Library.Keyset
import Rui.Rsql.Joined
import Rui.Rsql.Page

/-!
# The rows of a chunk

What an arm's SELECT returns: its walked table's rows that are in the list, each
with what it joins. A LEFT JOIN drops none, and where the text's names are each
one source's, the WHERE reads the walked row alone.
-/

namespace Rui.Rsql

/-! ## Joins from one row -/

section
variable {engine : Engine} {schema : Schema} {db : Db} {args : Nat → Value}

variable (engine schema db args) in
def joinFrom (sources : List Source) (start : List Scope) : List Scope :=
  sources.foldl (fun scopes source => scopes.flatMap (source.joins engine schema db args)) start

theorem joinFrom_flatMap {α : Type} (sources : List Source) (l : List α) (f : α → List Scope) :
    joinFrom engine schema db args sources (l.flatMap f) =
      l.flatMap fun a => joinFrom engine schema db args sources (f a) := by
  induction sources generalizing f with
  | nil => rfl
  | cons source rest ih =>
    simp only [joinFrom, List.foldl_cons, List.flatMap_assoc]
    exact ih _

/-- The FROM of a walked table: each of its rows with what it joins. -/
theorem joinAll_walked (first : Source) (joins : List Source) (hfirst : first.join ≠ .left)
    (hon : first.on = none) :
    joinAll engine schema db args (first :: joins) =
      (first.rows db).flatMap fun row =>
        joinFrom engine schema db args joins [[first.bind schema db (some row)]] := by
  have hrows : first.joins engine schema db args [] =
      (first.rows db).flatMap fun row => [[first.bind schema db (some row)]] := by
    have hkeeps : ∀ scope ∈ (first.rows db).map fun row => [] ++ [first.bind schema db (some row)],
        first.keeps engine args scope = true := by
      intro scope _
      simp only [Source.keeps, hon, Option.all_none]
    simp only [Source.joins]
    rw [List.filter_eq_self.mpr hkeeps]
    simp only [hfirst, decide_false, Bool.false_and, Bool.false_eq_true, if_false, List.nil_append]
    exact List.map_eq_flatMap
  rw [← joinFrom_flatMap, ← hrows]
  simp [joinAll, joinFrom]

variable {joins sources : List Source} {start : List Scope} {b : Bound} {scope : Scope}

/-- LEFT JOINs keep every row. -/
theorem joinFrom_ne_nil (hleft : ∀ source ∈ joins, source.join = .left) (hstart : start ≠ []) :
    joinFrom engine schema db args joins start ≠ [] := by
  induction joins generalizing start with
  | nil => exact hstart
  | cons source rest ih =>
    simp only [joinFrom, List.foldl_cons]
    apply ih fun each hin => hleft each (List.mem_cons_of_mem _ hin)
    obtain ⟨scope, tail, rfl⟩ := List.exists_cons_of_ne_nil hstart
    simp only [List.flatMap_cons, ne_eq, List.append_eq_nil_iff, not_and]
    intro hnone
    exfalso
    simp only [Source.joins, hleft source List.mem_cons_self] at hnone
    split at hnone
    case isTrue => cases hnone
    case isFalse h => exact h (by simpa using hnone)

theorem joinFrom_first (hstart : ∀ scope ∈ start, scope[0]? = some b) :
    ∀ scope ∈ joinFrom engine schema db args joins start, scope[0]? = some b := by
  induction joins generalizing start with
  | nil => exact hstart
  | cons source rest ih =>
    simp only [joinFrom, List.foldl_cons]
    apply ih
    intro scope hin
    obtain ⟨left, hleft, hscope⟩ := List.mem_flatMap.mp hin
    obtain ⟨row, rfl, -⟩ := Source.joins_mem hscope
    have hb := hstart left hleft
    rw [List.getElem?_append_left (List.getElem?_eq_some_iff.mp hb).1, hb]

/-! ## Names that are one source's -/

/-- A source with no row, which names resolve against. -/
def Bound.empty (b : Bound) : Bound := { b with row := none }

theorem Joined.empty (h : Joined engine schema db args sources scope) :
    scope.map Bound.empty = sources.map fun source => source.bind schema db none := by
  apply List.ext_getElem?
  intro i
  rw [List.getElem?_map, List.getElem?_map]
  cases hsource : sources[i]? with
  | none =>
    rw [List.getElem?_eq_none (by rw [h.length]; exact List.getElem?_eq_none_iff.mp hsource)]
    rfl
  | some source =>
    obtain ⟨row, hrow, -⟩ := h.bound i source hsource
    rw [hrow]
    rfl

theorem first_value {row : Row} {c : Column} (hjoined : Joined engine schema db args sources scope)
    (hfirst : scope[0]? = some b) (hrow : b.row = some row) (hhas : b.has engine c = true)
    (hfind : (Scope.find engine (sources.map fun source => source.bind schema db none) c).isSome =
      true) : Scope.value engine scope c = row (engine.fold c.name) := by
  have hmem : b ∈ scope.filter (·.has engine c) :=
    List.mem_filter.mpr ⟨List.mem_of_getElem? hfirst, hhas⟩
  have hone : ∃ each, scope.filter (·.has engine c) = [each] := by
    rw [← hjoined.empty] at hfind
    have hhasEmpty : (fun each : Bound => each.has engine c) ∘ Bound.empty =
        fun each => each.has engine c := rfl
    simp only [Scope.find, List.filter_map, hhasEmpty] at hfind
    rcases hfilter : scope.filter (·.has engine c) with _ | ⟨each, _ | ⟨other, rest⟩⟩
    · simp [hfilter] at hfind
    · exact ⟨each, hfilter⟩
    · simp [hfilter] at hfind
  obtain ⟨each, heach⟩ := hone
  rw [heach] at hmem
  obtain rfl := List.mem_singleton.mp hmem
  simp only [Scope.value, Scope.find, heach, Bound.value, hrow]

end

/-! ## Keys in order -/

def Value.number : Value → Int
  | .int n => n
  | _ => 0

theorem greater_ints (a b : List Int) (h : a.length = b.length) :
    greater ((a.map .int).zip (b.map .int)) = some (decide (b < a)) := by
  induction a generalizing b with
  | nil =>
    obtain rfl := List.length_eq_zero_iff.mp h.symm
    rfl
  | cons x xs ih =>
    cases b with
    | nil => cases h
    | cons y ys =>
      have hrest := ih ys (Nat.succ.inj h)
      simp only [List.map_cons, List.zip_cons_cons, greater, hrest, Value.less, Value.equal,
        Value.before, Value.int.injEq]
      rcases Int.lt_trichotomy y x with hlt | rfl | hgt
      · simp [hlt, either, List.cons_lt_cons_iff]
      · by_cases hys : ys < xs <;> simp [hys, either, both]
      · have hnot : ¬ y < x := by omega
        have hne : ¬ x = y := by omega
        have hne' : ¬ y = x := by omega
        simp [hnot, hne, hne', either, both, List.cons_lt_cons_iff]

/-- A key whose first column is NULL is after no key. -/
theorem greater_null (b : Value) (rest : List (Value × Value)) :
    greater ((.null, b) :: rest) ≠ some true := by
  have hless : b.less .null = none := by cases b <;> rfl
  simp only [greater, hless, Value.equal]
  rcases greater rest with _ | _ | _ <;> simp [either, both]

/-! ## The rows of an arm -/

def Conjunct.columns : Conjunct → List String
  | .notNull name => [name]
  | .other columns _ => columns

/-- Whether a conjunct of an index's predicate holds of a row. -/
def Conjunct.holds (engine : Engine) (row : Row) : Conjunct → Bool
  | .notNull name => row (engine.fold name) ≠ .null
  | .other columns holds =>
    holds (fun name => if name ∈ columns then row (engine.fold name) else .null) = some true

/-- Whether a row's Session and fixed columns match and its index's predicate holds. -/
def matched (engine : Engine) (session : String) (arm : Arm) (path : WalkArm) (row : Row) : Bool :=
  engine.equal (.column ⟨some arm.aliasName, path.sessionColumn⟩) (.parameter 1)
      (row (engine.fold path.sessionColumn)) (.text session) = some true &&
    arm.fixed.all (fun fixed =>
      engine.equal (.column ⟨some arm.aliasName, fixed.column⟩) (.constant fixed.value)
        (row (engine.fold fixed.column)) (engine.literal fixed.value) = some true) &&
    (path.where_.getD []).all (·.holds engine row)

/-- A row's key. -/
def keyOf (engine : Engine) (path : WalkArm) (row : Row) : List Int :=
  path.key.map fun name => (row (engine.fold name)).number

/-- Whether a row is in the list: it matches, and its first key column is not NULL. -/
def inList (engine : Engine) (session : String) (arm : Arm) (path : WalkArm) (row : Row) : Bool :=
  matched engine session arm path row && row (engine.fold (path.key.headD "")) ≠ .null

/-- What `keysetOf` finds of an arm, with the columns an index names its table's. -/
structure ArmSound (schema : Schema) (arm : Arm) (path : WalkArm) : Prop where
  session : (schemaColumn schema path.table path.sessionColumn).isSome = true
  fixed : ∀ fixed ∈ arm.fixed, (schemaColumn schema path.table fixed.column).isSome = true
  predicate : ∀ conjunct ∈ path.where_.getD [], ∀ name ∈ conjunct.columns,
    (schemaColumn schema path.table name).isSome = true
  key : path.key ≠ []
  int : ∀ name ∈ path.key, ∃ column,
    schemaColumn schema path.table name = some column ∧ column.int = true
  stated : ∀ name ∈ path.key.tail,
    (∀ column, schemaColumn schema path.table name = some column → column.nullable = false) ∨
      Conjunct.notNull name ∈ path.where_.getD []

/-- Rows hold what their table's columns declare. -/
def Db.Typed (db : Db) (engine : Engine) (schema : Schema) : Prop :=
  ∀ table, ∀ row ∈ db.table table, ∀ name column, schemaColumn schema table name = some column →
    (column.int = true → row (engine.fold name) = .null ∨ ∃ n, row (engine.fold name) = .int n) ∧
      (column.nullable = false → row (engine.fold name) ≠ .null)

section
variable {engine : Engine} {schema : Schema} {db : Db} {arm : Arm} {path : WalkArm}

variable {row : Row} {session : String} {after : Args}

/-- The key of a row in the list has no NULL. -/
theorem key_ints (hsound : ArmSound schema arm path) (htyped : db.Typed engine schema)
    (hrow : row ∈ db.table path.table) (hlisted : inList engine session arm path row = true) :
    path.key.map (fun name => row (engine.fold name)) = (keyOf engine path row).map .int := by
  simp only [keyOf, List.map_map]
  apply List.map_congr_left
  intro name hname
  obtain ⟨column, hcolumn, hint⟩ := hsound.int name hname
  obtain ⟨hvalue, hnotNull⟩ := htyped path.table row hrow name column hcolumn
  have hne : row (engine.fold name) ≠ .null := by
    simp only [inList, matched, Bool.and_eq_true, decide_eq_true_eq] at hlisted
    obtain ⟨⟨-, hpredicate⟩, hfirst⟩ := hlisted
    cases hkey : path.key with
    | nil => exact absurd hkey hsound.key
    | cons first rest =>
      rw [hkey] at hname hfirst
      rcases List.mem_cons.mp hname with rfl | hrest
      · exact hfirst
      · rcases hsound.stated name (by rw [hkey]; exact hrest) with hcol | hstates
        · exact hnotNull (hcol column hcolumn)
        · have hholds := List.all_eq_true.mp hpredicate _ hstates
          simpa [Conjunct.holds] using hholds
  rcases hvalue hint with hnull | ⟨n, hn⟩
  · exact absurd hnull hne
  · simp only [Function.comp, hn, Value.number]

variable {args : Nat → Value} {group : List Scope} {scope : Scope} {row : Row}

theorem qualify_holds (aliasName : String) (conjunct : Conjunct)
    (hvalue : ∀ name ∈ conjunct.columns,
      Scope.value engine scope ⟨some aliasName, name⟩ = row (engine.fold name)) :
    (qualify engine aliasName conjunct).holds engine args group scope =
      conjunct.holds engine row := by
  cases conjunct with
  | notNull name =>
    simp only [qualify, Expr.holds, Expr.value, truth_ofTruth, hvalue name (by simp [Conjunct.columns]),
      Conjunct.holds, Option.some.injEq, decide_eq_true_eq]
  | other columns holds =>
    have hsame : (fun name => if name ∈ columns then
        Scope.value engine scope ⟨some aliasName, name⟩ else Value.null) =
        fun name => if name ∈ columns then row (engine.fold name) else .null := by
      funext name
      split
      case isTrue hin => exact hvalue name hin
      case isFalse => rfl
    simp only [qualify, Expr.holds, Expr.value, truth_ofTruth, Conjunct.holds]
    rw [hsame]

theorem conjunction_holds (terms : List Expr) :
    (Expr.conjunction terms).holds engine args group scope =
      terms.all (·.holds engine args group scope) := by
  rw [Bool.eq_iff_iff, List.all_eq_true, ← allTrue_holds]
  simp only [Expr.holds, Expr.value, truth_ofTruth, decide_eq_true_eq]

variable {term : Expr} {c : Column} {names : List String}

theorem allColumns_mem {terms : List Expr} (hterm : term ∈ terms) (hc : c ∈ term.columns) :
    c ∈ allColumns terms := by
  induction terms with
  | nil => cases hterm
  | cons first rest ih =>
    simp only [allColumns, List.mem_append]
    rcases List.mem_cons.mp hterm with rfl | hin
    · exact .inl hc
    · exact .inr (ih hin)

/-- The WHERE reads the walked row alone. -/
theorem armWhere_holds (hargs : args 1 = .text session)
    (hvalue : ∀ c, (∃ term ∈ armWhere engine arm path, c ∈ term.columns) →
      Scope.value engine scope c = row (engine.fold c.name)) :
    (armWhere engine arm path).all (·.holds engine args group scope) =
      matched engine session arm path row := by
  have hsession := hvalue ⟨some arm.aliasName, path.sessionColumn⟩
    ⟨_, List.mem_cons_self, by simp [Expr.columns]⟩
  have hfixed : ∀ fixed ∈ arm.fixed, Scope.value engine scope ⟨some arm.aliasName, fixed.column⟩ =
      row (engine.fold fixed.column) := by
    intro fixed hin
    refine hvalue ⟨some arm.aliasName, fixed.column⟩
      ⟨.equality (.column ⟨some arm.aliasName, fixed.column⟩) (.constant fixed.value), ?_,
        by simp [Expr.columns]⟩
    exact List.mem_cons_of_mem _ (List.mem_append_left _ (List.mem_map_of_mem hin))
  have hpredicate : ∀ conjunct ∈ path.where_.getD [],
      (qualify engine arm.aliasName conjunct).holds engine args group scope =
        conjunct.holds engine row := by
    intro conjunct hin
    apply qualify_holds
    intro name hname
    refine hvalue ⟨some arm.aliasName, name⟩ ⟨qualify engine arm.aliasName conjunct, ?_, ?_⟩
    · exact List.mem_cons_of_mem _ (List.mem_append_right _ (List.mem_map_of_mem hin))
    · cases conjunct <;> simpa [qualify, Expr.columns, Conjunct.columns] using hname
  have hequality : ∀ left right, (Expr.equality left right).holds engine args group scope =
      decide (engine.equal left right (left.value engine args group scope)
        (right.value engine args group scope) = some true) := by
    intro left right
    simp only [Expr.holds, Expr.value, truth_ofTruth]
  simp only [armWhere, List.all_cons, List.all_append, List.all_map, matched, hequality, Expr.value,
    hsession, hargs, Bool.and_assoc]
  congr 2
  · rw [Bool.eq_iff_iff, List.all_eq_true, List.all_eq_true]
    refine forall₂_congr fun fixed hin => ?_
    simp only [Function.comp, hequality, Expr.value, hfixed fixed hin]
  · rw [Bool.eq_iff_iff, List.all_eq_true, List.all_eq_true]
    refine forall₂_congr fun conjunct hin => ?_
    simp only [Function.comp, hpredicate conjunct hin]

/-- A chunk's Args as keys compare. -/
def Args.ints (after : Args) : List Int := after.key.map fun (n : Nat) => (n : Int)

theorem binding_key (after : Args) :
    ((List.range after.key.length).map (· + 2)).map after.binding = after.ints.map .int := by
  apply List.ext_getElem (by simp [Args.ints])
  intro i hi hi'
  simp only [List.length_map, List.length_range] at hi
  simp [Args.binding, Args.ints, List.getElem?_eq_getElem hi]

/-- `@after` of a row in the list compares its key; a first key column that is NULL is after none. -/
theorem armAfter_holds (hlength : after.key.length = path.key.length) (hkey : path.key ≠ [])
    (hvalue : ∀ name ∈ path.key,
      Scope.value engine scope ⟨some arm.aliasName, name⟩ = row (engine.fold name))
    (hints : row (engine.fold (path.key.headD "")) ≠ .null →
      path.key.map (fun name => row (engine.fold name)) = (keyOf engine path row).map .int) :
    (armAfter arm path).holds engine after.binding group scope =
      (decide (row (engine.fold (path.key.headD "")) ≠ .null) &&
        decide (after.ints < keyOf engine path row)) := by
  have hcolumns : (path.key.map fun name => (⟨some arm.aliasName, name⟩ : Column)).map
      (Scope.value engine scope) = path.key.map fun name => row (engine.fold name) := by
    rw [List.map_map]
    exact List.map_congr_left hvalue
  simp only [armAfter, Expr.holds, Expr.value, truth_ofTruth, hcolumns, ← hlength, binding_key]
  by_cases hnull : row (engine.fold (path.key.headD "")) = .null
  case pos =>
    obtain ⟨first, rest, hcons⟩ := List.exists_cons_of_ne_nil hkey
    obtain ⟨n, ns, hints'⟩ : ∃ n ns, after.ints = n :: ns := by
      apply List.exists_cons_of_ne_nil
      intro hnil
      have := congrArg List.length hnil
      simp [Args.ints, hlength, hcons] at this
    simp only [hcons, List.headD_cons] at hnull
    simp only [hcons, hints', List.map_cons, List.zip_cons_cons, hnull, List.headD_cons, ne_eq,
      not_true_eq_false, decide_false, Bool.false_and, decide_eq_false_iff_not]
    exact greater_null _ _
  case neg =>
    rw [hints hnull, greater_ints _ _ (by simp [keyOf, Args.ints, hlength])]
    simp only [Option.some.injEq, decide_eq_true_eq, ne_eq, hnull, not_false_eq_true, decide_true,
      Bool.true_and]

theorem flatMap_filter_rows {α β : Type} {l : List α} {p : α → Bool} {f : α → List β} {q : β → Bool}
    (h : ∀ a ∈ l, ∀ b ∈ f a, q b = p a) : (l.flatMap f).filter q = (l.filter p).flatMap f := by
  induction l with
  | nil => rfl
  | cons a rest ih =>
    have hrest := ih fun b hin => h b (List.mem_cons_of_mem _ hin)
    have ha := h a List.mem_cons_self
    rw [List.flatMap_cons, List.filter_append, hrest]
    cases hp : p a with
    | true =>
      rw [List.filter_cons_of_pos hp, List.flatMap_cons,
        List.filter_eq_self.mpr fun b hb => (ha b hb).trans hp]
    | false =>
      rw [List.filter_cons_of_neg (by simp [hp]), List.filter_eq_nil_iff.mpr fun b hb => by
        simp [ha b hb, hp], List.nil_append]

theorem schemaColumn_has {name : String} {r : Option Row}
    (h : (schemaColumn schema path.table name).isSome = true) :
    ((walkedSource arm path).bind schema db r).has engine ⟨some arm.aliasName, name⟩ = true := by
  simp only [schemaColumn] at h
  cases htable : schema.tables.find? fun candidate => candidate.name = path.table with
  | none => simp [htable] at h
  | some table =>
    simp only [htable, Option.bind_some, List.find?_isSome, decide_eq_true_eq] at h
    obtain ⟨column, hin, rfl⟩ := h
    have hcolumns : (walkedSource arm path).columns schema db = table.columns.map (·.name) := by
      dsimp only [Source.columns, walkedSource]
      rw [htable]
      rfl
    have halias : (walkedSource arm path).aliasName = arm.aliasName := rfl
    simp only [Bound.has, Source.bind, hcolumns, halias, Option.all_some, decide_true,
      Bool.true_and, List.any_eq_true, decide_eq_true_eq]
    exact ⟨column.name, List.mem_map_of_mem hin, rfl⟩

theorem where_find
    (hresolves : (armCore engine names arm path).toCore.resolves engine schema db = true)
    (hterm : term ∈ armWhere engine arm path ++ [armAfter arm path]) (hc : c ∈ term.columns) :
    (Scope.find engine ((armCore engine names arm path).sources.map fun source =>
      source.bind schema db none) c).isSome = true := by
  simp only [Core.resolves, Bool.and_eq_true] at hresolves
  have hall := hresolves.1.2
  simp only [armCore, Option.all_some, List.all_eq_true, Expr.columns] at hall
  exact hall c (allColumns_mem hterm hc)

/-- **The names an arm's SELECT reads are its walked row's.** -/
theorem walked_value (hrow : row ∈ db.table path.table) (htable : c.table = some arm.aliasName)
    (hcolumn : (schemaColumn schema path.table c.name).isSome = true)
    (hfind : (Scope.find engine ((armCore engine names arm path).sources.map fun source =>
      source.bind schema db none) c).isSome = true)
    (hscope : scope ∈ joinFrom engine schema db args arm.joins
      [[(walkedSource arm path).bind schema db (some row)]]) :
    Scope.value engine scope c = row (engine.fold c.name) := by
  obtain ⟨table, name⟩ := c
  obtain rfl : table = some arm.aliasName := htable
  have hjoined : Joined engine schema db args (walkedSource arm path :: arm.joins) scope := by
    apply joinAll_joined
    rw [joinAll_walked _ _ (by simp [walkedSource]) rfl, List.mem_flatMap]
    exact ⟨row, by simpa [Source.rows, walkedSource] using hrow, hscope⟩
  have hfirst : scope[0]? = some ((walkedSource arm path).bind schema db (some row)) :=
    joinFrom_first (fun each hin => by rw [List.mem_singleton.mp hin]; rfl) scope hscope
  exact first_value hjoined hfirst rfl (schemaColumn_has hcolumn) hfind

/-- Each name in an arm's WHERE is a column of its walked table. -/
theorem where_column (hsound : ArmSound schema arm path)
    (hterm : term ∈ armWhere engine arm path ++ [armAfter arm path]) (hc : c ∈ term.columns) :
    c.table = some arm.aliasName ∧ (schemaColumn schema path.table c.name).isSome = true := by
  simp only [armWhere, List.cons_append, List.mem_cons, List.mem_append, List.mem_map,
    List.not_mem_nil, or_false] at hterm
  rcases hterm with rfl | (⟨fixed, hin, rfl⟩ | ⟨conjunct, hin, rfl⟩) | rfl
  · simp only [Expr.columns, List.append_nil, List.mem_singleton] at hc
    exact hc ▸ ⟨rfl, hsound.session⟩
  · simp only [Expr.columns, List.append_nil, List.mem_singleton] at hc
    exact hc ▸ ⟨rfl, hsound.fixed fixed hin⟩
  · cases conjunct with
    | notNull name =>
      simp only [qualify, Expr.columns, List.mem_singleton] at hc
      exact hc ▸ ⟨rfl, hsound.predicate _ hin name (by simp [Conjunct.columns])⟩
    | other columns holds =>
      simp only [qualify, Expr.columns, List.mem_map] at hc
      obtain ⟨name, hname, rfl⟩ := hc
      exact ⟨rfl, hsound.predicate _ hin name hname⟩
  · simp only [armAfter, Expr.columns, List.mem_map] at hc
    obtain ⟨name, hname, rfl⟩ := hc
    obtain ⟨column, hcolumn, -⟩ := hsound.int name hname
    exact ⟨rfl, by rw [hcolumn]; rfl⟩

/-- What an arm's SELECT reads of its walked table: the rows in the list that follow the key. -/
theorem armCore_scopes (hsound : ArmSound schema arm path) (htyped : db.Typed engine schema)
    (hlength : after.key.length = path.key.length)
    (hresolves : (armCore engine names arm path).toCore.resolves engine schema db = true) :
    (armCore engine names arm path).toCore.scopes engine schema db after.binding =
      ((db.table path.table).filter fun row =>
        inList engine after.session arm path row && decide (after.ints < keyOf engine path row)).flatMap
        fun row => joinFrom engine schema db after.binding arm.joins
          [[(walkedSource arm path).bind schema db (some row)]] := by
  simp only [Core.scopes]
  rw [show (armCore engine names arm path).sources = walkedSource arm path :: arm.joins from rfl,
    joinAll_walked _ _ (by simp [walkedSource]) rfl]
  have hrows : (walkedSource arm path).rows db = db.table path.table := by
    simp [Source.rows, walkedSource]
  rw [hrows]
  apply flatMap_filter_rows
  intro row hrow scope hscope
  have hvalue : ∀ term ∈ armWhere engine arm path ++ [armAfter arm path], ∀ c ∈ term.columns,
      Scope.value engine scope c = row (engine.fold c.name) := by
    intro term hterm c hc
    obtain ⟨htable, hcolumn⟩ := where_column hsound hterm hc
    exact walked_value hrow htable hcolumn (where_find hresolves hterm hc) hscope
  have hkey : ∀ name ∈ path.key,
      Scope.value engine scope ⟨some arm.aliasName, name⟩ = row (engine.fold name) :=
    fun name hin => hvalue (armAfter arm path) (by simp) ⟨some arm.aliasName, name⟩
      (List.mem_map_of_mem hin)
  have hmatched : (armWhere engine arm path).all (·.holds engine after.binding [] scope) =
      matched engine after.session arm path row :=
    armWhere_holds rfl fun c hin => by
      obtain ⟨term, hterm, hc⟩ := hin
      exact hvalue term (List.mem_append_left _ hterm) c hc
  simp only [armCore, Option.all_some, conjunction_holds, List.all_append, List.all_cons,
    List.all_nil, Bool.and_true, hmatched]
  by_cases hmatches : matched engine after.session arm path row = true
  case neg => simp [inList, hmatches]
  case pos =>
    have hafter : (armAfter arm path).holds engine after.binding [] scope =
        (decide (row (engine.fold (path.key.headD "")) ≠ .null) &&
          decide (after.ints < keyOf engine path row)) := by
      refine armAfter_holds hlength hsound.key hkey fun hfirst => ?_
      have hlisted : inList engine after.session arm path row = true := by
        simp only [inList, hmatches, Bool.true_and]
        exact decide_eq_true hfirst
      exact key_ints hsound htyped hrow hlisted
    rw [hafter, inList, Bool.and_assoc]

end

end Rui.Rsql
