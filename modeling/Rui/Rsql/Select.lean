import Rui.Rsql.Tree

/-!
# What a SELECT returns

SQL's meaning of the tree on a database: the FROM joins row by row, the WHERE
keeps rows, and what follows groups, orders and limits them. The text holds more
than the tree the rules read; `SelectText.parsed` is what they read of it.
-/

namespace Rui.Rsql

/-! ## Comparing values -/

/-- Where both are of one type their own order decides, else their types'. -/
def Value.before (a b : Value) : Bool :=
  match a, b with
  | .int m, .int n => m < n
  | .text s, .text t => s < t
  | .bytes s, .bytes t => s < t
  | a, b => a.rank < b.rank

/-- `a < b`. -/
def Value.less : Value → Value → Option Bool
  | .null, _ | _, .null => none
  | a, b => some (a.before b)

/-- `a = b`, of values of one type. -/
def Value.equal : Value → Value → Option Bool
  | .null, _ | _, .null => none
  | a, b => some (a = b)

/-- AND. -/
def both : Option Bool → Option Bool → Option Bool
  | some false, _ | _, some false => some false
  | some true, b => b
  | none, _ => none

/-- OR. -/
def either : Option Bool → Option Bool → Option Bool
  | some true, _ | _, some true => some true
  | some false, b => b
  | none, _ => none

/-- Whether a key is greater than another, lexicographically. -/
def greater : List (Value × Value) → Option Bool
  | [] => some false
  | (a, b) :: rest => either (b.less a) (both (a.equal b) (greater rest))

/-! ## Names -/

/-- What a SELECT runs on: the rows of the tables, and what its WITH names hold. -/
structure Db where
  table : String → List Row
  defined : String → List String × List Row

section
variable (engine : Engine)

def Bound.has (b : Bound) (c : Column) : Bool :=
  (c.table.all fun table => engine.fold table = engine.fold b.name) &&
    b.columns.any fun name => engine.fold name = engine.fold c.name

def Bound.value (b : Bound) (name : String) : Value :=
  match b.row with
  | none => .null
  | some row => row (engine.fold name)

/-- The one source that has the column. A name no source has, or more than one has, is refused. -/
def Scope.find (scope : Scope) (c : Column) : Option Bound :=
  match scope.filter (·.has engine c) with
  | [b] => some b
  | _ => none

def Scope.value (scope : Scope) (c : Column) : Value :=
  match scope.find engine c with
  | none => .null
  | some b => b.value engine c.name

/-! ## Expressions -/

section
variable (args : Nat → Value) (group : List Scope) (scope : Scope)

mutual

def Expr.value : Expr → Value
  | .column c => scope.value engine c
  | .parameter k | .session k => args k
  | .constant text => engine.literal text
  | .conjunction terms => .ofTruth (allTrue terms)
  | .equality left right => .ofTruth (engine.equal left right left.value right.value)
  | .isNull c => .ofTruth (some (scope.value engine c = .null))
  | .after columns parameters =>
    .ofTruth (greater ((columns.map (scope.value engine)).zip (parameters.map args)))
  | .other _ _ meaning => meaning group scope

def allTrue : List Expr → Option Bool
  | [] => some true
  | term :: rest => both (engine.truth term.value) (allTrue rest)

end

/-- Whether a condition keeps a row. -/
def Expr.holds (condition : Expr) : Bool :=
  engine.truth (condition.value engine args group scope) = some true

end

mutual

def Expr.aggregates : Expr → Bool
  | .other aggregates _ _ => aggregates
  | .conjunction terms => anyAggregates terms
  | .equality left right => left.aggregates || right.aggregates
  | _ => false

def anyAggregates : List Expr → Bool
  | [] => false
  | term :: rest => term.aggregates || anyAggregates rest

/-- The columns an expression names. -/
def Expr.columns : Expr → List Column
  | .column c | .isNull c => [c]
  | .conjunction terms => allColumns terms
  | .equality left right => left.columns ++ right.columns
  | .after columns _ => columns
  | .other _ columns _ => columns
  | _ => []

def allColumns : List Expr → List Column
  | [] => []
  | term :: rest => term.columns ++ allColumns rest

end

/-! ## FROM and WHERE -/

section
variable (schema : Schema) (db : Db) (args : Nat → Value)

def Source.columns (source : Source) : List String :=
  if source.defined then (db.defined source.table).1
  else ((schema.tables.find? fun t => t.name = source.table).map (·.columns.map (·.name))).getD []

def Source.rows (source : Source) : List Row :=
  if source.defined then (db.defined source.table).2 else db.table source.table

def Source.bind (source : Source) (row : Option Row) : Bound :=
  ⟨source.aliasName, source.columns schema db, row⟩

def Source.keeps (source : Source) (scope : Scope) : Bool :=
  source.on.all fun on => on.holds engine args [] scope

/-- One row on the left with each row of a source that its ON keeps. Where it keeps none, a LEFT
JOIN keeps the row on the left. -/
def Source.joins (source : Source) (left : Scope) : List Scope :=
  let found := ((source.rows db).map fun row => left ++ [source.bind schema db (some row)]).filter
    (source.keeps engine args)
  if source.join = .left && found.isEmpty then [left ++ [source.bind schema db none]] else found

def joinAll (sources : List Source) : List Scope :=
  sources.foldl (fun scopes source => scopes.flatMap (source.joins engine schema db args)) [[]]

/-- The rows of a core's FROM that its WHERE keeps. -/
def Core.scopes (core : Core) : List Scope :=
  (joinAll engine schema db args core.sources).filter fun scope =>
    core.where_.all fun condition => condition.holds engine args [] scope

/-- Whether each column a core names is one source's: in an ON, of the sources up to its own. -/
def Core.resolves (core : Core) : Bool :=
  let bound := core.sources.map fun source => source.bind schema db none
  let find (scope : Scope) (e : Expr) := (e.columns).all fun c => (scope.find engine c).isSome
  (core.results.all fun result => find bound result.value) && core.where_.all (find bound) &&
    core.sources.zipIdx.all fun (source, i) => source.on.all (find (bound.take (i + 1)))

end

end

/-! ## The rest of the text -/

/-- A SELECT core, with what its tree leaves out. -/
structure CoreText extends Core where
  distinct : Bool := false
  groupBy : Option (List Expr) := none
  having : Option Expr := none

inductive Compound
  | union
  | unionAll
  | intersect
  | except

/-- A SELECT, with what its tree leaves out. ORDER BY terms come with whether they descend. -/
structure SelectText where
  first : CoreText
  others : List (Compound × CoreText) := []
  orderBy : List (Expr × Bool) := []
  limit : Option Expr := none
  offset : Option Expr := none

/-- What the rules read of a SELECT. -/
def SelectText.parsed (text : SelectText) : Select where
  first := text.first.toCore
  compound := !text.others.isEmpty
  limitOne :=
    match text.limit with
    | some (.constant written) => written = "1"
    | _ => false

section
variable (engine : Engine) (schema : Schema) (db : Db) (args : Nat → Value)

/-- The groups of a core, each with the row its bare columns come from. -/
def CoreText.groups (core : CoreText) : List (List Scope × Scope) :=
  let scopes := core.toCore.scopes engine schema db args
  match core.groupBy with
  | some terms =>
    let key := fun scope => terms.map (·.value engine args [] scope)
    ((scopes.map key).eraseDups.map fun k => scopes.filter fun scope => key scope = k).map
      fun group => (group, group.headD [])
  | none =>
    if core.results.any (·.value.aggregates) then [(scopes, scopes.headD [])]
    else scopes.map fun scope => (scopes, scope)

/-- A result row, with the row and group it comes from. -/
structure Returned where
  values : List Value
  group : List Scope
  scope : Scope

def CoreText.rows (core : CoreText) : List Returned :=
  let kept := (core.groups engine schema db args).filter fun (group, scope) =>
    core.having.all fun condition => condition.holds engine args group scope
  let rows := kept.map fun (group, scope) =>
    (⟨core.results.map (·.value.value engine args group scope), group, scope⟩ : Returned)
  if core.distinct then rows.pwFilter fun a b => a.values ≠ b.values else rows

/-- The name of a result's column: its alias, or a column's own. -/
def Result.name (result : Result) : Option String :=
  result.aliasName <|> match result.value with
    | .column c => some c.name
    | _ => none

/-- The names a result's rows go by. -/
def Core.names (core : Core) : List (Option String) := core.results.map (·.name)

def Compound.merge : Compound → List (List Value) → List (List Value) → List (List Value)
  | .union, a, b => (a ++ b).eraseDups
  | .unionAll, a, b => a ++ b
  | .intersect, a, b => (a.filter (· ∈ b)).eraseDups
  | .except, a, b => (a.filter (· ∉ b)).eraseDups

/-- The rows of a compound come from no one row. -/
def SelectText.merged (text : SelectText) : List Returned :=
  match text.others with
  | [] => text.first.rows engine schema db args
  | others =>
    let first := (text.first.rows engine schema db args).map (·.values)
    (others.foldl (fun rows (op, core) =>
      op.merge rows ((core.rows engine schema db args).map (·.values))) first).map
      fun values => ⟨values, [], []⟩

/-- What an ORDER BY term sorts a row by: a result it names, or else its own value. -/
def orderValue (names : List (Option String)) (row : Returned) : Expr → Value
  | .column ⟨none, name⟩ =>
    match (names.zip row.values).find? fun (named, _) => named = some name with
    | some (_, value) => value
    | none => row.scope.value engine ⟨none, name⟩
  | term => term.value engine args row.group row.scope

/-- Whether a row may come before another. -/
def ordered (names : List (Option String)) : List (Expr × Bool) → Returned → Returned → Bool
  | [], _, _ => true
  | (term, descends) :: rest, a, b =>
    let x := orderValue engine args names a term
    let y := orderValue engine args names b term
    if x = y then ordered names rest a b
    else if descends then y.before x else x.before y

/-- A LIMIT or OFFSET. A negative one limits nothing. -/
def limited (limit : Option Expr) (rows : List Returned) : List Returned :=
  match limit.map (Expr.value engine args [] []) with
  | none => rows
  | some (.int n) => if n < 0 then rows else rows.take n.toNat
  | some _ => []

def skipped (offset : Option Expr) (rows : List Returned) : List Returned :=
  match offset.map (Expr.value engine args [] []) with
  | some (.int n) => rows.drop n.toNat
  | _ => rows

/-- **The rows a SELECT returns**, or none where a name in it is no one source's. -/
def SelectText.rows (text : SelectText) : Option (List (List Value)) :=
  if text.first.toCore.resolves engine schema db &&
      text.others.all fun (_, core) => core.toCore.resolves engine schema db then
    let names := text.first.toCore.names
    let sorted := (text.merged engine schema db args).mergeSort (ordered engine args names text.orderBy)
    some ((limited engine args text.limit (skipped engine args text.offset sorted)).map (·.values))
  else none

end

end Rui.Rsql
