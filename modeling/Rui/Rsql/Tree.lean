import Mathlib

/-!
# Rui SQL

The parsed tree of a SELECT, as the rules of `rsql.zig` read it, and the schema
they read it against. What no rule reads is kept as `other`, here with what it
means.
-/

namespace Rui.Rsql

/-! ## Values -/

inductive Value
  | null
  | int (value : Int)
  | text (value : String)
  | bytes (value : List UInt8)
  deriving DecidableEq, Repr

/-- Types in their order: numbers, texts, BLOBs. -/
def Value.rank : Value → Nat
  | .null => 0
  | .int _ => 1
  | .text _ => 2
  | .bytes _ => 3

/-- A comparison as a value. -/
def Value.ofTruth : Option Bool → Value
  | none => .null
  | some true => .int 1
  | some false => .int 0

/-- A row, by its columns' folded names. -/
abbrev Row := String → Value

/-! ## The schema -/

structure TableColumn where
  name : String
  /-- Whether its type is `.int`. -/
  int : Bool := true
  nullable : Bool := false

structure Table where
  name : String
  columns : List TableColumn
  primaryKey : List String
  uniques : List (List String) := []
  withoutRowid : Bool := false

/-- A conjunct of an index's WHERE. Whatever it is besides `c IS NOT NULL`, it is kept as the columns
it names and what it says of their values. -/
inductive Conjunct
  | notNull (column : String)
  | other (columns : List String) (holds : Row → Option Bool)

/-- A column of an index: written `name` or `name DESC`. -/
structure IndexColumn where
  name : String
  descending : Bool := false
  deriving DecidableEq, Repr

structure Index where
  name : String
  table : String
  columns : List IndexColumn
  unique : Bool := false
  where_ : Option (List Conjunct) := none

structure Schema where
  tables : List Table
  indexes : List Index

/-- The column sets that identify one row of `table`: its primary key, its unique constraints, and
its unique indexes without a WHERE. -/
def Schema.keys (schema : Schema) (table : String) : List (List IndexColumn) :=
  match schema.tables.find? fun candidate => candidate.name = table with
  | none => []
  | some candidate =>
    (candidate.primaryKey :: candidate.uniques).map (·.map fun name => { name }) ++
      (schema.indexes.filter fun index =>
        index.unique && index.where_.isNone && index.table = table).map (·.columns)

/-! ## The tree -/

structure Column where
  table : Option String
  name : String
  deriving DecidableEq, Repr

/-- A source's columns, and its row: none where no row of a LEFT JOIN matched. -/
structure Bound where
  name : String
  columns : List String
  row : Option Row

/-- The sources joined so far, in order. -/
abbrev Scope := List Bound

/-- An expression as the rules read it. -/
inductive Expr
  | column (column : Column)
  | parameter (k : Nat)
  /-- A number, a string literal or NULL, as written. -/
  | constant (text : String)
  /-- `@session(?k)`. -/
  | session (k : Nat)
  | conjunction (terms : List Expr)
  | equality (left right : Expr)
  /-- `column IS NULL`. -/
  | isNull (column : Column)
  /-- `@after(c1,..,ck,?a1,..,?ak)`. -/
  | after (columns : List Column) (parameters : List Nat)
  /-- Whatever else: the columns it names, its value among the rows of its group, and whether it
  aggregates them. -/
  | other (aggregates : Bool) (columns : List Column) (meaning : List Scope → Scope → Value)

/-- Where the engines may differ. -/
structure Engine where
  /-- Names that differ in case are one name. -/
  fold : String → String
  /-- Whether a text or a BLOB counts as true. -/
  texts : String → Bool
  blobs : List UInt8 → Bool
  /-- The value of a number, a string literal or NULL, as written. -/
  literal : String → Value
  numerals : ∀ n : Nat, literal n.repr = .int n
  /-- Whether values of two types are equal: by the sides as written, one may be converted. -/
  unlike : Expr → Expr → Value → Value → Bool

def Engine.truth (engine : Engine) : Value → Option Bool
  | .null => none
  | .int n => some (n ≠ 0)
  | .text t => some (engine.texts t)
  | .bytes b => some (engine.blobs b)

/-- An engine, for names in lower case and whole numbers. -/
def lowerCase : Engine where
  fold := id
  texts := fun _ => false
  blobs := fun _ => false
  literal := fun written =>
    if written.toList.all Char.isDigit then .int (Nat.ofDigitChars 10 written.toList 0)
    else .text written
  numerals := by
    intro n
    have hdigits : ∀ c ∈ Nat.toDigits 10 n, c.isDigit = true :=
      fun c hc => Nat.isDigit_of_mem_toDigits (by decide) (by decide) hc
    simp [Nat.toList_repr, List.all_eq_true.mpr hdigits]
  unlike := fun _ _ _ _ => false

/-- `left = right` of two values, where a NULL equals nothing. -/
def Engine.equal (engine : Engine) (left right : Expr) (a b : Value) : Option Bool :=
  if a = .null ∨ b = .null then none
  else some (if a.rank = b.rank then a = b else engine.unlike left right a b)

inductive Join
  | first
  | left
  | inner
  | cross
  deriving DecidableEq, Repr

structure Source where
  table : String
  /-- The table's own name when it has no alias. -/
  aliasName : String
  /-- A name a WITH defined, never a table's. -/
  defined : Bool
  join : Join
  index : Option String := none
  on : Option Expr

structure Result where
  value : Expr
  aliasName : Option String

structure Core where
  results : List Result
  sources : List Source
  where_ : Option Expr

structure Select where
  /-- The first SELECT of a compound. -/
  first : Core
  compound : Bool
  /-- Whether it ends in `LIMIT 1`. -/
  limitOne : Bool

def conjuncts : Expr → List Expr
  | .conjunction terms => terms
  | condition => [condition]

end Rui.Rsql
