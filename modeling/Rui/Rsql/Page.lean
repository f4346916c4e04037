import Rui.Rsql.Select

/-!
# Pages

A Full list's rows are a keyset-paged read of one Session. The read is derived
from the index each arm walks: its columns, the WHERE that seeks to a key, the
ORDER BY, the next chunk's Args, and the check that rows ascend.
-/

namespace Rui.Rsql

/-! ## What a list declares -/

/-- A field of a Row. Of the types a Row's fields have, a Page's gates tell three apart. -/
inductive FieldType
  | positive
  | u64
  | other
  deriving DecidableEq

/-- Where an arm's rows come from, in key order. -/
inductive Ordered
  | index (name : String)
  | primaryKey (table : String)

/-- An index column after the Session column that an arm fixes to a constant. -/
structure Fixed where
  column : String
  value : String

/-- One table's rows of a list. -/
structure Arm where
  walks : Ordered
  aliasName : String
  fixed : List Fixed := []
  columns : List Result
  joins : List Source := []

structure PageSpec where
  /-- Two or more merge by the key. -/
  arms : List Arm
  /-- The Row's fields, each its own name; first come the key's. -/
  fields : List (String × FieldType)
  distinct : (fields.map (·.1)).Nodup
  /-- The rows a chunk takes. -/
  take : Nat

/-- A column as an index names it. -/
def IndexColumn.written (column : IndexColumn) : String :=
  if column.descending then column.name ++ " DESC" else column.name

/-- What an arm walks. -/
structure WalkArm where
  table : String
  aliasName : String
  /-- None for a primary key. -/
  index : Option String
  /-- The Session's column, then the fixed ones. -/
  prefixColumns : List IndexColumn
  key : List String
  /-- The index's predicate. -/
  where_ : Option (List Conjunct)

/-- The column bound to the Session, as the text writes it. -/
def WalkArm.sessionColumn (path : WalkArm) : String := (path.prefixColumns.map (·.written)).headD ""

structure Walk where
  names : List String
  arms : List WalkArm

/-- An arm's walked rows. -/
structure Walked where
  table : String
  index : Option String
  columns : List IndexColumn
  where_ : Option (List Conjunct)

section
variable (schema : Schema)

def walkedBy : Ordered → Except String Walked
  | .index name =>
    match schema.indexes.find? fun index => index.name = name with
    | some index => .ok ⟨index.table, some name, index.columns, index.where_⟩
    | none =>
      .error ("rsql: a Page walks an index of the schema, and there is none named " ++ name)
  | .primaryKey name =>
    match schema.tables.find? fun table => table.name = name with
    | some table =>
      if table.withoutRowid then
        .ok ⟨name, none, table.primaryKey.map fun column => { name := column }, none⟩
      else
        .error ("rsql: a Page walks the primary key only of a WITHOUT ROWID table, and " ++ name ++
          " has rowids")
    | none => .error ("rsql: no table named " ++ name)

def schemaColumn (table name : String) : Option TableColumn :=
  (schema.tables.find? fun candidate => candidate.name = table).bind fun candidate =>
    candidate.columns.find? fun column => column.name = name

/-- Whether a predicate has `name IS NOT NULL` as a conjunct. -/
def states (predicate : Option (List Conjunct)) (name : String) : Bool :=
  (predicate.getD []).any fun
    | .notNull column => column = name
    | .other _ _ => false

/-- Why a key column is refused. The first of an arm's key may be NULL. -/
def keyColumnError (walked : Walked) (descending : Option Bool) (written : IndexColumn) :
    Option String :=
  if descending.any (· ≠ written.descending) then
    some "rsql: a Page's key is all ascending or all descending"
  else
    match schemaColumn schema walked.table written.name with
    | none => some ("rsql: no column " ++ written.name ++ " in " ++ walked.table)
    | some column =>
      if !column.int then
        some ("rsql: a Page's key columns are integers, and " ++ written.name ++ " is not")
      else if descending.isSome && column.nullable && !states walked.where_ written.name then
        some ("rsql: a Page's key column after the first is NOT NULL, or its index's predicate " ++
          "states it, and " ++ written.name ++ " is neither")
      else none

/-- The key's names, each column checked against the one before it. -/
def keyColumns (walked : Walked) : Option Bool → List IndexColumn → Except String (List String)
  | _, [] => .ok []
  | descending, written :: rest =>
    match keyColumnError schema walked descending written with
    | some message => .error message
    | none => (keyColumns walked (some written.descending) rest).map (written.name :: ·)

/-- An arm's walk, with a key as long as the first arm's. -/
def walkArm (arm : Arm) (length : Option Nat) : Except String WalkArm :=
  match walkedBy schema arm.walks with
  | .error message => .error message
  | .ok walked =>
    let afterPrefix := 1 + arm.fixed.length
    if walked.columns.length ≤ afterPrefix then
      .error ("rsql: a Page's index has key columns after its Session column and fixed columns: " ++
        walked.index.getD walked.table)
    else
      match (arm.fixed.zip (walked.columns.drop 1)).find? fun (fixed, column) =>
          fixed.column ≠ column.written with
      | some (fixed, _) =>
        .error ("rsql: a Page's fixed columns are its index's columns after the first, in order, " ++
          "and " ++ fixed.column ++ " is not")
      | none =>
        match keyColumns schema walked none (walked.columns.drop afterPrefix) with
        | .error message => .error message
        | .ok key =>
          if length.any (· ≠ key.length) then
            .error "rsql: every arm of a Page has a key of one length"
          else
            .ok ⟨walked.table, arm.aliasName, walked.index,
              walked.columns.take afterPrefix, key, walked.where_⟩

def walkArms : Option Nat → List Arm → Except String (List WalkArm)
  | _, [] => .ok []
  | length, arm :: rest =>
    match walkArm schema arm length with
    | .error message => .error message
    | .ok path =>
      (walkArms (some (length.getD path.key.length)) rest).map (path :: ·)

/-- Why a Row's first fields are not a key's. -/
def fieldsError (names : List String) (fields : List (String × FieldType)) : Option String :=
  if fields.length < names.length then some "rsql: a Page's Row starts with its key"
  else
    match (fields.take names.length).map (·.2) with
    | first :: rest =>
      if first ≠ .positive then
        some ("rsql: a Page's Row starts with its first key column, a Positive, so the zero key " ++
          "is before every row")
      else if rest.any (· = .other) then
        some "rsql: a Page's key fields are Positive or u64"
      else none
    | [] => none

/-- Each arm's index, split into prefix and key. -/
def keysetOf (spec : PageSpec) : Except String Walk :=
  if spec.arms = [] then .error "rsql: a Page has at least one arm"
  else if spec.take = 0 then .error "rsql: a Page takes at least one row"
  else
    match walkArms schema none spec.arms with
    | .error message => .error message
    | .ok arms =>
      let names := (arms.head?.map (·.key)).getD []
      match fieldsError names spec.fields with
      | some message => .error message
      | none => .ok ⟨names, arms⟩

end

/-! ## The text -/

section
variable (engine : Engine)

/-- A conjunct of an index's predicate, with its columns qualified by an alias. -/
def qualify (aliasName : String) : Conjunct → Expr
  | .notNull name =>
    .other false [⟨some aliasName, name⟩] fun _ scope =>
      .ofTruth (some (scope.value engine ⟨some aliasName, name⟩ ≠ .null))
  | .other columns holds =>
    .other false (columns.map fun name => ⟨some aliasName, name⟩) fun _ scope =>
      .ofTruth (holds fun name =>
        if name ∈ columns then scope.value engine ⟨some aliasName, name⟩ else .null)

/-- `column=?1`, then the fixed columns and the predicate. -/
def armWhere (arm : Arm) (path : WalkArm) : List Expr :=
  .equality (.column ⟨some arm.aliasName, path.sessionColumn⟩) (.parameter 1) ::
    ((arm.fixed.map fun fixed =>
        .equality (.column ⟨some arm.aliasName, fixed.column⟩) (.constant fixed.value)) ++
      (path.where_.getD []).map (qualify engine arm.aliasName))

/-- `@after(k1,..,?2,..)`. -/
def armAfter (arm : Arm) (path : WalkArm) : Expr :=
  .after (path.key.map fun column => ⟨some arm.aliasName, column⟩)
    ((List.range path.key.length).map (· + 2))

/-- The table an arm walks, as its SELECT's first source. -/
def walkedSource (arm : Arm) (path : WalkArm) : Source where
  table := path.table
  aliasName := arm.aliasName
  defined := false
  join := .first
  index := path.index
  on := none

/-- An arm's SELECT. -/
def armCore (names : List String) (arm : Arm) (path : WalkArm) : CoreText where
  results := ((path.key.zip names).map fun (column, name) =>
    ⟨.column ⟨some arm.aliasName, column⟩, some name⟩) ++ arm.columns
  sources := walkedSource arm path :: arm.joins
  where_ := some (.conjunction (armWhere engine arm path ++ [armAfter arm path]))

/-- The text of a Page: its arms joined by UNION ALL, in key order, one row more than it takes. -/
def pageText (spec : PageSpec) (walk : Walk) : SelectText :=
  let cores := (spec.arms.zip walk.arms).map fun (arm, path) => armCore engine walk.names arm path
  { first := cores.headD { results := [], sources := [], where_ := none }
    others := cores.tail.map fun core => (.unionAll, core)
    orderBy := walk.names.map fun name => (.column ⟨none, name⟩, false)
    limit := some (.constant (spec.take + 1).repr) }

/-- Why a Page's cores break its structure: each reads its walked table first, under its walked
index, and joins the others by LEFT JOINs. -/
def coresError : List CoreText → List WalkArm → Option String
  | [], [] => none
  | [], _ :: _ => some "rsql: a Page's text has a SELECT for each arm"
  | _ :: _, [] => some "rsql: a Page's text has a SELECT for each arm, and no more"
  | core :: cores, path :: paths =>
    if core.sources.head?.all fun first =>
        first.table ≠ path.table || first.aliasName ≠ path.aliasName || first.index ≠ path.index then
      some "rsql: a Page's arm reads its walked table first, under its walked index"
    else if core.sources.tail.any fun source => source.join ≠ .left then
      some ("rsql: a Page's joins are LEFT JOINs, so every row of its walked range is a row of " ++
        "the list")
    else coresError cores paths

/-- Why a Page's text breaks its structure: a prefix column written DESC does not parse. -/
def pageError (text : SelectText) (walk : Walk) : Option String :=
  if walk.arms.any fun path => path.prefixColumns.any (·.descending) then
    some "rsql: expected the end at 'DESC'"
  else coresError (text.first :: text.others.map (·.2)) walk.arms

/-- Why a Row's fields are not the columns a text returns, in order. -/
def columnsError : Nat → List Result → List (String × FieldType) → Option String
  | number, result :: results, (field, _) :: fields =>
    match result.name with
    | none => some ("rsql: name column " ++ number.repr ++ " with AS")
    | some name =>
      if name ≠ field then
        some ("rsql: column " ++ number.repr ++ " is " ++ name ++ " but Row's field is " ++ field)
      else columnsError (number + 1) results fields
  | _, _, _ => none

def rowError (core : Core) (fields : List (String × FieldType)) : Option String :=
  if core.results.length ≠ fields.length then
    some ("rsql: the text selects " ++ core.results.length.repr ++ " columns but Row has " ++
      fields.length.repr)
  else columnsError 1 core.results fields

/-- A spec that a Page is made of. -/
structure PageSpec.Passes (schema : Schema) (spec : PageSpec) (walk : Walk) : Prop where
  keyset : keysetOf schema spec = .ok walk
  page : pageError (pageText engine spec walk) walk = none
  row : rowError (pageText engine spec walk).first.toCore spec.fields = none

end

/-! ## Chunks -/

/-- What a chunk binds: the Session, and the key it starts after. -/
structure Args where
  session : String
  key : List Nat
  deriving DecidableEq

/-- `?1` is the Session and `?2` on the key. -/
def Args.binding (args : Args) (k : Nat) : Value :=
  if k = 1 then .text args.session
  else match args.key[k - 2]? with
    | some n => .int n
    | none => .null

/-- A row a Page returned: its key, and its other columns. -/
structure PageRow where
  key : List Nat
  rest : List Value
  deriving DecidableEq

/-- The value of a key field. A row that holds none is corrupt. -/
def FieldType.read : FieldType → Value → Option Nat
  | .positive, .int n => if 0 < n then some n.toNat else none
  | .u64, .int n => if 0 ≤ n then some n.toNat else none
  | _, _ => none

def readKey : List FieldType → List Value → Option (List Nat)
  | [], _ => some []
  | field :: fields, value :: values =>
    (field.read value).bind fun n => (readKey fields values).map (n :: ·)
  | _ :: _, [] => none

/-- Whether the Row's other fields hold the columns after the key. -/
abbrev Reads := List Value → Bool

section
variable (spec : PageSpec) (walk : Walk) (reads : Reads)

/-- A row of the text as a Row. -/
def readRow (values : List Value) : Option PageRow :=
  let length := walk.names.length
  if reads (values.drop length) then
    (readKey ((spec.fields.take length).map (·.2)) values).map fun key =>
      ⟨key, values.drop length⟩
  else none

/-- How a key compares with the one before. -/
def keyOrder : List Nat → List Nat → Ordering
  | value :: values, after :: afters => (compare value after).then (keyOrder values afters)
  | _, _ => .eq

/-- The Args of the chunk after `row`, or none when its key is not strictly greater. -/
def next (after : Args) (row : PageRow) : Option Args :=
  if keyOrder row.key after.key = .gt then some { after with key := row.key } else none

/-- A chunk as it is read. -/
structure Chunk where
  after : Args
  taken : List PageRow := []
  more : Bool := false
  failed : Bool := false

/-- A row of the chunk: refused when it is not strictly after the last one, left for the next chunk
when this one has taken its rows, else taken. Whether to go on. -/
def Chunk.visit (chunk : Chunk) (row : PageRow) : Chunk × Bool :=
  match next chunk.after row with
  | none => ({ chunk with failed := true }, false)
  | some after =>
    if chunk.taken.length = spec.take then ({ chunk with more := true }, false)
    else ({ chunk with after := after, taken := chunk.taken ++ [row] }, true)

/-- Visits the rows until a visit stops, or one is no Row. -/
def readEach : Chunk → List (List Value) → Chunk
  | chunk, [] => chunk
  | chunk, values :: rest =>
    match readRow spec walk reads values with
    | none => { chunk with failed := true }
    | some row =>
      match chunk.visit spec row with
      | (chunk, true) => readEach chunk rest
      | (chunk, false) => chunk

inductive Outcome
  | going
  | finished
  | refused
  deriving DecidableEq

/-- A list as it is read, chunk by chunk. -/
structure Reading where
  after : Args
  delivered : List PageRow
  outcome : Outcome

/-- Reading starts from the zero key. -/
def Reading.start (session : String) : Reading where
  after := { session := session, key := walk.names.map fun _ => 0 }
  delivered := []
  outcome := .going

variable (engine : Engine) (schema : Schema)

/-- What a chunk's SELECT returns. -/
def chunkRows (db : Db) (args : Args) : Option (List (List Value)) :=
  (pageText engine spec walk).rows engine schema db args.binding

/-- The next chunk, of what the Store then holds. -/
def Reading.chunk (reading : Reading) (db : Db) : Reading :=
  match reading.outcome with
  | .going =>
    match chunkRows spec walk engine schema db reading.after with
    | none => { reading with outcome := .refused }
    | some rows =>
      let chunk := readEach spec walk reads { after := reading.after } rows
      { after := chunk.after
        delivered := reading.delivered ++ chunk.taken
        outcome := if chunk.failed then .refused else if chunk.more then .going else .finished }
  | _ => reading

/-- A list after some chunks, each of what the Store held at its time. -/
def readingAt (session : String) (dbs : Nat → Db) : Nat → Reading
  | 0 => .start walk session
  | n + 1 => (readingAt session dbs n).chunk spec walk reads engine schema (dbs n)

end

end Rui.Rsql
