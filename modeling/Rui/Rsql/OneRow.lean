import Rui.Rsql.Select

/-!
# Reads of one row

A SELECT whose keys pin every table it reads is stepped once. The analysis reads
the `=` conjuncts of its WHERE and ONs; here it is, and what each conjunct says of
two rows of the result.
-/

namespace Rui.Rsql

/-! ## The analysis -/

/-- Whether a side of a conjunct is exactly source `index`'s `column`: qualified by its alias, or
bare when it is the only source. Written `name DESC`, a column is nobody's name. -/
def names (side : Expr) (sources : List Source) (index : Nat) (column : IndexColumn) : Bool :=
  match side with
  | .column c =>
    !column.descending && c.name = column.name && match c.table with
      | some table => sources[index]?.any fun source => table = source.aliasName
      | none => sources.length = 1
  | _ => false

/-- Whether a value is the same for every row, once the pinned sources are. -/
def fixed (value : Expr) (sources : List Source) (pinned : List Bool) (index : Nat) : Bool :=
  match value with
  | .parameter _ | .session _ | .constant _ => true
  | .column c => (List.range sources.length).any fun at_ =>
    pinned[at_]?.getD false && at_ ≠ index &&
      sources[at_]?.any fun source => c.table = some source.aliasName
  | _ => false

/-- Whether `condition` is `column = value`, either way round, for source `index`'s `column`. -/
def fixes (condition : Expr) (sources : List Source) (pinned : List Bool) (index : Nat)
    (column : IndexColumn) : Bool :=
  match condition with
  | .equality left right =>
    names left sources index column && fixed right sources pinned index ||
      names right sources index column && fixed left sources pinned index
  | _ => false

/-- A conjunct, and the one source it may pin where it is a LEFT JOIN's. -/
structure Term where
  condition : Expr
  only : Option Nat

def Core.terms (core : Core) : List Term :=
  (core.sources.zipIdx.flatMap fun (source, index) => match source.on with
    | none => []
    | some on => (conjuncts on).map fun condition =>
      ⟨condition, if source.join = .left then some index else none⟩) ++
  match core.where_ with
  | none => []
  | some condition => (conjuncts condition).map fun condition => ⟨condition, none⟩

section
variable (schema : Schema) (core : Core)

/-- Whether the conjuncts fix all columns of one of a source's keys. -/
def pins (pinned : List Bool) (index : Nat) (source : Source) : Bool :=
  (schema.keys source.table).any fun key => key.all fun column => core.terms.any fun term =>
    (term.only = none || term.only = some index) &&
      fixes term.condition core.sources pinned index column

/-- One source's turn in a sweep. -/
def visit (pinned : List Bool) (index : Nat) : List Bool :=
  match core.sources[index]? with
  | none => pinned
  | some source =>
    if pinned[index]?.getD false || source.defined then pinned
    else pinned.set index (pins schema core pinned index source)

/-- A sweep over the sources, which sees what it pinned so far. -/
def sweep (pinned : List Bool) : List Bool :=
  (List.range core.sources.length).foldl (visit schema core) pinned

/-- Sweeps until one changes nothing. Each other one pins a source. -/
def sweeps : Nat → List Bool → List Bool
  | 0, pinned => pinned
  | more + 1, pinned =>
    let next := sweep schema core pinned
    if next = pinned then pinned else sweeps more next

/-- Whether a SELECT core returns at most one row because of keys alone. -/
def pinsOneRow : Bool :=
  (sweeps schema core core.sources.length (core.sources.map fun _ => false)).all id

end

/-- Two rows that agree on a key: nothing NULL equals. -/
def Agree (engine : Engine) (key : List IndexColumn) (r r' : Row) : Prop :=
  ∀ column ∈ key, r (engine.fold column.name) = r' (engine.fold column.name) ∧
    r (engine.fold column.name) ≠ .null

/-- No two rows of a table agree on one of its keys. -/
def Db.Keyed (db : Db) (engine : Engine) (schema : Schema) : Prop :=
  ∀ table, (db.table table).Pairwise fun r r' =>
    ∀ key ∈ schema.keys table, ¬ Agree engine key r r'

variable {engine : Engine} {key : List IndexColumn} {r r' : Row}

theorem Agree.symm (h : Agree engine key r r') : Agree engine key r' r :=
  fun column hin => ⟨(h column hin).1.symm, (h column hin).1 ▸ (h column hin).2⟩

/-- Rows that agree on a key are one row. -/
theorem Db.Keyed.eq {db : Db} {schema : Schema} (h : db.Keyed engine schema) {table : String}
    (hr : r ∈ db.table table) (hr' : r' ∈ db.table table) (hkey : key ∈ schema.keys table)
    (hagree : Agree engine key r r') : r = r' := by
  have hpair := h table
  by_contra hne
  rcases List.pairwise_iff_getElem.mp hpair with hpair
  obtain ⟨i, hi, rfl⟩ := List.mem_iff_getElem.mp hr
  obtain ⟨j, hj, rfl⟩ := List.mem_iff_getElem.mp hr'
  rcases Nat.lt_trichotomy i j with hlt | heq | hgt
  · exact hpair i j hi hj hlt key hkey hagree
  · subst heq
    exact hne rfl
  · exact hpair j i hj hi hgt key hkey hagree.symm

/-! ## Conditions that hold -/

section
variable {engine : Engine} {args : Nat → Value} {group : List Scope} {scope : Scope}

theorem truth_ofTruth (b : Option Bool) : engine.truth (.ofTruth b) = b := by
  rcases b with _ | _ | _ <;> rfl

theorem both_true {a b : Option Bool} : both a b = some true ↔ a = some true ∧ b = some true := by
  rcases a with _ | _ | _ <;> rcases b with _ | _ | _ <;> simp [both]

theorem allTrue_holds (terms : List Expr) :
    allTrue engine args group scope terms = some true ↔
      ∀ term ∈ terms, term.holds engine args group scope = true := by
  induction terms with
  | nil => simp [allTrue]
  | cons term rest ih =>
    simp only [allTrue, both_true, ih, List.forall_mem_cons, Expr.holds, decide_eq_true_eq]

end

end Rui.Rsql
