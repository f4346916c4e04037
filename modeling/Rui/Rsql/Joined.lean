import Rui.Rsql.OneRow

/-!
# The rows of a FROM

Each row of a FROM holds one row of each source, or none after a LEFT JOIN. Where
each table's rows differ on each of its keys, two rows of the FROM differ so on
one of the tables.
-/

namespace Rui.Rsql

section
variable (engine : Engine) (schema : Schema) (db : Db) (args : Nat → Value)

/-- What the joins make of `sources`, each with a row of its own that its ON keeps. Only after a
LEFT JOIN may there be none. -/
structure Joined (sources : List Source) (scope : Scope) : Prop where
  length : scope.length = sources.length
  bound : ∀ (i : Nat) (source : Source), sources[i]? = some source → ∃ row,
    scope[i]? = some (source.bind schema db row) ∧ (∀ r, row = some r → r ∈ source.rows db) ∧
      ((source.join = .left → row ≠ none) → source.keeps engine args (scope.take (i + 1)) = true)

/-- Two rows of a FROM with rows of one source that agree on none of its keys. -/
def Apart (sources : List Source) (scope other : Scope) : Prop :=
  ∃ (i : Nat) (source : Source) (r r' : Row), sources[i]? = some source ∧
    scope[i]? = some (source.bind schema db (some r)) ∧
    other[i]? = some (source.bind schema db (some r')) ∧
    ∀ key ∈ schema.keys source.table, ¬ Agree engine key r r'

end

section
variable {engine : Engine} {schema : Schema} {db : Db} {args : Nat → Value}

theorem joinAll_append (sources : List Source) (source : Source) :
    joinAll engine schema db args (sources ++ [source]) =
      (joinAll engine schema db args sources).flatMap (source.joins engine schema db args) := by
  simp only [joinAll, List.foldl_append, List.foldl_cons, List.foldl_nil]

variable {source : Source} {left scope : Scope} {sources : List Source}

/-- A join adds one bound: a row its ON keeps, or for a LEFT JOIN perhaps none. -/
theorem Source.joins_mem (h : scope ∈ source.joins engine schema db args left) :
    ∃ row, scope = left ++ [source.bind schema db row] ∧ (∀ r, row = some r → r ∈ source.rows db) ∧
      ((source.join = .left → row ≠ none) → source.keeps engine args scope = true) := by
  simp only [Source.joins] at h
  split at h
  case isTrue hleft =>
    simp only [Bool.and_eq_true, decide_eq_true_eq] at hleft
    refine ⟨none, List.mem_singleton.mp h, fun r hr => (nomatch hr), fun hrow => ?_⟩
    exact absurd rfl (hrow hleft.1)
  case isFalse =>
    simp only [List.mem_filter, List.mem_map] at h
    obtain ⟨⟨r, hr, rfl⟩, hkeeps⟩ := h
    exact ⟨some r, rfl, fun r' hr' => Option.some.inj hr' ▸ hr, fun _ => hkeeps⟩

theorem Joined.snoc (hjoined : Joined engine schema db args sources left)
    (h : scope ∈ source.joins engine schema db args left) :
    Joined engine schema db args (sources ++ [source]) scope := by
  obtain ⟨row, rfl, hmem, hkeeps⟩ := Source.joins_mem h
  constructor
  case length => simp [hjoined.length]
  case bound =>
    intro i each heach
    rcases Nat.lt_or_ge i sources.length with hi | hi
    · rw [List.getElem?_append_left hi] at heach
      obtain ⟨row', hrow', hmem', hkeeps'⟩ := hjoined.bound i each heach
      refine ⟨row', ?_, hmem', fun hleft => ?_⟩
      · rw [List.getElem?_append_left (hjoined.length ▸ hi)]
        exact hrow'
      · rw [List.take_append_of_le_length (hjoined.length ▸ hi)]
        exact hkeeps' hleft
    · have hlast : i = sources.length := by
        have := (List.getElem?_eq_some_iff.mp heach).1
        simp only [List.length_append, List.length_singleton] at this
        omega
      subst hlast
      rw [List.getElem?_append_right (Nat.le_refl _), Nat.sub_self, List.getElem?_cons_zero] at heach
      obtain rfl := Option.some.inj heach
      refine ⟨row, ?_, hmem, fun hleft => ?_⟩
      · rw [← hjoined.length, List.getElem?_append_right (Nat.le_refl _), Nat.sub_self]
        rfl
      · rw [List.take_of_length_le (by simp [hjoined.length])]
        exact hkeeps hleft

theorem joinAll_joined (sources : List Source) :
    ∀ scope ∈ joinAll engine schema db args sources, Joined engine schema db args sources scope := by
  induction sources using List.reverseRecOn with
  | nil =>
    intro scope hin
    obtain rfl := List.mem_singleton.mp hin
    exact ⟨rfl, fun i source h => (nomatch h)⟩
  | append_singleton sources source ih =>
    intro scope hin
    rw [joinAll_append, List.mem_flatMap] at hin
    obtain ⟨left, hleft, hscope⟩ := hin
    exact (ih left hleft).snoc hscope

theorem Apart.snoc {left' scope' : Scope} (h : Apart engine schema db sources left left')
    (hscope : scope ∈ source.joins engine schema db args left)
    (hscope' : scope' ∈ source.joins engine schema db args left') :
    Apart engine schema db (sources ++ [source]) scope scope' := by
  obtain ⟨i, each, r, r', heach, hr, hr', hkeys⟩ := h
  obtain ⟨row, rfl, -⟩ := Source.joins_mem hscope
  obtain ⟨row', rfl, -⟩ := Source.joins_mem hscope'
  refine ⟨i, each, r, r', ?_, ?_, ?_, hkeys⟩
  · rw [List.getElem?_append_left (List.getElem?_eq_some_iff.mp heach).1, heach]
  · rw [List.getElem?_append_left (List.getElem?_eq_some_iff.mp hr).1, hr]
  · rw [List.getElem?_append_left (List.getElem?_eq_some_iff.mp hr').1, hr']

end

end Rui.Rsql
