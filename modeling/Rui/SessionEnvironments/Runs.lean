import Rui.SessionEnvironments.OfferLaws

/-!
# Every sequence of offers and copies

The table with the allocations it took and gave back, over any run of its
locked sections: what holds after each, why a Session loses its environment,
and which one it holds while nothing is replaced.
-/

namespace Rui.SessionEnvironments
open Library

/-- An environment as a receiver settles it in its allocation. -/
structure Environment where
  bytes : List UInt8
  capacity : Nat
  fits : bytes.length ≤ capacity
  bounded : capacity ≤ maxEnvironmentBytes

/-- A locked section: an offer, or one turn of a copy's loop. -/
inductive Call
  | offer (session : Session) (rank : Rank) (environment : Environment)
  | look (session : Session) (length : Nat)

/-- The table, and the allocations made, taken by it and released. -/
structure World where
  table : Table
  born : Nat
  taken : List Nat
  freed : List Nat

namespace World

def empty : World := ⟨.empty, 0, [], []⟩

/-- `Offer.init` and `settle`: an allocation of its own. -/
def prepare (self : World) (environment : Environment) : Offer :=
  ⟨some ⟨self.born, 0, environment.bytes, environment.capacity, 0⟩, []⟩

def step (self : World) : Call → Option World
  | .offer session rank environment =>
    (self.table.offer session rank (self.prepare environment)).map fun r =>
      { table := r.1
        born := self.born + 1
        taken := if r.2.candidate.isNone then self.born :: self.taken else self.taken
        freed := r.2.released.map (·.id) ++ self.freed }
  | .look session length =>
    (self.table.look session length).map fun r => { self with table := r.2 }

def run (self : World) : List Call → Option World
  | [] => some self
  | call :: rest => (self.step call).bind fun next => next.run rest

/-- The allocations that hold the table's values. -/
def held (self : World) : List Nat := self.table.values.filterMap fun value => value.map (·.id)

end World

/-- The environment a Session's Bash starts from, and its rank. -/
def Table.environmentOf (t : Table) (s : Session) : Option (Rank × List UInt8) :=
  (t.find s.bytes).bind fun i =>
    (t.value (t.entry i).value).map fun held => ((t.entry i).rank, held.bytes)

/-! ## What the claims of the source say -/

/-- The table's counts, exactly. -/
structure Table.Exact (t : Table) : Prop where
  names : ∀ i, (t.entry i).unused = false → ∃ held, t.value (t.entry i).value = some held
  refs : ∀ i held, t.value i = some held → held.refs = t.named i ∧ 0 < held.refs
  distinct : ∀ i j a b, t.value i = some a → t.value j = some b → a.bytes = b.bytes → i = j
  count : t.valueCount = tally one t.values ∧ t.valueCount ≤ maxValues
  bytes : t.valueBytes = tally weight t.values ∧ t.valueBytes ≤ maxValueBytes
  alone : ∀ i j, (t.entry i).unused = false → (t.entry i).session = (t.entry j).session → i = j

theorem Table.Sound.exact {t : Table} (h : t.Sound) : t.Exact := by
  refine ⟨fun i hused => ?_, fun i held hheld => ?_, h.distinct, ⟨h.counted.count, ?_⟩,
    ⟨h.counted.bytes, h.within⟩, h.alone⟩
  · exact h.counted.held (Nat.lt_of_lt_of_le (named_pos hused) (Nat.le_add_right _ _))
  · have hrefs := h.counted.refs i held hheld
    exact ⟨by simpa using hrefs, h.counted.positive i held hheld⟩
  · rw [h.counted.count, ← h.counted.slots]
    refine tally_le_length fun value _ => ?_
    cases value <;> simp

/-- Why a Session's entry is replaced by another Session's offer: its value goes
first of those to drop, or it is the least recently used of a full table. -/
def Table.Replaces (t : Table) (s : Session) (capacity place : Nat) : Prop :=
  (∃ dropped, t.DroppedFor s capacity dropped ∧ (t.entry place).value ∈ dropped) ∨
    t.entries.length = maxSessions ∧ (∀ i, i < maxSessions → (t.entry i).unused = false) ∧
      ∀ i, i < maxSessions → (t.entry place).used ≤ (t.entry i).used

/-- What a call does to the entry a Session has. -/
def World.Keeps (w : World) (call : Call) (w' : World) (s : Session) (place : Nat) : Prop :=
  w'.table.environmentOf s = w.table.environmentOf s ∨
    (∃ rank environment, call = .offer s rank environment ∧
      rank.outranks (w.table.entry place).rank = true ∧
      w'.table.environmentOf s = some (rank, environment.bytes)) ∨
    ∃ other rank environment, call = .offer other rank environment ∧ other.bytes ≠ s.bytes ∧
      w'.table.environmentOf s = none ∧ w.table.Replaces other environment.capacity place

/-- The environments offered for a Session, first to last. -/
def offersTo (s : Session) (calls : List Call) : List (Rank × List UInt8) :=
  calls.filterMap fun call =>
    match call with
    | .offer session rank environment =>
      if session.bytes = s.bytes then some (rank, environment.bytes) else none
    | .look _ _ => none

/-- One of the environments offered, which none of them outranks. -/
def Highest (offers : List (Rank × List UInt8)) : Option (Rank × List UInt8) → Prop
  | none => offers = []
  | some held => held ∈ offers ∧ ∀ offered ∈ offers, offered.1.outranks held.1 = false

/-- No call of a run replaces a Session for room. -/
def World.Unreplaced (w : World) : List Call → Prop
  | [] => True
  | call :: rest => ∀ w', w.step call = some w' →
    (∀ s : Session, w.table.environmentOf s ≠ none → w'.table.environmentOf s ≠ none) ∧
      w'.Unreplaced rest

/-! ## Ranks -/

theorem Rank.outranks_irrefl (a : Rank) : a.outranks a = false := by simp [outranks]

theorem Rank.outranks_trans {a b c : Rank} (h : a.outranks b = true) (h' : b.outranks c = true) :
    a.outranks c = true := by
  obtain ⟨ao, aa⟩ := a
  obtain ⟨bo, ba⟩ := b
  obtain ⟨co, ca⟩ := c
  cases ao <;> cases bo <;> cases co <;> simp [outranks, Origin.backing] at * <;> omega

/-- Two ranks of which none outranks the other are one rank. -/
theorem Rank.eq_of_not_outranks {a b : Rank} (h : a.outranks b = false)
    (h' : b.outranks a = false) : a = b := by
  obtain ⟨ao, aa⟩ := a
  obtain ⟨bo, ba⟩ := b
  cases ao <;> cases bo <;> simp [outranks, Origin.backing] at * <;> omega

/-- What an offer leaves of what a Session holds, while nothing is replaced. -/
def raise (held : Option (Rank × List UInt8)) (offered : Rank × List UInt8) :
    Option (Rank × List UInt8) :=
  match held with
  | none => some offered
  | some best => if offered.1.outranks best.1 then some offered else some best

theorem Highest.raise {offers : List (Rank × List UInt8)} {held : Option (Rank × List UInt8)}
    (h : Highest offers held) (offered : Rank × List UInt8) :
    Highest (offers ++ [offered]) (SessionEnvironments.raise held offered) := by
  cases held with
  | none =>
    rw [Highest] at h
    rw [h]
    exact ⟨List.mem_cons_self, fun other hother => by
      rw [List.mem_singleton.mp hother, Rank.outranks_irrefl]⟩
  | some best =>
    obtain ⟨hmem, hnone⟩ := h
    unfold SessionEnvironments.raise
    by_cases hhigher : offered.1.outranks best.1
    · simp only [hhigher, if_true]
      refine ⟨by simp, fun other hother => ?_⟩
      rcases List.mem_append.mp hother with hother | hother
      · have hbelow := hnone other hother
        by_contra habove
        rw [Bool.not_eq_false] at habove
        rw [Rank.outranks_trans habove hhigher] at hbelow
        cases hbelow
      · rw [List.mem_singleton.mp hother, Rank.outranks_irrefl]
    · simp only [hhigher]
      refine ⟨by simp [hmem], fun other hother => ?_⟩
      rcases List.mem_append.mp hother with hother | hother
      · exact hnone other hother
      · rw [List.mem_singleton.mp hother]
        simpa using hhigher

theorem Highest.foldl {offers rest : List (Rank × List UInt8)}
    {held : Option (Rank × List UInt8)} (h : Highest offers held) :
    Highest (offers ++ rest) (rest.foldl SessionEnvironments.raise held) := by
  induction rest generalizing offers held with
  | nil => simpa using h
  | cons offered rest ih => simpa using ih (h.raise offered)

/-- **The order does not matter**: what is offered decides what is held, where
no two environments have one rank. -/
theorem Highest.unique {offers offers' : List (Rank × List UInt8)}
    {held held' : Option (Rank × List UInt8)} (h : Highest offers held)
    (h' : Highest offers' held') (hperm : offers.Perm offers')
    (htie : ∀ a ∈ offers, ∀ b ∈ offers, a.1 = b.1 → a.2 = b.2) : held = held' := by
  cases held with
  | none =>
    cases held' with
    | none => rfl
    | some best =>
      rw [Highest] at h
      rw [h] at hperm
      have := hperm.symm.subset h'.1
      simp at this
  | some best =>
    cases held' with
    | none =>
      rw [Highest] at h'
      rw [h'] at hperm
      have := hperm.subset h.1
      simp at this
    | some best' =>
      have hin' := hperm.symm.subset h'.1
      have hrank : best.1 = best'.1 := Rank.eq_of_not_outranks
        (h'.2 best (hperm.subset h.1)) (h.2 best' hin')
      rw [Option.some.injEq]
      exact Prod.ext hrank (htie best h.1 best' hin' hrank)

end Rui.SessionEnvironments
