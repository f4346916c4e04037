import Rui.Library.Machine

/-!
# Custody of running Attempts

The pool of custody records an execution owner keeps for its Attempts
(`execution.zig`), with the one-shot dispatch permits of `attempt.zig` that
attaching consumes. Generations are machine words, so a record reserved
`2 ^ 64` times would name an old token again.
-/

namespace Rui.Execution

/-! ## Attempts and their permits -/

structure ActionAttemptBinding where
  turnId : UInt64
  parentOperationId : UInt64
  actionId : UInt64
  deriving DecidableEq, Repr

structure AttemptBinding where
  turnId : UInt64
  operationId : UInt64
  attemptOrdinal : UInt64
  deriving DecidableEq, Repr

/-- The Attempt a custody record holds: a model Attempt or an Action's. -/
inductive CustodyBinding
  | model (binding : AttemptBinding)
  | action (binding : ActionAttemptBinding)
  deriving DecidableEq, Repr

/-- A `DispatchPermit` or an `ActionDispatchPermit`: the two differ only in
the binding they carry, which `CustodyBinding` tells apart. -/
structure DispatchPermit where
  binding : CustodyBinding
  available : Bool := true
  deriving DecidableEq, Repr

inductive CustodyError
  | foreignCustody
  | staleCustody
  | invalidCustodyTransition
  | foreignLaunchAuthority
  | dispatchPermitConsumed
  | custodyDetached
  deriving DecidableEq, Repr

/-- A permit after its one use. -/
def DispatchPermit.spent (self : DispatchPermit) : DispatchPermit := { self with available := false }

def DispatchPermit.consume (self : DispatchPermit) :
    Except CustodyError (CustodyBinding × DispatchPermit) :=
  if self.available then .ok (self.binding, self.spent) else .error .dispatchPermitConsumed

/-! ## Records -/

structure CustodyToken where
  index : Nat
  generation : UInt64
  deriving DecidableEq, Repr

inductive State | free | reserved | attached | detached
  deriving DecidableEq, Repr

/-- A record; `none` is a binding nothing has stored yet. -/
structure CustodyRecord where
  state : State := .free
  generation : UInt64 := 0
  delivered : Bool := false
  launchAvailable : Bool := false
  binding : Option CustodyBinding := none
  deriving DecidableEq, Repr

abbrev CustodyPool := List CustodyRecord

/-- The record `token` names, if it is still the one reserved last. -/
def current (self : CustodyPool) (token : CustodyToken) : Except CustodyError CustodyRecord :=
  match self[token.index]? with
  | none => .error .foreignCustody
  | some record =>
    if record.generation = token.generation then .ok record else .error .staleCustody

/-- `reserve` from record `index` on: the first free record is taken. -/
def reserveFrom (index : Nat) : CustodyPool → Option (CustodyPool × CustodyToken)
  | [] => none
  | record :: records =>
    if record.state = .free then
      let generation := record.generation + 1
      some ({ record with state := .reserved, generation, delivered := false } :: records,
        ⟨index, generation⟩)
    else
      (reserveFrom (index + 1) records).map fun (records, token) => (record :: records, token)

def reserve (self : CustodyPool) : Option (CustodyPool × CustodyToken) := reserveFrom 0 self

def attach (self : CustodyPool) (token : CustodyToken) (permit : DispatchPermit) :
    Except CustodyError (CustodyBinding × CustodyPool × DispatchPermit) := do
  let record ← current self token
  if record.state ≠ .reserved then throw .invalidCustodyTransition
  let (binding, permit) ← permit.consume
  return (binding, self.set token.index
    { record with binding := some binding, launchAvailable := true, state := .attached }, permit)

def consumeLaunchAuthority (self : CustodyPool) (token : CustodyToken)
    (expected : CustodyBinding) : Except CustodyError CustodyPool := do
  let record ← current self token
  if record.state ≠ .attached ∨ record.binding ≠ some expected then throw .foreignLaunchAuthority
  if !record.launchAvailable then throw .dispatchPermitConsumed
  return self.set token.index { record with launchAvailable := false }

/-- Whether the delivery was claimed, and the pool after. -/
def claimTerminalDelivery (self : CustodyPool) (token : CustodyToken) : Bool × CustodyPool :=
  match current self token with
  | .error _ => (false, self)
  | .ok record =>
    if record.state ≠ .attached then (false, self)
    else if record.delivered then (false, self)
    else (true, self.set token.index { record with delivered := true })

/-- The exchange `detach`, `releaseUnused` and `cleanupComplete` make. -/
def exchange (source target : State) (self : CustodyPool) (token : CustodyToken) :
    Except CustodyError CustodyPool := do
  let record ← current self token
  if record.state ≠ source then throw .invalidCustodyTransition
  return self.set token.index { record with state := target }

def detach : CustodyPool → CustodyToken → Except CustodyError CustodyPool :=
  exchange .attached .detached

def releaseUnused : CustodyPool → CustodyToken → Except CustodyError CustodyPool :=
  exchange .reserved .free

def cleanupComplete : CustodyPool → CustodyToken → Except CustodyError CustodyPool :=
  exchange .detached .free

/-! ## The pool with its callers -/

/-- A call of the pool. A permit is the caller's, so attaching names it. -/
inductive Call
  | reserve
  | attach (token : CustodyToken) (permit : Nat)
  | consumeLaunchAuthority (token : CustodyToken) (expected : CustodyBinding)
  | claimTerminalDelivery (token : CustodyToken)
  | detach (token : CustodyToken)
  | releaseUnused (token : CustodyToken)
  | cleanupComplete (token : CustodyToken)
  deriving DecidableEq, Repr

inductive Reply
  | reserved (token : Option CustodyToken)
  | attached (binding : CustodyBinding)
  | claimed (first : Bool)
  | done
  | refused (error : CustodyError)
  deriving DecidableEq, Repr

/-- The token a call carries. -/
def Call.token : Call → Option CustodyToken
  | .reserve => none
  | .attach token _ | .consumeLaunchAuthority token _ | .claimTerminalDelivery token
  | .detach token | .releaseUnused token | .cleanupComplete token => some token

structure System where
  pool : CustodyPool
  permits : Nat → DispatchPermit

/-- The system with record `i` replaced. -/
def System.put (s : System) (i : Nat) (r : CustodyRecord) : System :=
  { s with pool := s.pool.set i r }

/-- A pool of `count` empty records beside any permits. -/
def System.initial (count : Nat) (permits : Nat → DispatchPermit) : System :=
  ⟨List.replicate count {}, permits⟩

/-- A call that only moves the pool. -/
def System.answer (s : System) (outcome : Except CustodyError CustodyPool) : System × Reply :=
  match outcome with
  | .ok pool => ({ s with pool }, .done)
  | .error error => (s, .refused error)

def System.call (s : System) : Call → System × Reply
  | .reserve =>
    match reserve s.pool with
    | some (pool, token) => ({ s with pool }, .reserved (some token))
    | none => (s, .reserved none)
  | .attach token permit =>
    match attach s.pool token (s.permits permit) with
    | .ok (binding, pool, left) =>
      (⟨pool, Function.update s.permits permit left⟩, .attached binding)
    | .error error => (s, .refused error)
  | .consumeLaunchAuthority token expected =>
    s.answer (consumeLaunchAuthority s.pool token expected)
  | .claimTerminalDelivery token =>
    let (first, pool) := claimTerminalDelivery s.pool token
    ({ s with pool }, .claimed first)
  | .detach token => s.answer (detach s.pool token)
  | .releaseUnused token => s.answer (releaseUnused s.pool token)
  | .cleanupComplete token => s.answer (cleanupComplete s.pool token)

/-- The custody machine: any calls with any tokens, issued or forged. -/
def custody : Library.Machine System Call Reply := ⟨System.call⟩

/-! ## What a call can do -/

def Reply.Fails : Reply → Prop
  | .reserved token => token = none
  | .claimed first => first = false
  | .refused _ => True
  | .attached _ | .done => False

/-- Every way a call can end: refused with nothing moved, or one record's
single advance. -/
inductive Moves (s : System) : Call → Reply → System → Prop
  | refused {op reply} : reply.Fails → Moves s op reply s
  | reserve {i r} : s.pool[i]? = some r → r.state = .free →
      Moves s .reserve (.reserved (some ⟨i, r.generation + 1⟩))
        (s.put i { r with state := .reserved, generation := r.generation + 1, delivered := false })
  | attach {i r p b} : s.pool[i]? = some r → r.state = .reserved → (s.permits p).available →
      (s.permits p).binding = b →
      Moves s (.attach ⟨i, r.generation⟩ p) (.attached b)
        { s.put i { r with binding := some b, launchAvailable := true, state := .attached } with
          permits := Function.update s.permits p (s.permits p).spent }
  | launch {i r x} : s.pool[i]? = some r → r.state = .attached → r.binding = some x →
      r.launchAvailable →
      Moves s (.consumeLaunchAuthority ⟨i, r.generation⟩ x) .done
        (s.put i { r with launchAvailable := false })
  | claim {i r} : s.pool[i]? = some r → r.state = .attached → r.delivered = false →
      Moves s (.claimTerminalDelivery ⟨i, r.generation⟩) (.claimed true)
        (s.put i { r with delivered := true })
  | detach {i r} : s.pool[i]? = some r → r.state = .attached →
      Moves s (.detach ⟨i, r.generation⟩) .done (s.put i { r with state := .detached })
  | release {i r} : s.pool[i]? = some r → r.state = .reserved →
      Moves s (.releaseUnused ⟨i, r.generation⟩) .done (s.put i { r with state := .free })
  | clean {i r} : s.pool[i]? = some r → r.state = .detached →
      Moves s (.cleanupComplete ⟨i, r.generation⟩) .done (s.put i { r with state := .free })

variable {pool pool' : CustodyPool}

theorem current_ok {token : CustodyToken} {r : CustodyRecord} (h : current pool token = .ok r) :
    pool[token.index]? = some r ∧ token = ⟨token.index, r.generation⟩ := by
  unfold current at h
  split at h
  · cases h
  · split at h
    · rename_i record hr hg
      cases h
      exact ⟨hr, by rw [hg]⟩
    · cases h

theorem reserveFrom_some {start : Nat} {token : CustodyToken}
    (h : reserveFrom start pool = some (pool', token)) :
    ∃ i r, pool[i]? = some r ∧ r.state = .free ∧ token = ⟨start + i, r.generation + 1⟩ ∧
      pool' = pool.set i
        { r with state := .reserved, generation := r.generation + 1, delivered := false } := by
  induction pool generalizing start pool' with
  | nil => cases h
  | cons record records ih =>
    unfold reserveFrom at h
    split at h
    · rename_i hfree
      cases h
      exact ⟨0, record, rfl, hfree, rfl, rfl⟩
    · obtain ⟨⟨rest, token'⟩, hrest, heq⟩ := Option.map_eq_some_iff.mp h
      cases heq
      obtain ⟨i, r, hr, hfree, htoken, hpool⟩ := ih hrest
      refine ⟨i + 1, r, hr, hfree, ?_, by rw [hpool]; rfl⟩
      rw [htoken, Nat.add_assoc, Nat.add_comm 1 i]

/-- The exchanges move the state of the current record and nothing else. -/
theorem exchange_ok {source target : State} {token : CustodyToken}
    (h : exchange source target pool token = .ok pool') :
    ∃ i r, pool[i]? = some r ∧ token = ⟨i, r.generation⟩ ∧ r.state = source ∧
      pool' = pool.set i { r with state := target } := by
  unfold exchange at h
  cases hc : current pool token with
  | error e => rw [hc] at h; cases h
  | ok r =>
    obtain ⟨hr, ht⟩ := current_ok hc
    rw [hc] at h
    by_cases hs : r.state = source
    · simp only [bind, Except.bind, hs, ne_eq, not_true_eq_false, ↓reduceIte, pure, Except.pure,
        Except.ok.injEq] at h
      exact ⟨token.index, r, hr, ht, hs, h.symm⟩
    · simp [bind, Except.bind, hs, throw, throwThe, MonadExceptOf.throw] at h

theorem attach_ok {token : CustodyToken} {permit permit' : DispatchPermit}
    {binding : CustodyBinding} (h : attach pool token permit = .ok (binding, pool', permit')) :
    ∃ i r, pool[i]? = some r ∧ token = ⟨i, r.generation⟩ ∧ r.state = .reserved ∧
      permit.available ∧ binding = permit.binding ∧
      pool' = pool.set i
        { r with binding := some permit.binding, launchAvailable := true, state := .attached } ∧
      permit' = permit.spent := by
  unfold attach at h
  cases hc : current pool token with
  | error e => rw [hc] at h; cases h
  | ok r =>
    obtain ⟨hr, ht⟩ := current_ok hc
    rw [hc] at h
    by_cases hs : r.state = .reserved
    · cases ha : permit.available with
      | false =>
        simp [bind, Except.bind, hs, DispatchPermit.consume, ha] at h
      | true =>
        simp only [bind, Except.bind, hs, ne_eq, not_true_eq_false, ↓reduceIte, pure, Except.pure,
          DispatchPermit.consume, ha, Except.ok.injEq, Prod.mk.injEq] at h
        exact ⟨token.index, r, hr, ht, hs, rfl, h.1.symm, by rw [← h.2.1, h.1], h.2.2.symm⟩
    · simp [bind, Except.bind, hs, throw, throwThe, MonadExceptOf.throw] at h

theorem consumeLaunchAuthority_ok {token : CustodyToken} {expected : CustodyBinding}
    (h : consumeLaunchAuthority pool token expected = .ok pool') :
    ∃ i r, pool[i]? = some r ∧ token = ⟨i, r.generation⟩ ∧ r.state = .attached ∧
      r.binding = some expected ∧ r.launchAvailable ∧
      pool' = pool.set i { r with launchAvailable := false } := by
  unfold consumeLaunchAuthority at h
  cases hc : current pool token with
  | error e => rw [hc] at h; cases h
  | ok r =>
    obtain ⟨hr, ht⟩ := current_ok hc
    rw [hc] at h
    by_cases hs : r.state ≠ .attached ∨ r.binding ≠ some expected
    · simp [bind, Except.bind, hs, throw, throwThe, MonadExceptOf.throw] at h
    · obtain ⟨hstate, hbinding⟩ := not_or.mp hs
      cases hl : r.launchAvailable with
      | false =>
        simp [bind, Except.bind, hs, hl, throw, throwThe, MonadExceptOf.throw] at h
      | true =>
        simp only [bind, Except.bind, hs, ↓reduceIte, hl, pure, Except.pure, Bool.not_true,
          Bool.false_eq_true, Except.ok.injEq] at h
        exact ⟨token.index, r, hr, ht, not_not.mp hstate, not_not.mp hbinding, hl, h.symm⟩

theorem claimTerminalDelivery_true {token : CustodyToken}
    (h : claimTerminalDelivery pool token = (true, pool')) :
    ∃ i r, pool[i]? = some r ∧ token = ⟨i, r.generation⟩ ∧ r.state = .attached ∧
      r.delivered = false ∧ pool' = pool.set i { r with delivered := true } := by
  unfold claimTerminalDelivery at h
  split at h
  · cases h
  · rename_i r hc
    obtain ⟨hr, ht⟩ := current_ok hc
    split at h
    · cases h
    · rename_i hs
      split at h
      · cases h
      · rename_i hd
        cases h
        exact ⟨token.index, r, hr, ht, not_not.mp hs, by simpa using hd, rfl⟩

theorem claimTerminalDelivery_false {token : CustodyToken}
    (h : claimTerminalDelivery pool token = (false, pool')) : pool' = pool := by
  unfold claimTerminalDelivery at h
  split at h
  · cases h; rfl
  · split at h
    · cases h; rfl
    · split at h <;> cases h
      rfl

/-- A call on the pool alone either is refused or moves the pool as its
outcome says. -/
theorem answer_moves {s : System} {op : Call} {outcome : Except CustodyError CustodyPool}
    (h : ∀ pool, outcome = .ok pool → Moves s op .done { s with pool }) :
    Moves s op (s.answer outcome).2 (s.answer outcome).1 := by
  cases outcome with
  | error e => exact .refused trivial
  | ok pool => exact h pool rfl

/-- **The step lemma.** Every call is one of the moves. -/
theorem call_moves (s : System) (op : Call) : Moves s op (s.call op).2 (s.call op).1 := by
  cases op with
  | reserve =>
    simp only [System.call]
    cases h : reserve s.pool with
    | none => exact .refused rfl
    | some found =>
      obtain ⟨pool, token⟩ := found
      obtain ⟨i, r, hr, hfree, rfl, rfl⟩ := reserveFrom_some h
      rw [Nat.zero_add]
      exact Moves.reserve hr hfree
  | attach token p =>
    simp only [System.call]
    cases h : attach s.pool token (s.permits p) with
    | error e => exact .refused trivial
    | ok found =>
      obtain ⟨binding, pool, left⟩ := found
      obtain ⟨i, r, hr, rfl, hs, ha, rfl, rfl, rfl⟩ := attach_ok h
      exact .attach hr hs ha rfl
  | consumeLaunchAuthority token x =>
    refine answer_moves fun pool h => ?_
    obtain ⟨i, r, hr, rfl, hs, hb, hl, rfl⟩ := consumeLaunchAuthority_ok h
    exact .launch hr hs hb hl
  | claimTerminalDelivery token =>
    simp only [System.call]
    rcases h : claimTerminalDelivery s.pool token with ⟨first, pool⟩
    cases first with
    | false =>
      rw [claimTerminalDelivery_false h]
      exact .refused rfl
    | true =>
      obtain ⟨i, r, hr, rfl, hs, hd, rfl⟩ := claimTerminalDelivery_true h
      exact .claim hr hs hd
  | detach token =>
    refine answer_moves fun pool h => ?_
    obtain ⟨i, r, hr, rfl, hs, rfl⟩ := exchange_ok h
    exact .detach hr hs
  | releaseUnused token =>
    refine answer_moves fun pool h => ?_
    obtain ⟨i, r, hr, rfl, hs, rfl⟩ := exchange_ok h
    exact .release hr hs
  | cleanupComplete token =>
    refine answer_moves fun pool h => ?_
    obtain ⟨i, r, hr, rfl, hs, rfl⟩ := exchange_ok h
    exact .clean hr hs

end Rui.Execution
