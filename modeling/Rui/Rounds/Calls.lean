import Rui.Rounds.Queuing

/-!
# The calls of a transition

The positions an Access claims, the compare-and-sets that pay for them, and what
each call leaves: a transition that goes on, one that a raised error stopped, or
one that committed.
-/

namespace Rui.Rounds

open Library Rui.Changes Rui.Batch

variable {φ ρ γ : Type} {base : Store (Rows φ)} {loose spec : Db (Rows φ)}

/-! ## Positions -/

/-- How many positions of a Session were handed out. -/
def total (ref : Id) (handed : List (Id × Nat × Nat)) : Nat :=
  ((handed.filter fun h => h.1 = ref).map fun h => h.2.2).sum

/-- No position of one Session is handed out twice: each time they start after the last. -/
def Disjoint (handed : List (Id × Nat × Nat)) : Prop :=
  handed.Pairwise fun x y => x.1 = y.1 → x.2.1 + x.2.2 ≤ y.2.1

/-- One claim for each Session, that has taken what was handed out of it. -/
structure Claimed (claims : List Positions) (handed : List (Id × Nat × Nat)) : Prop where
  distinct : (claims.map (·.head.ref)).Nodup
  taken : ∀ claim ∈ claims, claim.taken = total claim.head.ref handed
  known : ∀ h ∈ handed, ∃ claim ∈ claims, claim.head.ref = h.1
  within : ∀ h ∈ handed, ∀ claim ∈ claims, claim.head.ref = h.1 →
    claim.head.nextPosition ≤ h.2.1 ∧ h.2.1 + h.2.2 ≤ claim.head.nextPosition + claim.taken
  apart : Disjoint handed

theorem total_snoc (ref : Id) (handed : List (Id × Nat × Nat)) (h : Id × Nat × Nat) :
    total ref (handed ++ [h]) = total ref handed + if h.1 = ref then h.2.2 else 0 := by
  unfold total
  rw [List.filter_append, List.map_append, List.sum_append]
  by_cases hr : h.1 = ref <;> simp [hr]

theorem Claimed.claim {claims : List Positions} {handed : List (Id × Nat × Nat)}
    (h : Claimed claims handed) (head : Head) (hnew : ∀ claim ∈ claims, claim.head.ref ≠ head.ref)
    (hbounded : head.nextPosition + 0 ≤ maxPosition) :
    Claimed (claims ++ [⟨head, 0, hbounded⟩]) handed := by
  have hnone : ∀ x ∈ handed, x.1 ≠ head.ref := fun x hx heq => by
    obtain ⟨claim, hin, href⟩ := h.known x hx
    exact hnew claim hin (href.trans heq)
  refine ⟨?_, fun claim hin => ?_, fun x hx => ?_, fun x hx claim hin href => ?_, h.apart⟩
  · rw [List.map_append, List.nodup_append]
    refine ⟨h.distinct, List.pairwise_singleton _ _, fun ref hin ref' hin' => ?_⟩
    obtain ⟨claim, hclaim, rfl⟩ := List.mem_map.mp hin
    rw [List.map_singleton, List.mem_singleton] at hin'
    rw [hin']
    exact hnew claim hclaim
  · rcases List.mem_append.mp hin with hold | hlast
    · exact h.taken claim hold
    · rw [List.mem_singleton.mp hlast]
      unfold total
      rw [List.filter_eq_nil_iff.mpr fun x hx => by simpa using hnone x hx]
      rfl
  · obtain ⟨claim, hin, href⟩ := h.known x hx
    exact ⟨claim, List.mem_append_left _ hin, href⟩
  · rcases List.mem_append.mp hin with hold | hlast
    · exact h.within x hx claim hold href
    · rw [List.mem_singleton.mp hlast] at href
      exact absurd href.symm (hnone x hx)

variable {claimed : Positions} {count first : Nat} {claims : List Positions}
  {ids : Identity → List Nat} {a' : Access φ ρ γ}

theorem take_some {claim : Positions} (h : claim.take count = some (first, claimed)) :
    first = claim.head.nextPosition + claim.taken ∧ claimed.head = claim.head ∧
      claimed.taken = claim.taken + count := by
  unfold Positions.take at h
  dsimp only at h
  split at h
  · cases h
  · cases h
    exact ⟨rfl, rfl, rfl⟩

theorem Claimed.take {handed : List (Id × Nat × Nat)} (h : Claimed claims handed)
    {claim : Positions} (hin : claim ∈ claims) (htake : claim.take count = some (first, claimed)) :
    Claimed (claims.map fun c => if c.head.ref = claim.head.ref then claimed else c)
      (handed ++ [(claim.head.ref, first, count)]) := by
  obtain ⟨hfirst, hhead, htaken⟩ := take_some htake
  have hrefs : (claims.map fun c => if c.head.ref = claim.head.ref then claimed else c).map
      (·.head.ref) = claims.map (·.head.ref) := by
    rw [List.map_map]
    apply List.map_congr_left
    intro c _
    dsimp only [Function.comp_apply]
    split
    · rename_i href
      rw [hhead, href]
    · rfl
  have hmem : ∀ c ∈ claims.map fun c => if c.head.ref = claim.head.ref then claimed else c,
      c = claimed ∨ c ∈ claims ∧ c.head.ref ≠ claim.head.ref := by
    intro c hc
    obtain ⟨c', hc', rfl⟩ := List.mem_map.mp hc
    split
    · exact .inl rfl
    · exact .inr ⟨hc', ‹_›⟩
  refine ⟨hrefs ▸ h.distinct, fun c hc => ?_, fun x hx => ?_, fun x hx c hc href => ?_, ?_⟩
  · rw [total_snoc]
    rcases hmem c hc with rfl | ⟨hold, hother⟩
    · rw [htaken, hhead, if_pos rfl, ← h.taken claim hin]
    · rw [if_neg (fun heq => hother heq.symm), Nat.add_zero]
      exact h.taken c hold
  · have hsome : ∀ ref, ref ∈ claims.map (·.head.ref) →
        ∃ c ∈ claims.map fun c => if c.head.ref = claim.head.ref then claimed else c,
          c.head.ref = ref := by
      intro ref href
      rw [← hrefs] at href
      exact List.mem_map.mp href
    rcases List.mem_append.mp hx with hold | hlast
    · obtain ⟨c, hc, href⟩ := h.known x hold
      exact hsome _ (List.mem_map.mpr ⟨c, hc, href⟩)
    · rw [List.mem_singleton.mp hlast]
      exact hsome _ (List.mem_map.mpr ⟨claim, hin, rfl⟩)
  · rcases hmem c hc with rfl | ⟨hold, hother⟩
    · rw [hhead] at href
      rw [hhead, htaken]
      rcases List.mem_append.mp hx with hx | hlast
      · have hw := h.within x hx claim hin href
        omega
      · rw [List.mem_singleton.mp hlast, hfirst]
        dsimp only
        omega
    · rcases List.mem_append.mp hx with hx | hlast
      · exact h.within x hx c hold href
      · rw [List.mem_singleton.mp hlast] at href
        exact absurd href hother
  · unfold Disjoint
    rw [List.pairwise_append]
    refine ⟨h.apart, List.pairwise_singleton _ _, fun x hx y hy href => ?_⟩
    rw [List.mem_singleton.mp hy] at href ⊢
    have hw := h.within x hx claim hin href.symm
    dsimp only
    omega

/-! ## Paying for them -/

/-- Between the calls of a transition. -/
structure Live (base : Store (Rows φ)) (loose spec : Db (Rows φ)) (a : Access φ ρ γ) : Prop
    extends Core base loose spec a where
  claimed : Claimed a.claims a.ledger.handed
  unended : a.ended = false
  unissued : a.ledger.issued = false
  sinks : ∀ id ∈ a.taken.toList, id ≠ 0 → a.body.opened = true

/-- What COMMIT is issued on: everything queued was stepped, and each Session that took positions
has advanced by what it took. -/
structure Issued (spec : Db (Rows φ)) (ledger : Ledger φ ρ γ) (d : Db (Rows φ)) : Prop where
  stepped : ledger.stepped = ledger.queued
  eager : eagerly ledger.queued spec = some (ledger.results, d)
  claimed : Claimed ledger.settled ledger.handed
  advances : ∃ before ids, ledger.queued =
    before ++ (ledger.settled.filter (·.taken ≠ 0)).map (·.advance ids)
  paid : ∀ claim ∈ ledger.settled, claim.taken ≠ 0 →
    d.facts.next claim.head.ref = some (claim.head.nextPosition + claim.taken)

/-- What holds wherever a transition is. -/
structure Kept (spec : Db (Rows φ)) (a : Access φ ρ γ) : Prop where
  sticky : Sticky a.kind a.failure a.ledger.failed
  stepped : a.ledger.stepped <+: a.ledger.queued
  returned : Returned spec a.ledger
  apart : Disjoint a.ledger.handed
  checked : a.panicked = false
  seated : a.queue.length ≤ maxQueued
  issued : a.ledger.issued = true → ∃ d, Issued spec a.ledger d

/-- A transition that an error of one of its calls stopped. -/
structure Stopped (base : Store (Rows φ)) (loose spec : Db (Rows φ)) (a : Access φ ρ γ) : Prop
    extends Kept spec a where
  unended : a.ended = false
  broken : Broken base a.body loose spec
  closed : a.body.opened = false → a.wire = {} ∧ Inside base a.body loose spec

/-- A transition that committed. -/
structure Committed (loose spec : Db (Rows φ)) (a : Access φ ρ γ) : Prop
    extends Kept spec a where
  ended : a.ended = true
  committed : a.ledger.issued = true
  done : a.failure = none
  queue : a.queue = []
  steady : ∃ d, Issued spec a.ledger d ∧ Steady a.body.store loose d

/-- How a call turns out. -/
def Turned (base : Store (Rows φ)) (loose spec : Db (Rows φ)) (r : Access.Reply γ × Access φ ρ γ) :
    Prop :=
  match r.1 with
  | .raised _ => Stopped base loose spec r.2
  | _ => Live base loose spec r.2 ∨ Committed loose spec r.2

variable {a : Access φ ρ γ}

theorem Kept.same (h : Kept spec a) (hkind : a'.kind = a.kind) (hfailure : a'.failure = a.failure)
    (hledger : a'.ledger = a.ledger) (hpanicked : a'.panicked = a.panicked)
    (hqueue : a'.queue = a.queue) : Kept spec a' := by
  constructor
  · rw [hkind, hfailure, hledger]
    exact h.sticky
  · rw [hledger]
    exact h.stepped
  · rw [hledger]
    exact h.returned
  · rw [hledger]
    exact h.apart
  · exact hpanicked.trans h.checked
  · rw [hqueue]
    exact h.seated
  · rw [hledger]
    exact h.issued

theorem Kept.record (h : Kept spec a) (hnone : a.failure = none) (e : Error γ) :
    Kept spec (a.record e) where
  sticky := h.sticky.record e (.inl hnone)
  stepped := h.stepped
  returned := h.returned.congr rfl rfl
  apart := h.apart
  checked := h.checked
  seated := h.seated
  issued hissued :=
    (h.issued hissued).imp fun _ hd => ⟨hd.stepped, hd.eager, hd.claimed, hd.advances, hd.paid⟩

theorem Core.stopped (h : Core base loose spec a) (hapart : Disjoint a.ledger.handed)
    (hunended : a.ended = false) (hunissued : a.ledger.issued = false) :
    Stopped base loose spec a where
  sticky := h.sticky
  stepped := h.stepped
  returned := h.returned
  apart := hapart
  checked := h.checked
  seated := h.seated
  issued hissued := Bool.noConfusion (hunissued.symm.trans hissued)
  unended := hunended
  broken := h.broken
  closed hclosed := ⟨(h.closed hclosed).2.1, (h.closed hclosed).2.2.2⟩

theorem Live.stopped (h : Live base loose spec a) : Stopped base loose spec a :=
  h.toCore.stopped h.claimed.apart h.unended h.unissued

theorem Live.core (h : Live base loose spec a) (hcore : Core base loose spec a')
    (hapart : Apart a a') (hopened : a.body.opened = true → a'.body.opened = true) :
    Live base loose spec a' where
  toCore := hcore
  claimed := by
    rw [hapart.claims, hapart.positions]
    exact h.claimed
  unended := hapart.ended.trans h.unended
  unissued := hapart.issued.trans h.unissued
  sinks := by
    rw [hapart.taken]
    exact fun id hin hid => hopened (h.sinks id hin hid)

end Rui.Rounds
