import Rui.ExecutionTurn.Admission

/-!
# Admission loses no work

Every scan that a pass leaves out is accounted for by an earlier one: the pass's
key has already found nothing, at the very commit generation and slot change
count it names. The preference moves only behind a committed winner, so a kind
waits for at most three others.
-/

namespace Rui.ExecutionTurn

variable {context : Context}

/-! ## Moments -/

variable {call first later generation : Nat} {turn next middle : Turn} {key : AdmissionKey}
  {event : Event}

theorem generation_le (context : Context) (h : call ≤ later) :
    (context.moment call).generation ≤ (context.moment later).generation :=
  monotone_nat_of_le_succ (f := fun call => (context.moment call).generation)
    context.generation_mono h

theorem slotChanges_le (context : Context) (h : call ≤ later) :
    (context.moment call).slotChanges ≤ (context.moment later).slotChanges :=
  monotone_nat_of_le_succ (f := fun call => (context.moment call).slotChanges)
    context.slotChanges_mono h

/-! ## What accounts for a scan left out -/

/-- A kind was found to have nothing to admit at a generation and a slot count. -/
def Nothing (events : List Event) (kind : Kind) (generation slotChanges : Nat) (paused : Bool) :
    Prop :=
  .scanned kind generation slotChanges paused .noWork ∈ events ∨
    .closed kind slotChanges ∈ events ∨ .unconfigured kind ∈ events

/-- What the last retry scan answered. -/
def Event.retried (last : Option Admission) : Event → Option Admission
  | .scanned .retry _ _ _ answer => some answer
  | _ => last

def lastRetry (events : List Event) : Option Admission := events.foldl Event.retried none

/-- What must have happened before an event. -/
def Accounted (earlier : List Event) : Event → Prop
  | .skipped kind key => kind ≠ .retry ∧
    Nothing earlier kind key.generation key.slotChanges key.paused
  | .coreSkipped generation => .core generation .noWork ∈ earlier
  | .undue => lastRetry earlier = some .noWork
  | _ => True

/-- Every event is accounted for by those before it. -/
def Sound (events : List Event) : Prop :=
  ∀ earlier event later, events = earlier ++ event :: later → Accounted earlier event

theorem Sound.note {events : List Event} {event : Event} (h : Sound events)
    (hevent : Accounted events event) : Sound (events ++ [event]) := by
  intro earlier other later hsplit
  rcases List.eq_nil_or_concat later with rfl | ⟨front, last, rfl⟩
  · obtain ⟨rfl, hone⟩ := List.append_inj' hsplit rfl
    cases hone
    exact hevent
  · rw [List.concat_eq_append, ← List.cons_append, ← List.append_assoc] at hsplit
    obtain ⟨rfl, -⟩ := List.append_inj' hsplit rfl
    exact h _ _ _ rfl

/-- What the context shows of an event at a call. -/
def Context.shows (context : Context) (call : Nat) : Event → Prop
  | .core generation answer =>
    (context.moment call).generation = generation ∧ context.runCoreAction generation = answer
  | .coreSkipped generation => (context.moment call).generation = generation
  | .scanned kind generation slotChanges paused answer =>
    (context.moment call).generation = generation ∧
      (context.moment call).slotChanges = slotChanges ∧ context.answer kind call paused = answer
  | .skipped _ key => (context.moment call).generation = key.generation ∧
    (context.moment (call + 1)).slotChanges = key.slotChanges ∧
    (context.moment (call + 2)).turnsPaused = key.paused
  | .closed kind slotChanges =>
    (context.moment call).slotChanges = slotChanges ∧ context.preparationOpen kind call = false
  | .unconfigured kind => context.providerConfigured = false ∧ kind ≠ .bash
  | .undue => context.preparationOpen .retry call = true
  | .blocked => (context.moment call).dispatchFenced = true ∨ (context.moment call).freeSlots = 0
  | .fenced => (context.moment call).dispatchFenced = true ∨
    (context.moment call).recoverUncertainAction = none ∨
    (context.moment call).recoverExhaustedRetry = none

/-- The context showed an event at one of the calls from `first` until `last`. -/
def Shown (context : Context) (first last : Nat) (event : Event) : Prop :=
  ∃ call, first ≤ call ∧ call < last ∧ context.shows call event

/-- A turn that goes on from another, with events shown since a call. -/
structure Adds (context : Context) (first : Nat) (turn next : Turn) : Prop where
  calls : turn.calls ≤ next.calls
  events : ∃ more, next.events = turn.events ++ more ∧
    ∀ event ∈ more, Shown context first next.calls event

theorem Nothing.mono {events more : List Event} {kind : Kind} {slotChanges : Nat} {paused : Bool}
    (h : Nothing events kind generation slotChanges paused) :
    Nothing (events ++ more) kind generation slotChanges paused := by
  rcases h with h | h | h
  · exact .inl (List.mem_append_left _ h)
  · exact .inr (.inl (List.mem_append_left _ h))
  · exact .inr (.inr (List.mem_append_left _ h))

/-- A kind was found to have nothing to admit since its key was read. -/
def Found (context : Context) (turn : Turn) (kind : Kind) (key : AdmissionKey) : Prop :=
  ∃ generation slotChanges, key.generation ≤ generation ∧
    generation ≤ (context.moment turn.calls).generation ∧ key.slotChanges ≤ slotChanges ∧
    slotChanges ≤ (context.moment turn.calls).slotChanges ∧
    Nothing turn.events kind generation slotChanges key.paused

/-- A turn that goes on from another. -/
structure Goes (turn next : Turn) : Prop where
  calls : turn.calls ≤ next.calls
  events : ∃ more, next.events = turn.events ++ more

theorem Found.goes {kind : Kind} (h : Found context turn kind key) (hgoes : Goes turn next) :
    Found context next kind key := by
  obtain ⟨generation, slotChanges, hfrom, hto, hsince, huntil, hnothing⟩ := h
  obtain ⟨more, hmore⟩ := hgoes.events
  refine ⟨generation, slotChanges, hfrom, hto.trans (generation_le context hgoes.calls), hsince,
    huntil.trans (slotChanges_le context hgoes.calls), ?_⟩
  rw [hmore]
  exact hnothing.mono

theorem Found.exact {kind : Kind} (h : Found context turn kind key) (hcall : turn.calls ≤ call)
    (hgeneration : (context.moment call).generation = key.generation)
    (hslots : (context.moment (call + 1)).slotChanges = key.slotChanges) :
    Nothing turn.events kind key.generation key.slotChanges key.paused := by
  obtain ⟨generation, slotChanges, hfrom, hto, hsince, huntil, hnothing⟩ := h
  have hgenerations := generation_le context hcall
  have hchanges := slotChanges_le context (show turn.calls ≤ call + 1 by omega)
  obtain rfl : generation = key.generation := by omega
  obtain rfl : slotChanges = key.slotChanges := by omega
  exact hnothing

/-! ## Invariant of the engine -/

/-- Retries are not due only once a scan found none. -/
def Polled (turn : Turn) : Prop :=
  turn.state.retryAdmissionDue = false → lastRetry turn.events = some .noWork

/-- What the caches of the engine stand for. -/
structure Kept (context : Context) (turn : Turn) : Prop where
  sound : Sound turn.events
  idle : ∀ key, turn.state.idleAdmission = some key → ∀ kind, kind ≠ .retry →
    Found context turn kind key
  core : ∀ generation, turn.state.idleCoreGeneration = some generation → ∃ now,
    generation ≤ now ∧ now ≤ (context.moment turn.calls).generation ∧
      .core now .noWork ∈ turn.events
  order : turn.state.preference.Perm [.bash, .retry, .message, .toolContinuation]
  retry : Polled turn

/-- A turn that goes on from another without touching what admission keeps. -/
structure Still (turn next : Turn) : Prop where
  calls : turn.calls ≤ next.calls
  events : next.events = turn.events
  idle : next.state.idleAdmission = turn.state.idleAdmission
  core : next.state.idleCoreGeneration = turn.state.idleCoreGeneration
  preference : next.state.preference = turn.state.preference
  retry : next.state.retryAdmissionDue = false → turn.state.retryAdmissionDue = false

theorem Still.refl (turn : Turn) : Still turn turn := ⟨Nat.le_refl _, rfl, rfl, rfl, rfl, id⟩

theorem Still.trans (h : Still turn middle) (h' : Still middle next) : Still turn next :=
  ⟨h.calls.trans h'.calls, h'.events.trans h.events, h'.idle.trans h.idle, h'.core.trans h.core,
    h'.preference.trans h.preference, fun hdue => h.retry (h'.retry hdue)⟩

theorem Still.after (turn : Turn) (calls : Nat) : Still turn (turn.after calls) :=
  ⟨Nat.le_add_right _ _, rfl, rfl, rfl, rfl, id⟩

theorem Kept.still (h : Kept context turn) (hstill : Still turn next) : Kept context next := by
  have hgoes : Goes turn next := ⟨hstill.calls, [], by simp [hstill.events]⟩
  refine ⟨by rw [hstill.events]; exact h.sound, ?_, ?_, by rw [hstill.preference]; exact h.order,
    fun hdue => by rw [hstill.events]; exact h.retry (hstill.retry hdue)⟩
  · intro key hkey kind hkind
    exact (h.idle key (hstill.idle ▸ hkey) kind hkind).goes hgoes
  · intro generation hgeneration
    obtain ⟨now, hfrom, hto, hmem⟩ := h.core generation (hstill.core ▸ hgeneration)
    exact ⟨now, hfrom, hto.trans (generation_le context hgoes.calls), by
      rw [hstill.events]
      exact hmem⟩

theorem Kept.start : Kept context {} := by
  refine ⟨?_, ?_, ?_, .refl _, ?_⟩
  · intro earlier event later hsplit
    simp at hsplit
  · rintro key ⟨⟩
  · rintro generation ⟨⟩
  · rintro ⟨⟩

/-! ## One kind -/

/-- The kind that an event of a pass is about. -/
def Event.kind : Event → Option Kind
  | .scanned kind _ _ _ _ => some kind
  | .skipped kind _ => some kind
  | .closed kind _ => some kind
  | .unconfigured kind => some kind
  | .undue => some .retry
  | _ => none

/-- Whether an event admitted work of a kind. -/
def Event.admits : Event → Bool
  | .scanned _ _ _ _ answer => decide (answer = .admitted)
  | _ => false

/-- What trying one kind does: it notes one event of that kind, and what it finds
counts from where the pass stands. -/
structure Tried (context : Context) (key : AdmissionKey) (kind : Kind) (turn : Turn)
    (result : Option Admission × Turn) : Prop where
  calls : turn.calls ≤ result.2.calls
  state : result.2.state = turn.state
  sound : Sound result.2.events
  event : ∃ event, result.2.events = turn.events ++ [event] ∧ event.kind = some kind ∧
    (event.admits = true ↔ result.1 = some .admitted)
  found : result.1 = none ∨ result.1 = some .noWork → kind ≠ .retry →
    Found context result.2 kind key
  retry : lastRetry result.2.events =
    (if kind = .retry then result.1 else none).or (lastRetry turn.events)

/-- A kind that is left out is one that has nothing at the present moment. -/
theorem tried_leave {kind : Kind} (calls : Nat) (hsound : Sound turn.events)
    (hevent : Accounted turn.events event) (hkind : event.kind = some kind)
    (hadmits : event.admits = false) (hretried : ∀ last, event.retried last = last)
    (hfound : kind ≠ .retry → Found context ((turn.after calls).note event) kind key) :
    Tried context key kind turn (leave event (turn.after calls)) := by
  refine ⟨Nat.le_add_right _ _, rfl, hsound.note hevent, ⟨event, rfl, hkind, ?_⟩,
    fun _ h => hfound h, ?_⟩
  · rw [hadmits]
    exact ⟨fun h => (by cases h), fun h => (by cases h)⟩
  · simp [leave, lastRetry, Turn.note, Turn.after, hretried]

theorem tried_scan (kind : Kind) (calls : Nat) (hsound : Sound turn.events)
    (hgeneration : key.generation ≤ (context.moment turn.calls).generation)
    (hslots : key.slotChanges ≤ (context.moment turn.calls).slotChanges) :
    Tried context key kind turn (scan context kind key (turn.after calls)) := by
  have hcalls : turn.calls ≤ turn.calls + calls := Nat.le_add_right _ _
  refine ⟨by simp only [scan, Turn.note, Turn.after]; omega, rfl,
    hsound.note trivial, ⟨_, rfl, rfl, ?_⟩, ?_, ?_⟩
  · simp only [Event.admits, decide_eq_true_eq, scan, Option.some.injEq]
  · intro hnone _
    have hanswer : (scan context kind key (turn.after calls)).1 = some .noWork :=
      hnone.resolve_left (by simp [scan])
    refine ⟨(context.moment (turn.calls + calls)).generation,
      (context.moment (turn.calls + calls)).slotChanges,
      hgeneration.trans (generation_le context hcalls),
      generation_le context (by simp only [scan, Turn.note, Turn.after]; omega),
      hslots.trans (slotChanges_le context hcalls),
      slotChanges_le context (by simp only [scan, Turn.note, Turn.after]; omega), .inl ?_⟩
    simp only [scan, Option.some.injEq, Turn.after] at hanswer
    simp only [scan, Turn.note, Turn.after, hanswer, List.mem_append, List.mem_singleton, or_true]
  · cases kind <;> simp [scan, lastRetry, Turn.note, Turn.after, Event.retried]

/-- **One kind.** A pass that skips what its key has found leaves out only kinds
that have nothing. -/
theorem tried (scanned : Bool) (kind : Kind) (hsound : Sound turn.events) (hpolled : Polled turn)
    (hgeneration : key.generation ≤ (context.moment turn.calls).generation)
    (hslots : key.slotChanges ≤ (context.moment turn.calls).slotChanges)
    (hscanned : scanned = true → kind ≠ .retry →
      Nothing turn.events kind key.generation key.slotChanges key.paused) :
    Tried context key kind turn (admission context key scanned kind turn) := by
  have hnow : ∀ calls event, turn.calls ≤ (Turn.note (turn.after calls) event).calls :=
    fun calls event => Nat.le_add_right _ _
  have hclosed : ∀ calls, Found context
      ((turn.after calls).note (.closed kind (context.moment turn.calls).slotChanges)) kind key :=
    fun calls => ⟨_, _, hgeneration, generation_le context (hnow calls _), hslots,
      slotChanges_le context (hnow calls _), .inr (.inl (by simp [Turn.note]))⟩
  rw [admission]
  by_cases hskip : scanned = true ∧ kind ≠ .retry
  · rw [if_pos hskip]
    have hnothing := hscanned hskip.1 hskip.2
    exact tried_leave 0 hsound ⟨hskip.2, hnothing⟩ rfl rfl (fun _ => rfl) fun _ =>
      ⟨_, _, Nat.le_refl _, hgeneration, Nat.le_refl _, hslots, hnothing.mono⟩
  · rw [if_neg hskip]
    by_cases hbash : kind = .bash
    · rw [if_pos hbash]
      by_cases hopen : context.preparationOpen .bash turn.calls = true
      · rw [if_pos hopen]
        exact tried_scan kind 1 hsound hgeneration hslots
      · rw [if_neg hopen]
        exact tried_leave 1 hsound trivial rfl rfl (fun _ => rfl) fun _ => hclosed 1
    · rw [if_neg hbash]
      by_cases hprovider : context.providerConfigured = true
      · rw [if_neg (not_not_intro hprovider)]
        by_cases hopen : context.preparationOpen kind turn.calls = true
        · rw [if_neg (not_not_intro hopen)]
          by_cases hdue : kind = .retry ∧ ¬ turn.state.retryAdmissionDue = true
          · rw [if_pos hdue]
            exact tried_leave 1 hsound (hpolled (by simpa using hdue.2)) (by rw [hdue.1]; rfl) rfl
              (fun _ => rfl) fun h => absurd hdue.1 h
          · rw [if_neg hdue]
            exact tried_scan kind 1 hsound hgeneration hslots
        · rw [if_pos hopen]
          exact tried_leave 1 hsound trivial rfl rfl (fun _ => rfl) fun _ => hclosed 1
      · rw [if_pos hprovider]
        exact tried_leave 0 hsound trivial rfl rfl (fun _ => rfl) fun _ =>
          ⟨_, _, hgeneration, Nat.le_refl _, hslots, Nat.le_refl _,
            .inr (.inr (by simp [Turn.note, Turn.after]))⟩

/-! ## The kinds in order -/

/-- A pass admitted one kind: those it tried before it were not admitted. -/
structure Admitted (done kinds : List Kind) (more : List Event) (next : Turn) : Prop where
  order : ∃ front kind behind, kinds = front ++ kind :: behind ∧
    more.filterMap Event.kind = front ++ [kind] ∧
    next.state.preference = done ++ front ++ behind ++ [kind]
  once : more.countP Event.admits = 1
  idle : next.state.idleAdmission = none

/-- A pass admitted nothing: it tried every kind, unless dispatch was fenced or no
slot was free. -/
structure Looked (context : Context) (key : AdmissionKey) (kinds : List Kind) (turn : Turn)
    (more : List Event) (next : Turn) (before foundNothing : Bool) : Prop where
  order : ∃ behind, kinds = more.filterMap Event.kind ++ behind ∧
    (behind ≠ [] → foundNothing = false ∧ more.getLast? = some .blocked)
  nobody : more.countP Event.admits = 0
  preference : next.state.preference = turn.state.preference
  found : foundNothing = true → before = true ∧
    ∀ kind ∈ kinds, kind ≠ .retry → Found context next kind key

/-- What a pass over some kinds comes to. -/
structure Pass (context : Context) (key : AdmissionKey) (done kinds : List Kind) (turn : Turn)
    (before : Bool) (result : Passed × Turn) : Prop where
  calls : turn.calls ≤ result.2.calls
  sound : Sound result.2.events
  core : result.2.state.idleCoreGeneration = turn.state.idleCoreGeneration
  retry : Polled result.2
  passed : ∃ more, result.2.events = turn.events ++ more ∧
    (result.1 = .admitted ∧ Admitted done kinds more result.2 ∨
      ∃ foundNothing, result.1 = .looked foundNothing ∧
        Looked context key kinds turn more result.2 before foundNothing)

/-- A kind that was not admitted stands before what the rest of the pass does. -/
theorem Pass.cons {key : AdmissionKey} {done kinds : List Kind} {kind : Kind} {turn next : Turn}
    {before between : Bool} {answer : Option Admission} {result : Passed × Turn}
    (htried : Tried context key kind turn (answer, next)) (hanswer : answer ≠ some .admitted)
    {state : State} (hpreference : state.preference = next.state.preference)
    (hcore : state.idleCoreGeneration = next.state.idleCoreGeneration)
    (hbetween : between = true → before = true ∧
      (kind ≠ .retry → answer = none ∨ answer = some .noWork))
    (h : Pass context key (done ++ [kind]) kinds { next with state := state } between result) :
    Pass context key done (kind :: kinds) turn before result := by
  obtain ⟨event, hevent, hkind, hadmits⟩ := htried.event
  obtain ⟨more, hmore, hpassed⟩ := h.passed
  have hnext : next.state = turn.state := htried.state
  have hcalls : next.calls ≤ result.2.calls := h.calls
  have hevents : result.2.events = turn.events ++ event :: more := by
    rw [hmore]
    exact (congrArg (· ++ more) hevent).trans (by simp)
  have hgoes : Goes next result.2 := ⟨hcalls, more, hmore⟩
  have hnone : event.admits = false := by
    rw [Bool.eq_false_iff]
    exact fun hyes => hanswer (hadmits.mp hyes)
  refine ⟨Nat.le_trans htried.calls hcalls, h.sound,
    h.core.trans (hcore.trans (by rw [hnext])), h.retry, event :: more, hevents, ?_⟩
  rcases hpassed with ⟨hadmitted, hmade⟩ | ⟨foundNothing, hlooked, hmade⟩
  · refine .inl ⟨hadmitted, ?_, ?_, hmade.idle⟩
    · obtain ⟨front, winner, behind, hkinds, hmap, hprefer⟩ := hmade.order
      refine ⟨kind :: front, winner, behind, by rw [hkinds, List.cons_append], ?_, ?_⟩
      · rw [List.filterMap_cons, hkind, hmap, List.cons_append]
      · rw [hprefer]
        simp only [List.append_assoc, List.cons_append, List.nil_append]
    · rw [List.countP_cons, hmade.once, hnone]
      rfl
  · refine .inr ⟨foundNothing, hlooked, ?_, ?_, ?_, ?_⟩
    · obtain ⟨behind, hkinds, hbehind⟩ := hmade.order
      refine ⟨behind, by rw [List.filterMap_cons, hkind, List.cons_append, ← hkinds], ?_⟩
      intro hne
      obtain ⟨hfound, hlast⟩ := hbehind hne
      refine ⟨hfound, ?_⟩
      rw [List.getLast?_cons, hlast, Option.getD_some]
    · rw [List.countP_cons, hmade.nobody, hnone]
      rfl
    · rw [hmade.preference, ← hnext]
      exact hpreference
    · intro hnothing
      obtain ⟨hyes, hkinds⟩ := hmade.found hnothing
      obtain ⟨hbefore, hanswers⟩ := hbetween hyes
      refine ⟨hbefore, fun other hother hretry => ?_⟩
      rcases List.mem_cons.mp hother with rfl | hother
      · exact (htried.found (hanswers hretry) hretry).goes hgoes
      · exact hkinds other hother hretry

theorem Tried.after {kind : Kind} {calls : Nat} {result : Option Admission × Turn}
    (h : Tried context key kind (turn.after calls) result) : Tried context key kind turn result :=
  ⟨(Nat.le_add_right _ _).trans h.calls, h.state, h.sound, h.event, h.found, h.retry⟩

/-- The kind that is admitted ends its pass. -/
theorem Pass.wins (done kinds : List Kind) {kind : Kind} (before : Bool)
    (htried : Tried context key kind turn (some .admitted, next)) {state : State}
    (hcore : state.idleCoreGeneration = next.state.idleCoreGeneration)
    (hpolled : Polled { next with state }) : Pass context key done (kind :: kinds) turn before
      (.admitted, { next with state := { state with
        preference := done ++ kinds ++ [kind]
        idleAdmission := none } }) := by
  obtain ⟨event, hevent, hkind, hadmits⟩ := htried.event
  refine ⟨htried.calls, htried.sound, hcore.trans (congrArg _ htried.state), hpolled, [event], hevent,
    .inl ⟨rfl, ⟨[], kind, kinds, rfl, ?_, ?_⟩, ?_, rfl⟩⟩
  · rw [List.filterMap_cons, hkind]
    rfl
  · rw [List.append_nil]
  · rw [List.countP_cons, hadmits.mpr rfl]
    rfl

/-- **The kinds in order.** -/
theorem passes (scanned : Bool) (kinds : List Kind) :
    ∀ (done : List Kind) (before : Bool) {turn : Turn}, Sound turn.events → Polled turn →
      key.generation ≤ (context.moment turn.calls).generation →
      key.slotChanges ≤ (context.moment turn.calls).slotChanges →
      (scanned = true → ∀ kind ∈ kinds, kind ≠ .retry →
        Nothing turn.events kind key.generation key.slotChanges key.paused) →
      Pass context key done kinds turn before
        (admitKinds context key scanned done kinds before turn) := by
  induction kinds with
  | nil =>
    intro done before turn hsound hpolled _ _ _
    refine ⟨Nat.le_refl _, hsound, rfl, hpolled, [], by simp [admitKinds], .inr ⟨before, rfl, ?_⟩⟩
    exact ⟨⟨[], by simp⟩, rfl, rfl, fun h => ⟨h, by simp⟩⟩
  | cons kind kinds ih =>
    intro done before turn hsound hpolled hgeneration hslots hscanned
    rw [admitKinds]
    by_cases hblocked : (context.moment turn.calls).dispatchFenced = true ∨
        (context.moment (turn.calls + 1)).freeSlots = 0
    · rw [if_pos hblocked]
      refine ⟨Nat.le_add_right _ _, hsound.note trivial, rfl, ?_, [.blocked], rfl,
        .inr ⟨false, rfl, ?_⟩⟩
      · simpa [Polled, lastRetry, Turn.note, Turn.after, Event.retried] using hpolled
      exact ⟨⟨kind :: kinds, by simp [Event.kind], fun _ => ⟨rfl, rfl⟩⟩, rfl, rfl,
        fun h => (by cases h)⟩
    · rw [if_neg hblocked]
      have htwo : turn.calls ≤ (turn.after 2).calls := Nat.le_add_right _ _
      have htried : Tried context key kind turn
          (admission context key scanned kind (turn.after 2)) :=
        .after (tried scanned kind hsound hpolled (hgeneration.trans (generation_le context htwo))
          (hslots.trans (slotChanges_le context htwo))
          fun hskip hretry => hscanned hskip kind List.mem_cons_self hretry)
      generalize admission context key scanned kind (turn.after 2) = result at htried
      obtain ⟨answer, next⟩ := result
      have hrest : ∀ (state : State) between, Polled { next with state } →
          Pass context key (done ++ [kind]) kinds { next with state := state } between
            (admitKinds context key scanned (done ++ [kind]) kinds between
              { next with state := state }) := by
        intro state between hpolled
        have hcalls : turn.calls ≤ next.calls := htried.calls
        obtain ⟨event, hevent, -⟩ := htried.event
        refine ih (done ++ [kind]) between htried.sound hpolled
          (hgeneration.trans (generation_le context hcalls))
          (hslots.trans (slotChanges_le context hcalls)) fun hskip other hother hretry => ?_
        have hnothing := hscanned hskip other (List.mem_cons_of_mem _ hother) hretry
        exact (show next.events = turn.events ++ [event] from hevent) ▸ hnothing.mono
      cases answer with
      | none =>
        exact .cons htried (by simp) rfl rfl (fun h => ⟨h, fun _ => .inl rfl⟩)
          (hrest next.state before fun hdue => by
            rw [htried.state] at hdue
            rw [htried.retry, hpolled hdue]
            split <;> rfl)
      | some answer =>
        let state := if kind = .retry
          then { next.state with retryAdmissionDue := decide (answer ≠ .noWork) } else next.state
        have hpreference : state.preference = next.state.preference := by
          simp only [state]
          split <;> rfl
        have hcore : state.idleCoreGeneration = next.state.idleCoreGeneration := by
          simp only [state]
          split <;> rfl
        have hpolled' : Polled { next with state } := by
          intro hdue
          show lastRetry next.events = _
          rw [htried.retry]
          by_cases hretry : kind = .retry
          · simpa [state, hretry] using hdue
          · have hstate : next.state = turn.state := htried.state
            simp only [state, hretry, if_false, hstate] at hdue
            rw [if_neg hretry, hpolled hdue]
            rfl
        by_cases hadmitted : answer = .admitted
        · subst hadmitted
          exact .wins done kinds before htried hcore hpolled'
        · simp only [if_neg hadmitted]
          refine .cons htried (by simpa using hadmitted) hpreference hcore ?_ (hrest state _ hpolled')
          intro hbetween
          simp only [Bool.and_eq_true, Bool.or_eq_true, decide_eq_true_eq] at hbetween
          exact ⟨hbetween.1, fun hretry => .inr (by rw [hbetween.2.resolve_left hretry])⟩

/-! ## A pass -/

def Event.isCore : Event → Bool
  | .core _ _ | .coreSkipped _ => true
  | _ => false

/-- What one turn adds to the engine. -/
structure Turned (context : Context) (turn next : Turn) : Prop where
  calls : turn.calls ≤ next.calls
  kept : Kept context next
  /-- The kinds that the turn tried, and why it tried no others. -/
  tried : ∃ more behind, next.events = turn.events ++ more ∧
    turn.state.preference = more.filterMap Event.kind ++ behind ∧
    (.fenced ∈ more ∨ (∃ event ∈ more, event.isCore = true) ∧
      (behind = [] ∨ .blocked ∈ more ∨ (∃ generation, .core generation .admitted ∈ more) ∨
        more.countP Event.admits = 1)) ∧
    (more.countP Event.admits = 0 ∧ next.state.preference = turn.state.preference ∨
      more.countP Event.admits = 1 ∧ ∃ front kind, more.filterMap Event.kind = front ++ [kind] ∧
        next.state.preference = front ++ behind ++ [kind])

/-- The core scan, before any kind is tried. -/
structure Cored (context : Context) (generation : Nat) (turn : Turn) (result : Bool × Turn) :
    Prop where
  calls : turn.calls ≤ result.2.calls
  kept : Kept context result.2
  preference : result.2.state.preference = turn.state.preference
  idle : result.1 = true ∨ result.2.state.idleAdmission = turn.state.idleAdmission
  event : ∃ event, result.2.events = turn.events ++ [event] ∧ event.kind = none ∧
    event.admits = false ∧ event.isCore = true ∧
    (result.1 = true → ∃ now, event = .core now .admitted)

theorem Kept.note {turn : Turn} (h : Kept context turn) (calls : Nat) {event : Event}
    (hevent : Accounted turn.events event) (hretried : ∀ last, event.retried last = last) :
    Kept context ((turn.after calls).note event) := by
  have hgoes : Goes turn ((turn.after calls).note event) :=
    ⟨Nat.le_add_right _ _, [event], rfl⟩
  refine ⟨h.sound.note hevent, fun key hkey kind hkind => (h.idle key hkey kind hkind).goes hgoes,
    fun generation hgeneration => ?_, h.order, fun hdue => ?_⟩
  · obtain ⟨now, hfrom, hto, hmem⟩ := h.core generation hgeneration
    exact ⟨now, hfrom, hto.trans (generation_le context hgoes.calls), List.mem_append_left _ hmem⟩
  · simpa [lastRetry, Turn.note, Turn.after, hretried] using h.retry hdue

theorem cored (generation : Nat) (h : Kept context turn)
    (hgeneration : generation ≤ (context.moment turn.calls).generation)
    (hsame : turn.state.idleCoreGeneration = some generation →
      .core generation .noWork ∈ turn.events) :
    Cored context generation turn (admitCore context generation turn) := by
  rw [admitCore]
  by_cases hidle : turn.state.idleCoreGeneration = some generation
  · rw [if_pos hidle]
    exact ⟨Nat.le_refl _, h.note 0 (hsame hidle) fun _ => rfl, rfl, .inr rfl, _, rfl, rfl, rfl, rfl,
      fun hadmitted => (by cases hadmitted)⟩
  · rw [if_neg hidle]
    have hnoted := @Kept.note context turn h 1 (.core (context.moment turn.calls).generation
      (context.runCoreAction (context.moment turn.calls).generation)) trivial fun _ => rfl
    have hnow : (context.moment turn.calls).generation ≤
        (context.moment (turn.calls + 1)).generation := generation_le context (Nat.le_succ _)
    simp only
    cases hanswer : context.runCoreAction (context.moment turn.calls).generation with
    | noWork =>
      rw [hanswer] at hnoted
      refine ⟨Nat.le_succ _, ⟨hnoted.sound, hnoted.idle, ?_, h.order, hnoted.retry⟩, rfl, .inr rfl, _, rfl,
        rfl, rfl, rfl,
        fun hadmitted => (by cases hadmitted)⟩
      rintro _ ⟨⟩
      exact ⟨_, hgeneration, hnow, by simp [Turn.note, Turn.after]⟩
    | retryLater =>
      rw [hanswer] at hnoted
      refine ⟨Nat.le_succ _, ⟨hnoted.sound, hnoted.idle, ?_, h.order, hnoted.retry⟩, rfl, .inr rfl, _, rfl,
        rfl, rfl, rfl,
        fun hadmitted => (by cases hadmitted)⟩
      rintro _ ⟨⟩
    | admitted =>
      rw [hanswer] at hnoted
      refine ⟨Nat.le_succ _, ⟨hnoted.sound, ?_, ?_, h.order, hnoted.retry⟩, rfl, .inl rfl, _, rfl, rfl,
        rfl, rfl,
        fun _ => ⟨_, rfl⟩⟩
      · rintro _ ⟨⟩
      · rintro _ ⟨⟩

theorem mem_preference (h : Kept context turn) (kind : Kind) : kind ∈ turn.state.preference := by
  rw [h.order.mem_iff]
  cases kind <;> decide

/-- **A pass.** -/
theorem admitPass_turned (progress : Bool) (h : Kept context turn) :
    Turned context turn (admitPass context progress turn).2 := by
  let key : AdmissionKey := {
    generation := (context.moment turn.calls).generation
    slotChanges := (context.moment (turn.calls + 1)).slotChanges
    paused := (context.moment (turn.calls + 2)).turnsPaused }
  have hthree : turn.calls ≤ (turn.after 3).calls := Nat.le_add_right _ _
  have hread : Kept context (turn.after 3) := h.still (.after turn 3)
  have hcored : Cored context key.generation (turn.after 3)
      (admitCore context key.generation (turn.after 3)) := by
    refine cored key.generation hread (generation_le context hthree) fun hidle => ?_
    obtain ⟨now, hfrom, hto, hmem⟩ := h.core _ hidle
    obtain rfl : now = key.generation := Nat.le_antisymm hto hfrom
    exact hmem
  rw [admitPass]
  simp only
  generalize hcore : admitCore context (context.moment turn.calls).generation (turn.after 3) =
    core
  rw [hcore] at hcored
  obtain ⟨event, hevent, hkind, hadmits, hisCore, hwon⟩ := hcored.event
  by_cases hadmitted : core.1 = true
  · rw [if_pos hadmitted]
    refine ⟨hthree.trans hcored.calls, hcored.kept, [event], turn.state.preference, hevent, ?_, ?_,
      .inl ⟨?_, hcored.preference⟩⟩
    · simp [hkind]
    · obtain ⟨now, rfl⟩ := hwon hadmitted
      exact .inr ⟨⟨_, List.mem_cons_self, rfl⟩, .inr (.inr (.inl ⟨now, by simp⟩))⟩
    · simp [hadmits]
  · rw [if_neg hadmitted]
    have hidle : core.2.state.idleAdmission = turn.state.idleAdmission :=
      hcored.idle.resolve_left hadmitted
    have hprefer : core.2.state.preference = turn.state.preference := hcored.preference
    have hcalls : turn.calls ≤ core.2.calls := hthree.trans hcored.calls
    have hevents : core.2.events = turn.events ++ [event] := hevent
    have hpass : Pass context key [] core.2.state.preference core.2 true _   :=
      passes (decide (turn.state.idleAdmission = some key))
      core.2.state.preference [] true hcored.kept.sound hcored.kept.retry
      (generation_le context hcalls)
      (slotChanges_le context (show turn.calls + 1 ≤ core.2.calls from
        (show turn.calls + 1 ≤ (turn.after 3).calls by simp [Turn.after]).trans hcored.calls))
      fun hscanned kind _ hretry => by
        have hfound := h.idle key (of_decide_eq_true hscanned) kind hretry
        rw [hevents]
        exact (hfound.exact (Nat.le_refl _) rfl rfl).mono
    generalize admitKinds context key (decide (turn.state.idleAdmission = some key)) []
      core.2.state.preference true core.2 = pass at hpass
    obtain ⟨answer, next⟩ := pass
    obtain ⟨more, hmore, hpassed⟩ := hpass.passed
    have hall : next.events = turn.events ++ event :: more := by
      rw [show next.events = core.2.events ++ more from hmore, hevents, List.append_assoc]
      rfl
    have hgoes : Goes core.2 next := ⟨hpass.calls, more, hmore⟩
    have hkinds : (event :: more).filterMap Event.kind = more.filterMap Event.kind := by
      rw [List.filterMap_cons, hkind]
    have hcount : (event :: more).countP Event.admits = more.countP Event.admits := by
      rw [List.countP_cons, hadmits]
      rfl
    have hcaches : ∀ generation, next.state.idleCoreGeneration = some generation → ∃ now,
        generation ≤ now ∧ now ≤ (context.moment next.calls).generation ∧
          .core now .noWork ∈ next.events := by
      intro generation hgeneration
      have hsame : next.state.idleCoreGeneration = core.2.state.idleCoreGeneration := hpass.core
      obtain ⟨now, hfrom, hto, hmem⟩ := hcored.kept.core generation (hsame ▸ hgeneration)
      exact ⟨now, hfrom, hto.trans (generation_le context hgoes.calls), by
        rw [show next.events = core.2.events ++ more from hmore]
        exact List.mem_append_left _ hmem⟩
    rcases hpassed with ⟨hwon, hmade⟩ | ⟨foundNothing, hlooked, hmade⟩
    · obtain rfl : answer = .admitted := hwon
      obtain ⟨front, winner, behind, horder, htried, hnext⟩ := hmade.order
      have hidle : next.state.idleAdmission = none := hmade.idle
      have hnext : next.state.preference = front ++ behind ++ [winner] := hnext
      have hperm : next.state.preference.Perm core.2.state.preference := by
        rw [hnext, horder, List.append_assoc]
        exact (List.perm_append_singleton _ _).append_left _
      refine ⟨hcalls.trans hgoes.calls, ⟨hpass.sound, ?_, hcaches,
        hperm.trans hcored.kept.order, hpass.retry⟩, event :: more, behind, hall, ?_,
        .inr ⟨⟨event, List.mem_cons_self, hisCore⟩, .inr (.inr (.inr ?_))⟩,
        .inr ⟨?_, front, winner, ?_, hnext⟩⟩
      · intro key hkey
        rw [hidle] at hkey
        cases hkey
      · rw [hkinds, htried, List.append_assoc, ← hprefer]
        exact horder
      · rw [hcount, hmade.once]
      · rw [hcount, hmade.once]
      · rw [hkinds, htried]
    · obtain rfl : answer = .looked foundNothing := hlooked
      obtain ⟨behind, horder, hbehind⟩ := hmade.order
      refine ⟨hcalls.trans hgoes.calls, ⟨hpass.sound, ?_, hcaches, ?_, hpass.retry⟩, event :: more,
        behind, hall, ?_, .inr ⟨⟨event, List.mem_cons_self, hisCore⟩, ?_⟩, .inl ⟨?_, ?_⟩⟩
      · intro other hother kind hretry
        cases foundNothing with
        | false => cases hother
        | true =>
          obtain rfl : key = other := Option.some.inj hother
          exact (hmade.found rfl).2 kind (mem_preference hcored.kept kind) hretry
      · exact (congrArg (List.Perm · _) hmade.preference).mpr hcored.kept.order
      · rw [hkinds, ← horder, hprefer]
      · by_cases hrest : behind = []
        · exact .inl hrest
        · exact .inr (.inl (List.mem_cons_of_mem _ (List.mem_of_getLast? (hbehind hrest).2)))
      · rw [hcount, hmade.nobody]
      · exact hmade.preference.trans hprefer

/-! ## A turn -/

theorem Turned.of_still {last : Turn} (hbefore : Still turn middle) (h : Turned context middle last)
    (hafter : Still last next) : Turned context turn next := by
  obtain ⟨more, behind, hevents, hkinds, hreason, hprefer⟩ := h.tried
  refine ⟨hbefore.calls.trans (h.calls.trans hafter.calls), h.kept.still hafter, more, behind, ?_,
    ?_, hreason, ?_⟩
  · rw [hafter.events, hevents, hbefore.events]
  · rw [← hbefore.preference, hkinds]
  · rw [hafter.preference, ← hbefore.preference]
    exact hprefer

theorem Turned.fenced (h : Kept context turn) : Turned context turn (turn.note .fenced) :=
  ⟨Nat.le_refl _, h.note 0 trivial fun _ => rfl, [.fenced], turn.state.preference, rfl, rfl,
    .inl List.mem_cons_self, .inl ⟨rfl, rfl⟩⟩

theorem reconcile_still (state : State) (now : Int) (hint : Bool) (generation : Nat) :
    (reconcile state now hint generation).idleAdmission = state.idleAdmission ∧
      (reconcile state now hint generation).idleCoreGeneration = state.idleCoreGeneration ∧
      (reconcile state now hint generation).preference = state.preference ∧
      (reconcile state now hint generation).retryAdmissionDue = state.retryAdmissionDue := by
  rw [reconcile]
  split <;> exact ⟨rfl, rfl, rfl, rfl⟩

theorem serviceLifecycle_still (context : Context) (turn : Turn) :
    Still turn (serviceLifecycle context turn).2 := by
  obtain ⟨hidle, hcore, hprefer, hretry⟩ := reconcile_still turn.state (context.moment turn.calls).now
    (context.moment (turn.calls + 1)).controlHint (context.moment (turn.calls + 2)).generation
  exact ⟨Nat.le_add_right _ _, rfl, hidle, hcore, hprefer, hretry.symm.trans⟩

theorem recoverUncertain_still (context : Context) (turn : Turn) :
    Still turn (recoverUncertain context turn).2 := by
  rw [recoverUncertain]
  split
  · exact .refl turn
  · split <;> exact ⟨Nat.le_add_right _ _, rfl, rfl, rfl, rfl, id⟩

theorem recoverRetries_still (context : Context) (now : Int) (maintain : Bool) (turn : Turn) :
    Still turn (recoverRetries context now maintain turn).2 := by
  rw [recoverRetries]
  split
  · simp only
    split <;> exact ⟨Nat.le_add_right _ _, rfl, rfl, rfl, rfl, fun hdue => (by cases hdue)⟩
  · exact .refl turn

theorem conclude_still (context : Context) (progress : Bool) (turn : Turn) :
    Still turn (conclude context progress turn).2 := by
  have hsecond := serviceLifecycle_still context turn
  rw [conclude]
  simp only
  split
  · exact hsecond.trans ⟨by simp only [Turn.after]; omega, rfl, rfl, rfl, rfl, id⟩
  · refine Still.trans ?_ (.after _ 4)
    refine Still.trans ?_ (serviceLifecycle_still context _)
    exact hsecond.trans ⟨by simp only [Turn.after]; omega, rfl, rfl, rfl, rfl, id⟩

theorem admitWork_turned (now : Int) (h : Kept context turn) :
    ((admitWork context now turn).1 = none ∧ Still turn (admitWork context now turn).2) ∨
      ∃ progress, (admitWork context now turn).1 = some progress ∧
        Turned context turn (admitWork context now turn).2 := by
  have huncertain := (Still.after turn 1).trans (recoverUncertain_still context _)
  rw [admitWork]
  simp only
  generalize recoverUncertain context (turn.after 1) = uncertain at huncertain
  obtain ⟨recovered, middle⟩ := uncertain
  cases recovered with
  | none => exact .inl ⟨rfl, huncertain⟩
  | some recovered =>
    simp only
    generalize (context.providerConfigured && (retryPollDue turn.state now ||
      (turn.state.capacityWasFull && decide ((context.moment turn.calls).freeSlots ≠ 0)))) = maintain
    have hretries := huncertain.trans (recoverRetries_still context now maintain _)
    generalize recoverRetries context now maintain middle = retries at hretries
    obtain ⟨ended, last⟩ := retries
    cases ended with
    | none => exact .inl ⟨rfl, hretries⟩
    | some ended =>
      exact .inr ⟨_, rfl, .of_still hretries (admitPass_turned _ (h.still hretries)) (.refl _)⟩

/-- **A turn.** -/
theorem run_turned (h : Kept context turn) : Turned context turn (run context turn).2 := by
  have hfirst := (serviceLifecycle_still context turn).trans (.after _ 2)
  have hkept := h.still hfirst
  rw [run]
  simp only
  split
  · exact .of_still hfirst (.fenced hkept) (conclude_still context _ _)
  · rcases admitWork_turned (context.moment (serviceLifecycle context turn).2.calls).now hkept with
      ⟨hnone, hstill⟩ | ⟨progress, hsome, hturned⟩
    · rw [hnone]
      exact .of_still (hfirst.trans hstill) (.fenced (hkept.still hstill)) (.refl _)
    · rw [hsome]
      exact .of_still hfirst hturned (conclude_still context _ _)

theorem turns_kept (context : Context) (count : Nat) : Kept context (turns context count) := by
  induction count with
  | zero => exact .start
  | succ count ih => exact (run_turned ih).kept

theorem turns_turned (context : Context) (count : Nat) :
    Turned context (turns context count) (turns context (count + 1)) :=
  run_turned (turns_kept context count)

/-! ## What the context showed -/

theorem Shown.mono {first' last last' : Nat} (h : Shown context first last event)
    (hfirst : first' ≤ first) (hlast : last ≤ last') : Shown context first' last' event := by
  obtain ⟨call, hfrom, hto, hshows⟩ := h
  exact ⟨call, hfirst.trans hfrom, Nat.lt_of_lt_of_le hto hlast, hshows⟩

namespace Adds

variable {first : Nat} {turn middle next : Turn}

theorem of_still (first : Nat) (h : Still turn next) : Adds context first turn next :=
  ⟨h.calls, [], by rw [h.events, List.append_nil], fun _ hevent => (by cases hevent)⟩

theorem trans (h : Adds context first turn middle) (h' : Adds context first middle next) :
    Adds context first turn next := by
  obtain ⟨more, hmore, hshown⟩ := h.events
  obtain ⟨more', hmore', hshown'⟩ := h'.events
  refine ⟨h.calls.trans h'.calls, more ++ more', by rw [hmore', hmore, List.append_assoc], ?_⟩
  intro event hevent
  rcases List.mem_append.mp hevent with hin | hin
  · exact (hshown event hin).mono (Nat.le_refl _) h'.calls
  · exact hshown' event hin

theorem weaken {first' : Nat} (h : Adds context first turn next) (hfirst : first' ≤ first) :
    Adds context first' turn next := by
  obtain ⟨more, hmore, hshown⟩ := h.events
  exact ⟨h.calls, more, hmore, fun event hevent => (hshown event hevent).mono hfirst (Nat.le_refl _)⟩

theorem note (turn : Turn) (calls : Nat) {event : Event}
    (h : Shown context first (turn.calls + calls) event) :
    Adds context first turn ((turn.after calls).note event) := by
  refine ⟨Nat.le_add_right _ _, [event], rfl, fun other hother => ?_⟩
  rw [List.mem_singleton.mp hother]
  exact h

end Adds

theorem admission_adds (scanned : Bool) (kind : Kind) (hfirst : first < turn.calls)
    (hkey : context.shows first (.skipped kind key)) :
    Adds context first turn (admission context key scanned kind turn).2 := by
  have hscan : Adds context first turn (scan context kind key (turn.after 1)).2 :=
    .note turn 2 ⟨turn.calls + 1, by omega, by omega, rfl, rfl, rfl⟩
  rw [admission]
  split_ifs with hskip hbash hopen hprovider hopen hdue
  · refine Adds.note turn 0 ?_
    exact ⟨first, Nat.le_refl _, hfirst, hkey⟩
  · exact hscan
  · refine Adds.note turn 1 ?_
    exact ⟨turn.calls, hfirst.le, Nat.lt_succ_self _, rfl, by
      rw [hbash]
      exact Bool.eq_false_iff.mpr hopen⟩
  · rw [hdue.1] at hopen
    refine Adds.note turn 1 ?_
    exact ⟨turn.calls, hfirst.le, Nat.lt_succ_self _, hopen⟩
  · exact hscan
  · refine Adds.note turn 1 ?_
    exact ⟨turn.calls, hfirst.le, Nat.lt_succ_self _, rfl, Bool.eq_false_iff.mpr hopen⟩
  · refine Adds.note turn 0 ?_
    exact ⟨first, Nat.le_refl _, hfirst, Bool.eq_false_iff.mpr hprovider, hbash⟩

theorem admitKinds_adds {key : AdmissionKey} (scanned : Bool) {first : Nat}
    (hkey : ∀ kind, context.shows first (.skipped kind key)) (kinds : List Kind) :
    ∀ (done : List Kind) (before : Bool) {turn : Turn}, first < turn.calls →
      Adds context first turn (admitKinds context key scanned done kinds before turn).2 := by
  induction kinds with
  | nil => exact fun _ _ turn _ => .of_still first (.refl turn)
  | cons kind kinds ih =>
    intro done before turn hfirst
    rw [admitKinds]
    by_cases hblocked : (context.moment turn.calls).dispatchFenced = true ∨
        (context.moment (turn.calls + 1)).freeSlots = 0
    · rw [if_pos hblocked]
      refine Adds.note turn 2 ?_
      rcases hblocked with hfenced | hfull
      · exact ⟨turn.calls, hfirst.le, by omega, .inl hfenced⟩
      · exact ⟨turn.calls + 1, by omega, by omega, .inr hfull⟩
    · rw [if_neg hblocked]
      have htried : Adds context first turn (admission context key scanned kind (turn.after 2)).2 :=
        (Adds.of_still first (.after turn 2)).trans
          (admission_adds scanned kind (Nat.lt_add_right 2 hfirst) (hkey kind))
      generalize admission context key scanned kind (turn.after 2) = result at htried
      obtain ⟨answer, next⟩ := result
      have hrest : ∀ state done between, Adds context first turn
          (admitKinds context key scanned done kinds between { next with state := state }).2 := by
        intro state done between
        have hnext : Adds context first turn { next with state := state } :=
          ⟨htried.calls, htried.events⟩
        exact hnext.trans (ih done between (Nat.lt_of_lt_of_le hfirst htried.calls))
      cases answer with
      | none => exact hrest next.state _ _
      | some answer =>
        simp only
        split
        · exact ⟨htried.calls, htried.events⟩
        · exact hrest _ _ _

theorem admitCore_adds (hfirst : first < turn.calls)
    (hgeneration : (context.moment first).generation = generation) :
    Adds context first turn (admitCore context generation turn).2 := by
  rw [admitCore]
  split
  · refine Adds.note turn 0 ?_
    exact ⟨first, Nat.le_refl _, hfirst, hgeneration⟩
  · have hnoted : Adds context first turn ((turn.after 1).note (.core
        (context.moment turn.calls).generation
        (context.runCoreAction (context.moment turn.calls).generation))) :=
      .note turn 1 ⟨turn.calls, hfirst.le, Nat.lt_succ_self _, rfl, rfl⟩
    simp only
    split <;> exact ⟨hnoted.calls, hnoted.events⟩

theorem admitPass_adds (progress : Bool) (turn : Turn) :
    Adds context turn.calls turn (admitPass context progress turn).2 := by
  let key : AdmissionKey := {
    generation := (context.moment turn.calls).generation
    slotChanges := (context.moment (turn.calls + 1)).slotChanges
    paused := (context.moment (turn.calls + 2)).turnsPaused }
  have hlt : turn.calls < (turn.after 3).calls := Nat.lt_add_of_pos_right (by decide)
  have hcore : Adds context turn.calls (turn.after 3) _ := admitCore_adds hlt rfl
  have hpast := (Adds.of_still turn.calls (.after turn 3)).trans hcore
  rw [admitPass]
  simp only
  split
  · exact hpast
  · have hall := hpast.trans (@admitKinds_adds context key
      (decide (turn.state.idleAdmission = some key)) turn.calls (fun _ => ⟨rfl, rfl, rfl⟩)
      (admitCore context key.generation (turn.after 3)).2.state.preference [] true _
      (Nat.lt_of_lt_of_le hlt hcore.calls))
    split
    · exact hall
    · exact ⟨hall.calls, hall.events⟩

/-- A recovery without an answer fences dispatch. -/
theorem admitWork_adds (now : Int) (turn : Turn) :
    Adds context turn.calls turn (admitWork context now turn).2 ∧
      ((admitWork context now turn).1 = none →
        Shown context turn.calls (admitWork context now turn).2.calls .fenced) := by
  have huncertain := (Still.after turn 1).trans (recoverUncertain_still context _)
  have hunanswered : (recoverUncertain context (turn.after 1)).1 = none →
      Shown context turn.calls (recoverUncertain context (turn.after 1)).2.calls .fenced := by
    rw [recoverUncertain]
    split
    · exact fun hno => (by cases hno)
    · split
      · rename_i hnone
        exact fun _ => ⟨turn.calls + 1, by omega, Nat.lt_succ_self _, .inr (.inl hnone)⟩
      · exact fun hno => (by cases hno)
      · exact fun hno => (by cases hno)
  rw [admitWork]
  simp only
  generalize recoverUncertain context (turn.after 1) = uncertain at huncertain hunanswered
  obtain ⟨recovered, middle⟩ := uncertain
  cases recovered with
  | none => exact ⟨.of_still _ huncertain, fun _ => hunanswered rfl⟩
  | some recovered =>
    simp only
    generalize (context.providerConfigured && (retryPollDue turn.state now ||
      (turn.state.capacityWasFull && decide ((context.moment turn.calls).freeSlots ≠ 0)))) = maintain
    have hcalls : turn.calls ≤ middle.calls := huncertain.calls
    have hretries := huncertain.trans (recoverRetries_still context now maintain _)
    have hunended : (recoverRetries context now maintain middle).1 = none →
        Shown context turn.calls (recoverRetries context now maintain middle).2.calls .fenced := by
      rw [recoverRetries]
      split
      · simp only
        split
        · rename_i hnone
          exact fun _ => ⟨middle.calls, hcalls, Nat.lt_succ_self _, .inr (.inr hnone)⟩
        · exact fun hno => (by cases hno)
        · exact fun hno => (by cases hno)
      · exact fun hno => (by cases hno)
    generalize recoverRetries context now maintain middle = retries at hretries hunended
    obtain ⟨ended, last⟩ := retries
    cases ended with
    | none => exact ⟨.of_still _ hretries, fun _ => hunended rfl⟩
    | some ended =>
      exact ⟨(Adds.of_still _ hretries).trans ((admitPass_adds _ last).weaken hretries.calls),
        fun hno => (by cases hno)⟩

theorem run_adds (turn : Turn) : Adds context turn.calls turn (run context turn).2 := by
  have hlifecycle := serviceLifecycle_still context turn
  have hfirst := hlifecycle.trans (.after _ 2)
  have hstart : Adds context turn.calls turn _ := .of_still _ hfirst
  rw [run]
  simp only
  split
  · rename_i hfenced
    refine (hstart.trans ?_).trans (.of_still _ (conclude_still context _ _))
    refine Adds.note _ 0 ?_
    exact ⟨_, hlifecycle.calls.trans (Nat.le_succ _), Nat.lt_succ_self _, .inl hfenced⟩
  · obtain ⟨hadds, hfences⟩ := @admitWork_adds context
      (context.moment (serviceLifecycle context turn).2.calls).now
      ((serviceLifecycle context turn).2.after 2)
    have hall := hstart.trans (hadds.weaken hfirst.calls)
    split
    · rename_i hnone
      exact hall.trans (.note _ 0 ((hfences hnone).mono hfirst.calls (Nat.le_refl _)))
    · exact hall.trans (.of_still _ (conclude_still context _ _))

theorem turns_shown (context : Context) (count : Nat) : ∀ event ∈ (turns context count).events,
    Shown context 0 (turns context count).calls event := by
  induction count with
  | zero => exact fun _ hevent => (by cases hevent)
  | succ count ih =>
    intro event hevent
    have hadds := @run_adds context (turns context count)
    obtain ⟨more, hmore, hshown⟩ := hadds.events
    rw [turns, hmore] at hevent
    rcases List.mem_append.mp hevent with hin | hin
    · exact (ih event hin).mono (Nat.le_refl _) hadds.calls
    · exact (hshown event hin).mono (Nat.zero_le _) (Nat.le_refl _)

/-! ## Fairness -/

/-- How many kinds are preferred to one. -/
def place (kind : Kind) (turn : Turn) : Nat := turn.state.preference.idxOf kind

/-- A kind that is not tried moves ahead with each kind that is admitted. -/
theorem Turned.place (h : Turned context turn next) (hkept : Kept context turn) (kind : Kind) :
    ∃ more, next.events = turn.events ++ more ∧
      (kind ∉ more.filterMap Event.kind →
        place kind next + more.countP Event.admits ≤ place kind turn) := by
  obtain ⟨more, behind, hevents, hkinds, -, hprefer⟩ := h.tried
  refine ⟨more, hevents, fun huntried => ?_⟩
  rcases hprefer with ⟨hzero, hsame⟩ | ⟨hone, front, winner, hreached, hmoved⟩
  · rw [hzero, ExecutionTurn.place, hsame]
    rfl
  · have hmem : kind ∈ behind := by
      have hall := mem_preference hkept kind
      rw [hkinds] at hall
      exact (List.mem_append.mp hall).resolve_left huntried
    rw [hreached, List.mem_append, List.mem_singleton, not_or] at huntried
    rw [hone, ExecutionTurn.place, ExecutionTurn.place, hmoved, hkinds, hreached,
      List.append_assoc, List.append_assoc, List.idxOf_append_of_notMem huntried.1,
      List.idxOf_append_of_notMem huntried.1, List.idxOf_append_of_mem hmem,
      List.singleton_append, List.idxOf_cons_ne _ (Ne.symm huntried.2)]
    omega

theorem place_turns (context : Context) (kind : Kind) (first count : Nat) :
    ∃ window, (turns context (first + count)).events = (turns context first).events ++ window ∧
      (kind ∉ window.filterMap Event.kind →
        place kind (turns context (first + count)) + window.countP Event.admits ≤
          place kind (turns context first)) := by
  induction count with
  | zero => exact ⟨[], by simp, by simp⟩
  | succ count ih =>
    obtain ⟨window, hwindow, hplace⟩ := ih
    have hturned := turns_turned context (first + count)
    obtain ⟨more, hmore, hmoved⟩ := hturned.place (turns_kept context (first + count)) kind
    refine ⟨window ++ more, by rw [← Nat.add_assoc, hmore, hwindow, List.append_assoc], ?_⟩
    rw [List.filterMap_append, List.mem_append, not_or, List.countP_append]
    rintro ⟨huntried, hnone⟩
    have hbefore := hplace huntried
    have hnow : place kind (turns context (first + (count + 1))) + _ ≤ _ := hmoved hnone
    omega

theorem place_le (context : Context) (kind : Kind) (count : Nat) :
    place kind (turns context count) ≤ 3 := by
  have hkept := turns_kept context count
  have hlt := List.idxOf_lt_length_of_mem (mem_preference hkept kind)
  rw [hkept.order.length_eq] at hlt
  exact Nat.le_of_lt_succ hlt

/-! ## Admission loses no work -/

/-- **Admission.** Over any turns: a scan is skipped only where the same commit
generation, slot count and pause already found nothing, or the kind's preparation
was closed at that slot count, or no provider is configured; a core scan only where
its generation found nothing, and a retry scan only where the last one did. What a
turn notes, the context showed in it: unless dispatch is fenced or a recovery fences
it, it scans for core work and tries the kinds in order of preference, up to an
admission, a fence or a full pool. A kind that is not tried sees at most three
admissions. -/
theorem admission_laws (context : Context) (count : Nat) :
    (∀ earlier later kind key,
        (turns context count).events = earlier ++ .skipped kind key :: later →
        kind ≠ .retry ∧
          (.scanned kind key.generation key.slotChanges key.paused .noWork ∈ earlier ∨
            .closed kind key.slotChanges ∈ earlier ∨
            context.providerConfigured = false ∧ kind ≠ .bash)) ∧
      (∀ earlier later generation,
        (turns context count).events = earlier ++ .coreSkipped generation :: later →
        .core generation .noWork ∈ earlier) ∧
      (∀ earlier later, (turns context count).events = earlier ++ .undue :: later →
        lastRetry earlier = some .noWork) ∧
      (∃ more behind, (turns context (count + 1)).events = (turns context count).events ++ more ∧
        (∀ event ∈ more, Shown context (turns context count).calls
          (turns context (count + 1)).calls event) ∧
        (turns context count).state.preference = more.filterMap Event.kind ++ behind ∧
        (.fenced ∈ more ∨ (∃ event ∈ more, event.isCore = true) ∧
          (behind = [] ∨ .blocked ∈ more ∨ (∃ generation, .core generation .admitted ∈ more) ∨
            more.countP Event.admits = 1))) ∧
      ∀ later kind window,
        (turns context (count + later)).events = (turns context count).events ++ window →
        kind ∉ window.filterMap Event.kind → window.countP Event.admits ≤ 3 := by
  have hsound := (turns_kept context count).sound
  refine ⟨?_, fun _ _ _ hsplit => hsound _ _ _ hsplit, fun _ _ hsplit => hsound _ _ _ hsplit, ?_, ?_⟩
  · intro earlier later kind key hsplit
    obtain ⟨hretry, hnothing⟩ := hsound _ _ _ hsplit
    refine ⟨hretry, ?_⟩
    rcases hnothing with hscanned | hclosed | hunconfigured
    · exact .inl hscanned
    · exact .inr (.inl hclosed)
    · obtain ⟨_, _, _, hshows⟩ := turns_shown context count (.unconfigured kind) (by
        rw [hsplit]
        exact List.mem_append_left _ hunconfigured)
      exact .inr (.inr hshows)
  · obtain ⟨more, behind, hevents, hkinds, hreason, -⟩ := (turns_turned context count).tried
    obtain ⟨more', hevents', hshown⟩ := (@run_adds context (turns context count)).events
    obtain rfl : more = more' := List.append_cancel_left (hevents.symm.trans hevents')
    exact ⟨more, behind, hevents, hshown, hkinds, hreason⟩
  · intro later kind window hwindow huntried
    obtain ⟨window', hwindow', hplace⟩ := place_turns context kind count later
    obtain rfl : window = window' := List.append_cancel_left (hwindow.symm.trans hwindow')
    have hfirst := place_le context kind count
    have hlast := hplace huntried
    omega

/-- A Host without a provider, whose Store has a message that could start a Turn. -/
def unconfigured : Context where
  providerConfigured := false
  moment := fun _ => {}
  generation_mono := fun _ => Nat.le_refl _
  slotChanges_mono := fun _ => Nat.le_refl _
  runCoreAction := fun _ => .noWork
  admitBash := fun _ _ => .noWork
  admitNewModel := fun _ _ _ => .admitted
  admitToolContinuation := fun _ _ => .noWork

/-- Without a provider no message is scanned for, though dispatch is not fenced, a
slot is free and the preparation is open. -/
theorem unconfigured_unscanned :
    (∀ call, (unconfigured.moment call).dispatchFenced = false ∧
      (unconfigured.moment call).freeSlots ≠ 0 ∧
      unconfigured.preparationOpen .message call = true) ∧
    (turns unconfigured 1).events = [.core 0 .noWork, .scanned .bash 0 0 false .noWork,
      .unconfigured .retry, .unconfigured .message, .unconfigured .toolContinuation] :=
  ⟨fun _ => ⟨rfl, Nat.one_ne_zero, rfl⟩, by decide⟩

end Rui.ExecutionTurn
