import Rui.Library.Linked
import Rui.Library.Runs
import Rui.Store.Queue

/-!
# One holder of the Store, step by step

The invariant says who holds the Store and how far it is, which requests are
off the queue, on it, and in the batch, and what the history so far has done
for each of them. Every step of every thread keeps it.
-/

namespace Rui.Store

open Library Queue

variable {T α ε ρ : Type}

/-! ## What a history has done for a request -/

namespace Label

def isFinish : Label T α ε ρ → Bool
  | .finish .. => true
  | _ => false

/-- The ticket of the request whose body a step runs. -/
def bodyTicket : Label T α ε ρ → Option Nat
  | .body _ _ ticket _ => some ticket
  | _ => none

end Label

/-- The tickets of the bodies that ran, in their order. -/
def bodiesOf (past : List (Label T α ε ρ)) : List Nat := past.filterMap Label.bodyTicket

/-- A request's body ran, and no batch finished since. -/
def Ran (past : List (Label T α ε ρ)) (ticket : Nat) (answer : Answer α ε ρ) : Prop :=
  ∃ before after thread job, past = before ++ .body thread job ticket answer :: after ∧
    ∀ label ∈ after, label.isFinish = false

/-- A request's body ran, and the next batch to finish did, so. -/
def Finished (past : List (Label T α ε ρ)) (ticket : Nat) (answer : Answer α ε ρ)
    (committed : Bool) : Prop :=
  ∃ before between after thread job closer,
    past = before ++ .body thread job ticket answer :: between ++ .finish closer committed :: after ∧
      ∀ label ∈ between, label.isFinish = false

section

variable {past : List (Label T α ε ρ)} {ticket : Nat} {answer : Answer α ε ρ}

theorem Ran.body (past : List (Label T α ε ρ)) (thread job : T) (ticket : Nat)
    (answer : Answer α ε ρ) : Ran (past ++ [.body thread job ticket answer]) ticket answer :=
  ⟨past, [], thread, job, rfl, fun _ h => (nomatch h)⟩

theorem Ran.snoc (h : Ran past ticket answer) {label : Label T α ε ρ}
    (hlabel : label.isFinish = false) : Ran (past ++ [label]) ticket answer := by
  obtain ⟨before, after, thread, job, rfl, hafter⟩ := h
  refine ⟨before, after ++ [label], thread, job, by simp, ?_⟩
  intro other hother
  rcases List.mem_append.mp hother with hmem | hmem
  · exact hafter other hmem
  · rwa [List.mem_singleton.mp hmem]

theorem Ran.finish (h : Ran past ticket answer) (closer : T) (committed : Bool) :
    Finished (past ++ [.finish closer committed]) ticket answer committed := by
  obtain ⟨before, after, thread, job, rfl, hafter⟩ := h
  exact ⟨before, after, [], thread, job, closer, by simp, hafter⟩

theorem Finished.snoc {committed : Bool} (h : Finished past ticket answer committed)
    (label : Label T α ε ρ) : Finished (past ++ [label]) ticket answer committed := by
  obtain ⟨before, between, after, thread, job, closer, rfl, hbetween⟩ := h
  exact ⟨before, between, after ++ [label], thread, job, closer, by simp, hbetween⟩

end

variable [DecidableEq T]

/-- How many bodies a step adds to those the holder ran for others. -/
def quotaStep (ran : Nat) : Label T α ε ρ → Nat
  | .body thread job _ _ => if thread = job then ran else ran + 1
  | .handOver .. => 0
  | .letGo .. => 0
  | _ => ran

/-- How many bodies the holder has run for others. -/
def quota (past : List (Label T α ε ρ)) : Nat := past.foldl quotaStep 0

theorem quota_snoc (past : List (Label T α ε ρ)) (label : Label T α ε ρ) :
    quota (past ++ [label]) = quotaStep (quota past) label := by
  rw [quota, List.foldl_append]
  rfl

omit [DecidableEq T] in
theorem bodiesOf_snoc (past : List (Label T α ε ρ)) (label : Label T α ε ρ) :
    bodiesOf (past ++ [label]) = bodiesOf past ++ label.bodyTicket.toList := by
  rw [bodiesOf, List.filterMap_append]
  cases h : label.bodyTicket <;> simp [h, bodiesOf]

variable {past : List (Label T α ε ρ)} {ticket : Nat} {answer : Answer α ε ρ}
  {committed batchOpen : Bool} {d : Drain T α ε ρ} {label : Label T α ε ρ}
  {jobs : T → Job T α ε ρ} {batch hand queue : List T} {job : Job T α ε ρ} {pc : Pc T α ε ρ}
  {now later : Queue T α ε ρ} {thread : T} {holder : Option T}

omit [DecidableEq T] in
theorem bodiesOf_mono (h : ticket ∈ bodiesOf past) (label : Label T α ε ρ) :
    ticket ∈ bodiesOf (past ++ [label]) := by
  rw [bodiesOf_snoc]
  exact List.mem_append_left _ h

omit [DecidableEq T] in
theorem bodiesOf_body (past : List (Label T α ε ρ)) (thread job : T) (ticket : Nat)
    (answer : Answer α ε ρ) :
    ticket ∈ bodiesOf (past ++ [.body thread job ticket answer]) := by
  rw [bodiesOf_snoc]
  exact List.mem_append_right _ (List.mem_singleton_self _)

omit [DecidableEq T] in
theorem Finished.ran (h : Finished past ticket answer committed) : ticket ∈ bodiesOf past := by
  obtain ⟨before, between, after, thread, job, closer, rfl, -⟩ := h
  simp [bodiesOf, Label.bodyTicket]

/-! ## The invariant -/

/-- What a drain has told of its thread's own request. -/
structure Draining (own : Bool) (ticket : Nat) (past : List (Label T α ε ρ))
    (d : Drain T α ε ρ) : Prop where
  entry : d.isOpen = !own
  answered : d.isOpen = true → ∃ answer, d.answer = some answer
  first : d.isOpen = true → d.first = true →
    d.batching = true ∧ ∀ answer, d.answer = some answer → Ran past ticket answer
  finished : d.isOpen = true → d.first = false →
    ∀ answer, d.answer = some answer → Finished past ticket answer d.committed
  ended : ∀ answer, d.answer = some answer → ticket ∈ bodiesOf past
  ran : d.ran ≤ drainLimit

/-- The batch of a drain, open or not begun. -/
structure Batching (jobs : T → Job T α ε ρ) (ticket : T → Nat) (past : List (Label T α ε ρ))
    (batchOpen : Bool) (d : Drain T α ε ρ) (batch : List T) : Prop where
  linked : Linked (fun job => (jobs job).next) d.batched batch
  same : batchOpen = d.batching
  none : d.batching = false → batch = []
  ran : ∀ job ∈ batch, (jobs job).own = false ∧
    ∃ answer, (jobs job).answer = some answer ∧ Ran past (ticket job) answer

/-- The batch of a drain, finished and not all answered. -/
structure Answering (jobs : T → Job T α ε ρ) (ticket : T → Nat) (past : List (Label T α ε ρ))
    (at_ : Option T) (committed : Bool) (d : Drain T α ε ρ) (batch : List T) : Prop where
  linked : Linked (fun job => (jobs job).next) at_ batch
  closed : d.batching = false
  none : d.batched = none
  finished : ∀ job ∈ batch, (jobs job).own = false ∧
    ∃ answer, (jobs job).answer = some answer ∧ Finished past (ticket job) answer committed

/-- What the place of the holder says: the request in its hand, and its batch. -/
def Stage (now : Queue T α ε ρ) (past : List (Label T α ε ρ)) (thread : T)
    (hand batch : List T) : Pc T α ε ρ → Prop
  | .idle => False
  | .waiting entry => hand = [thread] ∧ batch = [] ∧ now.batchOpen = false ∧ now.owner = none ∧
      (now.jobs thread).own = (entry != .write) ∧ (now.jobs thread).done = true ∧
      (now.jobs thread).handed = true
  | .taken entry => hand = [thread] ∧ batch = [] ∧ now.batchOpen = false ∧ now.owner = none ∧
      (now.jobs thread).own = (entry != .write)
  | .holding entry => hand = [thread] ∧ batch = [] ∧ now.batchOpen = false ∧
      now.owner = some thread ∧ (now.jobs thread).own = (entry != .write)
  | .started => hand = [thread] ∧ batch = [] ∧ now.batchOpen = true ∧
      now.owner = some thread ∧ (now.jobs thread).own = false
  | .drain d => hand = [] ∧ Batching now.jobs now.ticket past now.batchOpen d batch ∧
      now.owner = some thread ∧ Draining (now.jobs thread).own (now.ticket thread) past d
  | .popped job d => hand = [job] ∧ Batching now.jobs now.ticket past now.batchOpen d batch ∧
      now.owner = some thread ∧ Draining (now.jobs thread).own (now.ticket thread) past d ∧
      job ≠ thread ∧ (now.jobs job).own = false ∧ d.ran < drainLimit
  | .finishing d => hand = [] ∧ Batching now.jobs now.ticket past now.batchOpen d batch ∧
      now.owner = some thread ∧ Draining (now.jobs thread).own (now.ticket thread) past d ∧
      d.batching = true
  | .answering at_ committed d => hand = [] ∧
      Answering now.jobs now.ticket past at_ committed d batch ∧ now.batchOpen = false ∧
      now.owner = some thread ∧ Draining (now.jobs thread).own (now.ticket thread) past d
  | .handing job d => hand = [job] ∧ batch = [] ∧ now.batchOpen = false ∧
      now.owner = some thread ∧ Draining (now.jobs thread).own (now.ticket thread) past d ∧
      d.batching = false ∧ job ≠ thread
  | .returning _ keeps => hand = [] ∧ batch = [] ∧ now.batchOpen = false ∧
      now.owner = some thread ∧ (now.jobs thread).own = true ∧ keeps = true ∧
      now.ticket thread ∈ bodiesOf past
  | .held => hand = [] ∧ batch = [] ∧ now.batchOpen = false ∧ now.owner = some thread ∧
      (now.jobs thread).own = true

/-- What the place of another thread says: its request waits, or has been answered as the batch
that ran its body finished. -/
def Bystander (job : Job T α ε ρ) (ticket : Nat) (past : List (Label T α ε ρ)) (waits : Prop) :
    Pc T α ε ρ → Prop
  | .idle => True
  | .waiting entry => job.handed = false ∧ job.own = (entry != .write) ∧
      (job.done = false → waits) ∧
      (job.done = true → job.own = false ∧ ∃ answer, job.answer = some answer ∧
        Finished past ticket answer (!job.lost))
  | .returning answer keeps => keeps = false ∧ ticket ∈ bodiesOf past ∧ (job.own = false →
      ∃ ran committed, Finished past ticket ran committed ∧
        answer = if committed then ran else lostAnswer ran)
  | _ => False

/-- How many bodies the holder ran for others, by its place. -/
def Pc.ran : Pc T α ε ρ → Nat
  | .drain d | .popped _ d | .finishing d | .answering _ _ d | .handing _ d => d.ran
  | _ => 0

/-- Who holds the Store, which request it has in hand, which are queued, and which are in its
batch. -/
structure Inv (now : Queue T α ε ρ) (past : List (Label T α ε ρ)) (holder : Option T)
    (hand queue batch : List T) : Prop where
  held : now.held = holder.isSome
  linked : Linked (fun job => (now.jobs job).next) now.head queue
  tail : now.tail = queue.getLast?
  free : holder = none → hand = [] ∧ queue = [] ∧ batch = [] ∧ now.batchOpen = false ∧
    now.owner = none
  stage : ∀ thread, holder = some thread → Stage now past thread hand batch (now.pc thread)
  others : ∀ thread, holder ≠ some thread →
    Bystander (now.jobs thread) (now.ticket thread) past (thread ∈ hand ++ queue ++ batch)
      (now.pc thread)
  asleep : ∀ thread ∈ hand ++ queue ++ batch, holder ≠ some thread →
    (now.jobs thread).done = false ∧ ∃ entry, now.pc thread = .waiting entry
  away : ∀ thread ∈ queue ++ batch, holder ≠ some thread
  distinct : (hand ++ queue ++ batch).Nodup
  tickets : (hand ++ queue).map now.ticket =
    List.range' now.bodies (hand ++ queue).length
  arrivals : now.arrivals = now.bodies + (hand ++ queue).length
  bodies : bodiesOf past = List.range now.bodies
  quota : quota past = (holder.map fun thread => (now.pc thread).ran).getD 0

/-! ## What a step leaves -/

omit [DecidableEq T] in
theorem Draining.snoc {own : Bool} (h : Draining own ticket past d)
    (hlabel : label.isFinish = false) : Draining own ticket (past ++ [label]) d where
  entry := h.entry
  answered := h.answered
  first hopen hfirst := by
    obtain ⟨hbatching, hran⟩ := h.first hopen hfirst
    exact ⟨hbatching, fun answer hanswer => (hran answer hanswer).snoc hlabel⟩
  finished hopen hfirst answer hanswer := (h.finished hopen hfirst answer hanswer).snoc label
  ended answer hanswer := bodiesOf_mono (h.ended answer hanswer) label
  ran := h.ran

omit [DecidableEq T] in
theorem Batching.snoc {ticket : T → Nat} (h : Batching jobs ticket past batchOpen d batch)
    (hlabel : label.isFinish = false) :
    Batching jobs ticket (past ++ [label]) batchOpen d batch where
  linked := h.linked
  same := h.same
  none := h.none
  ran job hjob := by
    obtain ⟨hown, answer, hanswer, hran⟩ := h.ran job hjob
    exact ⟨hown, answer, hanswer, hran.snoc hlabel⟩

omit [DecidableEq T] in
theorem Answering.snoc {ticket : T → Nat} {at_ : Option T}
    (h : Answering jobs ticket past at_ committed d batch) (label : Label T α ε ρ) :
    Answering jobs ticket (past ++ [label]) at_ committed d batch where
  linked := h.linked
  closed := h.closed
  none := h.none
  finished job hjob := by
    obtain ⟨hown, answer, hanswer, hfinished⟩ := h.finished job hjob
    exact ⟨hown, answer, hanswer, hfinished.snoc label⟩

/-- What a thread's step leaves of another thread's request. -/
structure Kept (job job' : Job T α ε ρ) : Prop where
  done : job'.done = job.done
  own : job'.own = job.own
  handed : job'.handed = job.handed
  answered : job.done = true → job'.lost = job.lost ∧ job'.answer = job.answer

omit [DecidableEq T] in
theorem Kept.refl (job : Job T α ε ρ) : Kept job job := ⟨rfl, rfl, rfl, fun _ => ⟨rfl, rfl⟩⟩

omit [DecidableEq T] in
theorem Bystander.keep {job' : Job T α ε ρ} {waits waits' : Prop}
    (h : Bystander job ticket past waits pc) (hkept : Kept job job')
    (hwaits : job.done = false → waits → waits') (label : Label T α ε ρ) :
    Bystander job' ticket (past ++ [label]) waits' pc := by
  cases pc with
  | idle => trivial
  | waiting entry =>
    obtain ⟨hhanded, hown, hwaiting, hdone⟩ := h
    refine ⟨hkept.handed.trans hhanded, hkept.own.trans hown, ?_, ?_⟩
    · intro hnot
      rw [hkept.done] at hnot
      exact hwaits hnot (hwaiting hnot)
    · intro hyes
      rw [hkept.done] at hyes
      obtain ⟨hwrite, answer, hanswer, hfinished⟩ := hdone hyes
      obtain ⟨hlost, hsame⟩ := hkept.answered hyes
      exact ⟨hkept.own.trans hwrite, answer, hsame.trans hanswer, by
        rw [hlost]
        exact hfinished.snoc label⟩
  | returning answer keeps =>
    obtain ⟨hkeeps, hover, hran⟩ := h
    refine ⟨hkeeps, bodiesOf_mono hover label, fun hown => ?_⟩
    rw [hkept.own] at hown
    obtain ⟨ran, committed, hfinished, hanswer⟩ := hran hown
    exact ⟨ran, committed, hfinished.snoc label, hanswer⟩
  | _ => exact h

/-- **A step of the holder** that keeps the requests of the others where they are, whoever has
them in hand. -/
theorem Inv.move {hand' queue' batch' : List T} (h : Inv now past (some thread) hand queue batch)
    (held : later.held = now.held) (pc : ∀ other, other ≠ thread → later.pc other = now.pc other)
    (jobs : ∀ other, other ≠ thread → Kept (now.jobs other) (later.jobs other))
    (ticket : later.ticket = now.ticket)
    (linked : Linked (fun job => (later.jobs job).next) later.head queue')
    (tail : later.tail = queue'.getLast?)
    (stage : Stage later (past ++ [label]) thread hand' batch' (later.pc thread))
    (members : ∀ other, other ≠ thread →
      (other ∈ hand' ++ queue' ++ batch' ↔ other ∈ hand ++ queue ++ batch))
    (away : thread ∉ queue' ++ batch') (distinct : (hand' ++ queue' ++ batch').Nodup)
    (tickets : (hand' ++ queue').map now.ticket = List.range' later.bodies (hand' ++ queue').length)
    (arrivals : later.arrivals = later.bodies + (hand' ++ queue').length)
    (bodies : bodiesOf (past ++ [label]) = List.range later.bodies)
    (quota : Store.quota (past ++ [label]) = (later.pc thread).ran) :
    Inv later (past ++ [label]) (some thread) hand' queue' batch' where
  held := held.trans h.held
  linked := linked
  tail := tail
  free hnone := nomatch hnone
  stage other hother := by
    cases hother
    exact stage
  others other hother := by
    have hne : other ≠ thread := fun heq => hother (heq ▸ rfl)
    rw [pc other hne, ticket]
    exact (h.others other hother).keep (jobs other hne) (fun _ => (members other hne).mpr) label
  asleep other hmem hother := by
    have hne : other ≠ thread := fun heq => hother (heq ▸ rfl)
    rw [pc other hne, (jobs other hne).done]
    exact h.asleep other ((members other hne).mp hmem) hother
  away other hmem heq := by
    cases heq
    exact away hmem
  distinct := distinct
  tickets := by
    rw [ticket]
    exact tickets
  arrivals := arrivals
  bodies := bodies
  quota := quota

/-- Places that only the holder is at. -/
def Pc.inside : Pc T α ε ρ → Bool
  | .idle | .waiting _ | .returning _ false => false
  | _ => true

/-- A thread at one of them is the holder. -/
theorem Inv.stageOf (h : Inv now past holder hand queue batch) (hpc : now.pc thread = pc)
    (hinside : pc.inside = true) : holder = some thread ∧ Stage now past thread hand batch pc := by
  have hholder : holder = some thread := by
    apply Decidable.byContradiction
    intro hne
    have hother := h.others thread hne
    rw [hpc] at hother
    cases pc with
    | idle => cases hinside
    | waiting entry => cases hinside
    | returning answer keeps =>
      obtain ⟨rfl, -⟩ := hother
      cases hinside
    | _ => exact hother
  exact ⟨hholder, hpc ▸ h.stage thread hholder⟩

/-- A step of the holder that touches no request. -/
theorem Inv.stay (h : Inv now past (some thread) hand queue batch) {owner : Option T}
    (hbody : label.bodyTicket = none) (hquota : quotaStep (now.pc thread).ran label = pc.ran)
    (hstage : Stage ({ now with owner := owner, batchOpen := batchOpen }.setPc thread pc)
      (past ++ [label]) thread hand batch pc) :
    Inv ({ now with owner := owner, batchOpen := batchOpen }.setPc thread pc) (past ++ [label])
      (some thread) hand queue batch := by
  have hpc : (({ now with owner := owner, batchOpen := batchOpen }.setPc thread pc).pc thread) =
      pc := Function.update_self ..
  refine h.move rfl ?_ (fun other _ => .refl _) rfl h.linked h.tail (hpc.symm ▸ hstage)
    (fun other _ => Iff.rfl) (fun hmem => h.away thread hmem rfl) h.distinct h.tickets
    h.arrivals ?_ ?_
  · intro other hne
    exact Function.update_of_ne hne ..
  · rw [bodiesOf_snoc, hbody, h.bodies]
    exact List.append_nil _
  · rw [quota_snoc, hpc, ← hquota, h.quota]
    rfl

/-- The holder runs the body of its own request. -/
theorem Inv.runOwn (h : Inv now past (some thread) [thread] queue batch)
    (hran : (now.pc thread).ran = pc.ran)
    (hstage : Stage ({ now with bodies := now.bodies + 1 }.setPc thread pc)
      (past ++ [.body thread thread (now.ticket thread) answer]) thread [] batch pc) :
    Inv ({ now with bodies := now.bodies + 1 }.setPc thread pc)
      (past ++ [.body thread thread (now.ticket thread) answer]) (some thread) [] queue batch := by
  have hpc : (({ now with bodies := now.bodies + 1 }.setPc thread pc).pc thread) = pc :=
    Function.update_self ..
  have htickets := h.tickets
  rw [List.singleton_append, List.map_cons, List.length_cons, List.range'_succ,
    List.cons.injEq] at htickets
  refine h.move rfl ?_ (fun other _ => .refl _) rfl h.linked h.tail (hpc.symm ▸ hstage) ?_
    (fun hmem => h.away thread hmem rfl) (List.nodup_cons.mp h.distinct).2 htickets.2 ?_ ?_ ?_
  · intro other hne
    exact Function.update_of_ne hne ..
  · intro other hne
    rw [List.nil_append, List.append_assoc, List.singleton_append, List.mem_cons]
    exact ⟨.inr, fun hmem => hmem.resolve_left hne⟩
  · show now.arrivals = now.bodies + 1 + ([] ++ queue).length
    rw [h.arrivals, List.length_append, List.length_append, List.length_singleton,
      List.length_nil]
    omega
  · show _ = List.range (now.bodies + 1)
    rw [bodiesOf_snoc, h.bodies, List.range_succ, htickets.1]
    rfl
  · rw [quota_snoc, h.quota, hpc, ← hran, quotaStep, if_pos rfl]
    rfl

/-- The first request of the queue comes to the holder's hand. -/
theorem Inv.popped {job : T} (h : Inv now past (some thread) [] queue batch)
    (hhead : now.head = some job) (pc : Pc T α ε ρ) (hran : (now.pc thread).ran = pc.ran)
    (hstage : job ≠ thread → Stage ((now.pop job).setPc thread pc)
      (past ++ [.internal thread]) thread [job] batch pc) :
    ∃ rest, Inv ((now.pop job).setPc thread pc) (past ++ [.internal thread]) (some thread) [job]
      rest batch := by
  have hlinked := h.linked
  rw [hhead] at hlinked
  obtain ⟨rest, rfl, hrest⟩ := hlinked.eq_cons
  have hpc : (((now.pop job).setPc thread pc).pc thread) = pc := Function.update_self ..
  have hne : job ≠ thread := by
    rintro rfl
    exact h.away job (by simp) rfl
  refine ⟨rest, h.move rfl ?_ (fun other _ => .refl _) rfl hrest ?_ (hpc.symm ▸ hstage hne)
    (fun other _ => Iff.rfl) ?_ h.distinct h.tickets h.arrivals ?_ ?_⟩
  · intro other hother
    exact Function.update_of_ne hother ..
  · show (if (now.jobs job).next = none then none else now.tail) = rest.getLast?
    rw [h.tail]
    cases rest with
    | nil => exact if_pos hrest
    | cons next rest => rw [if_neg (by rw [hrest.1]; exact nofun), List.getLast?_cons_cons]
  · intro hmem
    exact h.away thread (List.mem_cons_of_mem _ hmem) rfl
  · rw [bodiesOf_snoc, h.bodies]
    exact List.append_nil _
  · rw [quota_snoc, hpc, ← hran, h.quota]
    rfl

/-- The holder runs a queued write, which joins its batch. -/
theorem Inv.batched {job : T} (h : Inv now past (some thread) [job] queue batch)
    (hpc : now.pc thread = .popped job d) (hbatching : d.batching = true) (answer : Answer α ε ρ) :
    Inv ((now.answerJob job answer d.batched).setPc thread
        (.drain { d with ran := d.ran + 1, batched := some job }))
      (past ++ [.body thread job (now.ticket job) answer]) (some thread) [] queue
      (job :: batch) := by
  obtain ⟨-, hstage⟩ := h.stageOf hpc rfl
  obtain ⟨-, hbatch, howner, hdrain, hne, hown, hran⟩ := hstage
  have hdistinct := h.distinct
  rw [List.append_assoc, List.singleton_append, List.nodup_cons] at hdistinct
  obtain ⟨hnot, hrest⟩ := hdistinct
  have hjobs : ∀ other, other ≠ job → Function.update now.jobs job
      { now.jobs job with answer := some answer, next := d.batched } other = now.jobs other :=
    fun other hother => Function.update_of_ne hother ..
  have hpc' : ((now.answerJob job answer d.batched).setPc thread
      (.drain { d with ran := d.ran + 1, batched := some job })).pc thread =
      .drain { d with ran := d.ran + 1, batched := some job } := Function.update_self ..
  have htickets := h.tickets
  rw [List.singleton_append, List.map_cons, List.length_cons, List.range'_succ,
    List.cons.injEq] at htickets
  refine h.move rfl ?_ ?_ rfl ?_ h.tail ?_ ?_ ?_ ?_ htickets.2 ?_ ?_ ?_
  · intro other hother
    exact Function.update_of_ne hother ..
  · intro other hother
    show Kept (now.jobs other) (Function.update now.jobs job _ other)
    by_cases heq : other = job
    · subst heq
      have hasleep := (h.asleep other (by simp) (by simpa using Ne.symm hne)).1
      rw [Function.update_self]
      exact ⟨rfl, rfl, rfl, fun hdone => by rw [hasleep] at hdone; cases hdone⟩
    · rw [hjobs other heq]
      exact .refl _
  · refine h.linked.congr ?_
    intro other hother
    show (Function.update now.jobs job _ other).next = _
    rw [hjobs other]
    rintro rfl
    exact hnot (List.mem_append_left _ hother)
  · rw [hpc']
    have hthread : (Function.update now.jobs job { now.jobs job with
        answer := some answer, next := d.batched } thread) = now.jobs thread :=
      hjobs thread (Ne.symm hne)
    refine ⟨rfl, ⟨?_, hbatch.same, ?_, ?_⟩, howner, ?_⟩
    · refine hbatch.linked.cons ?_ ?_
      · show (Function.update now.jobs job _ job).next = _
        rw [Function.update_self]
      · intro other hother
        show (Function.update now.jobs job _ other).next = _
        rw [hjobs other]
        rintro rfl
        exact hnot (List.mem_append_right _ hother)
    · intro hclosed
      exact absurd (hbatching.symm.trans hclosed) nofun
    · intro other hother
      show (Function.update now.jobs job _ other).own = false ∧
        ∃ answer', (Function.update now.jobs job _ other).answer = some answer' ∧ _
      rcases List.mem_cons.mp hother with rfl | hmem
      · rw [Function.update_self]
        exact ⟨hown, answer, rfl, .body ..⟩
      · rw [hjobs other (by rintro rfl; exact hnot (List.mem_append_right _ hmem))]
        obtain ⟨hown', answer', hanswer, hran'⟩ := hbatch.ran other hmem
        exact ⟨hown', answer', hanswer, hran'.snoc rfl⟩
    · show Draining (Function.update now.jobs job _ thread).own _ _ _
      rw [hthread]
      exact { hdrain.snoc rfl with ran := hran }
  · intro other _
    simp only [List.mem_append, List.mem_cons, List.not_mem_nil, or_false, false_or]
    rw [or_assoc]
    exact or_left_comm
  · intro hmem
    simp only [List.mem_append, List.mem_cons] at hmem
    rcases hmem with hmem | rfl | hmem
    · exact h.away thread (List.mem_append_left _ hmem) rfl
    · exact hne rfl
    · exact h.away thread (List.mem_append_right _ hmem) rfl
  · rw [List.nil_append]
    exact (List.perm_middle.nodup_iff).mpr (List.nodup_cons.mpr ⟨hnot, hrest⟩)
  · show now.arrivals = now.bodies + 1 + ([] ++ queue).length
    rw [h.arrivals, List.length_append, List.length_append, List.length_singleton,
      List.length_nil]
    omega
  · show _ = List.range (now.bodies + 1)
    rw [bodiesOf_snoc, h.bodies, List.range_succ, htickets.1]
    rfl
  · rw [quota_snoc, h.quota, hpc', quotaStep, if_neg (Ne.symm hne)]
    show (now.pc thread).ran + 1 = d.ran + 1
    rw [hpc]
    rfl

/-- A batched write's event is set: it is answered as the batch finished. -/
theorem Inv.answered {now : Queue T α ε ρ} {past : List (Label T α ε ρ)} {thread job : T}
    {committed : Bool} {d : Drain T α ε ρ} {hand queue batch : List T}
    (h : Inv now past (some thread) hand queue batch)
    (hpc : now.pc thread = .answering (some job) committed d) :
    ∃ rest, Inv ((now.setJob job { now.jobs job with lost := !committed, done := true }).setPc
        thread (.answering (now.jobs job).next committed d))
      (past ++ [.answer thread job (now.ticket job)]) (some thread) hand queue rest := by
  obtain ⟨-, hstage⟩ := h.stageOf hpc rfl
  obtain ⟨rfl, hanswering, hclosed, howner, hdrain⟩ := hstage
  obtain ⟨rest, rfl, hrest⟩ := hanswering.linked.eq_cons
  have hne : thread ≠ job := by
    rintro rfl
    exact h.away thread (by simp) rfl
  have hdistinct := List.nodup_middle.mp h.distinct
  obtain ⟨hnot, hdistinct⟩ := List.nodup_cons.mp hdistinct
  generalize hlater : (now.setJob job { now.jobs job with lost := !committed, done := true }).setPc
    thread (.answering (now.jobs job).next committed d) = later
  have hpc' : later.pc thread = .answering (now.jobs job).next committed d := by
    rw [← hlater]
    exact Function.update_self ..
  have hothers : ∀ other, other ≠ thread → later.pc other = now.pc other := by
    intro other hother
    rw [← hlater]
    exact Function.update_of_ne hother ..
  have hjob : later.jobs job = { now.jobs job with lost := !committed, done := true } := by
    rw [← hlater]
    exact Function.update_self ..
  have hjobs : ∀ other, other ≠ job → later.jobs other = now.jobs other := by
    intro other hother
    rw [← hlater]
    exact Function.update_of_ne hother ..
  have hnext : ∀ other, (later.jobs other).next = (now.jobs other).next := by
    intro other
    by_cases heq : other = job
    · rw [heq, hjob]
    · rw [hjobs other heq]
  have hsame : later.head = now.head ∧ later.tail = now.tail ∧ later.held = now.held ∧
      later.ticket = now.ticket ∧ later.arrivals = now.arrivals ∧ later.bodies = now.bodies ∧
      later.batchOpen = now.batchOpen ∧ later.owner = now.owner := by
    rw [← hlater]
    exact ⟨rfl, rfl, rfl, rfl, rfl, rfl, rfl, rfl⟩
  obtain ⟨hhead, htail, hheld, hticket, harrivals, hbodies, hopen, howner'⟩ := hsame
  have hmem : ∀ other, other ≠ job →
      (other ∈ [] ++ queue ++ rest ↔ other ∈ [] ++ queue ++ job :: rest) := by
    intro other hother
    simp only [List.mem_append, List.mem_cons, hother, false_or]
  refine ⟨rest, ?_⟩
  constructor
  case held => exact hheld.trans h.held
  case linked =>
    rw [hhead]
    exact h.linked.congr fun other _ => hnext other
  case tail => exact htail.trans h.tail
  case free => exact fun hnone => nomatch hnone
  case stage =>
    rintro _ ⟨⟩
    rw [hpc']
    refine ⟨rfl, ⟨hrest.congr fun other _ => hnext other, hanswering.closed, hanswering.none, ?_⟩,
      hopen.trans hclosed, howner'.trans howner, ?_⟩
    · intro other hother
      have hother' : other ≠ job := by
        rintro rfl
        exact hnot (List.mem_append_right _ hother)
      rw [hjobs other hother', hticket]
      exact (hanswering.snoc _).finished other (List.mem_cons_of_mem _ hother)
    · rw [hjobs thread hne, hticket]
      exact hdrain.snoc rfl
  case others =>
    intro other hother
    have hother' : other ≠ thread := fun heq => hother (heq ▸ rfl)
    rw [hothers other hother', hticket]
    by_cases heq : other = job
    · subst heq
      obtain ⟨hdone, entry, hwaiting⟩ := h.asleep other (by simp) hother
      have hby := h.others other hother
      rw [hwaiting] at hby ⊢
      obtain ⟨hhanded, hown, -, -⟩ := hby
      obtain ⟨hwrite, answer, hanswer, hfinished⟩ := hanswering.finished other List.mem_cons_self
      rw [hjob]
      refine ⟨hhanded, hown, nofun, fun _ => ⟨hwrite, answer, hanswer, ?_⟩⟩
      rw [Bool.not_not]
      exact hfinished.snoc _
    · refine (h.others other hother).keep ?_ (fun _ => (hmem other heq).mpr) _
      rw [hjobs other heq]
      exact .refl _
  case asleep =>
    intro other hin hother
    have hother' : other ≠ thread := fun heq => hother (heq ▸ rfl)
    have hout : other ≠ job := by
      rintro rfl
      exact hnot hin
    rw [hothers other hother', hjobs other hout]
    exact h.asleep other ((hmem other hout).mp hin) hother
  case away =>
    intro other hin
    apply h.away other
    rcases List.mem_append.mp hin with hin | hin
    · exact List.mem_append_left _ hin
    · exact List.mem_append_right _ (List.mem_cons_of_mem _ hin)
  case distinct => exact hdistinct
  case tickets =>
    rw [hticket, hbodies]
    exact h.tickets
  case arrivals =>
    rw [harrivals, hbodies]
    exact h.arrivals
  case bodies =>
    rw [bodiesOf_snoc, h.bodies, hbodies]
    exact List.append_nil _
  case quota =>
    rw [quota_snoc, h.quota]
    show (now.pc thread).ran = (later.pc thread).ran
    rw [hpc, hpc']
    rfl

omit [DecidableEq T] in
/-- A drain that is over leaves its thread with the answer its batch decided. -/
theorem Draining.leave (h : Draining job.own ticket past d) (hclosed : d.batching = false)
    (waits : Prop) (label : Label T α ε ρ) :
    Bystander job ticket (past ++ [label]) waits (Queue.leave d) := by
  rw [Queue.leave]
  cases hanswered : d.answered with
  | none => trivial
  | some answer =>
    have hover : ticket ∈ bodiesOf past := by
      cases hran : d.answer with
      | none => simp [Drain.answered, hran] at hanswered
      | some ran => exact h.ended ran hran
    refine ⟨rfl, bodiesOf_mono hover label, fun hown => ?_⟩
    have hopen : d.isOpen = true := by rw [h.entry, hown]; rfl
    obtain ⟨ran, hran⟩ := h.answered hopen
    cases hfirst : d.first with
    | true => exact absurd (hclosed.symm.trans (h.first hopen hfirst).1) nofun
    | false =>
      refine ⟨ran, d.committed, (h.finished hopen hfirst ran hran).snoc label, ?_⟩
      rw [Drain.answered, hopen, hran] at hanswered
      cases hcommitted : d.committed with
      | true =>
        rw [hcommitted] at hanswered
        exact (Option.some.inj hanswered).symm
      | false =>
        rw [hcommitted] at hanswered
        exact (Option.some.inj hanswered).symm

/-- The Store is let go: nobody waits and nothing is open. -/
theorem Inv.letGo {now : Queue T α ε ρ} {past : List (Label T α ε ρ)} {thread : T}
    {d : Drain T α ε ρ} {hand queue batch : List T}
    (h : Inv now past (some thread) hand queue batch) (hpc : now.pc thread = .drain d)
    (hhead : now.head = none) (hclosed : d.batching = false) :
    Inv ({ now with held := false, owner := none }.setPc thread (leave d))
      (past ++ [.letGo thread]) none [] [] [] := by
  obtain ⟨-, hstage⟩ := h.stageOf hpc rfl
  obtain ⟨rfl, hbatch, howner, hdrain⟩ := hstage
  have hqueue := h.linked
  rw [hhead] at hqueue
  obtain rfl := hqueue.eq_nil
  obtain rfl := hbatch.none hclosed
  constructor
  case held => rfl
  case linked => exact hhead
  case tail => exact h.tail
  case free => exact fun _ => ⟨rfl, rfl, rfl, hbatch.same.trans hclosed, rfl⟩
  case stage => exact nofun
  case others =>
    intro other _
    show Bystander _ _ _ _ (Function.update now.pc thread (leave d) other)
    by_cases heq : other = thread
    · subst heq
      rw [Function.update_self]
      exact hdrain.leave hclosed _ _
    · rw [Function.update_of_ne heq]
      exact (h.others other fun hother => heq (Option.some.inj hother).symm).keep (.refl _)
        (fun _ hmem => hmem) _
  case asleep => exact nofun
  case away => exact nofun
  case distinct => exact List.nodup_nil
  case tickets => exact h.tickets
  case arrivals => exact h.arrivals
  case bodies =>
    rw [bodiesOf_snoc, h.bodies]
    exact List.append_nil _
  case quota =>
    rw [quota_snoc]
    rfl

/-- The Store is handed over: the request in hand holds it. -/
theorem Inv.handOver {now : Queue T α ε ρ} {past : List (Label T α ε ρ)} {thread job : T}
    {d : Drain T α ε ρ} {hand queue batch : List T}
    (h : Inv now past (some thread) hand queue batch) (hpc : now.pc thread = .handing job d) :
    Inv (({ now with owner := none }.setJob job
        { now.jobs job with handed := true, done := true }).setPc thread (leave d))
      (past ++ [.handOver thread job]) (some job) [job] queue [] := by
  obtain ⟨-, hstage⟩ := h.stageOf hpc rfl
  obtain ⟨rfl, rfl, hopen, howner, hdrain, hclosed, hne⟩ := hstage
  have hother : some thread ≠ some job := fun heq => hne (Option.some.inj heq).symm
  obtain ⟨-, entry, hwaiting⟩ := h.asleep job (by simp) hother
  have hjobBy := h.others job hother
  rw [hwaiting] at hjobBy
  have hnot : job ∉ queue := by
    have := h.distinct
    rw [List.append_nil, List.singleton_append, List.nodup_cons] at this
    exact this.1
  generalize hlater : ({ now with owner := none }.setJob job
    { now.jobs job with handed := true, done := true }).setPc thread (leave d) = later
  have hthread : later.pc thread = leave d := by
    rw [← hlater]
    exact Function.update_self ..
  have hpcs : ∀ other, other ≠ thread → later.pc other = now.pc other := by
    intro other hother
    rw [← hlater]
    exact Function.update_of_ne hother ..
  have hjob : later.jobs job = { now.jobs job with handed := true, done := true } := by
    rw [← hlater]
    exact Function.update_self ..
  have hjobs : ∀ other, other ≠ job → later.jobs other = now.jobs other := by
    intro other hother
    rw [← hlater]
    exact Function.update_of_ne hother ..
  have hsame : later.head = now.head ∧ later.tail = now.tail ∧ later.held = now.held ∧
      later.ticket = now.ticket ∧ later.arrivals = now.arrivals ∧ later.bodies = now.bodies ∧
      later.batchOpen = now.batchOpen ∧ later.owner = none := by
    rw [← hlater]
    exact ⟨rfl, rfl, rfl, rfl, rfl, rfl, rfl, rfl⟩
  obtain ⟨hhead, htail, hheld, hticket, harrivals, hbodies, hopen', howner'⟩ := hsame
  constructor
  case held => exact hheld.trans h.held
  case linked =>
    rw [hhead]
    refine h.linked.congr fun other hmem => ?_
    rw [hjobs other]
    rintro rfl
    exact hnot hmem
  case tail => exact htail.trans h.tail
  case free => exact fun hnone => nomatch hnone
  case stage =>
    rintro _ ⟨⟩
    rw [hpcs job hne, hwaiting]
    refine ⟨rfl, rfl, hopen'.trans hopen, howner', ?_, ?_, ?_⟩
    · rw [hjob]
      exact hjobBy.2.1
    · rw [hjob]
    · rw [hjob]
  case others =>
    intro other hother'
    have hout : other ≠ job := fun heq => hother' (heq ▸ rfl)
    rw [hjobs other hout, hticket]
    by_cases heq : other = thread
    · subst heq
      rw [hthread]
      exact hdrain.leave hclosed _ _
    · rw [hpcs other heq]
      exact (h.others other fun heq' => heq (Option.some.inj heq').symm).keep (.refl _)
        (fun _ hmem => hmem) _
  case asleep =>
    intro other hin hother'
    have hout : other ≠ job := fun heq => hother' (heq ▸ rfl)
    have hin' : other ∈ queue := by
      simpa only [List.append_nil, List.singleton_append, List.mem_cons, hout, false_or] using hin
    have hnotThread := h.away other (List.mem_append_left _ hin')
    rw [hjobs other hout, hpcs other fun heq => hnotThread (heq ▸ rfl)]
    exact h.asleep other (by simp [hin']) hnotThread
  case away =>
    intro other hin heq
    rw [List.append_nil] at hin
    cases heq
    exact hnot hin
  case distinct => exact h.distinct
  case tickets =>
    rw [hticket, hbodies]
    exact h.tickets
  case arrivals =>
    rw [harrivals, hbodies]
    exact h.arrivals
  case bodies =>
    rw [bodiesOf_snoc, h.bodies, hbodies]
    exact List.append_nil _
  case quota =>
    rw [quota_snoc]
    show 0 = (later.pc job).ran
    rw [hpcs job hne, hwaiting]
    rfl

/-! ## What a step of another thread leaves -/

omit [DecidableEq T] in
/-- The holder's place reads only its own request, and those in its hand and its batch. -/
theorem Stage.keep (h : Stage now past thread hand batch pc)
    (hopen : later.batchOpen = now.batchOpen) (howner : later.owner = now.owner)
    (hjobs : ∀ other, other = thread ∨ other ∈ hand ∨ other ∈ batch →
      later.jobs other = now.jobs other ∧ later.ticket other = now.ticket other)
    (hlabel : label.isFinish = false) : Stage later (past ++ [label]) thread hand batch pc := by
  obtain ⟨hjob, hticket⟩ := hjobs thread (.inl rfl)
  have hbatch : ∀ {d}, Batching now.jobs now.ticket past now.batchOpen d batch →
      Batching later.jobs later.ticket (past ++ [label]) later.batchOpen d batch := by
    intro d hbatching
    refine ⟨hbatching.linked.congr ?_, hopen.trans hbatching.same, hbatching.none, ?_⟩
    · intro other hmem
      rw [(hjobs other (.inr (.inr hmem))).1]
    · intro other hmem
      obtain ⟨hsame, hsame'⟩ := hjobs other (.inr (.inr hmem))
      rw [hsame, hsame']
      exact (hbatching.snoc hlabel).ran other hmem
  have hdrain : ∀ {d}, Draining (now.jobs thread).own (now.ticket thread) past d →
      Draining (later.jobs thread).own (later.ticket thread) (past ++ [label]) d := by
    intro d hdraining
    rw [hjob, hticket]
    exact hdraining.snoc hlabel
  cases pc with
  | idle => exact h
  | waiting entry => simpa only [Stage, hjob, hopen, howner] using h
  | taken entry => simpa only [Stage, hjob, hopen, howner] using h
  | holding entry => simpa only [Stage, hjob, hopen, howner] using h
  | started => simpa only [Stage, hjob, hopen, howner] using h
  | drain d =>
    obtain ⟨hhand, hb, ho, hd⟩ := h
    exact ⟨hhand, hbatch hb, howner.trans ho, hdrain hd⟩
  | popped job d =>
    obtain ⟨hhand, hb, ho, hd, hne, hown, hran⟩ := h
    refine ⟨hhand, hbatch hb, howner.trans ho, hdrain hd, hne, ?_, hran⟩
    rw [(hjobs job (.inr (.inl (by rw [hhand]; exact List.mem_singleton_self _)))).1]
    exact hown
  | finishing d =>
    obtain ⟨hhand, hb, ho, hd, hbatching⟩ := h
    exact ⟨hhand, hbatch hb, howner.trans ho, hdrain hd, hbatching⟩
  | answering at_ committed d =>
    obtain ⟨hhand, ha, hc, ho, hd⟩ := h
    refine ⟨hhand, ⟨ha.linked.congr ?_, ha.closed, ha.none, ?_⟩, hopen.trans hc, howner.trans ho,
      hdrain hd⟩
    · intro other hmem
      rw [(hjobs other (.inr (.inr hmem))).1]
    · intro other hmem
      obtain ⟨hsame, hsame'⟩ := hjobs other (.inr (.inr hmem))
      rw [hsame, hsame']
      exact (ha.snoc label).finished other hmem
  | handing job d =>
    obtain ⟨hhand, hb, hc, ho, hd, hclosed, hne⟩ := h
    exact ⟨hhand, hb, hopen.trans hc, howner.trans ho, hdrain hd, hclosed, hne⟩
  | returning answer keeps =>
    obtain ⟨hhand, hb, hc, ho, hown, hkeeps, hover⟩ := h
    rw [← hticket] at hover
    exact ⟨hhand, hb, hopen.trans hc, howner.trans ho, by rwa [hjob], hkeeps,
      bodiesOf_mono hover label⟩
  | held => simpa only [Stage, hjob, hopen, howner] using h

/-- **A step of a thread that waits for nothing** and does not hold the Store. -/
theorem Inv.bystand (h : Inv now past holder hand queue batch) (hout : holder ≠ some thread)
    (hnot : thread ∉ hand ++ queue ++ batch) (hbody : label.bodyTicket = none)
    (hlabel : label.isFinish = false) (hquota : ∀ ran, quotaStep ran label = ran)
    (hby : Bystander (now.jobs thread) (now.ticket thread) (past ++ [label]) False pc) :
    Inv (now.setPc thread pc) (past ++ [label]) holder hand queue batch := by
  have hpcs : ∀ other, other ≠ thread → (now.setPc thread pc).pc other = now.pc other :=
    fun other hother => Function.update_of_ne hother ..
  have hpc : (now.setPc thread pc).pc thread = pc := Function.update_self ..
  constructor
  case held => exact h.held
  case linked => exact h.linked
  case tail => exact h.tail
  case free => exact h.free
  case stage =>
    intro other hholder
    rw [hpcs other fun heq => hout (heq ▸ hholder)]
    exact (h.stage other hholder).keep rfl rfl (fun _ _ => ⟨rfl, rfl⟩) hlabel
  case others =>
    intro other hother
    by_cases heq : other = thread
    · subst heq
      rw [hpc]
      cases pc with
      | waiting entry =>
        obtain ⟨hhanded, hown, hwaits, hdone⟩ := hby
        exact ⟨hhanded, hown, fun hno => (hwaits hno).elim, hdone⟩
      | _ => exact hby
    · rw [hpcs other heq]
      exact (h.others other hother).keep (.refl _) (fun _ hmem => hmem) _
  case asleep =>
    intro other hmem hother
    rw [hpcs other fun heq => hnot (heq ▸ hmem)]
    exact h.asleep other hmem hother
  case away => exact h.away
  case distinct => exact h.distinct
  case tickets => exact h.tickets
  case arrivals => exact h.arrivals
  case bodies =>
    rw [bodiesOf_snoc, hbody, h.bodies]
    exact List.append_nil _
  case quota =>
    rw [quota_snoc, hquota, h.quota]
    cases holder with
    | none => rfl
    | some other =>
      show (now.pc other).ran = ((now.setPc thread pc).pc other).ran
      rw [hpcs other fun heq => hout (heq ▸ rfl)]

end Rui.Store
