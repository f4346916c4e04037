import Rui.Store.QueueInvariant

/-!
# What every run of the Store's queue keeps

Every step keeps the invariant, so every run does; the laws of the queue are
read off it.
-/

namespace Rui.Store

open Library Queue

variable {T α ε ρ : Type} [DecidableEq T]

/-! ## Arrivals -/

variable {now : Queue T α ε ρ} {past : List (Label T α ε ρ)} {hand queue batch : List T}
  {holder : Option T} {opener : T}

theorem Inv.idle_out (h : Inv now past holder hand queue batch) {thread : T}
    (hpc : now.pc thread = .idle) : holder ≠ some thread ∧ thread ∉ hand ++ queue ++ batch := by
  have hout : holder ≠ some thread := by
    intro hholder
    have hstage := h.stage thread hholder
    rw [hpc] at hstage
    exact hstage
  refine ⟨hout, fun hmem => ?_⟩
  obtain ⟨-, entry, hwaiting⟩ := h.asleep thread hmem hout
  exact nomatch hpc.symm.trans hwaiting

/-- A caller that finds the Store free holds it. -/
theorem Inv.takeFree (h : Inv now past none hand queue batch) {thread : T} (entry : Entry) :
    Inv ((now.arrive thread entry).take thread entry)
      (past ++ [.arrive thread now.arrivals]) (some thread) [thread] [] [] := by
  obtain ⟨rfl, rfl, rfl, hopen, howner⟩ := h.free rfl
  have hbodies : now.arrivals = now.bodies := h.arrivals
  have hheld : (now.arrive thread entry).held = false := h.held
  rw [Queue.take, if_neg (by rw [hheld]; exact Bool.false_ne_true)]
  generalize hlater : ({ now.arrive thread entry with held := true } : Queue T α ε ρ).setPc thread
    (.taken entry) = later
  have hthread : later.pc thread = .taken entry := by
    rw [← hlater]
    exact Function.update_self ..
  have hpcs : ∀ other, other ≠ thread → later.pc other = now.pc other ∧
      later.jobs other = now.jobs other ∧ later.ticket other = now.ticket other := by
    intro other hother
    rw [← hlater]
    exact ⟨Function.update_of_ne hother .., Function.update_of_ne hother ..,
      Function.update_of_ne hother ..⟩
  have hjob : later.jobs thread = .init entry := by
    rw [← hlater]
    exact Function.update_self ..
  have hticket : later.ticket thread = now.arrivals := by
    rw [← hlater]
    exact Function.update_self ..
  have hsame : later.head = now.head ∧ later.tail = now.tail ∧ later.held = true ∧
      later.arrivals = now.arrivals + 1 ∧ later.bodies = now.bodies ∧
      later.batchOpen = now.batchOpen ∧ later.owner = now.owner := by
    rw [← hlater]
    exact ⟨rfl, rfl, rfl, rfl, rfl, rfl, rfl⟩
  obtain ⟨hhead, htail, hheld', harrivals, hbodies', hopen', howner'⟩ := hsame
  constructor
  case held => exact hheld'
  case linked => exact hhead.trans h.linked
  case tail => exact htail.trans h.tail
  case free => exact fun hnone => nomatch hnone
  case stage =>
    rintro _ ⟨⟩
    rw [hthread]
    refine ⟨rfl, rfl, hopen'.trans hopen, howner'.trans howner, ?_⟩
    rw [hjob]
    rfl
  case others =>
    intro other hother
    obtain ⟨hpc', hjob', hticket'⟩ := hpcs other fun heq => hother (heq ▸ rfl)
    rw [hpc', hjob', hticket']
    exact (h.others other nofun).keep (.refl _) (fun _ hmem => nomatch hmem) _
  case asleep =>
    intro other hmem hother
    rw [List.append_nil, List.append_nil, List.mem_singleton] at hmem
    exact absurd (hmem ▸ rfl) hother
  case away => exact nofun
  case distinct => exact List.nodup_singleton _
  case tickets =>
    rw [hbodies', ← hbodies]
    show [later.ticket thread] = [now.arrivals]
    rw [hticket]
  case arrivals =>
    rw [harrivals, hbodies', hbodies]
    rfl
  case bodies =>
    rw [bodiesOf_snoc, h.bodies, hbodies']
    exact List.append_nil _
  case quota =>
    rw [quota_snoc, h.quota]
    show 0 = (later.pc thread).ran
    rw [hthread]
    rfl

/-- What a push leaves of a queue. -/
structure Pushed (now later : Queue T α ε ρ) (queue : List T) (thread : T) : Prop where
  linked : Linked (fun job => (later.jobs job).next) later.head (queue ++ [thread])
  tail : later.tail = some thread
  kept : ∀ other, Kept (now.jobs other) (later.jobs other)
  same : ∀ other, queue.getLast? ≠ some other → later.jobs other = now.jobs other
  rest : later = { now with jobs := later.jobs, head := later.head, tail := later.tail }

theorem push_pushed {thread : T} (hlinked : Linked (fun job => (now.jobs job).next) now.head queue)
    (htail : now.tail = queue.getLast?) (hdistinct : queue.Nodup)
    (hnext : (now.jobs thread).next = none) (hout : thread ∉ queue) :
    Pushed now (now.push thread) queue thread := by
  cases hlast : queue.getLast? with
  | none =>
    have hqueue := List.getLast?_eq_none_iff.mp hlast
    have hpush : now.push thread = { now with head := some thread, tail := some thread } := by
      rw [Queue.push, htail, hlast]
    rw [hpush]
    refine ⟨?_, rfl, fun _ => .refl _, fun _ _ => rfl, rfl⟩
    rw [hqueue]
    exact ⟨rfl, hnext⟩
  | some last =>
    have hmem : last ∈ queue := List.mem_of_getLast? hlast
    have hne : thread ≠ last := fun heq => hout (heq ▸ hmem)
    have hpush : now.push thread =
        { now.setJob last { now.jobs last with next := some thread } with tail := some thread } := by
      rw [Queue.push, htail, hlast]
    have hjobs : ∀ other, other ≠ last → (now.push thread).jobs other = now.jobs other := by
      intro other hother
      rw [hpush]
      exact Function.update_of_ne hother ..
    have hjob : (now.push thread).jobs last = { now.jobs last with next := some thread } := by
      rw [hpush]
      exact Function.update_self ..
    have hhead : (now.push thread).head = now.head := by rw [hpush]; rfl
    refine ⟨?_, by rw [hpush], ?_, ?_, by rw [hpush]; rfl⟩
    · have hfront : (now.push thread).head = if queue = [] then some thread else now.head := by
        rw [if_neg (List.ne_nil_of_mem hmem), hhead]
      rw [hfront]
      refine hlinked.concat hdistinct ?_ ?_ ?_
      · show ((now.push thread).jobs thread).next = none
        rw [hjobs thread hne]
        exact hnext
      · intro other hother
        obtain rfl := Option.some.inj (hlast.symm.trans hother)
        show ((now.push thread).jobs last).next = some thread
        rw [hjob]
      · intro other _ hother
        show ((now.push thread).jobs other).next = _
        rw [hjobs other fun heq => hother (heq ▸ hlast)]
    · intro other
      by_cases heq : other = last
      · rw [heq, hjob]
        exact ⟨rfl, rfl, rfl, fun _ => ⟨rfl, rfl⟩⟩
      · rw [hjobs other heq]
        exact .refl _
    · intro other hother
      exact hjobs other fun heq => hother (heq ▸ hlast)

theorem Inv.takeHeld {holder : T} (h : Inv now past (some holder) hand queue batch) {thread : T}
    (entry : Entry) (hpc : now.pc thread = .idle) :
    Inv ((now.arrive thread entry).take thread entry)
      (past ++ [.arrive thread now.arrivals]) (some holder) hand (queue ++ [thread]) batch := by
  obtain ⟨hout, hnot⟩ := h.idle_out hpc
  have hdistinct := h.distinct
  rw [List.append_assoc, List.nodup_append'] at hdistinct
  have hqueue := List.nodup_append'.mp hdistinct.2.1
  have hnotQueue : thread ∉ queue := fun hmem => hnot (by simp [hmem])
  have hheld : (now.arrive thread entry).held = true := h.held
  rw [Queue.take, if_pos hheld]
  have hnew : ∀ other, other ≠ thread → (now.arrive thread entry).jobs other = now.jobs other :=
    fun other hother => Function.update_of_ne hother ..
  have hself : (now.arrive thread entry).jobs thread = .init entry := Function.update_self ..
  have hlinked : Linked (fun job => ((now.arrive thread entry).jobs job).next)
      (now.arrive thread entry).head queue := by
    refine h.linked.congr fun other hmem => ?_
    rw [hnew other fun heq => hnotQueue (heq ▸ hmem)]
  have hpushed := push_pushed hlinked h.tail hqueue.1 (by rw [hself]; rfl) hnotQueue
  generalize (now.arrive thread entry).push thread = later at hpushed
  obtain ⟨hlater, htail, hkept, hsame, hrest⟩ := hpushed
  have hpcs : ∀ other, other ≠ thread →
      (later.setPc thread (.waiting entry)).pc other = now.pc other := by
    intro other hother
    rw [hrest]
    exact Function.update_of_ne hother ..
  have hpc' : (later.setPc thread (.waiting entry)).pc thread = .waiting entry :=
    Function.update_self ..
  have hticket : ∀ other, other ≠ thread → later.ticket other = now.ticket other := by
    intro other hother
    rw [hrest]
    exact Function.update_of_ne hother ..
  have hticket' : later.ticket thread = now.arrivals := by
    rw [hrest]
    exact Function.update_self ..
  have hjob : later.jobs thread = .init entry := by
    rw [hsame thread fun hlast => hnotQueue (List.mem_of_getLast? hlast), hself]
  have hkeep : ∀ other, other ≠ thread → Kept (now.jobs other) (later.jobs other) := by
    intro other hother
    have := hkept other
    rwa [hnew other hother] at this
  have hjobs : ∀ other, other ≠ thread → other ∉ queue → later.jobs other = now.jobs other := by
    intro other hother hmem
    rw [hsame other fun hlast => hmem (List.mem_of_getLast? hlast), hnew other hother]
  constructor
  case held =>
    rw [hrest]
    exact h.held
  case linked => exact hlater
  case tail => rw [List.getLast?_concat]; exact htail
  case free => exact fun hnone => nomatch hnone
  case stage =>
    rintro _ ⟨⟩
    have hne : holder ≠ thread := fun heq => hout (heq ▸ rfl)
    rw [hpcs holder hne]
    refine (h.stage holder rfl).keep (by rw [hrest]; rfl) (by rw [hrest]; rfl) ?_ rfl
    intro other hother
    have hne' : other ≠ thread ∧ other ∉ queue := by
      rcases hother with rfl | hmem | hmem
      · exact ⟨hne, fun hmem => h.away other (List.mem_append_left _ hmem) rfl⟩
      · exact ⟨fun heq => hnot (by simp [← heq, hmem]),
          fun hin => hdistinct.2.2 hmem (List.mem_append_left _ hin)⟩
      · exact ⟨fun heq => hnot (by simp [← heq, hmem]), fun hin => hqueue.2.2 hin hmem⟩
    exact ⟨hjobs other hne'.1 hne'.2, hticket other hne'.1⟩
  case others =>
    intro other hother
    by_cases heq : other = thread
    · subst heq
      rw [hpc']
      show Bystander (later.jobs other) _ _ _ _
      rw [hjob]
      exact ⟨rfl, rfl, fun _ => by simp, nofun⟩
    · rw [hpcs other heq]
      show Bystander (later.jobs other) (later.ticket other) _ _ _
      rw [hticket other heq]
      refine (h.others other hother).keep (hkeep other heq) (fun _ hmem => ?_) _
      rw [← List.append_assoc, List.append_assoc _ [thread]]
      simp only [List.mem_append] at hmem ⊢
      rcases hmem with hmem | hmem
      · exact .inl hmem
      · exact .inr (.inr hmem)
  case asleep =>
    intro other hmem hother
    by_cases heq : other = thread
    · subst heq
      refine ⟨?_, entry, hpc'⟩
      show (later.jobs other).done = false
      rw [hjob]
      rfl
    · rw [hpcs other heq]
      show (later.jobs other).done = false ∧ _
      rw [(hkeep other heq).done]
      refine h.asleep other ?_ hother
      simpa only [List.mem_append, List.mem_singleton, heq, or_false] using hmem
  case away =>
    intro other hmem
    by_cases heq : other = thread
    · rw [heq]
      exact hout
    · refine h.away other ?_
      simpa only [List.mem_append, List.mem_singleton, heq, or_false] using hmem
  case distinct =>
    rw [List.append_assoc, List.append_assoc, List.singleton_append, ← List.append_assoc]
    exact List.nodup_middle.mpr (List.nodup_cons.mpr ⟨hnot, h.distinct⟩)
  case tickets =>
    show (hand ++ (queue ++ [thread])).map later.ticket = _
    have hbodies : (later.setPc thread (.waiting entry)).bodies = now.bodies := by
      rw [hrest]
      rfl
    have holds : (hand ++ queue).map later.ticket = (hand ++ queue).map now.ticket := by
      refine List.map_congr_left fun other hmem => hticket other fun heq => hnot ?_
      rw [← heq]
      exact List.mem_append_left _ hmem
    have hlength : (hand ++ queue ++ [thread]).length = (hand ++ queue).length + 1 :=
      List.length_append
    rw [← List.append_assoc, List.map_append, holds, h.tickets, hlength, List.range'_concat,
      hbodies, List.map_singleton, hticket', h.arrivals, Nat.one_mul]
  case arrivals =>
    have hlength : (hand ++ (queue ++ [thread])).length = (hand ++ queue).length + 1 := by
      rw [← List.append_assoc]
      exact List.length_append
    rw [hlength]
    show later.arrivals = later.bodies + _
    rw [hrest]
    show now.arrivals + 1 = now.bodies + _
    rw [h.arrivals, Nat.add_assoc]
  case bodies =>
    rw [bodiesOf_snoc, h.bodies, hrest]
    exact List.append_nil _
  case quota =>
    rw [quota_snoc, h.quota]
    show (now.pc holder).ran = ((later.setPc thread (.waiting entry)).pc holder).ran
    rw [hpcs holder fun heq => hout (heq ▸ rfl)]

/-! ## Every step -/

omit [DecidableEq T] in
/-- What the section of `drain` decides, and when. -/
theorem turn_cases (now : Queue T α ε ρ) (d : Drain T α ε ρ) :
    (∃ job, now.turn d = .pop job ∧ now.head = some job ∧ (now.jobs job).own = false ∧
      d.ran < drainLimit) ∨
    (now.turn d = .finish ∧ d.batching = true) ∨
    (now.turn d = .letGo ∧ now.head = none ∧ d.batching = false) ∨
    (∃ job, now.turn d = .handOver job ∧ now.head = some job ∧ d.batching = false) := by
  cases hhead : now.head with
  | none =>
    cases hbatching : d.batching with
    | true => exact .inr (.inl ⟨by simp [Queue.turn, hhead, hbatching], rfl⟩)
    | false => exact .inr (.inr (.inl ⟨by simp [Queue.turn, hhead, hbatching], rfl, rfl⟩))
  | some job =>
    by_cases hpop : (now.jobs job).own = false ∧ d.ran < drainLimit
    · exact .inl ⟨job, by simp [Queue.turn, hhead, hpop.1, hpop.2], rfl, hpop⟩
    · have hno : (!(now.jobs job).own && decide (d.ran < drainLimit)) = false := by
        rw [Bool.and_eq_false_iff, Bool.not_eq_false', decide_eq_false_iff_not]
        rcases not_and_or.mp hpop with hown | hran
        · exact .inl (by simpa using hown)
        · exact .inr hran
      cases hbatching : d.batching with
      | true => exact .inr (.inl ⟨by simp [Queue.turn, hhead, hno, hbatching], rfl⟩)
      | false =>
        exact .inr (.inr (.inr ⟨job, by simp [Queue.turn, hhead, hno, hbatching], rfl, rfl⟩))

/-- **Every step keeps the invariant.** One case for each kind of step. -/
theorem Next.inv {later : Queue T α ε ρ} {label : Label T α ε ρ} (hnext : Next now label later)
    (h : Inv now past holder hand queue batch) :
    ∃ holder' hand' queue' batch', Inv later (past ++ [label]) holder' hand' queue' batch' := by
  cases hnext with
  | arrive entry pc notOwned =>
    cases holder with
    | none => exact ⟨_, _, _, _, h.takeFree entry⟩
    | some holder => exact ⟨_, _, _, _, h.takeHeld entry pc⟩
  | @wake thread answer pc done handed answered =>
    have hout : holder ≠ some thread := by
      intro hholder
      have hstage := h.stage thread hholder
      rw [pc] at hstage
      exact absurd (handed.symm.trans hstage.2.2.2.2.2.2) nofun
    have hnot : thread ∉ hand ++ queue ++ batch := by
      intro hmem
      exact absurd (done.symm.trans (h.asleep thread hmem hout).1) nofun
    have hby := h.others thread hout
    rw [pc] at hby
    obtain ⟨-, -, -, hdone⟩ := hby
    obtain ⟨-, ran, hran, hfinished⟩ := hdone done
    obtain rfl := Option.some.inj (answered.symm.trans hran)
    refine ⟨_, _, _, _, h.bystand hout hnot rfl rfl (fun _ => rfl)
      ⟨rfl, bodiesOf_mono hfinished.ran _, fun _ => ?_⟩⟩
    refine ⟨answer, _, hfinished.snoc _, ?_⟩
    cases (now.jobs thread).lost <;> rfl
  | @wakeHanded thread entry pc done handed =>
    have hholder : holder = some thread := by
      apply Decidable.byContradiction
      intro hne
      have hby := h.others thread hne
      rw [pc] at hby
      exact absurd (hby.1.symm.trans handed) nofun
    subst hholder
    have hstage := h.stage thread rfl
    rw [pc] at hstage
    obtain ⟨hhand, hbatch, hopen, howner, hown, -, -⟩ := hstage
    exact ⟨_, _, _, _, h.stay rfl (by rw [pc]; rfl) ⟨hhand, hbatch, hopen, howner, hown⟩⟩
  | @own thread entry pc =>
    obtain ⟨rfl, hhand, hbatch, hopen, howner, hown⟩ := h.stageOf pc rfl
    exact ⟨_, _, _, _, h.stay rfl (by rw [pc]; rfl) ⟨hhand, hbatch, hopen, rfl, hown⟩⟩
  | @run thread answer pc owned =>
    obtain ⟨rfl, rfl, rfl, hopen, howner, hown⟩ := h.stageOf pc rfl
    refine ⟨_, _, _, _, h.runOwn (by rw [pc]; rfl) ⟨rfl, ⟨rfl, hopen, fun _ => rfl, nofun⟩, howner,
      ⟨?_, nofun, nofun, nofun, fun _ _ => bodiesOf_body .., Nat.zero_le _⟩⟩⟩
    exact (congrArg Bool.not hown).symm
  | @callHeld thread answer pc succeeded =>
    obtain ⟨rfl, rfl, rfl, hopen, howner, hown⟩ := h.stageOf pc rfl
    exact ⟨_, _, _, _, h.runOwn (by rw [pc]; rfl) ⟨rfl, rfl, hopen, howner, hown, rfl,
      bodiesOf_body ..⟩⟩
  | @callHeldFailed thread answer pc failed owned =>
    obtain ⟨rfl, rfl, rfl, hopen, howner, hown⟩ := h.stageOf pc rfl
    refine ⟨_, _, _, _, h.runOwn (by rw [pc]; rfl) ⟨rfl, ⟨rfl, hopen, fun _ => rfl, nofun⟩, howner,
      ⟨?_, nofun, nofun, nofun, fun _ _ => bodiesOf_body .., Nat.zero_le _⟩⟩⟩
    exact (congrArg Bool.not hown).symm
  | @startOwn thread pc =>
    obtain ⟨rfl, hhand, hbatch, hopen, howner, hown⟩ := h.stageOf pc rfl
    exact ⟨_, _, _, _, h.stay rfl (by rw [pc]; rfl) ⟨hhand, hbatch, rfl, howner, hown⟩⟩
  | @write thread answer pc owned =>
    obtain ⟨rfl, rfl, rfl, hopen, howner, hown⟩ := h.stageOf pc rfl
    refine ⟨_, _, _, _, h.runOwn (by rw [pc]; rfl) ⟨rfl, ⟨rfl, hopen, nofun, nofun⟩, howner,
      ⟨?_, fun _ => ⟨answer, rfl⟩, fun _ _ => ⟨rfl, ?_⟩, nofun,
        fun _ _ => bodiesOf_body .., Nat.zero_le _⟩⟩⟩
    · exact (congrArg Bool.not hown).symm
    · rintro _ ⟨⟩
      exact .body ..
  | @release thread pc owned =>
    obtain ⟨rfl, rfl, rfl, hopen, howner, hown⟩ := h.stageOf pc rfl
    refine ⟨_, _, _, _, h.stay rfl (by rw [pc]; rfl) ⟨rfl, ⟨rfl, hopen, fun _ => rfl, nofun⟩, howner,
      ⟨?_, nofun, nofun, nofun, nofun, Nat.zero_le _⟩⟩⟩
    exact (congrArg Bool.not hown).symm
  | @pop thread job d pc turn =>
    obtain ⟨rfl, rfl, hbatch, howner, hdrain⟩ := h.stageOf pc rfl
    rcases turn_cases now d with ⟨job', hturn, hhead, hown, hran⟩ | ⟨hturn, -⟩ | ⟨hturn, -⟩ |
      ⟨job', hturn, -⟩
    · obtain rfl : job' = job := by
        rw [turn] at hturn
        cases hturn
        rfl
      obtain ⟨rest, hpopped⟩ := h.popped hhead (.popped job' d) (by rw [pc]; rfl) fun hne =>
        ⟨rfl, hbatch.snoc rfl, howner, hdrain.snoc rfl, hne, hown, hran⟩
      exact ⟨_, _, _, _, hpopped⟩
    all_goals exact nomatch turn.symm.trans hturn
  | @start thread job d pc batching =>
    obtain ⟨rfl, hhand, hbatch, howner, hdrain, hne, hown, hran⟩ := h.stageOf pc rfl
    have hbatch' := hbatch.snoc (show (Label.start thread).isFinish = false from rfl)
    have hdrain' := hdrain.snoc (show (Label.start thread).isFinish = false from rfl)
    refine ⟨_, _, _, _, h.stay rfl (by rw [pc]; rfl) ⟨hhand, ⟨hbatch'.linked, rfl, nofun,
      hbatch'.ran⟩, howner, { hdrain' with first := ?_ }, hne, hown, hran⟩⟩
    intro hopen hfirst
    exact ⟨rfl, (hdrain'.first hopen hfirst).2⟩
  | @batch thread job d answer pc batching =>
    obtain ⟨rfl, rfl, -⟩ := h.stageOf pc rfl
    exact ⟨_, _, _, _, h.batched pc batching answer⟩
  | @close thread d pc turn =>
    obtain ⟨rfl, hhand, hbatch, howner, hdrain⟩ := h.stageOf pc rfl
    have hbatching : d.batching = true := by
      rcases turn_cases now d with ⟨job', hturn, -⟩ | ⟨-, hbatching⟩ | ⟨hturn, -⟩ | ⟨job', hturn, -⟩
      · exact nomatch turn.symm.trans hturn
      · exact hbatching
      all_goals exact nomatch turn.symm.trans hturn
    exact ⟨_, _, _, _, h.stay rfl (by rw [pc]; rfl)
      ⟨hhand, hbatch.snoc rfl, howner, hdrain.snoc rfl, hbatching⟩⟩
  | @finish thread d committed pc =>
    obtain ⟨rfl, hhand, hbatch, howner, hdrain, hbatching⟩ := h.stageOf pc rfl
    refine ⟨_, _, _, _, h.stay rfl (by rw [pc]; rfl) ⟨hhand, ⟨hbatch.linked, rfl, rfl, ?_⟩, rfl,
      howner, ⟨hdrain.entry, hdrain.answered, nofun, ?_,
        fun answer hanswer => bodiesOf_mono (hdrain.ended answer hanswer) _, hdrain.ran⟩⟩⟩
    · intro job hjob
      obtain ⟨hown, answer, hanswer, hran⟩ := hbatch.ran job hjob
      exact ⟨hown, answer, hanswer, hran.finish thread committed⟩
    · intro hopen _ answer hanswer
      cases hfirst : d.first with
      | true =>
        have hran := (hdrain.first hopen hfirst).2 answer hanswer
        rw [show (true && d.isOpen) = true from hopen, if_pos rfl]
        exact hran.finish thread committed
      | false =>
        rw [Bool.false_and, if_neg Bool.false_ne_true]
        exact (hdrain.finished hopen hfirst answer hanswer).snoc _
  | @answer thread job committed d pc =>
    obtain ⟨rfl, -⟩ := h.stageOf pc rfl
    obtain ⟨rest, hanswered⟩ := h.answered pc
    exact ⟨_, _, _, _, hanswered⟩
  | @answered thread committed d pc =>
    obtain ⟨rfl, hhand, hanswering, hopen, howner, hdrain⟩ := h.stageOf pc rfl
    obtain rfl := hanswering.linked.eq_nil
    refine ⟨_, _, _, _, h.stay rfl (by rw [pc]; rfl) ⟨hhand, ⟨?_, ?_, fun _ => rfl, nofun⟩, howner,
      hdrain.snoc rfl⟩⟩
    · rw [hanswering.none]
      exact .nil
    · rw [hanswering.closed]
      exact hopen
  | @letGo thread d pc turn =>
    obtain ⟨rfl, -⟩ := h.stageOf pc rfl
    rcases turn_cases now d with ⟨job', hturn, -⟩ | ⟨hturn, -⟩ | ⟨-, hhead, hclosed⟩ |
      ⟨job', hturn, -⟩
    · exact nomatch turn.symm.trans hturn
    · exact nomatch turn.symm.trans hturn
    · exact ⟨_, _, _, _, h.letGo pc hhead hclosed⟩
    · exact nomatch turn.symm.trans hturn
  | @popHolder thread job d pc turn =>
    obtain ⟨rfl, rfl, hbatch, howner, hdrain⟩ := h.stageOf pc rfl
    rcases turn_cases now d with ⟨job', hturn, -⟩ | ⟨hturn, -⟩ | ⟨hturn, -⟩ |
      ⟨job', hturn, hhead, hclosed⟩
    · exact nomatch turn.symm.trans hturn
    · exact nomatch turn.symm.trans hturn
    · exact nomatch turn.symm.trans hturn
    · obtain rfl : job' = job := by
        rw [turn] at hturn
        cases hturn
        rfl
      obtain ⟨rest, hpopped⟩ := h.popped hhead (.handing job' d) (by rw [pc]; rfl) fun hne =>
        ⟨rfl, hbatch.none hclosed, hbatch.same.trans hclosed, howner, hdrain.snoc rfl, hclosed, hne⟩
      exact ⟨_, _, _, _, hpopped⟩
  | @handOver thread job d pc =>
    obtain ⟨rfl, rfl, -⟩ := h.stageOf pc rfl
    exact ⟨_, _, _, _, h.handOver pc⟩
  | @returns thread answer keeps pc =>
    cases keeps with
    | true =>
      obtain ⟨rfl, hhand, hbatch, hopen, howner, hown, -⟩ := h.stageOf pc rfl
      exact ⟨_, _, _, _, h.stay rfl (by rw [pc]; rfl) ⟨hhand, hbatch, hopen, howner, hown⟩⟩
    | false =>
      have hout : holder ≠ some thread := by
        intro hholder
        have hstage := h.stage thread hholder
        rw [pc] at hstage
        exact nomatch hstage.2.2.2.2.2.1
      refine ⟨_, _, _, _, h.bystand hout ?_ rfl rfl (fun _ => rfl) trivial⟩
      intro hmem
      obtain ⟨-, entry, hwaiting⟩ := h.asleep thread hmem hout
      exact nomatch pc.symm.trans hwaiting

/-! ## Every run -/

abbrev Event (T α ε ρ : Type) := Step (Queue T α ε ρ) (Label T α ε ρ)

/-- What the steps of a history did. -/
def labelsOf (history : List (Event T α ε ρ)) : List (Label T α ε ρ) := history.map Step.label

/-- A thread holds the Store, or has just been handed it. -/
def Holds (now : Queue T α ε ρ) (thread : T) : Prop :=
  (now.pc thread).inside = true ∨
    ∃ entry, now.pc thread = .waiting entry ∧ (now.jobs thread).handed = true

/-- A thread waits for its event. -/
def Asleep (now : Queue T α ε ρ) (thread : T) : Prop :=
  (now.jobs thread).done = false ∧ ∃ entry, now.pc thread = .waiting entry

/-- What a write hears of its body's answer, once its batch finished so. -/
def Hears : Bool → Answer α ε ρ → Answer α ε ρ → Prop
  | true, ran, heard => heard = ran
  | false, .error failure, heard => heard = .error failure
  | false, .value _, heard => heard = .error .storeFenced
  | false, .reply _, heard => heard = .reply .infrastructureFailure

namespace Label

/-- The thread whose step it is. -/
def thread : Label T α ε ρ → T
  | .arrive thread _ | .start thread | .body thread _ _ _ | .finish thread _ | .answer thread _ _
  | .handOver thread _ | .letGo thread | .returns thread _ _ _ | .internal thread => thread

/-- The ticket of a request that arrives. -/
def arrivalTicket : Label T α ε ρ → Option Nat
  | .arrive _ ticket => some ticket
  | _ => none

/-- The holder changes or is no more. -/
def leaves : Label T α ε ρ → Bool
  | .handOver .. | .letGo .. => true
  | _ => false

/-- A holder runs the body of another thread's request. -/
def runsQueued : Label T α ε ρ → Bool
  | .body thread job _ _ => thread != job
  | _ => false

end Label

/-- What holds after every run, and of every step of it. -/
structure QueueLaws (history : List (Event T α ε ρ)) (now : Queue T α ε ρ) : Prop where
  /-- At most one thread holds the Store. -/
  holder : ∀ thread other, Holds now thread → Holds now other → thread = other
  /-- Requests take their tickets in order, and the bodies that ran are the oldest, once each. -/
  arrivals : (labelsOf history).filterMap Label.arrivalTicket = List.range now.arrivals
  bodies : (labelsOf history).filterMap Label.bodyTicket = List.range now.bodies
  /-- A request whose body has not run is still asleep, or is its holder's own. -/
  pending : now.bodies ≤ now.arrivals ∧ ∀ ticket, now.bodies ≤ ticket → ticket < now.arrivals →
    ∃ thread, now.ticket thread = ticket ∧ (Asleep now thread ∨ Holds now thread)
  /-- Nothing is pending when no thread is in the queue. -/
  ended : (∀ thread, now.pc thread = .idle) → now.bodies = now.arrivals
  /-- A request is answered after its body ran. -/
  ran : ∀ past e future thread ticket own answer, history = past ++ e :: future →
    e.label = .returns thread ticket own answer →
    ticket ∈ (labelsOf past).filterMap Label.bodyTicket
  /-- A write's event is set after the batch that ran its body finished. -/
  set : ∀ past e future thread job ticket, history = past ++ e :: future →
    e.label = .answer thread job ticket →
    ∃ ran committed, Finished (labelsOf past) ticket ran committed
  /-- A write, the holder's own too, is answered after the batch that ran its body finished, and
  hears how. -/
  heard : ∀ past e future thread ticket answer, history = past ++ e :: future →
    e.label = .returns thread ticket false answer →
    ∃ ran committed, Finished (labelsOf past) ticket ran committed ∧ Hears committed ran answer
  /-- No batch is open when the Store is handed over or let go. -/
  closed : ∀ e ∈ history, e.label.leaves = true → e.before.batchOpen = false
  /-- A holder runs so many queued bodies at most. -/
  limit : ∀ past part future, history = past ++ part ++ future →
    (∀ e ∈ part, e.label.leaves = false) →
    ((labelsOf part).filter Label.runsQueued).length ≤ drainLimit
  /-- While a request waits, a thread holds the Store. -/
  waiting : ∀ thread, Asleep now thread → ∃ other, Holds now other
  /-- Every thread that is not asleep can go on: no assertion stops it. -/
  awake : ∀ thread, ¬Asleep now thread →
    ∃ label later, Next now label later ∧ label.thread = thread

theorem init_inv (opener : T) :
    Inv (Queue.init opener : Queue T α ε ρ) [] (some opener) [] [] [] := by
  have hpc : (Queue.init opener : Queue T α ε ρ).pc opener = .held := by
    show Function.update (fun _ => Pc.idle) opener Pc.held opener = _
    exact Function.update_self ..
  constructor
  case held => rfl
  case linked => exact .nil
  case tail => rfl
  case free => exact nofun
  case stage =>
    rintro _ ⟨⟩
    rw [hpc]
    exact ⟨rfl, rfl, rfl, rfl, rfl⟩
  case others =>
    intro other hother
    have hidle : (Queue.init opener : Queue T α ε ρ).pc other = .idle := by
      show Function.update (fun _ => Pc.idle) opener Pc.held other = _
      exact Function.update_of_ne (fun heq => hother (congrArg some heq.symm)) ..
    rw [hidle]
    trivial
  case asleep => exact nofun
  case away => exact nofun
  case distinct => exact List.nodup_nil
  case tickets => rfl
  case arrivals => rfl
  case bodies => rfl
  case quota =>
    show 0 = ((Queue.init opener : Queue T α ε ρ).pc opener).ran
    rw [hpc]
    rfl

variable {history : List (Event T α ε ρ)}

/-- **Every run keeps the invariant.** -/
theorem run_inv (h : Run Next (.init opener) history now) :
    ∃ holder hand queue batch, Inv now (labelsOf history) holder hand queue batch := by
  induction h with
  | start => exact ⟨_, _, _, _, init_inv opener⟩
  | step _ hnext ih =>
    obtain ⟨holder, hand, queue, batch, hinv⟩ := ih
    rw [labelsOf, List.map_append]
    exact hnext.inv hinv

/-! ## Reading the invariant -/

section Reading

variable {now : Queue T α ε ρ} {past : List (Label T α ε ρ)} {holder : Option T}
  {hand queue batch : List T}

theorem Inv.holder_of_holds (h : Inv now past holder hand queue batch) {thread : T}
    (hholds : Holds now thread) : holder = some thread := by
  rcases hholds with hinside | ⟨entry, hpc, hhanded⟩
  · exact (h.stageOf rfl hinside).1
  · apply Decidable.byContradiction
    intro hne
    have hby := h.others thread hne
    rw [hpc] at hby
    exact absurd (hby.1.symm.trans hhanded) nofun

theorem Inv.holds_of_holder (h : Inv now past holder hand queue batch) {thread : T}
    (hholder : holder = some thread) : Holds now thread := by
  have hstage := h.stage thread hholder
  cases hpc : now.pc thread with
  | idle =>
    rw [hpc] at hstage
    exact hstage.elim
  | waiting entry =>
    rw [hpc] at hstage
    exact .inr ⟨entry, hpc, hstage.2.2.2.2.2.2⟩
  | returning answer keeps =>
    rw [hpc] at hstage
    obtain rfl := hstage.2.2.2.2.2.1
    exact .inl (by rw [hpc]; rfl)
  | _ => exact .inl (by rw [hpc]; rfl)

omit [DecidableEq T] in
/-- The stored owner is the holder, or is not stored yet. -/
theorem Stage.owned {thread : T} {pc : Pc T α ε ρ} (h : Stage now past thread hand batch pc) :
    now.owner = none ∨ now.owner = some thread := by
  cases pc with
  | idle => exact h.elim
  | waiting entry => exact .inl h.2.2.2.1
  | taken entry => exact .inl h.2.2.2.1
  | holding entry => exact .inr h.2.2.2.1
  | started => exact .inr h.2.2.2.1
  | drain d => exact .inr h.2.2.1
  | popped job d => exact .inr h.2.2.1
  | finishing d => exact .inr h.2.2.1
  | answering at_ committed d => exact .inr h.2.2.2.1
  | handing job d => exact .inr h.2.2.2.1
  | returning answer keeps => exact .inr h.2.2.2.1
  | held => exact .inr h.2.2.2.1

section

variable (h : Inv now past holder hand queue batch)

include h

theorem Inv.notOwned {thread : T}
    (hpc : now.pc thread = .idle) : now.owner ≠ some thread := by
  have hout := (h.idle_out hpc).1
  cases hholder : holder with
  | none =>
    rw [(h.free hholder).2.2.2.2]
    exact nofun
  | some other =>
    have hne : other ≠ thread := fun heq => hout (heq ▸ hholder)
    rcases (h.stage other hholder).owned with howner | howner
    · rw [howner]
      exact nofun
    · rw [howner]
      exact fun heq => hne (Option.some.inj heq)

/-- A request whose body has not run is asleep, or is its holder's own. -/
theorem Inv.pending {ticket : Nat}
    (hlow : now.bodies ≤ ticket) (hhigh : ticket < now.arrivals) :
    ∃ thread, now.ticket thread = ticket ∧ (Asleep now thread ∨ Holds now thread) := by
  have hmem : ticket ∈ (hand ++ queue).map now.ticket := by
    rw [h.tickets, List.mem_range'_1]
    exact ⟨hlow, h.arrivals ▸ hhigh⟩
  obtain ⟨thread, hthread, hticket⟩ := List.mem_map.mp hmem
  refine ⟨thread, hticket, ?_⟩
  by_cases hholder : holder = some thread
  · exact .inr (h.holds_of_holder hholder)
  · exact .inl (h.asleep thread (List.mem_append_left _ hthread) hholder)

theorem Inv.quota_le : Store.quota past ≤ drainLimit := by
  rw [h.quota]
  cases hholder : holder with
  | none => exact Nat.zero_le _
  | some thread =>
    have hstage := h.stage thread hholder
    show (now.pc thread).ran ≤ drainLimit
    cases hpc : now.pc thread with
    | drain d =>
      rw [hpc] at hstage
      exact hstage.2.2.2.ran
    | popped job d =>
      rw [hpc] at hstage
      exact hstage.2.2.2.1.ran
    | finishing d =>
      rw [hpc] at hstage
      exact hstage.2.2.2.1.ran
    | answering at_ committed d =>
      rw [hpc] at hstage
      exact hstage.2.2.2.2.ran
    | handing job d =>
      rw [hpc] at hstage
      exact hstage.2.2.2.2.1.ran
    | _ => exact Nat.zero_le _

/-- **A thread that is not asleep has a step.** One case for each place. -/
theorem Inv.awake {thread : T}
    (hawake : ¬Asleep now thread) :
    ∃ label later, Next now label later ∧ label.thread = thread := by
  cases hpc : now.pc thread with
  | idle => exact ⟨_, _, .arrive .run hpc (h.notOwned hpc), rfl⟩
  | waiting entry =>
    have hdone : (now.jobs thread).done = true := by
      cases hdone : (now.jobs thread).done with
      | true => rfl
      | false => exact absurd ⟨hdone, entry, hpc⟩ hawake
    cases hhanded : (now.jobs thread).handed with
    | true => exact ⟨_, _, .wakeHanded hpc hdone hhanded, rfl⟩
    | false =>
      have hout : holder ≠ some thread := by
        intro hholder
        have hstage := h.stage thread hholder
        rw [hpc] at hstage
        exact absurd (hhanded.symm.trans hstage.2.2.2.2.2.2) nofun
      have hby := h.others thread hout
      rw [hpc] at hby
      obtain ⟨-, hentry, -, hanswered⟩ := hby
      obtain ⟨hown, answer, hanswer, -⟩ := hanswered hdone
      obtain rfl : entry = .write := by
        rw [hown] at hentry
        cases entry with
        | write => rfl
        | run => cases hentry
        | callHeld => cases hentry
      exact ⟨_, _, .wake hpc hdone hhanded hanswer, rfl⟩
  | taken entry => exact ⟨_, _, .own hpc, rfl⟩
  | holding entry =>
    obtain ⟨-, -, -, -, howner, -⟩ := h.stageOf hpc rfl
    cases entry with
    | run => exact ⟨_, _, .run (.error .storeFenced) hpc howner, rfl⟩
    | write => exact ⟨_, _, .startOwn hpc, rfl⟩
    | callHeld =>
      have hfailed : (Answer.error .storeFenced : Answer α ε ρ).succeeded = false := rfl
      exact ⟨_, _, .callHeldFailed hpc hfailed howner, rfl⟩
  | started =>
    obtain ⟨-, -, -, -, howner, -⟩ := h.stageOf hpc rfl
    exact ⟨_, _, .write (.error .storeFenced) hpc howner, rfl⟩
  | drain d =>
    rcases turn_cases now d with ⟨job, hturn, -⟩ | ⟨hturn, -⟩ | ⟨hturn, -⟩ | ⟨job, hturn, -⟩
    · exact ⟨_, _, .pop hpc hturn, rfl⟩
    · exact ⟨_, _, .close hpc hturn, rfl⟩
    · exact ⟨_, _, .letGo hpc hturn, rfl⟩
    · exact ⟨_, _, .popHolder hpc hturn, rfl⟩
  | popped job d =>
    cases hbatching : d.batching with
    | true => exact ⟨_, _, .batch (.error .storeFenced) hpc hbatching, rfl⟩
    | false => exact ⟨_, _, .start hpc hbatching, rfl⟩
  | finishing d => exact ⟨_, _, .finish true hpc, rfl⟩
  | answering at_ committed d =>
    cases at_ with
    | none => exact ⟨_, _, .answered hpc, rfl⟩
    | some job => exact ⟨_, _, .answer hpc, rfl⟩
  | handing job d => exact ⟨_, _, .handOver hpc, rfl⟩
  | returning answer keeps => exact ⟨_, _, .returns hpc, rfl⟩
  | held =>
    obtain ⟨-, -, -, -, howner, -⟩ := h.stageOf hpc rfl
    exact ⟨_, _, .release hpc howner, rfl⟩

end

end Reading

/-! ## Reading the steps -/

section Steps

variable {now later : Queue T α ε ρ} {label : Label T α ε ρ} {past : List (Label T α ε ρ)}
  {holder : Option T} {hand queue batch : List T}

theorem Next.arrivals (h : Next now label later) :
    List.range later.arrivals = List.range now.arrivals ++ label.arrivalTicket.toList := by
  cases h with
  | arrive entry pc notOwned =>
    rename_i thread
    have harrivals : ((now.arrive thread entry).take thread entry).arrivals = now.arrivals + 1 := by
      rw [Queue.take]
      split
      · show ((now.arrive thread entry).push thread).arrivals = _
        rw [Queue.push]
        split <;> rfl
      · rfl
    rw [harrivals, List.range_succ]
    rfl
  | _ => exact (List.append_nil _).symm

theorem Inv.closed (h : Inv now past holder hand queue batch) (hnext : Next now label later)
    (hleaves : label.leaves = true) : now.batchOpen = false := by
  cases hnext with
  | @letGo thread d pc turn =>
    obtain ⟨-, -, hbatch, -⟩ := h.stageOf pc rfl
    rcases turn_cases now d with ⟨job, hturn, -⟩ | ⟨hturn, -⟩ | ⟨-, -, hclosed⟩ | ⟨job, hturn, -⟩
    · exact nomatch turn.symm.trans hturn
    · exact nomatch turn.symm.trans hturn
    · exact hbatch.same.trans hclosed
    · exact nomatch turn.symm.trans hturn
  | @handOver thread job d pc =>
    obtain ⟨-, -, -, hopen, -⟩ := h.stageOf pc rfl
    exact hopen
  | _ => cases hleaves

variable {ticket : Nat}

/-- Where a request is answered, its body ran; a write's did in a batch that finished. -/
theorem Inv.returned (h : Inv now past holder hand queue batch) {thread : T} {own : Bool}
    {answer : Answer α ε ρ} (hnext : Next now (.returns thread ticket own answer) later) :
    ticket ∈ bodiesOf past ∧ (own = false →
      ∃ ran committed, Finished past ticket ran committed ∧ Hears committed ran answer) := by
  cases hnext with
  | @returns _ _ keeps pc =>
    by_cases hholder : holder = some thread
    · have hstage := h.stage thread hholder
      rw [pc] at hstage
      obtain ⟨-, -, -, -, hown, -, hover⟩ := hstage
      exact ⟨hover, fun hwrite => absurd (hwrite.symm.trans hown) nofun⟩
    · have hby := h.others thread hholder
      rw [pc] at hby
      obtain ⟨-, hover, hheard⟩ := hby
      refine ⟨hover, fun hwrite => ?_⟩
      obtain ⟨ran, committed, hfinished, rfl⟩ := hheard hwrite
      refine ⟨ran, committed, hfinished, ?_⟩
      cases committed with
      | true => exact rfl
      | false => cases ran <;> rfl

theorem Inv.set (h : Inv now past holder hand queue batch) {thread job : T}
    (hnext : Next now (.answer thread job ticket) later) :
    ∃ ran committed, Finished past ticket ran committed := by
  cases hnext with
  | @answer _ _ committed d pc =>
    obtain ⟨-, -, hanswering, -⟩ := h.stageOf pc rfl
    obtain ⟨rest, rfl, -⟩ := hanswering.linked.eq_cons
    obtain ⟨-, answer, -, hfinished⟩ := hanswering.finished job List.mem_cons_self
    exact ⟨answer, committed, hfinished⟩

end Steps

/-- Bodies run for others are counted until the holder leaves. -/
theorem quota_part (past part : List (Label T α ε ρ))
    (h : ∀ label ∈ part, label.leaves = false) :
    quota (past ++ part) = quota past + (part.filter Label.runsQueued).length := by
  induction part using List.reverseRecOn with
  | nil => rw [List.append_nil]; rfl
  | append_singleton part label ih =>
    have hlabel := h label (by simp)
    rw [← List.append_assoc, quota_snoc, ih fun other hother => h other (by simp [hother]),
      List.filter_append, List.length_append]
    cases label with
    | body thread job ticket answer =>
      by_cases heq : thread = job
      · rw [quotaStep, if_pos heq]
        simp [Label.runsQueued, heq]
      · have hruns : (Label.body thread job ticket answer).runsQueued = true := bne_iff_ne.mpr heq
        rw [quotaStep, if_neg heq, Nat.add_assoc, List.filter_cons_of_pos hruns]
        rfl
    | handOver => cases hlabel
    | letGo => cases hlabel
    | _ => rfl

theorem run_arrivals (h : Run Next (.init opener) history now) :
    (labelsOf history).filterMap Label.arrivalTicket = List.range now.arrivals := by
  induction h with
  | start => rfl
  | @step past now next label _ hnext ih =>
    rw [labelsOf, List.map_append, List.filterMap_append, hnext.arrivals, ← ih]
    cases hticket : label.arrivalTicket with
    | none => simp [hticket, labelsOf]
    | some ticket => simp [hticket, labelsOf]

/-- **One holder, requests in the order of their arrival, and no write answered before its batch
is.** Of every run of any number of threads. -/
theorem queue_laws {opener : T} {history : List (Event T α ε ρ)} {now : Queue T α ε ρ}
    (h : Run Next (.init opener) history now) : QueueLaws history now := by
  obtain ⟨holder, hand, queue, batch, hinv⟩ := run_inv h
  -- the invariant before any step of the history
  have hbefore : ∀ past e future, history = past ++ e :: future →
      Next e.before e.label e.after ∧ ∃ holder hand queue batch,
        Inv e.before (labelsOf past) holder hand queue batch := by
    rintro past e future rfl
    obtain ⟨hpast, hnext, -⟩ := h.split_step
    exact ⟨hnext, run_inv hpast⟩
  constructor
  case holder =>
    intro thread other hthread hother
    exact Option.some.inj ((hinv.holder_of_holds hthread).symm.trans (hinv.holder_of_holds hother))
  case arrivals => exact run_arrivals h
  case bodies => exact hinv.bodies
  case pending =>
    exact ⟨by rw [hinv.arrivals]; exact Nat.le_add_right _ _, fun _ hlow hhigh =>
      hinv.pending hlow hhigh⟩
  case ended =>
    intro hidle
    have hnone : holder = none := by
      cases hholder : holder with
      | none => rfl
      | some thread => exact absurd hholder (hinv.idle_out (hidle thread)).1
    obtain ⟨rfl, rfl, -⟩ := hinv.free hnone
    exact hinv.arrivals.symm
  case ran =>
    intro past e future thread ticket own answer hsplit hlabel
    obtain ⟨hnext, _, _, _, _, hpast⟩ := hbefore past e future hsplit
    rw [hlabel] at hnext
    exact (hpast.returned hnext).1
  case set =>
    intro past e future thread job ticket hsplit hlabel
    obtain ⟨hnext, _, _, _, _, hpast⟩ := hbefore past e future hsplit
    rw [hlabel] at hnext
    exact hpast.set hnext
  case heard =>
    intro past e future thread ticket answer hsplit hlabel
    obtain ⟨hnext, _, _, _, _, hpast⟩ := hbefore past e future hsplit
    rw [hlabel] at hnext
    exact (hpast.returned hnext).2 rfl
  case closed =>
    intro e he hleaves
    obtain ⟨past, future, hsplit⟩ := List.append_of_mem he
    obtain ⟨hnext, _, _, _, _, hpast⟩ := hbefore past e future hsplit
    exact hpast.closed hnext hleaves
  case limit =>
    rintro past part future rfl hpart
    obtain ⟨mid, hmid, -⟩ := h.split
    obtain ⟨_, _, _, _, hmidInv⟩ := run_inv hmid
    have hquota := hmidInv.quota_le
    rw [labelsOf, List.map_append, quota_part] at hquota
    · exact Nat.le_trans (Nat.le_add_left _ _) hquota
    · intro label hlabel
      obtain ⟨e, he, rfl⟩ := List.mem_map.mp hlabel
      exact hpart e he
  case waiting =>
    rintro thread ⟨hdone, entry, hpc⟩
    cases hholder : holder with
    | some other => exact ⟨other, hinv.holds_of_holder hholder⟩
    | none =>
      have hby := hinv.others thread (by rw [hholder]; exact nofun)
      rw [hpc] at hby
      obtain ⟨rfl, rfl, rfl, -⟩ := hinv.free hholder
      exact absurd (hby.2.2.1 hdone) (List.not_mem_nil)
  case awake => exact fun thread hawake => hinv.awake hawake

/-- A write queued behind the opener, in a batch that fails to commit, hears it. -/
theorem queue_laws_lost :
    ∃ (history : List (Event Nat Nat Nat Nat)) (now : Queue Nat Nat Nat Nat),
      Run Next (.init 0) history now ∧ QueueLaws history now ∧
        ∃ e ∈ history, e.label = .returns 1 0 false (.error .storeFenced) := by
  have hrun : ∃ (history : List (Event Nat Nat Nat Nat)) (now : Queue Nat Nat Nat Nat),
      Run Next (.init 0) history now ∧
        ∃ e ∈ history, e.label = .returns 1 0 false (.error .storeFenced) := by
    have arrived : Next (.init 0 : Queue Nat Nat Nat Nat) (.arrive 1 0) _ :=
      .arrive .write rfl (by decide)
    have released := Run.step (.single arrived) (show Next _ (.internal 0) _ from .release rfl rfl)
    have popped := released.step (show Next _ (.internal 0) _ from .pop rfl rfl)
    have started := popped.step (show Next _ (.start 0) _ from .start rfl rfl)
    have ran := started.step (show Next _ (.body 0 1 0 _) _ from .batch (.value 7) rfl rfl)
    have closing := ran.step (show Next _ (.internal 0) _ from .close rfl rfl)
    have finished := closing.step (show Next _ (.finish 0 false) _ from .finish false rfl)
    have set := finished.step (show Next _ (.answer 0 1 0) _ from .answer rfl)
    have woken := set.step (show Next _ (.internal 1) _ from .wake rfl rfl rfl rfl)
    exact ⟨_, _, woken.step (.returns rfl), _,
      List.mem_append_right _ (List.mem_singleton_self _), rfl⟩
  obtain ⟨history, now, h, hlost⟩ := hrun
  exact ⟨history, now, h, queue_laws h, hlost⟩

end Rui.Store
