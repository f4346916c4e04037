import Mathlib

/-!
# Incremental parsers and how their input is split

A parser that is given the bytes it has not used, again and again with more
behind them, answers with what it could read. Four laws about one answer are
enough for the whole reading not to depend on how its input was split.
-/

namespace Library

universe u v w x

/-- An answer: wait for more input, consume some of it, or stop. -/
inductive Answer (σ : Type u) (ω : Type v) (ε : Type w)
  | wait (s : σ)
  | emit (used : Nat) (out : List ω) (s : σ)
  | stop
  | fail (e : ε)

/-- A parser over a stream of `α`; consuming consumes something. -/
structure Incremental (σ : Type u) (α : Type x) (ω : Type v) (ε : Type w) where
  next : σ → List α → Answer σ ω ε
  progress : ∀ {s : σ} {held : List α} {used : Nat} {out : List ω} {s' : σ},
    next s held = .emit used out s' → 0 < used ∧ used ≤ held.length

/-- Where a reading stands: waiting with input not yet used, or over. -/
inductive Standing (σ : Type u) (α : Type x) (ε : Type w)
  | waiting (s : σ) (held : List α)
  | stopped
  | failed (e : ε)

/-- Where a reading stands with its reader's state beside it. -/
def Standing.beside {σ : Type u} {α : Type x} {ε : Type w} {τ : Type*} (t : τ) :
    Standing σ α ε → Standing (σ × τ) α ε
  | .waiting s held => .waiting (s, t) held
  | .stopped => .stopped
  | .failed e => .failed e

theorem Standing.beside_inj {σ : Type u} {α : Type x} {ε : Type w} {τ : Type*} {t t' : τ}
    {a b : Standing σ α ε} (h : a.beside t = b.beside t') : a = b := by
  cases a with
  | waiting s held =>
    cases b with
    | waiting s' held' =>
      cases h
      rfl
    | _ => cases h
  | stopped =>
    cases b with
    | stopped => rfl
    | _ => cases h
  | failed e =>
    cases b with
    | failed e' =>
      cases h
      rfl
    | _ => cases h

namespace Incremental

variable {σ : Type u} {α : Type x} {ω : Type v} {ε : Type w} (m : Incremental σ α ω ε)

/-- Asks the parser until it waits or stops. -/
def drain (s : σ) (held : List α) : List ω × Standing σ α ε :=
  match _h : m.next s held with
  | .wait s' => ([], .waiting s' held)
  | .stop => ([], .stopped)
  | .fail e => ([], .failed e)
  | .emit used out s' =>
    let rest := drain s' (held.drop used)
    (out ++ rest.1, rest.2)
termination_by held.length
decreasing_by
  have := m.progress _h
  rw [List.length_drop]
  omega

/-- A reading resumed with more input. -/
def resume (reading : List ω × Standing σ α ε) (more : List α) : List ω × Standing σ α ε :=
  match reading.2 with
  | .waiting s held =>
    let rest := m.drain s (held ++ more)
    (reading.1 ++ rest.1, rest.2)
  | .stopped => (reading.1, .stopped)
  | .failed e => (reading.1, .failed e)

/-- A reading given its input piece by piece. -/
def readAll (s : σ) (reads : List (List α)) : List ω × Standing σ α ε :=
  reads.foldl m.resume ([], .waiting s [])

section DrainEquations

variable {m} {s s' : σ} {held : List α}

theorem drain_wait (h : m.next s held = .wait s') : m.drain s held = ([], .waiting s' held) := by
  rw [drain]
  split <;> simp_all

theorem drain_stop (h : m.next s held = .stop) : m.drain s held = ([], .stopped) := by
  rw [drain]
  split <;> simp_all

theorem drain_fail {e : ε} (h : m.next s held = .fail e) :
    m.drain s held = ([], .failed e) := by
  rw [drain]
  split <;> simp_all

theorem drain_emit {used : Nat} {out : List ω} (h : m.next s held = .emit used out s') :
    m.drain s held =
      (out ++ (m.drain s' (held.drop used)).1, (m.drain s' (held.drop used)).2) := by
  rw [drain]
  split <;> simp_all

/-- `drain` by recursion on a bound, which evaluates. -/
def drainWithin : Nat → σ → List α → List ω × Standing σ α ε
  | 0, s, held => ([], .waiting s held)
  | bound + 1, s, held =>
    match m.next s held with
    | .wait s' => ([], .waiting s' held)
    | .stop => ([], .stopped)
    | .fail e => ([], .failed e)
    | .emit used out s' =>
      let rest := drainWithin bound s' (held.drop used)
      (out ++ rest.1, rest.2)

theorem drainWithin_eq (bound : Nat) (h : held.length < bound) :
    m.drainWithin bound s held = m.drain s held := by
  induction bound generalizing s held with
  | zero => omega
  | succ bound ih =>
    rw [drainWithin]
    cases hnext : m.next s held with
    | wait s' => rw [drain_wait hnext]
    | stop => rw [drain_stop hnext]
    | fail e => rw [drain_fail hnext]
    | emit used out s' =>
      have hprogress := m.progress hnext
      rw [drain_emit hnext, ← ih (s := s') (by rw [List.length_drop]; omega)]

end DrainEquations

/-- An answer that keeps its promise to longer inputs. `Valid` holds of the
states a parser can be in with the input it is given. -/
inductive Lawful (Valid : σ → List α → Prop) (s : σ) (held : List α) : Prop
  /-- Waiting forgets nothing the longer input needs. -/
  | wait {s' : σ} (here : m.next s held = .wait s') (valid : Valid s' held)
      (same : ∀ more, m.next s' (held ++ more) = m.next s (held ++ more))
  | stop (same : ∀ more, m.next s (held ++ more) = .stop)
  | fail {e : ε} (same : ∀ more, m.next s (held ++ more) = .fail e)
  | emit {used : Nat} {out : List ω} {s' : σ} (valid : Valid s' (held.drop used))
      (same : ∀ more, m.next s (held ++ more) = .emit used out s')
  /-- All there is is consumed, and more would be consumed with it. -/
  | greedy {out : List ω} {s' : σ} (here : m.next s held = .emit held.length out s')
      (valid : Valid s' [])
      (more : ∀ more, more ≠ [] → ∃ used out' s'', m.next s' more = .emit used out' s'' ∧
        m.next s (held ++ more) = .emit (held.length + used) (out ++ out') s'')
  /-- Something is consumed with nothing to show for it, and more is read behind the rest as if it
  had come with it. -/
  | pause {used : Nat} {s' : σ} (here : m.next s held = .emit used [] s')
    (valid : Valid s' (held.drop used))
    (more : ∀ more, more ≠ [] →
      (∃ used' out s'', m.next s' (held.drop used ++ more) = .emit used' out s'' ∧
        m.next s (held ++ more) = .emit (used + used') out s'') ∨
      (∃ e, m.next s' (held.drop used ++ more) = .fail e ∧ m.next s (held ++ more) = .fail e) ∨
      m.next s (held ++ more) = .emit used [] s')

/-- Every answer a parser can give is lawful. -/
structure Splittable (Valid : σ → List α → Prop) : Prop where
  grow : ∀ {s held}, Valid s held → ∀ more, Valid s (held ++ more)
  lawful : ∀ {s held}, Valid s held → m.Lawful Valid s held

variable {m} {Valid : σ → List α → Prop} {s : σ} {held : List α} {e : ε}

/-- **Reading on is reading.** Input given in two pieces reads as input given
whole, by induction on the first piece. -/
theorem Splittable.drain_append (laws : m.Splittable Valid) (hvalid : Valid s held) (more : List α) :
    m.drain s (held ++ more) = m.resume (m.drain s held) more := by
  induction hn : held.length using Nat.strongRecOn generalizing s held with
  | ind n ih =>
    cases laws.lawful hvalid with
    | @wait t here _ same =>
      have hsame : m.drain s (held ++ more) = m.drain t (held ++ more) := by
        rw [drain, drain, same]
      simp only [hsame, drain_wait here, resume, List.nil_append]
    | stop same =>
      have here := same []
      rw [List.append_nil] at here
      rw [drain_stop here, drain_stop (same more)]
      rfl
    | fail same =>
      have here := same []
      rw [List.append_nil] at here
      rw [drain_fail here, drain_fail (same more)]
      rfl
    | @emit used out t valid same =>
      have here := same []
      rw [List.append_nil] at here
      have hused := m.progress here
      rw [drain_emit here, drain_emit (same more), List.drop_append_of_le_length hused.2,
        ih _ (by rw [List.length_drop]; omega) valid rfl]
      simp only [resume]
      split <;> simp
    | @greedy out t here valid hmore =>
      have hpos := (m.progress here).1
      have hrest := ih 0 (by omega) valid rfl
      rw [List.nil_append] at hrest
      have hout : m.drain s (held ++ more) = (out ++ (m.drain t more).1, (m.drain t more).2) := by
        by_cases hnil : more = []
        · rw [hnil, List.append_nil, drain_emit here, List.drop_length]
        · obtain ⟨used, out', t', hnext, hsame⟩ := hmore more hnil
          rw [drain_emit hsame, List.drop_length_add_append, drain_emit hnext, List.append_assoc]
      rw [hout, hrest, drain_emit here, List.drop_length]
      simp only [resume]
      split <;> simp
    | @pause used t here valid hmore =>
      have hused := m.progress here
      have hrest := ih _ (by rw [List.length_drop]; omega) valid rfl
      have hout : m.drain s (held ++ more) = m.drain t (held.drop used ++ more) := by
        have hdrop : (held ++ more).drop used = held.drop used ++ more :=
          List.drop_append_of_le_length hused.2
        by_cases hnil : more = []
        · rw [hnil, List.append_nil, List.append_nil, drain_emit here, List.nil_append]
        · rcases hmore more hnil with ⟨used', out, t', hnext, hsame⟩ | ⟨e, hnext, hsame⟩ | hsame
          · rw [drain_emit hsame, drain_emit hnext, ← List.drop_drop, hdrop]
          · rw [drain_fail hsame, drain_fail hnext]
          · rw [drain_emit hsame, hdrop, List.nil_append]
      rw [hout, hrest, drain_emit here, List.nil_append]

/-- **Split independence.** A reading depends on its input alone. -/
theorem Splittable.readAll_flatten (laws : m.Splittable Valid) (hvalid : Valid s [])
    (hstart : m.next s [] = .wait s) (reads : List (List α)) :
    m.readAll s reads = m.drain s reads.flatten := by
  have hgo : ∀ held, Valid s held → ∀ reads : List (List α),
      reads.foldl m.resume (m.drain s held) = m.drain s (held ++ reads.flatten) := by
    intro held hheld reads
    induction reads generalizing held with
    | nil => simp
    | cons read reads ih =>
      rw [List.foldl_cons, ← laws.drain_append hheld, ih _ (laws.grow hheld read),
        List.flatten_cons, List.append_assoc]
  have := hgo [] hvalid reads
  rwa [drain_wait hstart, List.nil_append] at this

/-! ## What a reading keeps -/

section Keeps

variable {P : σ → List ω → List α → Prop} {W : List α → Prop}
  (hwait : ∀ s held s' out input, P s out input → m.next s held = .wait s' →
    P s' out input ∧ W held)
  (hemit : ∀ s held used out' s' out input, P s out input →
    m.next s held = .emit used out' s' → P s' (out ++ out') (input ++ held.take used))

include hwait hemit

/-- **What every answer keeps, a reading keeps**, of its output and of the input
it has used: all but the rest it waits with. -/
theorem drain_keeps {s : σ} (held : List α) {out : List ω} {input : List α} (h : P s out input) :
    ∃ s' used, P s' (out ++ (m.drain s held).1) (input ++ used) ∧ used <+: held ∧
      ∀ t rest, (m.drain s held).2 = .waiting t rest → t = s' ∧ used ++ rest = held ∧ W rest := by
  induction hn : held.length using Nat.strongRecOn generalizing s held out input with
  | ind n ih =>
    have hhere : ∀ standing : Standing σ α ε, m.drain s held = ([], standing) →
        (∀ t rest, standing ≠ .waiting t rest) →
        ∃ s' used, P s' (out ++ (m.drain s held).1) (input ++ used) ∧ used <+: held ∧
          ∀ t rest, (m.drain s held).2 = .waiting t rest →
            t = s' ∧ used ++ rest = held ∧ W rest := by
      intro standing hdrain hover
      rw [hdrain]
      refine ⟨s, [], by simpa using h, List.nil_prefix, fun t rest hstanding => ?_⟩
      exact absurd hstanding (hover t rest)
    cases hnext : m.next s held with
    | wait s' =>
      obtain ⟨hlater, hrest⟩ := hwait _ _ _ _ _ h hnext
      rw [drain_wait hnext]
      refine ⟨s', [], by simpa using hlater, List.nil_prefix, fun t rest hstanding => ?_⟩
      cases hstanding
      exact ⟨rfl, rfl, hrest⟩
    | stop => exact hhere .stopped (drain_stop hnext) fun _ _ h => (by cases h)
    | fail e => exact hhere (.failed e) (drain_fail hnext) fun _ _ h => (by cases h)
    | emit used out' s' =>
      have hused := m.progress hnext
      obtain ⟨last, more, hP, hprefix, hrest⟩ := ih (held.drop used).length
        (by rw [List.length_drop]; omega) (held.drop used) (hemit _ _ _ _ _ _ _ h hnext) rfl
      rw [drain_emit hnext]
      refine ⟨last, held.take used ++ more, ?_, ?_, fun t rest hstanding => ?_⟩
      · rwa [← List.append_assoc, ← List.append_assoc]
      · obtain ⟨rest, hrest⟩ := hprefix
        exact ⟨rest, by rw [List.append_assoc, hrest, List.take_append_drop]⟩
      · obtain ⟨ht, hheld, hW⟩ := hrest t rest hstanding
        exact ⟨ht, by rw [List.append_assoc, hheld, List.take_append_drop], hW⟩

theorem readAll_keeps {s : σ} (h : P s [] []) (hnil : W []) (reads : List (List α)) :
    ∃ s' used, P s' (m.readAll s reads).1 used ∧ used <+: reads.flatten ∧
      ∀ t rest, (m.readAll s reads).2 = .waiting t rest →
        t = s' ∧ used ++ rest = reads.flatten ∧ W rest := by
  induction reads using List.reverseRecOn with
  | nil =>
    refine ⟨s, [], h, List.nil_prefix, fun t rest hstanding => ?_⟩
    cases hstanding
    exact ⟨rfl, rfl, hnil⟩
  | append_singleton reads read ih =>
    obtain ⟨s', used, hP, hprefix, hrest⟩ := ih
    have hread : m.readAll s (reads ++ [read]) = m.resume (m.readAll s reads) read := by
      rw [readAll, readAll, List.foldl_append, List.foldl_cons, List.foldl_nil]
    have hflat : (reads ++ [read]).flatten = reads.flatten ++ read := by simp
    rw [hread, hflat]
    cases hstanding : (m.readAll s reads).2 with
    | waiting t rest =>
      obtain ⟨rfl, hheld, -⟩ := hrest t rest hstanding
      simp only [resume, hstanding]
      obtain ⟨last, more, hP', hprefix', hrest'⟩ :=
        drain_keeps hwait hemit (rest ++ read) hP
      rw [← hheld, List.append_assoc]
      refine ⟨last, used ++ more, hP', ?_, fun t' rest' hstanding' => ?_⟩
      · exact List.prefix_append_right_inj used |>.mpr hprefix'
      · obtain ⟨ht, hheld', hW⟩ := hrest' t' rest' hstanding'
        exact ⟨ht, by rw [List.append_assoc, hheld'], hW⟩
    | stopped =>
      simp only [resume, hstanding]
      exact ⟨s', used, hP, hprefix.trans (List.prefix_append _ _), fun _ _ h => (by cases h)⟩
    | failed e =>
      simp only [resume, hstanding]
      exact ⟨s', used, hP, hprefix.trans (List.prefix_append _ _), fun _ _ h => (by cases h)⟩

end Keeps

theorem drain_failed (h : (m.drain s held).2 = .failed e) :
    ∃ s' held', m.next s' held' = .fail e := by
  induction hn : held.length using Nat.strongRecOn generalizing s held with
  | ind n ih =>
    cases hnext : m.next s held with
    | wait s' => simp [drain_wait hnext] at h
    | stop => simp [drain_stop hnext] at h
    | fail e' =>
      rw [drain_fail hnext] at h
      cases h
      exact ⟨s, held, hnext⟩
    | emit used out s' =>
      have hused := m.progress hnext
      rw [drain_emit hnext] at h
      exact ih _ (by rw [List.length_drop]; omega) h rfl

theorem readAll_failed {reads : List (List α)} (h : (m.readAll s reads).2 = .failed e) :
    ∃ s' held, m.next s' held = .fail e := by
  induction reads using List.reverseRecOn with
  | nil => cases h
  | append_singleton reads read ih =>
    have hread : m.readAll s (reads ++ [read]) = m.resume (m.readAll s reads) read := by
      rw [readAll, readAll, List.foldl_append, List.foldl_cons, List.foldl_nil]
    rw [hread] at h
    cases hstanding : (m.readAll s reads).2 with
    | waiting t rest =>
      simp only [resume, hstanding] at h
      exact drain_failed h
    | stopped => simp [resume, hstanding] at h
    | failed e' =>
      simp only [resume, hstanding] at h
      exact ih (hstanding.trans h)

/-! ## What a reader makes of the output -/

variable {τ ω' : Type*}

/-- What a reader with some state makes of an output, item by item. -/
def gather (take : τ → ω → List ω' × τ) : τ → List ω → List ω' × τ
  | t, [] => ([], t)
  | t, a :: out =>
    let rest := gather take (take t a).2 out
    ((take t a).1 ++ rest.1, rest.2)

theorem gather_append (take : τ → ω → List ω' × τ) (t : τ) (out out' : List ω) :
    gather take t (out ++ out') = ((gather take t out).1 ++ (gather take (gather take t out).2 out').1,
      (gather take (gather take t out).2 out').2) := by
  induction out generalizing t with
  | nil => rfl
  | cons a out ih =>
    simp only [List.cons_append, gather, ih, List.append_assoc]

theorem gather_unit (f : ω → List ω') (out : List ω) :
    gather (fun _ a => (f a, ())) () out = (out.flatMap f, ()) := by
  induction out with
  | nil => rfl
  | cons a out ih => simp only [gather, ih, List.flatMap_cons]

variable (m)

/-- An answer as a reader of the output sees it. -/
def seen (take : τ → ω → List ω' × τ) (t : τ) : Answer σ ω ε → Answer (σ × τ) ω' ε
  | .wait s => .wait (s, t)
  | .emit used out s => .emit used (gather take t out).1 (s, (gather take t out).2)
  | .stop => .stop
  | .fail e => .fail e

/-- The parser and a reader of its output as one parser. -/
def through (take : τ → ω → List ω' × τ) : Incremental (σ × τ) α ω' ε where
  next s held := seen take s.2 (m.next s.1 held)
  progress {s held used out s'} h := by
    cases hnext : m.next s.1 held with
    | emit used' out' s'' =>
      rw [hnext] at h
      cases h
      exact m.progress hnext
    | _ =>
      rw [hnext] at h
      cases h

variable {m}

/-- **Reading on the way is reading afterwards.** By induction on the input. -/
theorem drain_through (take : τ → ω → List ω' × τ) (s : σ) (t : τ) (held : List α) :
    (m.through take).drain (s, t) held =
      ((gather take t (m.drain s held).1).1,
        (m.drain s held).2.beside (gather take t (m.drain s held).1).2) := by
  induction hn : held.length using Nat.strongRecOn generalizing s t held with
  | ind n ih =>
    cases hnext : m.next s held with
    | wait s' =>
      rw [drain_wait hnext, drain_wait (show (m.through take).next (s, t) held = .wait (s', t) by
        simp only [through, hnext, seen])]
      rfl
    | stop =>
      rw [drain_stop hnext, drain_stop (show (m.through take).next (s, t) held = .stop by
        simp only [through, hnext, seen])]
      rfl
    | fail e =>
      rw [drain_fail hnext, drain_fail (show (m.through take).next (s, t) held = .fail e by
        simp only [through, hnext, seen])]
      rfl
    | emit used out s' =>
      have hused := m.progress hnext
      rw [drain_emit hnext, drain_emit (show (m.through take).next (s, t) held =
        .emit used (gather take t out).1 (s', (gather take t out).2) by
          simp only [through, hnext, seen])]
      rw [ih _ (by rw [List.length_drop]; omega) s' _ _ rfl, gather_append]

theorem readAll_through (take : τ → ω → List ω' × τ) (s : σ) (t : τ) (reads : List (List α)) :
    (m.through take).readAll (s, t) reads =
      ((gather take t (m.readAll s reads).1).1,
        (m.readAll s reads).2.beside (gather take t (m.readAll s reads).1).2) := by
  induction reads using List.reverseRecOn with
  | nil => rfl
  | append_singleton reads read ih =>
    simp only [readAll, List.foldl_append, List.foldl_cons, List.foldl_nil] at ih ⊢
    rw [ih]
    cases hstanding : (reads.foldl m.resume ([], .waiting s [])).2 with
    | waiting s' held =>
      simp only [resume, hstanding, Standing.beside, drain_through, gather_append]
    | stopped => simp only [resume, hstanding, Standing.beside]
    | failed e => simp only [resume, hstanding, Standing.beside]

end Incremental

end Library
