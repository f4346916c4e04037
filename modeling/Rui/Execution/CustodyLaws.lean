import Rui.Execution.Custody

/-!
# What custody promises over whole runs

The laws are read off a run's history. Between the pool and the laws stands
the life of one token: what the calls answered so far have made of it. A
record's fields are the life of the token it was reserved under last
(`Refines`), every call is legal for the life of the token it carries
(`Legal`), and the laws follow from lives alone.
-/

namespace Rui.Execution

open Library

abbrev CustodyStep := Machine.Step System Call Reply
abbrev History := List CustodyStep

/-! ## Steps of a history -/

section Steps
variable (e : CustodyStep) (t : CustodyToken)

def Issues : Prop := e.op = .reserve ∧ e.reply = .reserved (some t)
def Attaches (b : CustodyBinding) : Prop := (∃ p, e.op = .attach t p) ∧ e.reply = .attached b
def Spends (p : Nat) : Prop := (∃ t, e.op = .attach t p) ∧ ∃ b, e.reply = .attached b
def Launches (b : CustodyBinding) : Prop := e.op = .consumeLaunchAuthority t b ∧ e.reply = .done
def Claims : Prop := e.op = .claimTerminalDelivery t ∧ e.reply = .claimed true
def Detaches : Prop := e.op = .detach t ∧ e.reply = .done
def Releases : Prop := e.op = .releaseUnused t ∧ e.reply = .done
def Cleans : Prop := e.op = .cleanupComplete t ∧ e.reply = .done

end Steps

/-- No two steps of the history are both `P`. -/
def AtMostOnce (P : CustodyStep → Prop) (h : History) : Prop := h.Pairwise fun x y => ¬ (P x ∧ P y)

/-- `t` was attached with `b` in `past` and not detached since. -/
def Held (t : CustodyToken) (b : CustodyBinding) (past : History) : Prop :=
  ∃ before e since, past = before ++ e :: since ∧ Attaches e t b ∧ ∀ x ∈ since, ¬ Detaches x t

/-- Within `span`, `t` gave its record back: unused before any attach, or
cleaned up after its detach. -/
def GivenBack (t : CustodyToken) (span : History) : Prop :=
  ∃ before e after, span = before ++ e :: after ∧
    ((Releases e t ∧ ∀ x ∈ before, ∀ b, ¬ Attaches x t b) ∨
      (Cleans e t ∧ ∃ x ∈ before, Detaches x t))

/-- How often a history reserved record `i`. -/
def reservations (i : Nat) (h : History) : Nat :=
  h.countP fun e => match e.reply with
    | .reserved (some t) => t.index == i
    | _ => false

/-- The custody laws of a history. -/
structure Laws (h : History) : Prop where
  permit_once : ∀ p, AtMostOnce (Spends · p) h
  launch_once : ∀ t, AtMostOnce (fun e => ∃ b, Launches e t b) h
  launch_held : ∀ past e future t b, h = past ++ e :: future → Launches e t b →
    Held t b past ∧ ∃ r, e.before.pool[t.index]? = some r ∧ r.generation = t.generation ∧
      r.state = .attached ∧ r.binding = some b
  claim_once : ∀ t, AtMostOnce (Claims · t) h
  claim_held : ∀ past e future t, h = past ++ e :: future → Claims e t → ∃ b, Held t b past
  exclusive : ∀ past e between e' future t t', h = past ++ e :: (between ++ e' :: future) →
    Issues e t → Issues e' t' → t.index = t'.index → GivenBack t between
  failed : ∀ e ∈ h, e.reply.Fails → e.after = e.before
  stale : ∀ past e between e' since x future t t',
    h = past ++ e :: (between ++ e' :: (since ++ x :: future)) → Issues e t → Issues e' t' →
      t.index = t'.index → x.op.token = some t → x.after = x.before

/-! ## The life of a token -/

/-- What a token stands for. An attached one remembers its binding and
whether its launch and its delivery are spent. -/
inductive Life
  | unissued
  | reserved
  | attached (binding : Option CustodyBinding) (launched delivered : Bool)
  | detached
  | ended
  deriving DecidableEq, Repr

/-- What an answered call makes of the life of `t`. -/
def Life.next (t : CustodyToken) (life : Life) (e : CustodyStep) : Life :=
  match e.op, e.reply with
  | .reserve, .reserved (some u) => if u = t then .reserved else life
  | .attach u _, .attached b => if u = t then .attached (some b) false false else life
  | .consumeLaunchAuthority u _, .done =>
    match life with
    | .attached b _ d => if u = t then .attached b true d else life
    | _ => life
  | .claimTerminalDelivery u, .claimed true =>
    match life with
    | .attached b l _ => if u = t then .attached b l true else life
    | _ => life
  | .detach u, .done => if u = t then .detached else life
  | .releaseUnused u, .done | .cleanupComplete u, .done => if u = t then .ended else life
  | _, _ => life

def life (t : CustodyToken) (h : History) : Life := h.foldl (Life.next t) .unissued

@[simp] theorem life_nil (t : CustodyToken) : life t [] = .unissued := rfl

@[simp] theorem life_snoc (t : CustodyToken) (h : History) (e : CustodyStep) :
    life t (h ++ [e]) = (life t h).next t e := by
  simp [life, List.foldl_append]

/-- The life a token must be in for a call that carries it to succeed. -/
def Legal (life : Life) (e : CustodyStep) : Prop :=
  match e.op, e.reply with
  | .attach _ _, .attached _ => life = .reserved
  | .consumeLaunchAuthority _ b, .done => ∃ d, life = .attached (some b) false d
  | .claimTerminalDelivery _, .claimed true => ∃ b l, life = .attached (some b) l false
  | .detach _, .done => ∃ b l d, life = .attached (some b) l d
  | .releaseUnused _, .done => life = .reserved
  | .cleanupComplete _, .done => life = .detached
  | _, _ => True

/-- Every call of the history was legal for its token, and no token was
issued twice. -/
structure Orderly (h : History) : Prop where
  legal : ∀ past e future t, h = past ++ e :: future → e.op.token = some t →
    Legal (life t past) e
  issue : ∀ past e future t, h = past ++ e :: future → Issues e t → life t past = .unissued

/-- What a token's life says about the history behind it. -/
structure Story (t : CustodyToken) (h : History) : Prop where
  untouched : life t h = .unissued → ∀ x ∈ h, ¬ Issues x t
  unused : life t h = .unissued ∨ life t h = .reserved →
    ∀ x ∈ h, (∀ b, ¬ Attaches x t b) ∧ (∀ b, ¬ Launches x t b) ∧ ¬ Claims x t
  held : ∀ b l d, life t h = .attached (some b) l d → Held t b h ∧
    (l = false → ∀ x ∈ h, ∀ b, ¬ Launches x t b) ∧ (d = false → ∀ x ∈ h, ¬ Claims x t)
  since : ∀ past e since, h = past ++ e :: since → Issues e t →
    (life t h = .detached → ∃ x ∈ since, Detaches x t) ∧ (life t h = .ended → GivenBack t since)

/-! ## Lives from histories -/

section Next
variable {e : CustodyStep} {t : CustodyToken} (l : Life)

theorem next_issues (h : Issues e t) : l.next t e = .reserved := by
  simp [Life.next, h.1, h.2]

theorem next_attaches (h : Attaches e t b) : l.next t e = .attached (some b) false false := by
  obtain ⟨⟨p, hop⟩, hreply⟩ := h
  simp [Life.next, hop, hreply]

variable {x : Option CustodyBinding}

theorem next_launches (h : Launches e t b) {d : Bool} :
    (Life.attached x false d).next t e = .attached x true d := by
  simp [Life.next, h.1, h.2]

theorem next_claims (h : Claims e t) {k : Bool} :
    (Life.attached x k false).next t e = .attached x k true := by
  simp [Life.next, h.1, h.2]

theorem next_detaches (h : Detaches e t) : l.next t e = .detached := by
  simp [Life.next, h.1, h.2]

theorem next_releases (h : Releases e t) : l.next t e = .ended := by
  simp [Life.next, h.1, h.2]

theorem next_cleans (h : Cleans e t) : l.next t e = .ended := by
  simp [Life.next, h.1, h.2]

end Next

/-- A step that does nothing with `t`. -/
structure Idle (e : CustodyStep) (t : CustodyToken) : Prop where
  issues : ¬ Issues e t
  attaches : ∀ b, ¬ Attaches e t b
  launches : ∀ b, ¬ Launches e t b
  claims : ¬ Claims e t
  detaches : ¬ Detaches e t
  next : ∀ l : Life, l.next t e = l

/-- What a step is to a token. -/
inductive Act (e : CustodyStep) (t : CustodyToken) : Prop
  | issues : Issues e t → Act e t
  | attaches {b} : Attaches e t b → Act e t
  | launches {b} : Launches e t b → Act e t
  | claims : Claims e t → Act e t
  | detaches : Detaches e t → Act e t
  | releases : Releases e t → Act e t
  | cleans : Cleans e t → Act e t
  | idle : Idle e t → Act e t

theorem act_cases (e : CustodyStep) (t : CustodyToken) : Act e t := by
  by_cases h₁ : Issues e t
  · exact .issues h₁
  by_cases h₂ : ∃ b, Attaches e t b
  · exact .attaches h₂.choose_spec
  by_cases h₃ : ∃ b, Launches e t b
  · exact .launches h₃.choose_spec
  by_cases h₄ : Claims e t
  · exact .claims h₄
  by_cases h₅ : Detaches e t
  · exact .detaches h₅
  by_cases h₆ : Releases e t
  · exact .releases h₆
  by_cases h₇ : Cleans e t
  · exact .cleans h₇
  rw [not_exists] at h₂ h₃
  refine .idle ⟨h₁, h₂, h₃, h₄, h₅, fun l => ?_⟩
  obtain ⟨before, op, reply, after⟩ := e
  -- every branch of `next` that would move `l` is one of the seven acts
  simp only [Issues, Attaches, Launches, Claims, Detaches, Releases, Cleans] at *
  unfold Life.next
  split <;> simp_all <;> split <;> simp_all

variable {t : CustodyToken} {h : History} {e : CustodyStep} {s : System} {i : Nat}
  {r r' : CustodyRecord} {b : CustodyBinding} {P : CustodyStep → Prop}

theorem Held.append (hh : Held t b h) (he : ¬ Detaches e t) : Held t b (h ++ [e]) := by
  obtain ⟨before, a, since, rfl, ha, hs⟩ := hh
  refine ⟨before, a, since ++ [e], by simp, ha, fun x hx => ?_⟩
  rcases List.mem_append.mp hx with hx | hx
  · exact hs x hx
  · rw [List.mem_singleton.mp hx]; exact he

theorem Held.of_attach (he : Attaches e t b) : Held t b (h ++ [e]) :=
  ⟨h, e, [], rfl, he, fun _ hx => absurd hx List.not_mem_nil⟩

theorem GivenBack.append {span : History} (h : GivenBack t span) (more : History) :
    GivenBack t (span ++ more) := by
  obtain ⟨before, e, after, rfl, hg⟩ := h
  exact ⟨before, e, after ++ more, by simp, hg⟩

theorem forall_mem_snoc (hh : ∀ x ∈ h, P x) (he : P e) : ∀ x ∈ h ++ [e], P x := by
  intro x hx
  rcases List.mem_append.mp hx with hx | hx
  · exact hh x hx
  · rw [List.mem_singleton.mp hx]; exact he

section Disjoint
variable {e : CustodyStep} {t : CustodyToken}

theorem Detaches.not_issues (h : Detaches e t) (u : CustodyToken) : ¬ Issues e u := by
  rintro ⟨hop, -⟩; simp [Detaches, hop] at h
theorem Releases.not_issues (h : Releases e t) (u : CustodyToken) : ¬ Issues e u := by
  rintro ⟨hop, -⟩; simp [Releases, hop] at h
theorem Cleans.not_issues (h : Cleans e t) (u : CustodyToken) : ¬ Issues e u := by
  rintro ⟨hop, -⟩; simp [Cleans, hop] at h
theorem Issues.unused (h : Issues e t) (u : CustodyToken) :
    (∀ b, ¬ Attaches e u b) ∧ (∀ b, ¬ Launches e u b) ∧ ¬ Claims e u := by
  simp [Attaches, Launches, Claims, h.1]

end Disjoint

theorem Orderly.of_snoc (o : Orderly (h ++ [e])) : Orderly h where
  legal past x future t hs := o.legal past x (future ++ [e]) t (by rw [hs]; simp)
  issue past x future t hs := o.issue past x (future ++ [e]) t (by rw [hs]; simp)

theorem Orderly.last (o : Orderly (h ++ [e])) (ht : e.op.token = some t) :
    Legal (life t h) e := o.legal h e [] t rfl ht

/-- The rule for splits at an issue of `t` when the last step does not issue. -/
theorem since_snoc {P : History → Prop} (he : ¬ Issues e t)
    (hh : ∀ past x rest, h = past ++ x :: rest → Issues x t → P (rest ++ [e])) :
    ∀ past x since, h ++ [e] = past ++ x :: since → Issues x t → P since := by
  intro past x since hs hx
  rcases Machine.snoc_split hs with ⟨-, -, rfl⟩ | ⟨rest, rfl, hpast⟩
  · exact absurd hx he
  · exact hh past x rest hpast hx

/-- A story goes on: the step rule, by what the step is to the token. -/
theorem Story.snoc (story : Story t h) (o : Orderly (h ++ [e])) : Story t (h ++ [e]) := by
  cases act_cases e t with
  | issues hi =>
    have hlife : life t (h ++ [e]) = .reserved := by rw [life_snoc, next_issues _ hi]
    have hprior : life t h = .unissued := o.issue h e [] t rfl hi
    refine ⟨by simp [hlife], fun _ => ?_, by simp [hlife], by simp [hlife]⟩
    exact forall_mem_snoc (story.unused (.inl hprior)) (hi.unused t)
  | attaches ha =>
    have hprior : life t h = .reserved := by
      obtain ⟨⟨p, hop⟩, hreply⟩ := ha
      simpa [Legal, hop, hreply] using o.last (t := t) (by rw [hop]; rfl)
    have hlife := (life_snoc t h e).trans (next_attaches _ ha)
    have hunused := story.unused (.inr hprior)
    refine ⟨by simp [hlife], by simp [hlife], fun b l d hb => ?_, by simp [hlife]⟩
    rw [hlife] at hb
    cases hb
    obtain ⟨⟨p, hop⟩, -⟩ := id ha
    exact ⟨Held.of_attach ha,
      fun _ => forall_mem_snoc (fun x hx => (hunused x hx).2.1) (by simp [Launches, hop]),
      fun _ => forall_mem_snoc (fun x hx => (hunused x hx).2.2) (by simp [Claims, hop])⟩
  | launches hl =>
    obtain ⟨d, hprior⟩ : ∃ d, life t h = .attached (some _) false d := by
      simpa [Legal, hl.1, hl.2] using o.last (t := t) (by rw [hl.1]; rfl)
    have hlife := life_snoc t h e
    rw [hprior, next_launches hl] at hlife
    obtain ⟨hheld, -, hclaims⟩ := story.held _ _ _ hprior
    refine ⟨by simp [hlife], by simp [hlife], fun b l d hb => ?_, by simp [hlife]⟩
    rw [hlife] at hb
    cases hb
    exact ⟨hheld.append (by simp [Detaches, hl.1]), by simp,
      fun hd => forall_mem_snoc (hclaims hd) (by simp [Claims, hl.1])⟩
  | claims hc =>
    obtain ⟨b, k, hprior⟩ : ∃ b k, life t h = .attached (some b) k false := by
      simpa [Legal, hc.1, hc.2] using o.last (t := t) (by rw [hc.1]; rfl)
    have hlife := life_snoc t h e
    rw [hprior, next_claims hc] at hlife
    obtain ⟨hheld, hlaunches, -⟩ := story.held _ _ _ hprior
    refine ⟨by simp [hlife], by simp [hlife], fun b l d hb => ?_, by simp [hlife]⟩
    rw [hlife] at hb
    cases hb
    exact ⟨hheld.append (by simp [Detaches, hc.1]),
      fun hk => forall_mem_snoc (hlaunches hk) (by simp [Launches, hc.1]), by simp⟩
  | detaches hd =>
    have hlife := (life_snoc t h e).trans (next_detaches _ hd)
    refine ⟨by simp [hlife], by simp [hlife], by simp [hlife], ?_⟩
    refine since_snoc (hd.not_issues t) fun past x rest _ _ => ⟨fun _ => ?_, by simp [hlife]⟩
    exact ⟨e, List.mem_append_right _ (List.mem_singleton_self e), hd⟩
  | releases hr =>
    have hprior : life t h = .reserved := by
      simpa [Legal, hr.1, hr.2] using o.last (t := t) (by rw [hr.1]; rfl)
    have hlife := (life_snoc t h e).trans (next_releases _ hr)
    refine ⟨by simp [hlife], by simp [hlife], by simp [hlife], ?_⟩
    refine since_snoc (hr.not_issues t) fun past x rest hs _ => ⟨by simp [hlife], fun _ => ?_⟩
    refine ⟨rest, e, [], rfl, .inl ⟨hr, fun y hy => ?_⟩⟩
    exact (story.unused (.inr hprior) y (by rw [hs]; simp [hy])).1
  | cleans hc =>
    have hprior : life t h = .detached := by
      simpa [Legal, hc.1, hc.2] using o.last (t := t) (by rw [hc.1]; rfl)
    have hlife := (life_snoc t h e).trans (next_cleans _ hc)
    refine ⟨by simp [hlife], by simp [hlife], by simp [hlife], ?_⟩
    refine since_snoc (hc.not_issues t) fun past x rest hs hx => ⟨by simp [hlife], fun _ => ?_⟩
    exact ⟨rest, e, [], rfl, .inr ⟨hc, (story.since past x rest hs hx).1 hprior⟩⟩
  | idle hi =>
    have hlife : life t (h ++ [e]) = life t h := by rw [life_snoc, hi.next]
    refine ⟨fun hu => forall_mem_snoc (story.untouched (hlife ▸ hu)) hi.issues,
      fun hu => forall_mem_snoc (story.unused (hlife ▸ hu)) ⟨hi.attaches, hi.launches, hi.claims⟩,
      fun b l d hb => ?_, ?_⟩
    · obtain ⟨hheld, hlaunches, hclaims⟩ := story.held b l d (hlife ▸ hb)
      exact ⟨hheld.append hi.detaches, fun hl => forall_mem_snoc (hlaunches hl) hi.launches,
        fun hd => forall_mem_snoc (hclaims hd) hi.claims⟩
    · refine since_snoc hi.issues fun past x rest hs hx => ?_
      obtain ⟨hdetached, hended⟩ := story.since past x rest hs hx
      refine ⟨fun hd => ?_, fun he => (hended (hlife ▸ he)).append [e]⟩
      obtain ⟨y, hy, hyd⟩ := hdetached (hlife ▸ hd)
      exact ⟨y, List.mem_append_left _ hy, hyd⟩

theorem story (t : CustodyToken) (h : History) (o : Orderly h) : Story t h := by
  induction h using List.reverseRecOn with
  | nil =>
    refine ⟨fun _ x hx => absurd hx List.not_mem_nil, fun _ x hx => absurd hx List.not_mem_nil,
      fun b l d hb => by simp at hb, fun past e since hs => by simp at hs⟩
  | append_singleton h e ih => exact (ih o.of_snoc).snoc o

/-! ## Records refine lives -/

/-- The life a record's fields stand for. -/
def CustodyRecord.phase (r : CustodyRecord) : Life :=
  match r.state with
  | .free => .ended
  | .reserved => .reserved
  | .attached => .attached r.binding (!r.launchAvailable) r.delivered
  | .detached => .detached

/-- The life of `t` as the pool shows it: the token reserved last lives in
its record, earlier ones have ended. -/
def System.lifeOf (s : System) (t : CustodyToken) : Life :=
  match s.pool[t.index]? with
  | none => .unissued
  | some r =>
    if t.generation = 0 ∨ r.generation.toNat < t.generation.toNat then .unissued
    else if t.generation = r.generation then r.phase
    else .ended

/-- The pool shows what the history says. -/
structure Refines (h : History) (s : System) : Prop where
  lives : ∀ t, life t h = s.lifeOf t
  counted : ∀ (i : Nat) (r : CustodyRecord), s.pool[i]? = some r → r.generation.toNat = reservations i h
  unreserved : ∀ (i : Nat) (r : CustodyRecord), s.pool[i]? = some r → r.generation = 0 → r.state = .free
  undelivered : ∀ (i : Nat) (r : CustodyRecord), s.pool[i]? = some r → r.state = .reserved → r.delivered = false
  bound : ∀ (i : Nat) (r : CustodyRecord), s.pool[i]? = some r → r.state = .attached → ∃ b, r.binding = some b
  unspent : ∀ p, (s.permits p).available → ∀ x ∈ h, ¬ Spends x p

theorem put_getElem? {j : Nat} {q : CustodyRecord} (hq : (s.put i r').pool[j]? = some q)
    (hi : s.pool[i]? = some r) : (j = i ∧ q = r') ∨ (j ≠ i ∧ s.pool[j]? = some q) := by
  have hlt : i < s.pool.length := (List.getElem?_eq_some_iff.mp hi).1
  by_cases hj : j = i
  · subst hj
    simp only [System.put, List.getElem?_set_self hlt, Option.some.injEq] at hq
    exact .inl ⟨rfl, hq.symm⟩
  · rw [System.put, List.getElem?_set_ne (Ne.symm hj)] at hq
    exact .inr ⟨hj, hq⟩

theorem lifeOf_put (hi : s.pool[i]? = some r) (hg : r'.generation = r.generation)
    (hpos : r.generation ≠ 0) (t : CustodyToken) :
    (s.put i r').lifeOf t = if t = ⟨i, r.generation⟩ then r'.phase else s.lifeOf t := by
  have hlt : i < s.pool.length := (List.getElem?_eq_some_iff.mp hi).1
  obtain ⟨j, g⟩ := t
  by_cases hj : j = i
  · subst hj
    simp only [System.lifeOf, System.put, List.getElem?_set_self hlt, hi, hg, CustodyToken.mk.injEq,
      true_and]
    by_cases hgg : g = r.generation
    · simp [hgg, hpos]
    · simp [hgg]
  · simp only [System.lifeOf, System.put, List.getElem?_set_ne (Ne.symm hj), CustodyToken.mk.injEq,
      hj, false_and, ↓reduceIte]

/-- Reserving ends the life of the record's last token and begins one. -/
theorem lifeOf_reserve (hi : s.pool[i]? = some r) (hfree : r.state = .free)
    (hg : r'.generation.toNat = r.generation.toNat + 1) (t : CustodyToken) :
    (s.put i r').lifeOf t = if t = ⟨i, r'.generation⟩ then r'.phase else s.lifeOf t := by
  have hlt : i < s.pool.length := (List.getElem?_eq_some_iff.mp hi).1
  have hpos : r'.generation ≠ 0 := fun h0 => by simp [h0] at hg
  obtain ⟨j, g⟩ := t
  by_cases hj : j = i
  · subst hj
    simp only [System.lifeOf, System.put, List.getElem?_set_self hlt, hi, CustodyToken.mk.injEq,
      true_and, hg]
    by_cases hgg : g = r'.generation
    · subst hgg
      simp [hpos, hg]
    · have hne : g.toNat ≠ r'.generation.toNat := fun h => hgg (UInt64.toNat_inj.mp h)
      by_cases h0 : g = 0
      · simp [h0, hpos.symm]
      by_cases hlast : g = r.generation
      · subst hlast
        simp [hgg, h0, CustodyRecord.phase, hfree]
      · have hne' : g.toNat ≠ r.generation.toNat := fun h => hlast (UInt64.toNat_inj.mp h)
        simp only [hgg, h0, hlast, false_or, ↓reduceIte]
        by_cases hgt : r.generation.toNat < g.toNat
        · simp [hgt, show r.generation.toNat + 1 < g.toNat by omega]
        · simp [hgt, show ¬ r.generation.toNat + 1 < g.toNat by omega]
  · simp only [System.lifeOf, System.put, List.getElem?_set_ne (Ne.symm hj), CustodyToken.mk.injEq,
      hj, false_and, ↓reduceIte]

/-- The record of a token that is alive is reserved under it. -/
theorem Refines.alive (ref : Refines h s) (hi : s.pool[i]? = some r) (hs : r.state ≠ .free) :
    r.generation ≠ 0 ∧ life ⟨i, r.generation⟩ h = r.phase := by
  have hpos : r.generation ≠ 0 := fun h0 => hs (ref.unreserved i r hi h0)
  refine ⟨hpos, ?_⟩
  rw [ref.lives]
  simp [System.lifeOf, hi, hpos]

theorem next_of_fails (he : e.reply.Fails) (t : CustodyToken) (l : Life) : l.next t e = l := by
  obtain ⟨before, op, reply, after⟩ := e
  cases op <;> cases reply <;> simp_all [Reply.Fails, Life.next]

theorem legal_of_fails (he : e.reply.Fails) (l : Life) : Legal l e := by
  obtain ⟨before, op, reply, after⟩ := e
  cases op <;> cases reply <;> simp_all [Reply.Fails, Legal]

/-- A step that carries `u` leaves every other life alone. -/
theorem next_of_token {u : CustodyToken} (hu : e.op.token = some u) (ht : t ≠ u) (l : Life) :
    l.next t e = l := by
  have clash : ∀ op : Call, e.op = op → op.token ≠ some t := fun op hop hop' => by
    rw [hop, hop', Option.some.injEq] at hu
    exact ht hu
  cases act_cases e t with
  | issues h => rw [h.1] at hu; cases hu
  | attaches h => obtain ⟨⟨p, hp⟩, -⟩ := h; exact absurd rfl (clash _ hp)
  | launches h => exact absurd rfl (clash _ h.1)
  | claims h => exact absurd rfl (clash _ h.1)
  | detaches h => exact absurd rfl (clash _ h.1)
  | releases h => exact absurd rfl (clash _ h.1)
  | cleans h => exact absurd rfl (clash _ h.1)
  | idle h => exact h.next l

/-! ## The step keeps the refinement -/

/-- Everything a run keeps. -/
structure Sound (h : History) (s : System) : Prop where
  orderly : Orderly h
  refines : Refines h s

theorem Orderly.snoc (o : Orderly h) (hlegal : ∀ t, e.op.token = some t → Legal (life t h) e)
    (hissue : ∀ t, Issues e t → life t h = .unissued) : Orderly (h ++ [e]) where
  legal past x future t hs hx := by
    rcases Machine.snoc_split hs with ⟨-, rfl, rfl⟩ | ⟨rest, -, hpast⟩
    · exact hlegal t hx
    · exact o.legal past x rest t hpast hx
  issue past x future t hs hx := by
    rcases Machine.snoc_split hs with ⟨-, rfl, rfl⟩ | ⟨rest, -, hpast⟩
    · exact hissue t hx
    · exact o.issue past x rest t hpast hx

theorem reservations_snoc (i : Nat) (h : History) (e : CustodyStep) :
    reservations i (h ++ [e]) = reservations i h +
      (match e.reply with
        | .reserved (some t) => if t.index = i then 1 else 0
        | _ => 0) := by
  simp only [reservations, List.countP_append, List.countP_singleton]
  split <;> simp

/-- A call that carries the current token of record `i` and changes that
record under the same generation keeps the refinement, when what it makes of
the record is what it makes of the life. -/
theorem Sound.advance {s' : System} {op : Call} {reply : Reply} (sound : Sound h s)
    (hi : s.pool[i]? = some r) (hs : r.state ≠ .free) (htoken : op.token = some ⟨i, r.generation⟩)
    (hreply : ∀ t, reply ≠ .reserved (some t)) (hpool : s'.pool = (s.put i r').pool)
    (hg : r'.generation = r.generation) (hlegal : Legal r.phase ⟨s, op, reply, s'⟩)
    (hphase : r.phase.next ⟨i, r.generation⟩ ⟨s, op, reply, s'⟩ = r'.phase)
    (hundelivered : r'.state = .reserved → r'.delivered = false)
    (hbound : r'.state = .attached → ∃ b, r'.binding = some b)
    (hpermits : ∀ p, (s'.permits p).available → (s.permits p).available ∧
      ¬ Spends ⟨s, op, reply, s'⟩ p) : Sound (h ++ [⟨s, op, reply, s'⟩]) s' := by
  obtain ⟨hpos, halive⟩ := sound.refines.alive hi hs
  have hissues : ∀ t, ¬ Issues ⟨s, op, reply, s'⟩ t := fun t ht => hreply t ht.2
  have hcount : ∀ j, reservations j (h ++ [⟨s, op, reply, s'⟩]) = reservations j h := by
    intro j
    rw [reservations_snoc]
    split
    · rename_i t ht; exact absurd ht (hreply t)
    · rfl
  -- each record of the new pool is `r'` or one of the old ones
  have hold : ∀ {P : Nat → CustodyRecord → Prop}, P i r' →
      (∀ j (q : CustodyRecord), s.pool[j]? = some q → P j q) →
      ∀ j (q : CustodyRecord), s'.pool[j]? = some q → P j q := by
    intro P hP hrest j q hq
    rw [hpool] at hq
    rcases put_getElem? hq hi with ⟨rfl, rfl⟩ | ⟨-, hq⟩
    · exact hP
    · exact hrest j q hq
  refine ⟨sound.orderly.snoc ?_ fun t ht => absurd ht (hissues t), ?_⟩
  · intro t ht
    rw [htoken, Option.some.injEq] at ht
    rw [← ht, halive]
    exact hlegal
  · refine ⟨fun t => ?_, hold ?_ ?_, hold ?_ sound.refines.unreserved,
      hold hundelivered sound.refines.undelivered, hold hbound sound.refines.bound, ?_⟩
    · have hlife : s'.lifeOf t = (s.put i r').lifeOf t := by simp only [System.lifeOf, hpool]
      rw [life_snoc, hlife, lifeOf_put hi hg hpos]
      split
      · rename_i ht; rw [ht, halive, hphase]
      · rename_i ht; rw [next_of_token htoken ht, sound.refines.lives]
    · rw [hcount, hg]; exact sound.refines.counted i r hi
    · intro j q hq; rw [hcount]; exact sound.refines.counted j q hq
    · intro h0; rw [hg] at h0; exact absurd h0 hpos
    · intro p hp
      obtain ⟨havailable, hspends⟩ := hpermits p hp
      exact forall_mem_snoc (sound.refines.unspent p havailable) hspends

/-- Every record's reservations fit its generation. -/
def Bounded (h : History) : Prop := ∀ i, reservations i h < 2 ^ 64

theorem Bounded.of_snoc (b : Bounded (h ++ [e])) : Bounded h :=
  fun i => Nat.lt_of_le_of_lt (by rw [reservations_snoc]; omega) (b i)

/-- Reserving keeps the refinement while the generation does not wrap. -/
theorem Sound.reserve {h : History} {s : System} {i : Nat} {r : CustodyRecord}
    (sound : Sound h s) (hi : s.pool[i]? = some r) (hfree : r.state = .free) {s' : System}
    (hs' : s' = s.put i
      { r with state := .reserved, generation := r.generation + 1, delivered := false })
    (hb : Bounded (h ++ [⟨s, .reserve, .reserved (some ⟨i, r.generation + 1⟩), s'⟩])) :
    Sound (h ++ [⟨s, .reserve, .reserved (some ⟨i, r.generation + 1⟩), s'⟩]) s' := by
  have hcount := sound.refines.counted i r hi
  have hgen : (r.generation + 1).toNat = r.generation.toNat + 1 := by
    have := hb i
    rw [reservations_snoc] at this
    simp only [↓reduceIte] at this
    rw [UInt64.toNat_add, UInt64.toNat_one]
    omega
  have hlife : ∀ t, s'.lifeOf t = if t = ⟨i, r.generation + 1⟩ then .reserved else s.lifeOf t := by
    intro t; rw [hs']; exact lifeOf_reserve hi hfree hgen t
  refine ⟨sound.orderly.snoc (fun t ht => by cases ht) fun t ht => ?_, ?_⟩
  · obtain ⟨-, ht⟩ := ht
    cases ht
    rw [sound.refines.lives]
    simp [System.lifeOf, hi, hgen]
  · subst hs'
    refine ⟨fun t => ?_, fun j q hq => ?_, fun j q hq h0 => ?_, fun j q hq hr => ?_,
      fun j q hq ha => ?_, fun p hp => ?_⟩
    · rw [life_snoc, hlife, sound.refines.lives]
      simp only [Life.next, eq_comm]
    · rw [reservations_snoc]
      rcases put_getElem? hq hi with ⟨rfl, rfl⟩ | ⟨hj, hq⟩
      · simp only [↓reduceIte]; rw [hgen, hcount]
      · simp only [Ne.symm hj, ↓reduceIte, Nat.add_zero]; exact sound.refines.counted j q hq
    · rcases put_getElem? hq hi with ⟨rfl, rfl⟩ | ⟨hj, hq⟩
      · simp only at h0; rw [h0] at hgen; simp at hgen
      · exact sound.refines.unreserved j q hq h0
    · rcases put_getElem? hq hi with ⟨rfl, rfl⟩ | ⟨hj, hq⟩
      · rfl
      · exact sound.refines.undelivered j q hq hr
    · rcases put_getElem? hq hi with ⟨rfl, rfl⟩ | ⟨hj, hq⟩
      · cases ha
      · exact sound.refines.bound j q hq ha
    · exact forall_mem_snoc (sound.refines.unspent p hp) (by simp [Spends])

/-- **The step rule.** Every call keeps the refinement. -/
theorem Sound.step {h : History} {s : System} {op : Call} (sound : Sound h s)
    (hb : Bounded (h ++ [custody.stepFrom s op])) :
    Sound (h ++ [custody.stepFrom s op]) (custody.call s op).1 := by
  have hmove := call_moves s op
  simp only [Machine.stepFrom, custody] at hb ⊢
  generalize (s.call op).1 = s', (s.call op).2 = reply at *
  cases hmove with
  | refused hf =>
    have hissues : ∀ t, ¬ Issues ⟨s, op, reply, s⟩ t := by
      rintro t ⟨-, hr⟩; subst hr; cases hf
    refine ⟨sound.orderly.snoc (fun t _ => legal_of_fails hf _)
      (fun t ht => absurd ht (hissues t)), ?_⟩
    have hcount : ∀ j, reservations j (h ++ [⟨s, op, reply, s⟩]) = reservations j h := by
      intro j
      rw [reservations_snoc]
      split
      · rename_i t ht; subst ht; cases hf
      · rfl
    refine ⟨fun t => ?_, fun j q hq => ?_, sound.refines.unreserved, sound.refines.undelivered,
      sound.refines.bound, fun p hp => forall_mem_snoc (sound.refines.unspent p hp) ?_⟩
    · rw [life_snoc, next_of_fails hf, sound.refines.lives]
    · rw [hcount]; exact sound.refines.counted j q hq
    · rintro ⟨-, b, rfl⟩; exact hf
  | @reserve i r hi hfree => exact sound.reserve hi hfree rfl hb
  | @attach i r p b hi hs hp hpb =>
    subst hpb
    have hd := sound.refines.undelivered i r hi hs
    refine sound.advance hi (by rw [hs]; decide) rfl (fun _ => nofun) rfl rfl ?_ ?_ (fun h => nomatch h)
      (fun _ => ⟨_, rfl⟩) fun q hq => ?_
    · simp [Legal, CustodyRecord.phase, hs]
    · rw [next_attaches _ ⟨⟨p, rfl⟩, rfl⟩]; simp [CustodyRecord.phase, hd]
    · by_cases hqp : q = p
      · subst hqp; simp [DispatchPermit.spent] at hq
      · change (Function.update s.permits p _ q).available at hq
        rw [Function.update_of_ne hqp] at hq
        refine ⟨hq, ?_⟩
        rintro ⟨⟨t, ht⟩, -⟩
        cases ht
        exact hqp rfl
  | @launch i r x hi hs hx hl =>
    refine sound.advance hi (by rw [hs]; decide) rfl (fun _ => nofun) rfl rfl ?_ ?_
      (fun h => by rw [hs] at h; cases h) (fun _ => ⟨x, hx⟩)
      fun q hq => ⟨hq, by rintro ⟨⟨t, ht⟩, -⟩; cases ht⟩
    · simp [Legal, CustodyRecord.phase, hs, hx, hl]
    · simp [CustodyRecord.phase, hs, hl, Life.next]
  | @claim i r hi hs hd =>
    obtain ⟨b, hbind⟩ := sound.refines.bound i r hi hs
    refine sound.advance hi (by rw [hs]; decide) rfl (fun _ => nofun) rfl rfl ?_ ?_
      (fun h => by rw [hs] at h; cases h) (fun _ => ⟨b, hbind⟩)
      fun q hq => ⟨hq, by rintro ⟨⟨t, ht⟩, -⟩; cases ht⟩
    · simp [Legal, CustodyRecord.phase, hs, hbind, hd]
    · simp [CustodyRecord.phase, hs, Life.next]
  | @detach i r hi hs =>
    obtain ⟨b, hbind⟩ := sound.refines.bound i r hi hs
    refine sound.advance hi (by rw [hs]; decide) rfl (fun _ => nofun) rfl rfl ?_ ?_
      (fun h => nomatch h) (fun h => nomatch h)
      fun q hq => ⟨hq, by rintro ⟨⟨t, ht⟩, -⟩; cases ht⟩
    · simp [Legal, CustodyRecord.phase, hs, hbind]
    · rw [next_detaches _ ⟨rfl, rfl⟩]; rfl
  | @release i r hi hs =>
    refine sound.advance hi (by rw [hs]; decide) rfl (fun _ => nofun) rfl rfl ?_ ?_
      (fun h => nomatch h) (fun h => nomatch h)
      fun q hq => ⟨hq, by rintro ⟨⟨t, ht⟩, -⟩; cases ht⟩
    · simp [Legal, CustodyRecord.phase, hs]
    · rw [next_releases _ ⟨rfl, rfl⟩]; rfl
  | @clean i r hi hs =>
    refine sound.advance hi (by rw [hs]; decide) rfl (fun _ => nofun) rfl rfl ?_ ?_
      (fun h => nomatch h) (fun h => nomatch h)
      fun q hq => ⟨hq, by rintro ⟨⟨t, ht⟩, -⟩; cases ht⟩
    · simp [Legal, CustodyRecord.phase, hs]
    · rw [next_cleans _ ⟨rfl, rfl⟩]; rfl

theorem Sound.initial (count : Nat) (permits : Nat → DispatchPermit) :
    Sound [] (System.initial count permits) := by
  have hrecord : ∀ (i : Nat) (r : CustodyRecord), (System.initial count permits).pool[i]? = some r →
      r = {} := by
    intro i r hr
    simp only [System.initial, List.getElem?_replicate] at hr
    split at hr <;> cases hr
    rfl
  refine ⟨⟨by simp, by simp⟩, fun t => ?_, fun i r hr => ?_, fun i r hr _ => ?_,
    fun i r hr h => ?_, fun i r hr h => ?_, by simp⟩
  · simp only [life_nil, System.lifeOf]
    split
    · rfl
    · rename_i r hr
      rw [hrecord _ r hr]
      by_cases h0 : t.generation = 0
      · simp [h0]
      · have : t.generation.toNat ≠ 0 := fun h => h0 (UInt64.toNat_inj.mp h)
        simp [Nat.pos_of_ne_zero this]
  · rw [hrecord _ r hr]; rfl
  · rw [hrecord _ r hr]
  · rw [hrecord _ r hr] at h; cases h
  · rw [hrecord _ r hr] at h; cases h

/-- **The run rule.** -/
theorem sound_run (count : Nat) (permits : Nat → DispatchPermit) (ops : List Call)
    (hb : Bounded (custody.history (System.initial count permits) ops)) :
    Sound (custody.history (System.initial count permits) ops)
      (custody.last (System.initial count permits) ops) := by
  refine custody.history_induction (P := fun h s => Bounded h → Sound h s)
    (fun _ => Sound.initial count permits) ?_ ops hb
  intro past now op ih hpast
  exact (ih hpast.of_snoc).step hpast

/-! ## The laws -/

/-- At most once, when whatever is about to happen again has not happened. -/
theorem atMostOnce_of_fresh
    (fresh : ∀ past e future, h = past ++ e :: future → P e → ∀ x ∈ past, ¬ P x) :
    AtMostOnce P h := by
  induction h using List.reverseRecOn with
  | nil => exact List.Pairwise.nil
  | append_singleton h e ih =>
    refine List.pairwise_append.mpr ⟨ih fun past x future hs => ?_, List.pairwise_singleton _ _, ?_⟩
    · exact fresh past x (future ++ [e]) (by rw [hs]; simp)
    · intro x hx y hy ⟨hPx, hPy⟩
      rw [List.mem_singleton.mp hy] at hPy
      exact fresh h e [] rfl hPy x hx hPx

theorem Bounded.of_append {more : History} (b : Bounded (h ++ more)) : Bounded h := by
  intro i
  refine Nat.lt_of_le_of_lt ?_ (b i)
  simp [reservations, List.countP_append]

section Run
variable {count : Nat} {permits : Nat → DispatchPermit} {ops : List Call}
  (hb : Bounded (custody.history (System.initial count permits) ops))
include hb

variable {past : History} {e : CustodyStep} {t : CustodyToken} {s s' : System} {op : Call}
  {reply : Reply}

/-- Every step of a run is a move from a state its past refines. -/
theorem run_split {future : History}
    (hs : custody.history (System.initial count permits) ops = past ++ e :: future) :
    Sound past e.before ∧ Sound (past ++ [e]) e.after ∧ Moves e.before e.op e.reply e.after := by
  obtain ⟨before, op, after, rfl, rfl, rfl⟩ := custody.history_split hs
  have hb' : Bounded (custody.history (System.initial count permits) (before ++ [op])) := by
    rw [hs] at hb
    rw [Machine.history_append]
    refine Bounded.of_append (?_ : Bounded (_ ++ future))
    simpa [Machine.history] using hb
  have hsound := sound_run count permits (before ++ [op]) hb'
  rw [Machine.history_append] at hb' hsound
  rw [Machine.last_append] at hsound
  exact ⟨sound_run count permits before hb'.of_append, hsound, call_moves _ _⟩

omit hb in
/-- A token the run issued has ended unless its record is still reserved
under it. -/
theorem issued_cases {since : History} (sound : Sound (past ++ e :: since) s) (he : Issues e t) :
    life t (past ++ e :: since) = .ended ∨
      ∃ r : CustodyRecord, s.pool[t.index]? = some r ∧ t.generation = r.generation ∧
        life t (past ++ e :: since) = r.phase := by
  have hissued : life t (past ++ e :: since) ≠ .unissued := fun h0 =>
    (story t _ sound.orderly).untouched h0 e (by simp) he
  rw [sound.refines.lives] at hissued ⊢
  unfold System.lifeOf at hissued ⊢
  split at hissued
  · exact absurd rfl hissued
  · rename_i r hr
    split at hissued
    · exact absurd rfl hissued
    · rename_i hlive
      simp only [hlive, ↓reduceIte]
      by_cases hg : t.generation = r.generation
      · exact .inr ⟨r, hr, hg, by simp [hg]⟩
      · exact .inl (by simp [hg])

omit hb in
theorem issue_free (hmove : Moves s op reply s') (hop : op = .reserve)
    (hreply : reply = .reserved (some t)) :
    ∃ r : CustodyRecord, s.pool[t.index]? = some r ∧ r.state = .free := by
  cases hmove with
  | refused hf => subst hreply; cases hf
  | reserve hi hfree => cases hreply; exact ⟨_, hi, hfree⟩
  | _ => cases hop

omit hb in
/-- A record is reserved again only after its last token ended. -/
theorem reissue_ended {between : History} {t' : CustodyToken}
    (sound : Sound (past ++ e :: between) s) (hmove : Moves s op reply s') (he : Issues e t)
    (hop : op = .reserve) (hreply : reply = .reserved (some t')) (hindex : t.index = t'.index) :
    life t (past ++ e :: between) = .ended := by
  obtain ⟨r, hr, hfree⟩ := issue_free hmove hop hreply
  rcases issued_cases sound he with hended | ⟨q, hq, -, hphase⟩
  · exact hended
  · rw [hindex, hr, Option.some.injEq] at hq
    rw [hphase, ← hq, CustodyRecord.phase, hfree]

variable {h : History}

omit hb in
/-- A call that succeeds carries a token that is still alive. -/
theorem token_alive (sound : Sound h s) (hmove : Moves s op reply s') (htoken : op.token = some t) :
    s' = s ∨ life t h ≠ .ended := by
  have halive : ∀ {i : Nat} {r : CustodyRecord}, s.pool[i]? = some r → r.state ≠ .free →
      some (⟨i, r.generation⟩ : CustodyToken) = some t → life t h ≠ .ended := by
    intro i r hi hs ht
    cases ht
    rw [(sound.refines.alive hi hs).2, CustodyRecord.phase]
    cases hstate : r.state <;> simp_all
  cases hmove with
  | refused _ => exact .inl rfl
  | reserve _ _ => cases htoken
  | attach hi hs _ _ => exact .inr (halive hi (by rw [hs]; decide) htoken)
  | launch hi hs _ _ => exact .inr (halive hi (by rw [hs]; decide) htoken)
  | claim hi hs _ => exact .inr (halive hi (by rw [hs]; decide) htoken)
  | detach hi hs => exact .inr (halive hi (by rw [hs]; decide) htoken)
  | release hi hs => exact .inr (halive hi (by rw [hs]; decide) htoken)
  | clean hi hs => exact .inr (halive hi (by rw [hs]; decide) htoken)

omit hb in
/-- An ended token stays ended. -/
theorem ended_forever {more : History} (o : Orderly (h ++ more)) (hended : life t h = .ended) :
    life t (h ++ more) = .ended := by
  induction more using List.reverseRecOn with
  | nil => simpa using hended
  | append_singleton more e ih =>
    rw [← List.append_assoc] at o ⊢
    have hprior := ih o.of_snoc
    rw [life_snoc, hprior]
    cases act_cases e t with
    | issues h => have := o.issue _ e [] t rfl h; simp [hprior] at this
    | attaches h =>
      obtain ⟨⟨p, hop⟩, hreply⟩ := h
      have := o.last (t := t) (by rw [hop]; rfl)
      simp [Legal, hop, hreply, hprior] at this
    | launches h =>
      have := o.last (t := t) (by rw [h.1]; rfl)
      simp [Legal, h.1, h.2, hprior] at this
    | claims h =>
      have := o.last (t := t) (by rw [h.1]; rfl)
      simp [Legal, h.1, h.2, hprior] at this
    | detaches h =>
      have := o.last (t := t) (by rw [h.1]; rfl)
      simp [Legal, h.1, h.2, hprior] at this
    | releases h => exact next_releases _ h
    | cleans h => exact next_cleans _ h
    | idle h => exact h.next _

/-- **Custody.** Every run that reserves no record `2 ^ 64` times keeps the
custody laws, whatever tokens and permits its calls carry. -/
theorem custody_laws : Laws (custody.history (System.initial count permits) ops) where
  permit_once p := by
    refine atMostOnce_of_fresh fun past e future hs hspend => ?_
    obtain ⟨sound, -, hmove⟩ := run_split hb hs
    obtain ⟨⟨t, hop⟩, b, hreply⟩ := hspend
    rw [hop, hreply] at hmove
    generalize e.after = s' at hmove
    cases hmove with
    | refused hf => cases hf
    | attach _ _ hp _ => exact sound.refines.unspent p hp
  launch_once t := by
    refine atMostOnce_of_fresh fun past e future hs ⟨b, hlaunch⟩ x hx ⟨b', hx'⟩ => ?_
    obtain ⟨sound, hafter, -⟩ := run_split hb hs
    obtain ⟨d, hlife⟩ : ∃ d, life t past = .attached (some b) false d := by
      simpa [Legal, hlaunch.1, hlaunch.2] using hafter.orderly.last (t := t) (by rw [hlaunch.1]; rfl)
    exact ((story t past sound.orderly).held b _ d hlife).2.1 rfl x hx b' hx'
  launch_held past e future t b hs hlaunch := by
    obtain ⟨sound, hafter, hmove⟩ := run_split hb hs
    obtain ⟨d, hlife⟩ : ∃ d, life t past = .attached (some b) false d := by
      simpa [Legal, hlaunch.1, hlaunch.2] using hafter.orderly.last (t := t) (by rw [hlaunch.1]; rfl)
    refine ⟨((story t past sound.orderly).held b _ d hlife).1, ?_⟩
    rw [hlaunch.1, hlaunch.2] at hmove
    generalize e.after = s' at hmove
    cases hmove with
    | refused hf => cases hf
    | launch hi hstate hbind _ => exact ⟨_, hi, rfl, hstate, hbind⟩
  claim_once t := by
    refine atMostOnce_of_fresh fun past e future hs hclaim x hx hx' => ?_
    obtain ⟨sound, hafter, -⟩ := run_split hb hs
    obtain ⟨b, l, hlife⟩ : ∃ b l, life t past = .attached (some b) l false := by
      simpa [Legal, hclaim.1, hclaim.2] using hafter.orderly.last (t := t) (by rw [hclaim.1]; rfl)
    exact ((story t past sound.orderly).held b l _ hlife).2.2 rfl x hx hx'
  claim_held past e future t hs hclaim := by
    obtain ⟨sound, hafter, -⟩ := run_split hb hs
    obtain ⟨b, l, hlife⟩ : ∃ b l, life t past = .attached (some b) l false := by
      simpa [Legal, hclaim.1, hclaim.2] using hafter.orderly.last (t := t) (by rw [hclaim.1]; rfl)
    exact ⟨b, ((story t past sound.orderly).held b l _ hlife).1⟩
  exclusive past e between e' future t t' hs he he' hindex := by
    rw [← List.cons_append, ← List.append_assoc] at hs
    obtain ⟨sound, -, hmove⟩ := run_split hb hs
    have hended := reissue_ended sound hmove he he'.1 he'.2 hindex
    exact ((story t _ sound.orderly).since past e between rfl he).2 hended
  failed e he hf := by
    obtain ⟨past, future, hs⟩ := List.append_of_mem he
    obtain ⟨-, -, hmove⟩ := run_split hb hs
    generalize e.after = s', e.reply = reply, e.op = op at *
    cases hmove with
    | refused _ => rfl
    | _ => cases hf
  stale past e between e' since x future t t' hs he he' hindex htoken := by
    have hs₁ : custody.history (System.initial count permits) ops =
        (past ++ e :: between) ++ e' :: (since ++ x :: future) := by rw [hs]; simp
    have hs₂ : custody.history (System.initial count permits) ops =
        ((past ++ e :: between) ++ e' :: since) ++ x :: future := by rw [hs]; simp
    obtain ⟨sound, -, hmove⟩ := run_split hb hs₁
    obtain ⟨sound', -, hmove'⟩ := run_split hb hs₂
    have hended := reissue_ended sound hmove he he'.1 he'.2 hindex
    rcases token_alive sound' hmove' htoken with hsame | halive
    · exact hsame
    · exact absurd (ended_forever sound'.orderly hended) halive

end Run

/-- A record reserved twice over one permit: the second attach is refused. -/
def twiceOverOnePermit : List Call :=
  [.reserve, .attach ⟨0, 1⟩ 0, .consumeLaunchAuthority ⟨0, 1⟩ (.action ⟨1, 2, 3⟩),
    .claimTerminalDelivery ⟨0, 1⟩, .detach ⟨0, 1⟩, .cleanupComplete ⟨0, 1⟩, .reserve,
    .attach ⟨0, 2⟩ 0, .detach ⟨0, 1⟩]

theorem custody_laws_twice :
    Bounded (custody.history (System.initial 1 fun _ => ⟨.action ⟨1, 2, 3⟩, true⟩)
      twiceOverOnePermit) ∧
    Laws (custody.history (System.initial 1 fun _ => ⟨.action ⟨1, 2, 3⟩, true⟩)
      twiceOverOnePermit) := by
  have hb : Bounded (custody.history (System.initial 1 fun _ => ⟨.action ⟨1, 2, 3⟩, true⟩)
      twiceOverOnePermit) := by
    intro i
    refine Nat.lt_of_le_of_lt List.countP_le_length ?_
    rw [Machine.history_length]
    decide
  exact ⟨hb, custody_laws hb⟩

end Rui.Execution
