import Rui.SessionSubmission.Submission

/-!
# Intents are neither lost, swapped nor doubled

While every retry is of an intent that has its own key, whatever is sent is the
held intent's own record, under the key its own begin reserved, and its ticket is
given back once, when it is accepted or discarded.
-/

namespace Rui.SessionSubmission

open Library

variable {context : Context}

/-- The record that an intent is saved as. -/
def Original.record (context : Context) (original : Original) (key : Key) : Record :=
  ⟨context.canonical, context.session, key, original.payload⟩

namespace World

/-- The intent that is held. -/
def held (world : World) : Option Original :=
  world.self.intent.bind fun _ => world.originals.getLast?

/-- What holds between the steps of an owner. -/
structure Good (context : Context) (world : World) : Prop where
  held : ∀ intent, world.self.intent = some intent → ∃ original,
    world.originals.getLast? = some original ∧ original.ticket = intent.ticket ∧
      world.self.payload intent = some original.payload
  busy : world.self.worker.isSome → world.self.intent.isSome
  own : ∀ original key, world.held = some original → original.key = some key →
    world.self.key = key ∧ (context.pathFits = true → world.self.target = some key) ∧
      ∀ entry ∈ world.directory, entry.1 = key → entry.2 = original.record context key
  foreign : ∀ original, world.held = some original → original.key = none →
    world.self.worker = none ∨ validRequestHandle world.self.key = false ∧
      (world.self.worker = some .resend ∨ ∃ error, world.self.worker = some (.done (.error error)))
  submits : world.self.worker = some .submit → context.pathFits = true
  captured : ∀ record, world.self.captured = some record → ∃ original key,
    world.held = some original ∧ original.key = some key ∧ record = original.record context key
  sent : ∀ sent ∈ world.sent, ∃ original key, world.originals[sent.intent]? = some original ∧
    original.key = some key ∧ sent.record = original.record context key
  keys : (world.originals.filterMap Original.key).Nodup
  tickets : world.originals.filterMap Original.ticket =
    world.released ++ (world.self.intent.bind Intent.ticket).toList
  old : ∀ ticket ∈ world.released, ticket < world.self.input.serial ∨
    ticket = world.self.input.serial ∧ world.self.input.submitted = none
  once : world.released.Nodup

/-- An owner that has done nothing yet. -/
def initial (directory : List (Key × Record)) : World := { directory }

variable {world next : World} {self : Submission} {original : Original} {key : Key} {luck : Luck}
  {intent : Intent} {outcome : Outcome}

theorem held_holding (h : self.intent = world.self.intent) :
    (world.holding self).held = world.held := by
  rw [World.held, World.held]
  show self.intent.bind _ = _
  rw [h]
  rfl

theorem Good.holding (h : Good context world) (hintent : self.intent = world.self.intent)
    (hinput : self.input = world.self.input) (hkey : self.key = world.self.key)
    (htarget : self.target = world.self.target) (hbusy : self.worker.isSome → self.intent.isSome)
    (hforeign : ∀ original, world.held = some original → original.key = none →
      self.worker = none ∨ validRequestHandle self.key = false ∧
        (self.worker = some .resend ∨ ∃ error, self.worker = some (.done (.error error))))
    (hsubmits : self.worker = some .submit → context.pathFits = true)
    (hcaptured : ∀ record, self.captured = some record → ∃ original key,
      world.held = some original ∧ original.key = some key ∧
        record = original.record context key) : Good context (world.holding self) := by
  have hheld := held_holding hintent
  have hpayload : ∀ intent, self.payload intent = world.self.payload intent := by
    intro intent
    cases intent <;> simp only [Submission.payload, hinput]
  refine ⟨?_, hbusy, ?_, ?_, hsubmits, ?_, h.sent, h.keys, ?_, ?_, h.once⟩
  · intro intent hheldIntent
    obtain ⟨original, hlast, hticket, hasks⟩ := h.held intent (hintent ▸ hheldIntent)
    exact ⟨original, hlast, hticket, (hpayload intent).trans hasks⟩
  · intro original key hhas hown
    obtain ⟨hsame, hnamed, hsaved⟩ := h.own original key (hheld ▸ hhas) hown
    exact ⟨hkey.trans hsame, fun hfits => htarget.trans (hnamed hfits), hsaved⟩
  · intro original hhas
    exact hforeign original (hheld ▸ hhas)
  · intro record hrecord
    rw [hheld]
    exact hcaptured record hrecord
  · exact h.tickets.trans (by rw [← hintent]; rfl)
  · intro ticket hticket
    show ticket < self.input.serial ∨ ticket = self.input.serial ∧ self.input.submitted = none
    rw [hinput]
    exact h.old ticket hticket

variable {worker : Worker} {payload : Payload} {reserved : Option Key} {starts : Bool}
  {result : Except Error Unit} {label : Label} {past : List (Step World Label)} {now : World}

section

variable (h : Good context world)

include h

theorem Good.idle (hintent : self.intent = world.self.intent)
    (hinput : self.input = world.self.input) (hkey : self.key = world.self.key)
    (htarget : self.target = world.self.target) (hidle : self.worker = none)
    (hcaptured : self.captured = world.self.captured) : Good context (world.holding self) := by
  refine h.holding hintent hinput hkey htarget ?_ (fun _ _ _ => .inl hidle) ?_ ?_
  · intro hbusy
    rw [hidle] at hbusy
    cases hbusy
  · intro hworker
    cases hidle.symm.trans hworker
  · intro record hrecord
    exact h.captured record (hcaptured ▸ hrecord)

end

/-- The steps of these actions, where each can be taken, and the state after them. -/
def played (context : Context) (world : World) : List Action →
    Option (List (Step World Label) × World)
  | [] => some ([], world)
  | action :: rest =>
    match world.take context action with
    | none => none
    | some taken => (played context taken.1 rest).map fun after =>
      (⟨world, (action, taken.2), taken.1⟩ :: after.1, after.2)

/-- A Store whose digests are the texts themselves. -/
def plain : Context := ⟨[], [], [], true, id⟩

def handle : Key := text "00000000-0000-0000-0000-000000000000"

def laterHandle : Key := text "11111111-1111-1111-1111-111111111111"

/-- A text whose reply is lost, sent again under its key and accepted; then a second text. -/
def retried : List Action :=
  [.sealText [97], .start (.message 1) (some handle) true, .work .works, .work (.lost (.other 1)),
    .join, .requestRecovery (some handle), .advance true, .work .works,
    .work (.replies (.accepted none)), .join, .sealText [98],
    .start (.message 2) (some laterHandle) true, .work .works, .work (.replies (.accepted none)),
    .join]

/-- A text sealed, begun and accepted. -/
def answered : List Action :=
  [.sealText [97], .start (.message 1) (some handle) true, .work .works,
    .work (.replies (.accepted none)), .join]

end World

end Rui.SessionSubmission
