import Rui.Connects.Race

/-!
# What a connection's log says of its race

The rules of the race, read off the log: which address may be tried next and when, and which socket
may be closed. Every step of the setup keeps them.
-/

namespace Rui.Connects

open Library

variable {α : Type}

/-! ## The log -/

/-- The addresses tried, in the order they were. -/
def tried : List (Event α) → List α
  | [] => []
  | .started address _ :: before => tried before ++ [address]
  | _ :: before => tried before

/-- When the newest attempt started. -/
def newest : List (Event α) → Option Nat
  | [] => none
  | .started _ time :: _ => some time
  | _ :: before => newest before

/-- Whether an attempt failed since the newest one started. -/
def failedSince : List (Event α) → Bool
  | [] => false
  | .started _ _ :: _ => false
  | .refused _ :: _ => true
  | _ :: before => failedSince before

/-- The sockets open, in the order they were opened. -/
def inFlight (log : List (Event α)) : List Nat := held Event.gives Event.takes log

def opened (log : List (Event α)) : List Nat := log.filterMap Event.gives

def closed (log : List (Event α)) : List Nat := log.filterMap Event.takes

def Won (log : List (Event α)) : Prop := ∃ socket, .connected socket ∈ log

/-- The setup failed, or the entry was closed. -/
def Over (log : List (Event α)) : Prop := .ended ∈ log ∨ ∃ cause, .failed cause ∈ log

/-- **Why a socket may be closed**: with everything else, refused, having lost, or as the older of
two to make room for the next address. -/
def Closable (addresses : List α) (before : List (Event α)) (socket : Nat) : Prop :=
  Over before ∨ .refused socket ∈ before ∨ (∃ winner ≠ socket, .connected winner ∈ before) ∨
    ((∃ newer, inFlight before = [socket, newer]) ∧ tried before ≠ addresses ∧ ¬Won before)

/-- **The rules of the race**, over the addresses in the order to try them. -/
def Allowed (addresses : List α) (before : List (Event α)) : Event α → Prop
  | .started address time =>
    tried before ++ [address] <+: addresses ∧ (inFlight before).length < maxAttempts ∧
      (inFlight before = [] ∨ failedSince before = true ∨
        ∃ start, newest before = some start ∧ saturating start attemptDelayNs ≤ time)
  | .opened socket =>
    socket ∉ opened before ∧ (inFlight before).length < maxAttempts ∧ newest before ≠ none
  | .refused socket => socket ∈ inFlight before
  | .connected socket => socket ∈ inFlight before ∧ ¬Won before
  | .closed socket => socket ∈ inFlight before ∧ Closable addresses before socket
  | .failed cause =>
    cause = .connectFailed → Won before ∨ (tried before = addresses ∧ inFlight before = [])
  | .ended => True

section Log

variable (before : List (Event α)) (socket : Nat)

@[simp] theorem inFlight_opened :
    inFlight (.opened socket :: before) = inFlight before ++ [socket] :=
  held_gives rfl rfl

@[simp] theorem inFlight_closed :
    inFlight (.closed socket :: before) = (inFlight before).erase socket :=
  held_takes rfl rfl

@[simp] theorem inFlight_started (address : α) (time : Nat) :
    inFlight (.started address time :: before) = inFlight before :=
  held_other rfl rfl

@[simp] theorem inFlight_refused : inFlight (.refused socket :: before) = inFlight before :=
  held_other rfl rfl

@[simp] theorem inFlight_connected : inFlight (.connected socket :: before) = inFlight before :=
  held_other rfl rfl

@[simp] theorem inFlight_failed (cause : Cause) :
    inFlight (.failed cause :: before) = inFlight before :=
  held_other rfl rfl

@[simp] theorem inFlight_ended : inFlight (.ended :: before) = inFlight before :=
  held_other rfl rfl

theorem Over.cons {before : List (Event α)} (h : Over before) (event : Event α) :
    Over (event :: before) :=
  h.imp (List.mem_cons_of_mem _) fun ⟨cause, hcause⟩ => ⟨cause, List.mem_cons_of_mem _ hcause⟩

end Log

variable {addresses : List α} {log : List (Event α)}

section

variable (h : Sound (Allowed addresses) log)

include h

/-- **Every socket opened is open or was closed, once.** -/
theorem inFlight_perm :
    (inFlight log ++ closed log).Perm (opened log) := by
  refine held_perm (h.mono fun before event hallowed one htakes => ?_)
  cases event with
  | closed socket =>
    obtain rfl : socket = one := Option.some.inj htakes
    exact ⟨rfl, hallowed.1⟩
  | _ => cases htakes

/-- No socket is opened twice. -/
theorem opened_nodup : (opened log).Nodup := by
  induction log with
  | nil => exact List.nodup_nil
  | cons event before ih =>
    cases event with
    | opened socket => exact List.nodup_cons.mpr ⟨h.1.1, ih h.2⟩
    | _ => exact ih h.2

theorem newest_of_inFlight (hopen : inFlight log ≠ []) :
    newest log ≠ none := by
  induction log with
  | nil => exact absurd rfl hopen
  | cons event before ih =>
    cases event with
    | started address time => simp [newest]
    | opened socket => exact h.1.2.2
    | refused socket => exact ih h.2 (by simpa using hopen)
    | connected socket => exact ih h.2 (by simpa using hopen)
    | failed cause => exact ih h.2 (by simpa using hopen)
    | ended => exact ih h.2 (by simpa using hopen)
    | closed socket =>
      refine ih h.2 fun hnone => hopen ?_
      rw [inFlight_closed, hnone]
      rfl

theorem tried_prefix : tried log <+: addresses := by
  induction log with
  | nil => exact List.nil_prefix
  | cons event before ih =>
    cases event with
    | started address time => exact h.1.1
    | _ => exact ih h.2

/-- At most two sockets are open. -/
theorem inFlight_length :
    (inFlight log).length ≤ maxAttempts := by
  induction log with
  | nil => exact Nat.zero_le _
  | cons event before ih =>
    have hbefore := ih h.2
    cases event with
    | opened socket =>
      rw [inFlight_opened, List.length_append]
      exact h.1.2.1
    | closed socket =>
      rw [inFlight_closed]
      exact (List.length_erase_le).trans hbefore
    | started address time => simpa using hbefore
    | refused socket => simpa using hbefore
    | connected socket => simpa using hbefore
    | failed cause => simpa using hbefore
    | ended => simpa using hbefore

end

/-! ## Sockets in hand -/

namespace Connection

section Note

variable (self : Connection α) (event : Event α)

@[simp] theorem note_socket : (self.note event).socket = self.socket := rfl

@[simp] theorem note_earlier : (self.note event).earlier = self.earlier := rfl

@[simp] theorem note_log : (self.note event).log = event :: self.log := rfl

end Note

/-- **The fields hold the open sockets**, the newer one in `socket`. -/
structure Custody (addresses : List α) (held : Connection α) : Prop where
  sound : Sound (Allowed addresses) held.log
  flight : inFlight held.log = held.earlier.toList ++ held.socket.toList
  serial : ∀ socket ∈ opened held.log, socket < held.sockets
  ordered : ∀ older, held.earlier = some older → ∃ newer, held.socket = some newer ∧ older < newer

namespace Custody

variable {self : Connection α}

theorem of_new {origin : Origin} : Custody addresses ({ origin } : Connection α) where
  sound := trivial
  flight := rfl
  serial := fun _ h => absurd h List.not_mem_nil
  ordered := fun _ h => (by cases h)

theorem alone (h : self.Custody addresses) (hsocket : self.socket = none) : self.earlier = none := by
  cases hearlier : self.earlier with
  | none => rfl
  | some older =>
    obtain ⟨newer, hnewer, _⟩ := h.ordered older hearlier
    rw [hsocket] at hnewer
    cases hnewer

theorem note (h : self.Custody addresses) {event : Event α} (hgives : event.gives = none)
    (htakes : event.takes = none) (hallowed : Allowed addresses self.log event) :
    (self.note event).Custody addresses where
  sound := ⟨hallowed, h.sound⟩
  flight := (held_other hgives htakes).trans h.flight
  serial := by
    intro socket hsocket
    rw [Connection.note, opened, List.filterMap_cons_none hgives] at hsocket
    exact h.serial socket hsocket
  ordered := h.ordered

theorem socket_mem (h : self.Custody addresses) {socket : Nat} (hsocket : self.socket = some socket) :
    socket ∈ inFlight self.log := by
  rw [h.flight, hsocket]
  exact List.mem_append_right _ (List.mem_singleton.mpr rfl)

theorem earlier_mem (h : self.Custody addresses) {socket : Nat}
    (hearlier : self.earlier = some socket) : socket ∈ inFlight self.log := by
  rw [h.flight, hearlier]
  exact List.mem_append_left _ (List.mem_singleton.mpr rfl)

theorem dropEarlier (h : self.Custody addresses)
    (hwhy : ∀ older, self.earlier = some older → Closable addresses self.log older) :
    self.dropEarlier.Custody addresses := by
  cases hearlier : self.earlier with
  | none =>
    rw [Connection.dropEarlier, hearlier]
    exact h
  | some older =>
    rw [Connection.dropEarlier, hearlier]
    exact {
      sound := ⟨⟨h.earlier_mem hearlier, hwhy older hearlier⟩, h.sound⟩
      flight := by
        have hflight := h.flight
        rw [hearlier] at hflight
        simp [Connection.closeSocket, Connection.note, hflight]
      serial := h.serial
      ordered := fun _ hnone => (by cases hnone) }

theorem dropNewest (h : self.Custody addresses)
    (hwhy : ∀ newer, self.socket = some newer → Closable addresses self.log newer) :
    self.dropNewest.Custody addresses := by
  cases hsocket : self.socket with
  | none =>
    have hearlier := h.alone hsocket
    rw [Connection.dropNewest, hsocket, hearlier]
    exact {
      sound := h.sound
      flight := by
        rw [h.flight, hsocket, hearlier]
      serial := h.serial
      ordered := fun _ hnone => (by cases hnone) }
  | some newer =>
    rw [Connection.dropNewest, hsocket]
    exact {
      sound := ⟨⟨h.socket_mem hsocket, hwhy newer hsocket⟩, h.sound⟩
      flight := by
        have hflight := h.flight
        cases hearlier : self.earlier with
        | none => simp [Connection.closeSocket, Connection.note, hflight, hearlier, hsocket]
        | some older =>
          obtain ⟨other, hother, hlt⟩ := h.ordered older hearlier
          obtain rfl : newer = other := Option.some.inj (hsocket.symm.trans hother)
          simp [Connection.closeSocket, Connection.note, hflight, hearlier, hsocket,
            Nat.ne_of_lt hlt]
      serial := h.serial
      ordered := fun _ hnone => (by cases hnone) }

/-- **Closing closes whatever is open.** -/
theorem close (h : self.Custody addresses) (hover : Over self.log) :
    self.close.Custody addresses := by
  have hsockets : ∀ closed : Connection α, closed.dropEarlier.sockets = closed.sockets := by
    intro closed
    rw [Connection.dropEarlier]
    split <;> rfl
  cases hsocket : self.socket with
  | none =>
    have hearlier := h.alone hsocket
    have hdrop : self.dropEarlier = self := by rw [Connection.dropEarlier, hearlier]
    simp only [Connection.close, hsocket, hdrop]
    exact {
      sound := h.sound
      flight := by
        rw [h.flight, hsocket, hearlier]
      serial := h.serial
      ordered := fun _ hnone => (by cases hnone) }
  | some newer =>
    have hdropped : Over self.dropNewest.log := by
      rw [Connection.dropNewest, hsocket]
      exact hover.cons _
    have hclosed := (h.dropNewest fun _ _ => .inl hover).dropNewest fun _ _ => .inl hdropped
    simp only [Connection.close, hsocket]
    cases hearlier : self.earlier with
    | none =>
      simp only [Connection.dropNewest, hsocket, hearlier] at hclosed
      simp only [Connection.dropEarlier, Connection.closeSocket, Connection.note, hearlier]
      exact ⟨hclosed.sound, hclosed.flight, hclosed.serial, fun _ hnone => (by cases hnone)⟩
    | some older =>
      simp only [Connection.dropNewest, hsocket, hearlier] at hclosed
      simp only [Connection.dropEarlier, Connection.closeSocket, Connection.note, hearlier]
      exact ⟨hclosed.sound, hclosed.flight, hclosed.serial, fun _ hnone => (by cases hnone)⟩

end Custody

end Connection

end Rui.Connects
