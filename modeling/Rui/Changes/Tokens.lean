import Rui.Changes.Ring
import Rui.Library.Hex

/-!
# Change tokens

The two opaque tokens of `change_ring.zig`: "<32 hex instance>.<generation>", and the
same with a Session after another dot. A text that is accepted is the one spelling of
what it names.
-/

namespace Rui.Changes

open Library

def largestGeneration : Nat := 2 ^ 64 - 1

/-- `session_id.zig`: six characters of the alphabet. -/
def sessionAlphabet : List UInt8 := text "0123456789abcdefghjkmnpqrstvwxyz"

def validSession (value : List UInt8) : Bool :=
  decide (value.length = idBytes) && value.all fun byte => sessionAlphabet.contains byte

inductive TokenError | invalidSince
  deriving DecidableEq, Repr

/-- The instance is the source's `instance`, which Lean keeps for itself. -/
structure Token where
  opening : Vector UInt8 16
  generation : UInt64
  deriving DecidableEq, Repr

namespace Token

def maxBytes : Nat := 32 + 1 + 20

def format (self : Token) : List UInt8 :=
  toHex self.opening.toList ++ ascii '.' :: decimal self.generation.toNat

/-- What 32 digits say. -/
def openingOf (digits : List UInt8) : Option (Vector UInt8 16) :=
  (fromHex digits).bind fun bytes =>
    if h : bytes.length = 16 then some ⟨bytes.toArray, by simpa using h⟩ else none

def parse (text : List UInt8) : Except TokenError Token :=
  if text.length < 34 ∨ text[32]? ≠ some (ascii '.') then .error .invalidSince
  else if ¬ (text.take 32).all isLowerHex then .error .invalidSince
  else match openingOf (text.take 32) with
    | none => .error .invalidSince
    | some opening =>
      let decimal := text.drop 33
      if 1 < decimal.length ∧ decimal.head? = some (ascii '0') then .error .invalidSince
      else if ¬ decimal.all isDigit then .error .invalidSince
      else match parseInt largestGeneration decimal with
        | none => .error .invalidSince
        | some generation => .ok ⟨opening, UInt64.ofNat generation⟩

end Token

structure SessionToken where
  opening : Vector UInt8 16
  generation : UInt64
  session : Id
  deriving DecidableEq, Repr

namespace SessionToken

def maxBytes : Nat := Token.maxBytes + 1 + idBytes

def token (self : SessionToken) : Token := ⟨self.opening, self.generation⟩

def format (self : SessionToken) : List UInt8 :=
  self.token.format ++ ascii '.' :: self.session.toList

def sessionOf (value : List UInt8) : Option Id :=
  if h : value.length = idBytes then some ⟨value.toArray, by simpa using h⟩ else none

def parse (text : List UInt8) : Except TokenError SessionToken :=
  if text.length < 34 + 1 + idBytes then .error .invalidSince
  else
    let separator := text.length - idBytes - 1
    if text[separator]? ≠ some (ascii '.') ∨ ¬ validSession (text.drop (separator + 1)) then
      .error .invalidSince
    else match Token.parse (text.take separator) with
      | .error error => .error error
      | .ok token => match sessionOf (text.drop (separator + 1)) with
        | none => .error .invalidSince
        | some session => .ok ⟨token.opening, token.generation, session⟩

end SessionToken

/-! ## One spelling each -/

namespace Token

theorem openingOf_toHex (opening : Vector UInt8 16) :
    openingOf (toHex opening.toList) = some opening := by
  rw [openingOf, fromHex_toHex, Option.bind_some, dif_pos (by simp)]
  rfl

theorem openingOf_eq_some {digits : List UInt8} {opening : Vector UInt8 16}
    (h : openingOf digits = some opening) (hlower : ∀ byte ∈ digits, isLowerHex byte = true) :
    digits = toHex opening.toList := by
  obtain ⟨bytes, hbytes, hsize⟩ := Option.bind_eq_some_iff.mp h
  by_cases hlength : bytes.length = 16
  · rw [dif_pos hlength] at hsize
    cases hsize
    exact toHex_fromHex hlower hbytes
  · rw [dif_neg hlength] at hsize
    cases hsize

theorem text_eq {text : List UInt8} (h : text[32]? = some (ascii '.')) :
    text = text.take 32 ++ ascii '.' :: text.drop 33 := by
  obtain ⟨hlt, hdot⟩ := List.getElem?_eq_some_iff.mp h
  rw [← hdot, ← List.drop_eq_getElem_cons hlt, List.take_append_drop]

theorem take_format (self : Token) : self.format.take 32 = toHex self.opening.toList := by
  rw [format, List.take_append_of_le_length (by simp), List.take_of_length_le (by simp)]

theorem drop_format (self : Token) :
    self.format.drop 32 = ascii '.' :: decimal self.generation.toNat := by
  rw [format, List.drop_append_of_le_length (by simp), List.drop_of_length_le (by simp),
    List.nil_append]

theorem length_decimal_pos (n : Nat) : 0 < (decimal n).length :=
  List.length_pos_iff.mpr (decimal_ne_nil n)

theorem length_format (self : Token) : 34 ≤ self.format.length ∧ self.format.length ≤ maxBytes := by
  have hpos := length_decimal_pos self.generation.toNat
  have hshort := (length_decimal_le (k := 20) (n := self.generation.toNat) (by decide)).mpr
    (Nat.lt_of_lt_of_le self.generation.toNat_lt (by decide))
  rw [format, List.length_append, length_toHex, Vector.length_toList, List.length_cons, maxBytes]
  omega

theorem parse_format (self : Token) : parse self.format = .ok self := by
  have hlength := self.length_format.1
  have hdrop := self.drop_format
  have hdot : self.format[32]? = some (ascii '.') := by
    rw [← List.head?_drop, hdrop]
    rfl
  have hrest : self.format.drop 33 = decimal self.generation.toNat := by
    rw [← List.drop_drop (i := 1) (j := 32), hdrop]
    rfl
  have hlower : (toHex self.opening.toList).all isLowerHex = true :=
    List.all_eq_true.mpr fun byte hbyte => isLowerHex_of_mem_toHex hbyte
  have hdigits : ∀ byte ∈ decimal self.generation.toNat, isDigit byte = true :=
    fun byte hbyte => isDigit_of_mem_decimal hbyte
  have hbound : self.generation.toNat ≤ largestGeneration :=
    Nat.le_pred_of_lt self.generation.toNat_lt
  have hread : parseInt largestGeneration (decimal self.generation.toNat) =
      some self.generation.toNat := by
    rw [parseInt_digits _ (decimal_ne_nil _) hdigits, decimalValue_decimal, if_pos hbound]
  rw [parse, if_neg (by simp [hdot, hlength]), take_format, if_neg (not_not_intro hlower),
    openingOf_toHex]
  simp only [hrest, hread, UInt64.ofNat_toNat]
  rw [if_neg fun h => decimal_head h.1 h.2, if_neg (not_not_intro (List.all_eq_true.mpr hdigits))]

/-- **The canonical spelling.** -/
theorem parse_eq_ok {text : List UInt8} {token : Token} (h : parse text = .ok token) :
    text = token.format := by
  rw [parse] at h
  split_ifs at h with hshape hlower
  rw [not_or, Nat.not_lt, not_not] at hshape
  split at h
  · cases h
  · rename_i opening hopening
    simp only at h
    split_ifs at h with hzero hdigits
    split at h
    · cases h
    · rename_i generation hread
      cases h
      have hdigit : ∀ byte ∈ text.drop 33, isDigit byte = true := List.all_eq_true.mp hdigits
      have hne : text.drop 33 ≠ [] := by
        intro hnil
        have := List.drop_eq_nil_iff.mp hnil
        omega
      rw [parseInt_digits _ hne hdigit] at hread
      split_ifs at hread with hbound
      cases hread
      have hcanonical : 1 < (text.drop 33).length → (text.drop 33).head? ≠ some (ascii '0') :=
        fun hlong hhead => hzero ⟨hlong, hhead⟩
      have hgeneration : (UInt64.ofNat (decimalValue (text.drop 33))).toNat =
          decimalValue (text.drop 33) := by
        rw [UInt64.toNat_ofNat']
        exact Nat.mod_eq_of_lt (Nat.lt_of_le_of_lt hbound (by decide))
      rw [format, hgeneration, decimal_decimalValue hdigit hne hcanonical,
        ← openingOf_eq_some hopening (List.all_eq_true.mp hlower)]
      exact text_eq hshape.2

end Token

namespace SessionToken

theorem sessionOf_toList (session : Id) : sessionOf session.toList = some session := by
  rw [sessionOf, dif_pos (by simp)]
  rfl

theorem sessionOf_eq_some {value : List UInt8} {session : Id} (h : sessionOf value = some session) :
    value = session.toList := by
  rw [sessionOf] at h
  split_ifs at h
  cases h
  rfl

theorem length_format (self : SessionToken) :
    self.format.length = self.token.format.length + 1 + idBytes := by
  rw [format, List.length_append, List.length_cons, Vector.length_toList]
  omega

theorem parse_format (self : SessionToken) (hvalid : validSession self.session.toList = true) :
    parse self.format = .ok self := by
  have hlength := self.length_format
  have hlong := self.token.length_format.1
  have hseparator : self.format.length - idBytes - 1 = self.token.format.length := by omega
  have hdrop : self.format.drop self.token.format.length = ascii '.' :: self.session.toList := by
    rw [format, List.drop_left]
  have hdot : self.format[self.token.format.length]? = some (ascii '.') := by
    rw [← List.head?_drop, hdrop]
    rfl
  have hsession : self.format.drop (self.token.format.length + 1) = self.session.toList := by
    rw [← List.drop_drop (i := 1), hdrop]
    rfl
  have htoken : self.format.take self.token.format.length = self.token.format := by
    rw [format, List.take_left]
  rw [parse, if_neg (by omega)]
  simp only [hseparator, hdot, hsession, htoken, hvalid, Token.parse_format, sessionOf_toList]
  rfl

theorem parse_eq_ok {text : List UInt8} {token : SessionToken} (h : parse text = .ok token) :
    text = token.format ∧ validSession token.session.toList = true := by
  rw [parse] at h
  split_ifs at h with hshort
  simp only at h
  split_ifs at h with hshape
  rw [not_or, not_not, not_not] at hshape
  split at h
  · cases h
  · rename_i inner hinner
    split at h
    · cases h
    · rename_i session hsession
      cases h
      have hvalue := sessionOf_eq_some hsession
      have htext := Token.parse_eq_ok hinner
      obtain ⟨hlt, hdot⟩ := List.getElem?_eq_some_iff.mp hshape.1
      refine ⟨?_, hvalue ▸ hshape.2⟩
      show text = inner.format ++ ascii '.' :: session.toList
      rw [← htext, ← hvalue, ← hdot, ← List.drop_eq_getElem_cons hlt, List.take_append_drop]

theorem session_of_format {a b : SessionToken} (h : a.format = b.format) : a.session = b.session := by
  have hlength : (ascii '.' :: a.session.toList).length = (ascii '.' :: b.session.toList).length := by
    simp
  exact Vector.toList_inj.mp (List.cons.inj (List.append_inj' h hlength).2).2

end SessionToken

/-- **Tokens.** A formatted token, of a valid Session where it has one, parses to itself
and fits its buffer; a text that parses is the formatted token it names, so no other text
names the same; any other text is refused, and so is the token of an invalid Session. -/
theorem tokens_canonical :
    (∀ token : Token, Token.parse token.format = .ok token ∧
      token.format.length ≤ Token.maxBytes) ∧
    (∀ text token, Token.parse text = .ok token → text = token.format) ∧
    (∀ text, (∀ token : Token, text ≠ token.format) → Token.parse text = .error .invalidSince) ∧
    (∀ token : SessionToken, validSession token.session.toList = true →
      SessionToken.parse token.format = .ok token ∧
        token.format.length ≤ SessionToken.maxBytes) ∧
    (∀ text token, SessionToken.parse text = .ok token →
      text = token.format ∧ validSession token.session.toList = true) ∧
    (∀ text, (∀ token : SessionToken, validSession token.session.toList = true →
      text ≠ token.format) → SessionToken.parse text = .error .invalidSince) ∧
    ∀ token : SessionToken, validSession token.session.toList = false →
      SessionToken.parse token.format = .error .invalidSince := by
  refine ⟨fun token => ⟨token.parse_format, token.length_format.2⟩,
    fun _ _ h => Token.parse_eq_ok h, ?_, ?_, fun _ _ h => SessionToken.parse_eq_ok h, ?_, ?_⟩
  · intro text hnone
    cases h : Token.parse text with
    | error error =>
      cases error
      rfl
    | ok token => exact absurd (Token.parse_eq_ok h) (hnone token)
  · intro token hvalid
    refine ⟨token.parse_format hvalid, ?_⟩
    rw [token.length_format, SessionToken.maxBytes]
    have := token.token.length_format.2
    omega
  · intro text hnone
    cases h : SessionToken.parse text with
    | error error =>
      cases error
      rfl
    | ok token =>
      obtain ⟨htext, hvalid⟩ := SessionToken.parse_eq_ok h
      exact absurd htext (hnone token hvalid)
  · intro token hforeign
    cases h : SessionToken.parse token.format with
    | error error =>
      cases error
      rfl
    | ok other =>
      obtain ⟨htext, hvalid⟩ := SessionToken.parse_eq_ok h
      rw [← SessionToken.session_of_format htext, hforeign] at hvalid
      cases hvalid

/-- **A Session outside the alphabet.** Its token is formatted and refused. -/
theorem foreign_session : SessionToken.parse (SessionToken.format
    ⟨Vector.replicate 16 0xab, 42, #v[75, 55, 109, 50, 113, 120]⟩) = .error .invalidSince := by
  decide

end Rui.Changes
