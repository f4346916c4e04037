import Rui.Library.Ascii

/-!
# Texts that are hashed

A text made of fields gives them back: each field is written with its length
before it, and what is hashed already is of one length. Values known by their
digests are told apart by them as long as no two of the texts that were hashed
collide.
-/

namespace Library

/-- 32 bytes. -/
abbrev Digest := List.Vector UInt8 32

/-- No two different texts of these have one digest. -/
def CollisionFree {α β : Type*} (hash : α → β) (texts : Set α) : Prop := Set.InjOn hash texts

theorem CollisionFree.of_nodup {α β : Type*} {hash : α → β} {texts : List α}
    (h : (texts.map hash).Nodup) : CollisionFree hash {each | each ∈ texts} :=
  fun _ ha _ hb heq => List.inj_on_of_nodup_map h ha hb heq

/-- The digest whose bytes are a number's, the most significant first. -/
def digestOf (n : Nat) : Digest :=
  List.Vector.ofFn fun i : Fin 32 => UInt8.ofNat (n >>> (8 * (31 - i.val)))

/-- A hash that is known of some texts. -/
def known (table : List (List UInt8 × Nat)) (bytes : List UInt8) : Digest :=
  digestOf ((table.lookup bytes).getD 0)

/-- A length in eight bytes, the most significant first. -/
def lengthBytes (length : Nat) : List UInt8 :=
  (List.range 8).map fun i => UInt8.ofNat (length / 256 ^ (7 - i))

/-- A value with its length before it. -/
def field (value : List UInt8) : List UInt8 := lengthBytes value.length ++ value

@[simp] theorem lengthBytes_length (length : Nat) : (lengthBytes length).length = 8 := by
  simp [lengthBytes]

theorem lengthBytes_injective {a b : Nat} (ha : a < 2 ^ 64) (hb : b < 2 ^ 64)
    (h : lengthBytes a = lengthBytes b) : a = b := by
  have hdigit : ∀ i < 8, a / 256 ^ i % 256 = b / 256 ^ i % 256 := by
    intro i hi
    have hbyte := congrArg (fun bytes => (bytes[7 - i]?).map UInt8.toNat) h
    have hplace : 7 - (7 - i) = i := by omega
    simpa [lengthBytes, show 7 - i < 8 by omega, hplace] using hbyte
  have hrest : ∀ i ≤ 8, a % 256 ^ i = b % 256 ^ i := by
    intro i hi
    induction i with
    | zero => rw [Nat.pow_zero, Nat.mod_one, Nat.mod_one]
    | succ i ih => rw [Nat.mod_pow_succ, Nat.mod_pow_succ, ih (by omega), hdigit i hi]
  rw [← Nat.mod_eq_of_lt ha, ← Nat.mod_eq_of_lt hb]
  exact hrest 8 le_rfl

/-- **Fields are read back**: a text that begins with a field begins with no other. -/
theorem field_append {a b rest more : List UInt8} (ha : a.length < 2 ^ 64) (hb : b.length < 2 ^ 64)
    (h : field a ++ rest = field b ++ more) : a = b ∧ rest = more := by
  rw [field, field, List.append_assoc, List.append_assoc] at h
  obtain ⟨hlength, hvalue⟩ := List.append_inj h (by simp)
  exact List.append_inj hvalue (lengthBytes_injective ha hb hlength)

/-! ## Texts that give their parts back -/

/-- No text begins with two writings that are not the same. -/
def Delimited {α : Type*} (write : α → List UInt8) (same : α → α → Prop) : Prop :=
  ∀ a b rest more, write a ++ rest = write b ++ more → same a b ∧ rest = more

namespace Delimited

variable {α : Type*} {write write' value : α → List UInt8} {same same' : α → α → Prop}

theorem fixed {length : Nat} (h : ∀ a, (value a).length = length) :
    Delimited value fun a b => value a = value b := fun a b _ _ htext =>
  List.append_inj htext (by rw [h a, h b])

theorem field (h : ∀ a, (value a).length < 2 ^ 64) :
    Delimited (fun a => Library.field (value a)) fun a b => value a = value b := fun a b _ _ htext =>
  field_append (h a) (h b) htext

theorem append (h : Delimited write same) (h' : Delimited write' same') :
    Delimited (fun a => write a ++ write' a) fun a b => same a b ∧ same' a b := by
  intro a b rest more htext
  rw [List.append_assoc, List.append_assoc] at htext
  obtain ⟨hsame, hrest⟩ := h a b _ _ htext
  obtain ⟨hsame', hmore⟩ := h' a b _ _ hrest
  exact ⟨⟨hsame, hsame'⟩, hmore⟩

theorem tagged (tag : α → UInt8) (follows : α → Prop) [DecidablePred follows]
    (hfollows : ∀ a b, tag a = tag b → (follows a ↔ follows b)) (h : Delimited write same) :
    Delimited (fun a => tag a :: if follows a then write a else [])
      fun a b => tag a = tag b ∧ (follows a → same a b) := by
  intro a b rest more htext
  rw [List.cons_append, List.cons_append, List.cons.injEq] at htext
  obtain ⟨htag, hrest⟩ := htext
  by_cases hvalue : follows a
  · rw [if_pos hvalue, if_pos ((hfollows a b htag).mp hvalue)] at hrest
    obtain ⟨hsame, hmore⟩ := h a b _ _ hrest
    exact ⟨⟨htag, fun _ => hsame⟩, hmore⟩
  · rw [if_neg hvalue, if_neg fun hb => hvalue ((hfollows a b htag).mpr hb)] at hrest
    exact ⟨⟨htag, fun ha => absurd ha hvalue⟩, hrest⟩

theorem mono (h : Delimited write same) (himp : ∀ a b, same a b → same' a b) :
    Delimited write same' := fun a b rest more htext =>
  ⟨himp a b (h a b rest more htext).1, (h a b rest more htext).2⟩

theorem comap {β : Type*} (h : Delimited write same) (part : β → α) :
    Delimited (fun b => write (part b)) fun a b => same (part a) (part b) := fun a b rest more htext =>
  h (part a) (part b) rest more htext

theorem eq (h : Delimited write same) {a b : α} (htext : write a = write b) : same a b :=
  (h a b [] [] (by rw [htext])).1

end Delimited

theorem fields_injective {a b : List (List UInt8)} {rest more : List UInt8}
    (hlength : a.length = b.length) (ha : ∀ value ∈ a, value.length < 2 ^ 64)
    (hb : ∀ value ∈ b, value.length < 2 ^ 64) (h : a.flatMap field ++ rest = b.flatMap field ++ more) :
    a = b ∧ rest = more := by
  induction a generalizing b with
  | nil =>
    obtain rfl := List.length_eq_zero_iff.mp hlength.symm
    exact ⟨rfl, by simpa using h⟩
  | cons value a ih =>
    cases b with
    | nil => cases hlength
    | cons value' b =>
      rw [List.flatMap_cons, List.flatMap_cons, List.append_assoc, List.append_assoc] at h
      obtain ⟨rfl, hrest⟩ := field_append (ha _ List.mem_cons_self) (hb _ List.mem_cons_self) h
      obtain ⟨rfl, hmore⟩ := ih (by simpa using hlength)
        (fun each hin => ha each (List.mem_cons_of_mem _ hin))
        (fun each hin => hb each (List.mem_cons_of_mem _ hin)) hrest
      exact ⟨rfl, hmore⟩

theorem digests_injective {a b : List Digest}
    (h : a.flatMap List.Vector.toList = b.flatMap List.Vector.toList) : a = b := by
  induction a generalizing b with
  | nil =>
    cases b with
    | nil => rfl
    | cons digest rest =>
      have hlength := congrArg List.length h
      simp at hlength
      omega
  | cons digest rest ih =>
    cases b with
    | nil =>
      have hlength := congrArg List.length h
      simp at hlength
    | cons digest' rest' =>
      rw [List.flatMap_cons, List.flatMap_cons] at h
      obtain ⟨hhead, htail⟩ := List.append_inj h (by simp)
      rw [List.Vector.eq digest digest' hhead, ih htail]

end Library
