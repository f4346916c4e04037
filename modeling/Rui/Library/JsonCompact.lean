import Rui.Library.JsonText

/-!
# Compact JSON

Trees without whitespace, and the texts of their members and elements.
-/

namespace Library.Json

/-- Texts of one kind joined by commas. -/
def commas : List (List UInt8) → List UInt8
  | [] => []
  | text :: texts => text ++ texts.flatMap (ascii ',' :: ·)

theorem commas_cons (text : List UInt8) (texts : List (List UInt8)) :
    commas (text :: texts) =
      text ++ if texts.isEmpty then [] else ascii ',' :: commas texts := by
  cases texts with
  | nil => rfl
  | cons next texts =>
    rw [commas, List.flatMap_cons, List.isEmpty_cons, if_neg Bool.false_ne_true, commas]
    rfl

theorem commas_append {texts : List (List UInt8)} (h : texts ≠ []) (more : List (List UInt8)) :
    commas (texts ++ more) = commas texts ++ more.flatMap (ascii ',' :: ·) := by
  cases texts with
  | nil => exact absurd rfl h
  | cons text texts => rw [List.cons_append, commas, commas, List.flatMap_append, List.append_assoc]

/-- The text of one member, with the whitespace around its parts. -/
def Member.render (member : Member Tree) : List UInt8 :=
  member.lead.bytes ++ quoted member.key ++ member.beforeColon.bytes ++
    ascii ':' :: member.afterColon.bytes ++ member.value.render ++ member.trail.bytes

def Element.render (element : Element Tree) : List UInt8 :=
  element.lead.bytes ++ element.value.render ++ element.trail.bytes

theorem renderMembers_eq (members : List (Member Tree)) :
    renderMembers members = commas (members.map Member.render) := by
  induction members with
  | nil => rw [renderMembers, List.map_nil, commas]
  | cons member members ih =>
    rw [renderMembers, List.map_cons, commas_cons, List.isEmpty_map, ih]
    rfl

theorem renderElements_eq (elements : List (Element Tree)) :
    renderElements elements = commas (elements.map Element.render) := by
  induction elements with
  | nil => rw [renderElements, List.map_nil, commas]
  | cons element elements ih =>
    rw [renderElements, List.map_cons, commas_cons, List.isEmpty_map, ih]
    rfl

/-! ## Builders -/

/-- A member without whitespace. -/
def pair (key : List Piece) (value : Tree) : Member Tree := ⟨.none, key, .none, .none, value, .none⟩

def object (members : List (Member Tree)) : Tree := .object .none members

def array (elements : List Tree) : Tree := .array .none (elements.map (⟨.none, ·, .none⟩))

theorem pair_render (key : List Piece) (value : Tree) :
    (pair key value).render = quoted key ++ ascii ':' :: value.render := by
  simp only [Member.render, pair, Space.none, List.nil_append, List.append_nil, List.append_assoc,
    List.cons_append]

theorem object_render (members : List (Member Tree)) :
    (object members).render = ascii '{' :: (commas (members.map Member.render) ++ [ascii '}']) := by
  rw [object, Tree.render, renderMembers_eq]
  rfl

theorem array_render (elements : List Tree) :
    (array elements).render = ascii '[' :: (commas (elements.map Tree.render) ++ [ascii ']']) := by
  have hrender : ∀ tree : Tree, Element.render ⟨.none, tree, .none⟩ = tree.render := by
    intro tree
    rw [Element.render, Space.none, List.nil_append, List.append_nil]
  have hmap : (elements.map (⟨.none, ·, .none⟩)).map Element.render = elements.map Tree.render := by
    rw [List.map_map]
    exact List.map_congr_left fun tree _ => hrender tree
  rw [array, Tree.render, renderElements_eq, hmap]
  rfl

end Library.Json
