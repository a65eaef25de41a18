import HookScript.Proofs.Contents.Tables
import HookScript.Proofs.Decoding.Elements

/-!
What an element has under each name, told from its content in order. Child elements come together under their
names, and each run of text takes the place of whatever has come before it under the key for text. So of several
runs only the last one is left.
-/

namespace HookScript.Xml

def together : List Document → Option Document
  | [] => none
  | [only] => some only
  | first :: second :: rest => some (.list (first :: second :: rest))

namespace Node

def join (name : String) (parts : List Document) (node : Node) : List Document :=
  match node.run?, node.label? with
  | some s, _ => if name = textKey then [.string s] else parts
  | none, some label => if name = label then parts ++ [document node.properties] else parts
  | none, none => parts

/-- The attributes are there before anything else. -/
def firstPart (node : Node) (name : String) : List Document :=
  if name = attributesKey then
    [document (Table.ofList (node.attributes.map fun entry => (entry.1, Document.string entry.2)))]
  else []

def parts (node : Node) (name : String) : List Document := node.content.foldl (join name) (node.firstPart name)

/-- The text and the character data that stand directly in an element, in order. -/
def runs (node : Node) : List String := node.content.filterMap run?

/-- The child elements with this label, in order. -/
def named (node : Node) (name : String) : List Node := node.content.filter (·.label? = some name)

end Node

def Single (parts : List Document) : Prop := ∀ part ∈ parts, ∀ items, part ≠ .list items

variable {properties : Table Document} {parts : List Document} {name : String}

theorem get?_attach (label : String) (child : Document) (single : Single parts)
    (is : properties.get? label = together parts) :
    (attach properties label child).get? name =
      if name = label then together (parts ++ [child]) else properties.get? name := by
  rw [attach, is]
  match parts, single with
  | [], _ => exact Table.get?_insert _ _ _ _
  | [only], single =>
    have lone := single only List.mem_cons_self
    cases only with
    | list items => exact absurd rfl (lone items)
    | nil | boolean | number | string | object => exact Table.get?_insert _ _ _ _
  | _ :: _ :: _, _ => exact Table.get?_insert _ _ _ _

namespace Node

theorem single_join (single : Single parts) (node : Node) : Single (node.join name parts) := by
  unfold join
  cases node.run? with
  | some s =>
    dsimp only
    split
    · exact fun part mem items => List.mem_singleton.1 mem ▸ nofun
    · exact single
  | none =>
    cases node.label? with
    | none => exact single
    | some label =>
      dsimp only
      split
      · intro part mem items
        rcases List.mem_append.1 mem with old | new
        · exact single part old items
        · exact List.mem_singleton.1 new ▸ nofun
      · exact single

theorem get?_putInto {partsOf : String → List Document} (node : Node)
    (single : ∀ name, Single (partsOf name)) (is : ∀ name, properties.get? name = together (partsOf name)) :
    (node.putInto node.properties properties).get? name = together (node.join name (partsOf name)) := by
  unfold putInto join
  cases node.run? with
  | some s =>
    dsimp only
    rw [Table.get?_insert]
    split
    · rfl
    · exact is name
  | none =>
    cases node.label? with
    | none => exact is name
    | some label =>
      dsimp only
      rw [get?_attach label _ (single label) (is label)]
      split
      · next same => rw [same]
      · exact is name

theorem get?_withContent (content : List Node) {partsOf : String → List Document}
    (single : ∀ name, Single (partsOf name)) (is : ∀ name, properties.get? name = together (partsOf name)) :
    (withContent properties content).get? name = together (content.foldl (join name) (partsOf name)) := by
  induction content generalizing properties partsOf with
  | nil => exact is name
  | cons node rest ih =>
    have joined : ∀ name, Single (node.join name (partsOf name)) := fun name => single_join (single name) node
    have folded := ih joined fun name => node.get?_putInto single is
    exact folded

theorem get?_ofAttributes (node : Node) (name : String) :
    (ofAttributes node.attributes).get? name = together (node.firstPart name) := by
  rw [ofAttributes, Table.get?_insert, firstPart]
  split <;> rfl

theorem single_firstPart (node : Node) (name : String) : Single (node.firstPart name) := by
  unfold firstPart
  split
  · exact fun part mem items => List.mem_singleton.1 mem ▸ nofun
  · exact fun _ mem => nomatch mem

theorem get?_properties {node : Node} (isElement : node.label?.isSome) (name : String) :
    node.properties.get? name = together (node.parts name) := by
  have start := node.get?_ofAttributes
  have single := node.single_firstPart
  cases node with
  | element label attributes content => exact get?_withContent content single start
  | empty label attributes => exact start name
  | text | cdata | ignored => cases isElement

/-! The parts under the different names -/

theorem join_textKey {node : Node} (noChild : node.label? ≠ some textKey) :
    node.join textKey parts = (node.run?.map fun s => [Document.string s]).getD parts := by
  unfold join
  cases node.run? with
  | some s => rfl
  | none =>
    cases label : node.label? with
    | none => rfl
    | some label' => exact if_neg fun same => noChild (label.trans (congrArg some same.symm))

theorem foldl_join_textKey {content : List Node} (noChild : ∀ child ∈ content, child.label? ≠ some textKey)
    (first : List Document) : content.foldl (join textKey) first =
      ((content.filterMap run?).getLast?.map fun s => [Document.string s]).getD first := by
  induction content generalizing first with
  | nil => rfl
  | cons child rest ih =>
    obtain ⟨here, others⟩ := List.forall_mem_cons.1 noChild
    rw [List.foldl_cons, ih others, join_textKey here, List.filterMap_cons]
    cases child.run? with
    | none => rfl
    | some s =>
      dsimp only
      rw [List.getLast?_cons]
      cases (rest.filterMap run?).getLast? <;> rfl

theorem parts_textKey {node : Node} (noChild : ∀ child ∈ node.content, child.label? ≠ some textKey) :
    node.parts textKey = (node.runs.getLast?.map Document.string).toList := by
  rw [parts, foldl_join_textKey noChild, firstPart, if_neg (by decide), runs]
  cases (node.content.filterMap run?).getLast? <;> rfl

end Node

end HookScript.Xml
