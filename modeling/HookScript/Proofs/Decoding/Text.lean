import Mathlib
import HookScript.Proofs.Contents.Documents
import HookScript.Proofs.Decoding.Parts
import HookScript.World

/-!
The text of elements. A run of text replaces what has come before it under the key for text, so an element in which
something stands between two runs keeps only the later one.
-/

namespace HookScript.Xml

/-- What an accepted document has under each name, for each of its elements. Under the key for text that is the last
one of the runs that stand directly in the element, together with the child elements of that name after it. -/
theorem last_run_of_build {events : List Event} {document : Document} (accepted : build events [] = .ok document) :
    ∃ before root after, FirstElement before root after events ∧ document = Xml.document root.properties ∧
      ∀ path node, root.at? path = some node → node.label?.isSome →
        (∀ name, node.properties.get? name = together (node.parts name)) ∧
        ((∀ child ∈ node.content, child.label? ≠ some textKey) →
          node.properties.get? textKey = node.runs.getLast?.map Document.string) := by
  obtain ⟨before, root, after, first⟩ := exists_first_of_build accepted
  refine ⟨before, root, after, first, ?_, fun path node _ isElement => ⟨?_, fun noChild => ?_⟩⟩
  · exact Except.ok.inj (accepted.symm.trans first.build_eq)
  · exact Node.get?_properties isElement
  · rw [Node.get?_properties isElement, Node.parts_textKey noChild]
    cases node.runs.getLast? <;> rfl

/-- A comment stands between the two runs. -/
theorem last_run_of_comment :
    ∃ (events : List Event) (document : Document),
      events = [.start [0x61] [], .text "x", .ignored, .text "y", .finish] ∧
      build events [] = .ok document ∧ document.at? [.member textKey] = some (.string "y") ∧
      ∃ before root after, FirstElement before root after events ∧ document = Xml.document root.properties ∧
        ∀ path node, root.at? path = some node → node.label?.isSome →
          (∀ name, node.properties.get? name = together (node.parts name)) ∧
          ((∀ child ∈ node.content, child.label? ≠ some textKey) →
            node.properties.get? textKey = node.runs.getLast?.map Document.string) :=
  ⟨_, _, rfl, rfl, rfl, last_run_of_build rfl⟩

/-- Of the two runs in the element only the second one is there, wherever the reader delivers these events of a
body. -/
theorem earlier_run_replaced :
    ∃ (root : Node) (document : Document),
      root.events = [.start [0x61] [], .text "x", .empty [0x62] [], .text "y", .finish] ∧
      (∀ (world : World) (body : List UInt8), world.xml body = root.events →
        world.decode .xml body = .ok document) ∧
      root.runs = ["x", "y"] ∧ document.at? [.member textKey] = some (.string "y") ∧
      ¬"x".toList <:+: "y".toList := by
  let root : Node := .element [0x61] [] [.text "x", .empty [0x62] [], .text "y"]
  have first : FirstElement [] root [] root.events := ⟨List.forall_mem_nil _, rfl, by simp⟩
  have runs : root.runs = ["x", "y"] := rfl
  have label : localName [0x62] = "b" := by cbv
  have noChild : ∀ child ∈ root.content, child.label? ≠ some textKey := by
    simp [root, Node.content, Node.label?, label, textKey]
  refine ⟨root, Xml.document root.properties, rfl, fun world body delivered => ?_, runs, ?_, by decide⟩
  · rw [World.decode, delivered, first.build_eq]
  have inner : root.properties.get? textKey = some (.string "y") := by
    rw [Node.get?_properties rfl, Node.parts_textKey noChild, runs]
    rfl
  simp only [Document.at?, Document.child?, Xml.document, Table.ofList_entries, inner, Option.bind_some]

end HookScript.Xml
