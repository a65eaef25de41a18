import HookScript.Document.Xml.Tree

/-!
Elements as their events write them. Building goes through the events of an element as through the element at once,
and it ends with the first element that is complete.
-/

namespace HookScript.Xml

inductive Node where
  | element (name : List UInt8) (attributes : List (String × String)) (content : List Node)
  | empty (name : List UInt8) (attributes : List (String × String))
  | text (text : String)
  | cdata (text : String)
  | ignored

namespace Node

def label? : Node → Option String
  | element name _ _ | empty name _ => some (localName name)
  | text _ | cdata _ | ignored => none

/-- Text that is not blank, or character data. -/
def run? : Node → Option String
  | text s => if Text.isAllBlank s then none else some s
  | cdata s => some s
  | element _ _ _ | empty _ _ | ignored => none

def attributes : Node → List (String × String)
  | element _ attributes _ | empty _ attributes => attributes
  | text _ | cdata _ | ignored => []

def content : Node → List Node
  | element _ _ content => content
  | empty _ _ | text _ | cdata _ | ignored => []

def at? (node : Node) : List Nat → Option Node
  | [] => some node
  | i :: path => node.content[i]?.bind (·.at? path)

mutual

def events : Node → List Event
  | element name attributes content => .start name attributes :: (contentEvents content ++ [.finish])
  | empty name attributes => [.empty name attributes]
  | text s => [.text s]
  | cdata s => [.cdata s]
  | ignored => [.ignored]

def contentEvents : List Node → List Event
  | [] => []
  | node :: rest => node.events ++ contentEvents rest

end

/-- The properties of an element once the node, whose own properties are `own`, has come into it. -/
def putInto (own properties : Table Document) (node : Node) : Table Document :=
  match node.run?, node.label? with
  | some s, _ => properties.insert textKey (.string s)
  | none, some label => attach properties label (document own)
  | none, none => properties

mutual

def properties : Node → Table Document
  | element _ attributes content => withContent (ofAttributes attributes) content
  | empty _ attributes => ofAttributes attributes
  | text _ | cdata _ | ignored => .empty

def withContent (properties : Table Document) : List Node → Table Document
  | [] => properties
  | node :: rest => withContent (node.putInto node.properties properties) rest

end

end Node

def OpenElement.holding (element : OpenElement) (content : List Node) : OpenElement :=
  { element with properties := Node.withContent element.properties content }

mutual

theorem build_events : (node : Node) → (element : OpenElement) → (around : List OpenElement) → (rest : List Event) →
    build (node.events ++ rest) (element :: around) = build rest (element.holding [node] :: around)
  | .element name attributes content, element, around, rest => by
    have inside := build_contentEvents content ⟨name, ofAttributes attributes⟩ (element :: around)
      (.finish :: rest)
    simp only [Node.events, List.cons_append, List.append_assoc, List.nil_append, build] at inside ⊢
    rw [inside]
    rfl
  | .empty name attributes, element, around, rest => rfl
  | .text s, element, around, rest => by
    simp only [Node.events, List.cons_append, List.nil_append, build, OpenElement.holding, Node.withContent,
      Node.putInto, Node.run?]
    split <;> rfl
  | .cdata s, element, around, rest => rfl
  | .ignored, element, around, rest => rfl

theorem build_contentEvents : (content : List Node) → (element : OpenElement) → (around : List OpenElement) →
    (rest : List Event) →
    build (Node.contentEvents content ++ rest) (element :: around) = build rest (element.holding content :: around)
  | [], element, around, rest => rfl
  | node :: others, element, around, rest => by
    rw [Node.contentEvents, List.append_assoc, build_events node element, build_contentEvents others]
    rfl

end

/-! The first element of a document -/

def Event.Outside : Event → Prop
  | .text _ | .cdata _ | .ignored => True
  | .start _ _ | .empty _ _ | .finish | .malformed _ => False

structure FirstElement (before : List Event) (root : Node) (after events : List Event) : Prop where
  outside : ∀ event ∈ before, event.Outside
  isElement : root.label?.isSome
  events_eq : events = before ++ (root.events ++ after)

variable {before after part : List Event} {root : Node} {document : Document}

theorem build_outside (outside : ∀ event ∈ before, event.Outside) (rest : List Event) :
    build (before ++ rest) [] = build rest [] := by
  induction before with
  | nil => rfl
  | cons event others ih =>
    obtain ⟨here, there⟩ := List.forall_mem_cons.1 outside
    cases event with
    | text | cdata | ignored => exact ih there
    | start | empty | finish | malformed => exact here.elim

theorem FirstElement.build_eq {events : List Event} (first : FirstElement before root after events) :
    build events [] = .ok (Xml.document root.properties) := by
  rw [first.events_eq, build_outside first.outside]
  cases root with
  | element name attributes content =>
    have inside := build_contentEvents content ⟨name, ofAttributes attributes⟩ [] (.finish :: after)
    simp only [Node.events, List.cons_append, List.append_assoc, List.nil_append, build] at inside ⊢
    rw [inside]
    rfl
  | empty name attributes => rfl
  | text | cdata | ignored => cases first.isElement

/-! An element that is cut off before its end -/

mutual

theorem build_cut_off : (node : Node) → {part : List Event} → part <+: node.events → part ≠ node.events →
    (around : List OpenElement) → build part around = .error .unexpectedEnd
  | .element name attributes content, part, cut, before, around => by
    rcases List.prefix_cons_iff.1 cut with rfl | ⟨part, rfl, begun⟩
    · rfl
    · have inside := (List.prefix_concat_iff.1 begun).resolve_left fun whole => before (congrArg _ whole)
      exact build_cut_off_content content inside ⟨name, ofAttributes attributes⟩ around
  | .empty _ _, part, cut, before, around | .text _, part, cut, before, around | .cdata _, part, cut, before, around
  | .ignored, part, cut, before, around => by
    rcases List.prefix_cons_iff.1 cut with rfl | ⟨part, rfl, begun⟩
    · rfl
    · exact absurd (congrArg _ (List.prefix_nil.1 begun)) before

theorem build_cut_off_content : (content : List Node) → {part : List Event} → part <+: Node.contentEvents content →
    (element : OpenElement) → (around : List OpenElement) → build part (element :: around) = .error .unexpectedEnd
  | [], part, cut, element, around => by
    rw [List.prefix_nil.1 cut]
    rfl
  | node :: others, part, cut, element, around => by
    rcases List.prefix_or_prefix_of_prefix cut (List.prefix_append node.events _) with within | ⟨more, rfl⟩
    · by_cases whole : part = node.events
      · rw [whole, ← List.append_nil node.events, build_events]
        rfl
      · exact build_cut_off node within whole _
    · have cut := (List.prefix_append_right_inj _).1 cut
      rw [build_events]
      exact build_cut_off_content others cut _ around

end

/-! The tree behind the events -/

mutual

theorem Node.events_append_inj : (node node' : Node) → {rest rest' : List Event} →
    node.events ++ rest = node'.events ++ rest' → node = node' ∧ rest = rest'
  | .element name attributes content, node', rest, rest', same => by
    cases node' with
    | element name' attributes' content' =>
      simp only [Node.events, List.cons_append, List.append_assoc, List.nil_append, List.cons.injEq,
        Event.start.injEq] at same
      obtain ⟨⟨rfl, rfl⟩, inside⟩ := same
      obtain ⟨rfl, rfl⟩ := contentEvents_append_inj content content' inside
      exact ⟨rfl, rfl⟩
    | empty | text | cdata | ignored => cases same
  | .empty _ _, node', rest, rest', same | .text _, node', rest, rest', same | .cdata _, node', rest, rest', same
  | .ignored, node', rest, rest', same => by
    cases node' <;> cases same
    exact ⟨rfl, rfl⟩

theorem Node.contentEvents_append_inj : (content content' : List Node) → {rest rest' : List Event} →
    contentEvents content ++ .finish :: rest = contentEvents content' ++ .finish :: rest' →
      content = content' ∧ rest = rest'
  | [], [], rest, rest', same => ⟨rfl, (List.cons.inj same).2⟩
  | [], node' :: _, rest, rest', same | node' :: _, [], rest, rest', same => by cases node' <;> cases same
  | node :: others, node' :: others', rest, rest', same => by
    simp only [contentEvents, List.append_assoc] at same
    obtain ⟨rfl, later⟩ := Node.events_append_inj node node' same
    obtain ⟨rfl, rfl⟩ := contentEvents_append_inj others others' later
    exact ⟨rfl, rfl⟩

end

theorem FirstElement.build_cut_off {events : List Event} (first : FirstElement before root after events)
    (cut : part <+: before ++ root.events) (short : part ≠ before ++ root.events) :
    build part [] = .error .unexpectedEnd := by
  rcases List.prefix_or_prefix_of_prefix cut (List.prefix_append before _) with within | ⟨more, rfl⟩
  · rw [← List.append_nil part, build_outside fun event mem => first.outside event (within.subset mem)]
    rfl
  · rw [build_outside first.outside]
    exact Xml.build_cut_off root ((List.prefix_append_right_inj _).1 cut) (fun whole => short (congrArg _ whole)) []

/-! Accepted events -/

theorem exists_content_of_build {events : List Event} {element : OpenElement} {around : List OpenElement}
    (accepted : build events (element :: around) = .ok document) :
    ∃ content after, events = Node.contentEvents content ++ .finish :: after := by
  induction size : events.length using Nat.strongRecOn generalizing events element around with
  | ind count ih =>
    have further (node : Node) (rest : List Event) (split : events = node.events ++ rest)
        (less : rest.length < count) :
        ∃ content after, events = Node.contentEvents content ++ .finish :: after := by
      rw [split, build_events] at accepted
      obtain ⟨content, after, is⟩ := ih _ less accepted rfl
      exact ⟨node :: content, after, by rw [split, is, Node.contentEvents, List.append_assoc]⟩
    cases events with
    | nil => cases accepted
    | cons event rest =>
      have less : rest.length < count := size ▸ Nat.lt_succ_self _
      cases event with
      | malformed => cases accepted
      | ignored => exact further .ignored rest rfl less
      | text s => exact further (.text s) rest rfl less
      | cdata s => exact further (.cdata s) rest rfl less
      | empty name attributes => exact further (.empty name attributes) rest rfl less
      | start name attributes =>
        have inside : build rest (⟨name, ofAttributes attributes⟩ :: element :: around) = .ok document := accepted
        obtain ⟨content, after, rfl⟩ := ih _ less inside rfl
        refine further (.element name attributes content) after ?_ ?_
        · simp only [Node.events, List.cons_append, List.append_assoc, List.nil_append]
        · simp only [List.length_append, List.length_cons] at less
          omega
      | finish => exact ⟨[], rest, rfl⟩

theorem exists_first_of_build {events : List Event} (accepted : build events [] = .ok document) :
    ∃ before root after, FirstElement before root after events := by
  induction events with
  | nil => cases accepted
  | cons event rest ih =>
    have further (here : event.Outside) (accepted : build rest [] = .ok document) :
        ∃ before root after, FirstElement before root after (event :: rest) := by
      obtain ⟨before, root, after, outside, isElement, rfl⟩ := ih accepted
      exact ⟨event :: before, root, after, List.forall_mem_cons.2 ⟨here, outside⟩, isElement, rfl⟩
    cases event with
    | malformed | finish => cases accepted
    | ignored | text | cdata => exact further trivial accepted
    | empty name attributes => exact ⟨[], .empty name attributes, rest, List.forall_mem_nil _, rfl, rfl⟩
    | start name attributes =>
      obtain ⟨content, after, rfl⟩ := exists_content_of_build accepted
      refine ⟨[], .element name attributes content, after, List.forall_mem_nil _, rfl, ?_⟩
      simp only [Node.events, List.cons_append, List.append_assoc, List.nil_append]

/-! Well-nested events -/

end HookScript.Xml
