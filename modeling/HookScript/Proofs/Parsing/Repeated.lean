import HookScript.Proofs.Parsing.Grammar
import HookScript.Proofs.Parsing.Taken

/-!
Names that are declared once more in a scope. The complaint is made where the parser has come by then: right after the
name of a variable or of a function, but at the end of the list after a parameter, since the names of a list are
declared when all of it has been read.
-/

namespace HookScript

structure RepeatsAt (names : List String) (i : Nat) (name : String) : Prop where
  here : names[i]? = some name
  again : name ∈ names.take i
  first : (names.take i).Nodup

/-- The tokens of a declaration that is refused, up to where the complaint is made: its line, and the name that it is
about. A parameter that has been in the list before may stand on a line of its own. -/
inductive Redeclares : List (Token × Nat) → Nat → String → Prop
  | name {word before line name} (declares : word ∈ [.varWord, .functionWord]) :
    Redeclares [(.ofKind word, before), (⟨.identifier, name⟩, line)] line name
  | parameter {opening list : List (Token × Nat)} {called : Option String} {names i name own line}
    (opens : opening.map Prod.fst = .ofKind .functionWord :: (called.map (⟨.identifier, ·⟩)).toList)
    (spelled : list.map Prod.fst = .ofKind .leftParen :: parameterTokens names) (repeats : RepeatsAt names i name)
    (place : list[2 * i + 1]? = some (⟨.identifier, name⟩, own))
    (closes : list.getLast? = some (.ofKind .rightParen, line)) : Redeclares (opening ++ list) line name

namespace RepeatsAt

variable {names : List String} {i j : Nat} {name other : String}

theorem ne_nil (repeats : RepeatsAt names i name) : names ≠ [] := by
  rintro rfl
  cases repeats.here

theorem take_succ (repeats : RepeatsAt names i name) : names.take (i + 1) = names.take i ++ [name] := by
  rw [List.take_add_one, repeats.here]
  rfl

theorem not_nodup (repeats : RepeatsAt names i name) (more : i < j) : ¬(names.take j).Nodup := by
  intro distinct
  have sub : (names.take (i + 1)).Sublist (names.take j) := by
    rw [← Nat.min_eq_left (show i + 1 ≤ j from more), ← List.take_take]
    exact List.take_sublist ..
  have both := distinct.sublist sub
  rw [repeats.take_succ] at both
  exact (List.nodup_append.1 both).2.2 name repeats.again name (List.mem_singleton.2 rfl) rfl

theorem unique (repeats : RepeatsAt names i name) (others : RepeatsAt names j other) : i = j ∧ name = other := by
  have same : i = j := by
    rcases Nat.lt_trichotomy i j with less | same | more
    · exact absurd others.first (repeats.not_nodup less)
    · exact same
    · exact absurd repeats.first (others.not_nodup more)
  subst same
  exact ⟨rfl, Option.some.inj (repeats.here.symm.trans others.here)⟩

end RepeatsAt

theorem getElem?_parameterTokens {names : List String} {i : Nat} {name : String} (here : names[i]? = some name) :
    (parameterTokens names)[2 * i]? = some ⟨.identifier, name⟩ := by
  induction names using parameterTokens.induct generalizing i with
  | case1 => cases here
  | case2 only =>
    cases i with
    | zero =>
      cases here
      rfl
    | succ i => cases here
  | case3 first rest more ih =>
    rw [parameterTokens.eq_3 _ _ more]
    cases i with
    | zero =>
      cases here
      rfl
    | succ i => exact ih here

namespace Parser

structure Stands (p : Parser) (next : List (Token × Nat)) (line : Nat) (scopes : ScopeStack) : Prop where
  next : next.map .ofToken <+: p.ahead.pending
  synced : p.Synced
  line_eq : p.ahead.line = line
  scopes_eq : p.scopes = scopes

section

variable {α β : Type} {act : Parsing α} {rest : α → Parsing β} {p q : Parser} {a : α} {e : ParseError}

theorem bind_ok (ran : act p = .ok a q) : (act >>= rest) p = rest a q := by
  simp only [Bind.bind, EStateM.bind, ran]

theorem bind_error (failed : act p = .error e q) : (act >>= rest) p = .error e q := by
  simp only [Bind.bind, EStateM.bind, failed]

theorem inScope_error (failed : act { p with scopes := p.scopes.begin } = .error e q) :
    ∃ r, inScope act p = .error e r := by
  simp only [inScope, failed]
  exact ⟨_, rfl⟩

theorem inMethod_error (failed : act { p with scopes := p.scopes.forMethod } = .error e q) :
    ∃ r, inMethod act p = .error e r := by
  simp only [inMethod, failed]
  exact ⟨_, rfl⟩

end

variable {p : Parser} {t : Token × Nat} {rest : List (Token × Nat)} {line : Nat} {scopes : ScopeStack}

theorem Stands.take (stands : p.Stands (t :: rest) line scopes) :
    ∃ q, Parser.take p = .ok t.1 q ∧ q.Stands rest t.2 scopes := by
  obtain ⟨⟨later, next⟩, synced, -, rfl⟩ := stands
  obtain ⟨⟨⟨scans, reached⟩, held⟩, scopes, steps⟩ := p
  cases held with
  | some front =>
    obtain ⟨same, next⟩ := List.cons.inj next
    cases Scan.ofToken_injective same
    exact ⟨_, rfl, ⟨later, next⟩, fun _ => nofun, synced t rfl, rfl⟩
  | none =>
    cases next
    exact ⟨_, rfl, ⟨later, rfl⟩, fun _ => nofun, rfl, rfl⟩

theorem Stands.expect {kinds : List TokenKind} (stands : p.Stands (t :: rest) line scopes) (known : t.1.kind ∈ kinds) :
    ∃ q, Parser.expect kinds p = .ok t.1 q ∧ q.Stands rest t.2 scopes := by
  obtain ⟨q, ran, stands⟩ := stands.take
  refine ⟨q, ?_, stands⟩
  rw [Parser.expect, bind_ok ran, if_pos known]
  rfl

theorem Stands.expectWord {kind : TokenKind} {on : Nat} (stands : p.Stands ((.ofKind kind, on) :: rest) line scopes)
    (kinds : List TokenKind) (known : kind ∈ kinds) :
    ∃ q, Parser.expect kinds p = .ok (.ofKind kind) q ∧ q.Stands rest on scopes := stands.expect known

theorem Stands.identifier {name : String} {on : Nat}
    (stands : p.Stands ((⟨.identifier, name⟩, on) :: rest) line scopes) :
    ∃ q, Parser.identifier p = .ok name q ∧ q.Stands rest on scopes := by
  obtain ⟨q, ran, stands⟩ := stands.expect (List.mem_singleton.mpr rfl)
  refine ⟨q, ?_, stands⟩
  rw [Parser.identifier, bind_ok ran]
  rfl

theorem Stands.peek (stands : p.Stands (t :: rest) line scopes) :
    ∃ q, peekKind p = .ok t.1.kind q ∧ q.Stands (t :: rest) t.2 scopes := by
  obtain ⟨⟨later, next⟩, synced, -, rfl⟩ := stands
  obtain ⟨⟨⟨scans, reached⟩, held⟩, scopes, steps⟩ := p
  cases held with
  | some front =>
    obtain ⟨same, next⟩ := List.cons.inj next
    cases Scan.ofToken_injective same
    exact ⟨_, rfl, ⟨later, congrArg _ next⟩, synced, rfl, rfl⟩
  | none =>
    cases next
    refine ⟨_, rfl, ⟨later, rfl⟩, fun u held => ?_, rfl, rfl⟩
    cases held
    rfl

theorem Stands.declare {name : String} (stands : p.Stands rest line scopes) (known : name ∈ scopes.innermost) :
    Parser.declare name p = .error (.malformed line (.redeclared name)) p := by
  obtain ⟨-, -, rfl, rfl⟩ := stands
  simp only [Parser.declare, ScopeStack.declare?, if_pos known]
  rfl

theorem declareAll_cases (names : List String) (p : Parser) :
    (∃ q, declareAll names p = .ok () q ∧ q.ahead = p.ahead ∧ q.steps = p.steps ∧
      names.Nodup ∧ ∀ name ∈ names, name ∉ p.scopes.innermost) ∨
    ∃ q i name, declareAll names p = .error (.malformed p.ahead.line (.redeclared name)) q ∧ q.ahead = p.ahead ∧
      q.steps = p.steps ∧ names[i]? = some name ∧ (name ∈ names.take i ∨ name ∈ p.scopes.innermost) ∧
      (names.take i).Nodup ∧ ∀ name ∈ names.take i, name ∉ p.scopes.innermost := by
  induction names generalizing p with
  | nil => exact .inl ⟨p, rfl, rfl, rfl, .nil, nofun⟩
  | cons first others ih =>
    rcases p.scopes.declare?_cases first with ⟨known, failed⟩ | ⟨new, scopes, declared, visible⟩
    · refine .inr ⟨p, 0, first, ?_, rfl, rfl, rfl, .inr known, .nil, nofun⟩
      simp only [declareAll, Bind.bind, EStateM.bind, Parser.declare, failed]
      rfl
    · have innermost : scopes.innermost = first :: p.scopes.innermost := by
        rw [ScopeStack.visible_eq_cons] at visible
        exact (List.cons.inj visible).1
      have step : declareAll (first :: others) p = declareAll others { p with scopes } := by
        simp only [declareAll, Bind.bind, EStateM.bind, Parser.declare, declared]
      have apart {name : String} (free : name ∉ scopes.innermost) : name ≠ first ∧ name ∉ p.scopes.innermost := by
        rw [innermost, List.mem_cons, not_or] at free
        exact free
      rcases ih { p with scopes } with ⟨q, ran, ahead, steps, distinct, free⟩ |
        ⟨q, i, name, failed, ahead, steps, here, again, distinct, free⟩
      · refine .inl ⟨q, step.trans ran, ahead, steps, List.nodup_cons.2 ⟨fun among => ?_, distinct⟩, ?_⟩
        · exact (apart (free first among)).1 rfl
        · exact List.forall_mem_cons.2 ⟨new, fun name among => (apart (free name among)).2⟩
      · refine .inr ⟨q, i + 1, name, step.trans failed, ahead, steps, here, ?_, ?_, ?_⟩
        · rcases again with before | known
          · exact .inl (List.mem_cons_of_mem _ before)
          · rw [innermost] at known
            rcases List.mem_cons.1 known with rfl | known
            · exact .inl List.mem_cons_self
            · exact .inr known
        · exact List.nodup_cons.2 ⟨fun among => (apart (free first among)).1 rfl, distinct⟩
        · exact List.forall_mem_cons.2 ⟨new, fun name among => (apart (free name among)).2⟩

theorem declareAll_of_fresh (names : List String) (fresh : p.scopes.innermost = []) :
    (∃ q, declareAll names p = .ok () q ∧ q.ahead = p.ahead ∧ q.steps = p.steps ∧ names.Nodup) ∨
    ∃ q i name, declareAll names p = .error (.malformed p.ahead.line (.redeclared name)) q ∧ q.ahead = p.ahead ∧
      q.steps = p.steps ∧ RepeatsAt names i name := by
  rcases declareAll_cases names p with ⟨q, ran, ahead, steps, distinct, -⟩ |
    ⟨q, i, name, failed, ahead, steps, here, again, distinct, -⟩
  · exact .inl ⟨q, ran, ahead, steps, distinct⟩
  · rw [fresh] at again
    exact .inr ⟨q, i, name, failed, ahead, steps, here, again.resolve_right nofun, distinct⟩

theorem Stands.parameterNames {names : List String} {n : Nat} {list : List (Token × Nat)} {close : Token × Nat}
    (some : names ≠ []) (enough : names.length ≤ n) (spelled : list.map Prod.fst = parameterTokens names)
    (closes : list.getLast? = Option.some close) (stands : p.Stands list line scopes) :
    ∃ q, Parser.parameterNames n p = .ok names q ∧ q.Stands [] close.2 scopes := by
  induction names generalizing n list p line with
  | nil => exact absurd rfl some
  | cons name others ih =>
    obtain ⟨n, rfl⟩ : ∃ k, n = k + 1 := ⟨n - 1, by rw [List.length_cons] at enough; omega⟩
    cases others with
    | nil =>
      obtain ⟨⟨_, on⟩, list, rfl, rfl, later⟩ := List.map_eq_cons_iff.1 spelled
      obtain ⟨⟨_, last⟩, list, rfl, rfl, nothing⟩ := List.map_eq_cons_iff.1 later
      cases List.map_eq_nil_iff.1 nothing
      cases closes
      obtain ⟨q, named, stands⟩ := stands.identifier
      obtain ⟨r, closed, stands⟩ := stands.expectWord [.comma, .rightParen] (by decide)
      refine ⟨r, ?_, stands⟩
      rw [Parser.parameterNames, bind_ok named, bind_ok closed]
      rfl
    | cons second others =>
      obtain ⟨⟨_, on⟩, list, rfl, rfl, later⟩ := List.map_eq_cons_iff.1 spelled
      obtain ⟨⟨_, comma⟩, list, rfl, rfl, inner⟩ := List.map_eq_cons_iff.1 later
      have closes : list.getLast? = Option.some close := by
        cases list with
        | nil => cases others <;> cases inner
        | cons => rwa [List.getLast?_cons_cons, List.getLast?_cons_cons] at closes
      obtain ⟨q, named, stands⟩ := stands.identifier
      obtain ⟨r, separated, stands⟩ := stands.expectWord [.comma, .rightParen] (by decide)
      obtain ⟨s, ran, stands⟩ := ih nofun (Nat.le_of_succ_le_succ enough) inner closes stands
      refine ⟨s, ?_, stands⟩
      have noClose : (Token.ofKind .comma).kind ≠ .rightParen := by decide
      rw [Parser.parameterNames, bind_ok named, bind_ok separated, if_neg noClose, bind_ok ran]
      rfl

theorem Stands.parameters {names : List String} {n : Nat} {list : List (Token × Nat)} {close : Token × Nat}
    (some : names ≠ []) (enough : names.length ≤ n)
    (spelled : list.map Prod.fst = .ofKind .leftParen :: parameterTokens names)
    (closes : list.getLast? = Option.some close)
    (stands : p.Stands list line scopes) :
    ∃ q, Parser.parameters n p = .ok names q ∧ q.Stands [] close.2 scopes := by
  obtain ⟨⟨_, on⟩, list, rfl, rfl, inner⟩ := List.map_eq_cons_iff.1 spelled
  obtain ⟨q, opened, stands⟩ := stands.expectWord [.leftParen] (by decide)
  obtain ⟨first, list, rfl⟩ : ∃ first others, list = first :: others := by
    cases list with
    | nil => cases names with
      | nil => cases inner
      | cons name others => cases others <;> cases inner
    | cons first others => exact ⟨first, others, rfl⟩
  have isName : first.1.kind ≠ .rightParen := by
    cases names with
    | nil => exact absurd rfl some
    | cons name others =>
      have same : first.1 = ⟨.identifier, name⟩ := by
        cases others <;> exact (List.cons.inj inner).1
      rw [same]
      rintro ⟨⟩
  rw [List.getLast?_cons_cons] at closes
  obtain ⟨r, looked, stands⟩ := stands.peek
  obtain ⟨s, ran, stands⟩ := stands.parameterNames some enough inner closes
  refine ⟨s, ?_, stands⟩
  rw [Parser.parameters, bind_ok opened, bind_ok looked, if_neg isName, ran]

theorem innermost_begin (stack : ScopeStack) : stack.begin.innermost = [] := by
  have visible := stack.visible_begin
  rw [ScopeStack.visible_eq_cons] at visible
  exact (List.cons.inj visible).1

theorem Stands.declareAll {names : List String} {i : Nat} {name : String} (stands : p.Stands rest line scopes)
    (fresh : scopes.innermost = []) (repeats : RepeatsAt names i name) :
    ∃ q, Parser.declareAll names p = .error (.malformed line (.redeclared name)) q := by
  obtain ⟨-, -, rfl, rfl⟩ := stands
  rcases declareAll_of_fresh names fresh with ⟨q, -, -, -, distinct⟩ | ⟨q, j, other, failed, -, -, found⟩
  · have whole : (names.take names.length).Nodup := by rwa [List.take_length]
    exact absurd whole (repeats.not_nodup (List.getElem?_eq_some_iff.1 repeats.here).1)
  · rw [(repeats.unique found).2]
    exact ⟨q, failed⟩

theorem Stands.declareNew {name : String} (stands : p.Stands rest line scopes) (new : name ∉ scopes.innermost) :
    ∃ q scopes', Parser.declare name p = .ok () q ∧ q.Stands rest line scopes' := by
  obtain ⟨next, synced, rfl, rfl⟩ := stands
  rcases p.scopes.declare?_cases name with ⟨known, -⟩ | ⟨-, scopes', declared, -⟩
  · exact absurd known new
  · exact ⟨{ p with scopes := scopes' }, scopes', by simp only [Parser.declare, declared], next, synced, rfl, rfl⟩

theorem Stands.withScopes (stands : p.Stands rest line scopes) (others : ScopeStack) :
    Parser.Stands { p with scopes := others } rest line others :=
  ⟨stands.next, stands.synced, stands.line_eq, rfl⟩

structure Refuses (p : Parser) (n : Nat) : Prop where
  variableName {before on line name}
    (stands : p.Stands [(.ofKind .varWord, before), (⟨.identifier, name⟩, on)] line p.scopes)
    (known : name ∈ p.scopes.innermost) :
    ∃ q, variableDeclaration (n + 1) p = .error (.malformed on (.redeclared name)) q
  functionName {before on line name}
    (stands : p.Stands [(.ofKind .functionWord, before), (⟨.identifier, name⟩, on)] line p.scopes)
    (known : name ∈ p.scopes.innermost) : ∃ q, function (n + 1) p = .error (.malformed on (.redeclared name)) q
  functionParameter {before on line called names i name close} {list : List (Token × Nat)}
    (stands : p.Stands ((.ofKind .functionWord, before) :: (⟨.identifier, called⟩, on) :: list) line p.scopes)
    (new : called ∉ p.scopes.innermost) (spelled : list.map Prod.fst = .ofKind .leftParen :: parameterTokens names)
    (enough : names.length ≤ n) (repeats : RepeatsAt names i name)
    (closes : list.getLast? = some (.ofKind .rightParen, close)) :
    ∃ q, function (n + 1) p = .error (.malformed close (.redeclared name)) q
  methodParameter {before line names i name close} {list : List (Token × Nat)}
    (stands : p.Stands ((.ofKind .functionWord, before) :: list) line p.scopes)
    (spelled : list.map Prod.fst = .ofKind .leftParen :: parameterTokens names)
    (enough : names.length ≤ n) (repeats : RepeatsAt names i name)
    (closes : list.getLast? = some (.ofKind .rightParen, close)) :
    ∃ q, primary (n + 1) p = .error (.malformed close (.redeclared name)) q

theorem refuses (p : Parser) (n : Nat) : p.Refuses n where
  variableName stands known := by
    obtain ⟨q, opened, stands⟩ := stands.expectWord [.varWord] (by decide)
    obtain ⟨r, named, stands⟩ := stands.identifier
    refine ⟨r, ?_⟩
    rw [variableDeclaration, bind_ok opened, bind_ok named, bind_error (stands.declare known)]
  functionName stands known := by
    obtain ⟨q, opened, stands⟩ := stands.expectWord [.functionWord] (by decide)
    obtain ⟨r, named, stands⟩ := stands.identifier
    refine ⟨r, ?_⟩
    rw [function, bind_ok opened, bind_ok named, bind_error (stands.declare known)]
  functionParameter stands new spelled enough repeats closes := by
    obtain ⟨q, opened, stands⟩ := stands.expectWord [.functionWord] (by decide)
    obtain ⟨r, named, stands⟩ := stands.identifier
    obtain ⟨s, scopes, declared, stands⟩ := stands.declareNew new
    obtain ⟨t, listed, stands⟩ := (stands.withScopes s.scopes.begin).parameters repeats.ne_nil enough spelled closes
    obtain ⟨u, refused⟩ := stands.declareAll (innermost_begin _) repeats
    rw [function, bind_ok opened, bind_ok named, bind_ok declared]
    exact inScope_error ((bind_ok listed).trans (bind_error refused))
  methodParameter stands spelled enough repeats closes := by
    obtain ⟨q, opened, stands⟩ := stands.take
    obtain ⟨r, listed, stands⟩ := stands.parameters repeats.ne_nil enough spelled closes
    obtain ⟨s, refused⟩ := (stands.withScopes r.scopes.forMethod.begin).declareAll (innermost_begin _) repeats
    have body : (Parser.declareAll _ >>= fun _ => block n) _ = .error _ s := bind_error refused
    obtain ⟨t, inner⟩ := inScope_error (p := { r with scopes := r.scopes.forMethod }) body
    obtain ⟨u, failed⟩ := inMethod_error inner
    refine ⟨u, ?_⟩
    rw [primary, bind_ok opened]
    exact (bind_ok listed).trans (bind_error failed)

end Parser

end HookScript
