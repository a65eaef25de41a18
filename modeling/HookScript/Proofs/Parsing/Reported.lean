import HookScript.Proofs.Parsing.Ended
import HookScript.Proofs.Parsing.Repeated

/-!
Where redeclarations are reported. Whatever rule of the parser complains that a name has been declared before, the
tokens that have been taken by then end with the declaration that is refused.
-/

namespace HookScript

namespace ParseError

def Other (e : ParseError) : Prop := ∀ line name, e ≠ .malformed line (.redeclared name)

theorem other_of_unreadable (failure : ReadFailure) : Other (.unreadable failure) := nofun

theorem other_of_outOfSteps : Other .outOfSteps := nofun

theorem other_of_expected (line : Nat) (kinds : List TokenKind) (token : Token) :
    Other (.malformed line (.expected kinds token)) := nofun

end ParseError

/-- What has been taken ends with a declaration that is refused. -/
def Complains (taken : List Scan) (line : Nat) (name : String) : Prop :=
  ∃ early tokens, taken = early ++ tokens.map .ofToken ∧ Redeclares tokens line name

theorem Complains.after {taken : List Scan} {line : Nat} {name : String} (complains : Complains taken line name)
    (before : List Scan) : Complains (before ++ taken) line name := by
  obtain ⟨early, tokens, rfl, redeclares⟩ := complains
  exact ⟨before ++ early, tokens, (List.append_assoc ..).symm, redeclares⟩

namespace Parser

structure Orderly (p : Parser) : Prop where
  synced : p.Synced
  proper : p.Proper

theorem Orderly.of_took {p q : Parser} {taken : List Scan} (orderly : p.Orderly) (took : p.Took taken q) : q.Orderly :=
  ⟨took.synced orderly.synced, (took.proper orderly.proper).2⟩

theorem took_of_ahead_eq {p q : Parser} (same : q.ahead = p.ahead) (steps : q.steps = p.steps) : p.Took [] q where
  pending := ⟨[], nofun, by rw [same, List.append_nil, List.nil_append]⟩
  lines := by rw [lines, lines, same]
  synced before := by rwa [Synced, same]
  steps := steps

inductive Traced {α : Type} (before : List Scan) (p : Parser) : EStateM.Result ParseError Parser α → Prop
  | ok {a q taken} (took : p.Took taken q) : Traced before p (.ok a q)
  | error {e q taken} (took : p.Took taken q)
    (complaint : ∀ line name, e = .malformed line (.redeclared name) → Complains (before ++ taken) line name) :
    Traced before p (.error e q)

namespace Traced

variable {α : Type} {p q : Parser} {taken : List Scan} {result : EStateM.Result ParseError Parser α}

theorem since {before : List Scan} (took : p.Took taken q) (traced : Traced (before ++ taken) q result) :
    Traced before p result := by
  cases traced with
  | ok took' => exact .ok (took.trans took')
  | error took' complaint =>
    exact .error (took.trans took') fun line name same => List.append_assoc before _ _ ▸ complaint line name same

theorem after (traced : Traced [] p result) (before : List Scan) : Traced before p result := by
  cases traced with
  | ok took => exact .ok took
  | error took complaint => exact .error took fun line name same => (complaint line name same).after before

theorem of_ahead_eq {before : List Scan} (traced : Traced before q result) (same : q.ahead = p.ahead)
    (steps : q.steps = p.steps) : Traced before p result := by
  have here := took_of_ahead_eq same steps
  cases traced with
  | ok took => exact .ok (here.trans took)
  | error took complaint => exact .error (here.trans took) complaint

theorem withScopes {scopes : ScopeStack} {before : List Scan} (traced : Traced before { p with scopes } result)
    (after : Parser → ScopeStack) :
    Traced before p (match result with
      | .ok a q => .ok a { q with scopes := after q }
      | .error e q => .error e { q with scopes := after q }) := by
  cases traced with
  | ok took => exact .ok ⟨took.pending, took.lines, took.synced, took.steps⟩
  | error took complaint => exact .error ⟨took.pending, took.lines, took.synced, took.steps⟩ complaint

end Traced

/-- Wherever it begins, the rule complains about a redeclaration only at its end. -/
def Traces {α : Type} (act : Parsing α) : Prop := ∀ p : Parser, p.Orderly → Traced [] p (act p)

theorem Traced.bind {α β : Type} {before : List Scan} {p : Parser} {act : Parsing α} {rest : α → Parsing β}
    (first : Traced before p (act p)) (orderly : p.Orderly) (second : ∀ a, Traces (rest a)) :
    Traced before p ((act >>= rest) p) := by
  cases ran : act p with
  | ok a q =>
    rw [bind_ok ran]
    rw [ran] at first
    cases first with
    | ok took => exact .since took ((second a q (orderly.of_took took)).after _)
  | error e q =>
    rw [bind_error ran]
    rw [ran] at first
    cases first with
    | error took complaint => exact .error took complaint

structure Lists (p : Parser) (tokens : List Token) (list : List (Token × Nat)) (close : Nat) (q : Parser) : Prop where
  took : p.Took (list.map .ofToken) q
  spelled : list.map Prod.fst = tokens
  closes : list.getLast? = some (.ofKind .rightParen, close)
  line_eq : q.ahead.line = close
  scopes_eq : q.scopes = p.scopes

section Primitives

variable {p : Parser} (orderly : p.Orderly)
include orderly

theorem take_line :
    (∃ t q, take p = .ok t.1 q ∧ p.Took [.ofToken t] q ∧ q.ahead.line = t.2 ∧ q.scopes = p.scopes ∧ t.1.IsProper) ∨
      ∃ e q taken, take p = .error e q ∧ p.Took taken q ∧ e.Other := by
  have ends {t : Token × Nat} {q : Parser} (ran : take p = .ok t.1 q) (took : p.Took [.ofToken t] q)
      (line : q.ahead.line = t.2) (scopes : q.scopes = p.scopes) :
      (∃ t q, take p = .ok t.1 q ∧ p.Took [.ofToken t] q ∧ q.ahead.line = t.2 ∧ q.scopes = p.scopes ∧ t.1.IsProper) ∨
        ∃ e q taken, take p = .error e q ∧ p.Took taken q ∧ e.Other :=
    .inl ⟨t, q, ran, took, line, scopes, (took.proper orderly.proper).1 _ (List.mem_singleton.2 rfl) t rfl⟩
  have synced := orderly.synced
  clear orderly
  obtain ⟨⟨⟨scans, line⟩, held⟩, scopes, steps⟩ := p
  cases held with
  | some t => exact ends (q := ⟨⟨⟨scans, line⟩, none⟩, scopes, steps⟩) rfl (took_discard _ rfl) (synced t rfl) rfl
  | none =>
    cases scans with
    | nil =>
      have spent : ∀ scan ∈ [Scan.ofToken (.ofKind .endOfFile, line)], scan.IsSpent :=
        List.forall_mem_singleton.2 rfl
      exact ends (t := (.ofKind .endOfFile, line)) rfl ⟨⟨_, spent, rfl⟩, List.suffix_refl _, fun _ => nofun, rfl⟩
        rfl rfl
    | cons first rest =>
      obtain ⟨result, reached⟩ := first
      cases result with
      | ok token =>
        exact ends (t := (token, reached)) rfl
          ⟨⟨[], nofun, List.append_nil _⟩, List.suffix_cons _ _, fun _ => nofun, rfl⟩ rfl rfl
      | error failure =>
        exact .inr ⟨_, ⟨⟨⟨rest, reached⟩, none⟩, scopes, steps⟩, [⟨.error failure, reached⟩], rfl,
          ⟨⟨[], nofun, List.append_nil _⟩, List.suffix_cons _ _, fun _ => nofun, rfl⟩,
          ParseError.other_of_unreadable failure⟩

theorem expect_line (kinds : List TokenKind) :
    (∃ t q, expect kinds p = .ok t.1 q ∧ t.1.kind ∈ kinds ∧ p.Took [.ofToken t] q ∧ q.ahead.line = t.2 ∧
      q.scopes = p.scopes ∧ t.1.IsProper) ∨
      ∃ e q taken, expect kinds p = .error e q ∧ p.Took taken q ∧ e.Other := by
  rcases take_line orderly with ⟨t, q, ran, took, line, scopes, proper⟩ | ⟨e, q, taken, failed, took, other⟩
  · by_cases known : t.1.kind ∈ kinds
    · refine .inl ⟨t, q, ?_, known, took, line, scopes, proper⟩
      rw [expect, bind_ok ran, if_pos known]
      rfl
    · refine .inr ⟨_, q, _, ?_, took, ParseError.other_of_expected q.ahead.line kinds t.1⟩
      rw [expect, bind_ok ran, if_neg known]
      rfl
  · exact .inr ⟨e, q, taken, bind_error failed, took, other⟩

theorem expectWord_line (kind : TokenKind) (fixed : kind.Fixed) :
    (∃ line q, expect [kind] p = .ok (.ofKind kind) q ∧ p.Took [.ofToken (.ofKind kind, line)] q ∧ q.ahead.line = line ∧
      q.scopes = p.scopes) ∨
      ∃ e q taken, expect [kind] p = .error e q ∧ p.Took taken q ∧ e.Other := by
  rcases expect_line orderly [kind] with ⟨⟨token, line⟩, q, ran, known, took, reached, scopes, proper⟩ | failed
  · cases proper.eq_ofKind (List.mem_singleton.1 known) fixed
    exact .inl ⟨line, q, ran, took, reached, scopes⟩
  · exact .inr failed

theorem identifier_line :
    (∃ name line q, identifier p = .ok name q ∧ p.Took [.ofToken (⟨.identifier, name⟩, line)] q ∧ q.ahead.line = line ∧
      q.scopes = p.scopes) ∨
      ∃ e q taken, identifier p = .error e q ∧ p.Took taken q ∧ e.Other := by
  rcases expect_line orderly [.identifier] with ⟨⟨⟨kind, name⟩, line⟩, q, ran, known, took, reached, scopes, -⟩ |
    ⟨e, q, taken, failed, took, other⟩
  · cases List.mem_singleton.1 known
    exact .inl ⟨name, line, q, bind_ok ran, took, reached, scopes⟩
  · exact .inr ⟨e, q, taken, bind_error failed, took, other⟩

theorem parameterNames_listed (n : Nat) :
    (∃ names list close q, parameterNames n p = .ok names q ∧ names ≠ [] ∧
      p.Lists (parameterTokens names) list close q) ∨
      ∃ e q taken, parameterNames n p = .error e q ∧ p.Took taken q ∧ e.Other := by
  induction n generalizing p with
  | zero => exact .inr ⟨.outOfSteps, p, [], rfl, .refl p, ParseError.other_of_outOfSteps⟩
  | succ n ih =>
    rw [parameterNames]
    rcases identifier_line orderly with ⟨name, on, q, named, took, -, scopes⟩ | ⟨e, q, taken, failed, took, other⟩
    · have orderly := orderly.of_took took
      rcases expect_line orderly [.comma, .rightParen] with
        ⟨⟨token, line⟩, r, ran, known, took', reached, scopes', proper⟩ | ⟨e, r, taken, failed, took', other⟩
      · rw [bind_ok named, bind_ok ran]
        simp only [List.mem_cons, List.not_mem_nil, or_false] at known
        by_cases isClose : token.kind = .rightParen
        · cases proper.eq_ofKind isClose (by decide)
          exact .inl ⟨[name], [(⟨.identifier, name⟩, on), (.ofKind .rightParen, line)], line, r, rfl,
            List.cons_ne_nil _ _, took.trans took', rfl, rfl, reached, scopes'.trans scopes⟩
        · cases proper.eq_ofKind (known.resolve_right isClose) (by decide)
          rw [if_neg isClose]
          rcases ih (orderly.of_took took') with ⟨names, list, close, s, ran, some, lists⟩ |
            ⟨e, s, taken, failed, took'', other⟩
          · refine .inl ⟨name :: names, (⟨.identifier, name⟩, on) :: (.ofKind .comma, line) :: list, close, s,
              bind_ok ran, List.cons_ne_nil _ _, (took.trans took').trans lists.took, ?_, ?_, lists.line_eq,
              lists.scopes_eq.trans (scopes'.trans scopes)⟩
            · rw [List.map_cons, List.map_cons, lists.spelled, parameterTokens.eq_3 _ _ some]
            · rw [List.getLast?_cons, List.getLast?_cons, lists.closes]
              rfl
          · exact .inr ⟨e, s, _, bind_error failed, (took.trans took').trans took'', other⟩
      · exact .inr ⟨e, r, _, (bind_ok named).trans (bind_error failed), took.trans took', other⟩
    · exact .inr ⟨e, q, taken, bind_error failed, took, other⟩

theorem parameters_listed (n : Nat) :
    (∃ names list close q, parameters n p = .ok names q ∧
      p.Lists (.ofKind .leftParen :: parameterTokens names) list close q) ∨
      ∃ e q taken, parameters n p = .error e q ∧ p.Took taken q ∧ e.Other := by
  unfold parameters
  rcases expectWord_line orderly .leftParen (by decide) with ⟨line, q, opened, took, -, scopes⟩ |
    ⟨e, q, taken, failed, took, other⟩
  · rw [bind_ok opened]
    rcases peekKind_took q with ⟨t, r, looked, held, took', scopes'⟩ | ⟨failure, on, r, failed, took', -⟩
    · have orderly := orderly.of_took (took.trans took')
      rw [bind_ok looked]
      by_cases isClose : t.1.kind = .rightParen
      · rw [if_pos isClose]
        have proper : t.1.IsProper := by
          obtain ⟨later, pending⟩ := sees_of_held held
          exact orderly.proper (.ofToken t) (pending ▸ List.mem_cons_self) t rfl
        obtain ⟨token, close⟩ := t
        cases proper.eq_ofKind isClose (by decide)
        exact .inl ⟨[], [(.ofKind .leftParen, line), (.ofKind .rightParen, close)], close, _, rfl,
          (took.trans took').trans (took_discard r held), rfl, rfl, orderly.synced _ held, scopes'.trans scopes⟩
      · rw [if_neg isClose]
        rcases parameterNames_listed orderly n with ⟨names, list, close, s, ran, -, lists⟩ |
          ⟨e, s, taken, failed, took'', other⟩
        · refine .inl ⟨names, (.ofKind .leftParen, line) :: list, close, s, ran, (took.trans took').trans lists.took,
            ?_, ?_, lists.line_eq, lists.scopes_eq.trans (scopes'.trans scopes)⟩
          · rw [List.map_cons, lists.spelled]
          · rw [List.getLast?_cons, lists.closes]
            rfl
        · exact .inr ⟨e, s, _, failed, (took.trans took').trans took'', other⟩
    · exact .inr ⟨_, r, _, bind_error failed, took.trans took', ParseError.other_of_unreadable failure⟩
  · exact .inr ⟨e, q, taken, bind_error failed, took, other⟩

end Primitives

namespace Traces

variable {α β : Type} {act : Parsing α} {rest : α → Parsing β}

theorem bind (first : Traces act) (second : ∀ a, Traces (rest a)) : Traces (act >>= rest) :=
  fun p orderly => (first p orderly).bind orderly second

theorem pure (a : α) : Traces (Pure.pure a : Parsing α) := fun p _ => .ok (.refl p)

theorem outOfSteps : Traces (Parser.outOfSteps : Parsing α) := fun p _ => .error (.refl p) nofun

theorem fail (error : SyntaxError) (other : ∀ name, error ≠ .redeclared name) :
    Traces (Parser.fail error : Parsing α) :=
  fun p _ => .error (.refl p) fun line name same => by
    cases same
    exact absurd rfl (other name)

theorem peekKind : Traces peekKind := by
  intro p _
  rcases peekKind_took p with ⟨t, q, looked, -, took, -⟩ | ⟨failure, line, q, failed, took, -⟩
  · exact looked ▸ .ok took
  · exact failed ▸ .error took nofun

theorem discard : Traces Parser.discard := by
  intro p _
  cases held : p.ahead.held with
  | some t => exact .ok (took_discard p held)
  | none =>
    have same : { p with ahead := p.ahead.discard } = p := by
      obtain ⟨⟨source, front⟩, scopes, steps⟩ := p
      cases held
      rfl
    exact .ok (show p.Took [] { p with ahead := p.ahead.discard } from same ▸ .refl p)

theorem take : Traces take := by
  intro p orderly
  rcases take_line orderly with ⟨t, q, ran, took, -⟩ | ⟨e, q, taken, failed, took, other⟩
  · exact ran ▸ .ok took
  · exact failed ▸ .error took fun line name same => absurd same (other line name)

theorem expect (kinds : List TokenKind) : Traces (expect kinds) := by
  refine .bind take fun token => ?_
  split
  · exact .pure _
  · exact .fail _ (by simp)

theorem identifier : Traces identifier := .bind (expect _) fun _ => .pure _

theorem resolve (name : String) : Traces (resolve name) := fun p _ => .ok (.refl p)

theorem inScope (inside : Traces act) : Traces (inScope act) := fun p orderly =>
  (inside { p with scopes := p.scopes.begin } ⟨orderly.synced, orderly.proper⟩).withScopes fun q => q.scopes.finish

end Traces

section Declarations

variable {α : Type} {p : Parser} {n : Nat}

theorem Traces.declares {word : TokenKind} (declares : word ∈ [.varWord, .functionWord]) (fixed : word.Fixed)
    {rest : String → Parsing α}
    (later : ∀ before line name (q : Parser), q.Orderly →
      Traced ([(.ofKind word, before), (⟨.identifier, name⟩, line)].map .ofToken) q (rest name q)) :
    Traces (do
      let _ ← Parser.expect [word]
      let name ← Parser.identifier
      declare name
      rest name) := by
  intro p orderly
  rcases expectWord_line orderly word fixed with ⟨before, q, opened, took, -, -⟩ | ⟨e, q, taken, failed, took, other⟩
  · rcases identifier_line (orderly.of_took took) with ⟨name, line, r, named, took', reached, -⟩ |
      ⟨e, r, taken, failed, took', other⟩
    · have both := took.trans took'
      rw [bind_ok opened, bind_ok named]
      rcases r.scopes.declare?_cases name with ⟨-, refused⟩ | ⟨-, scopes, declared, -⟩
      · have failed : declare name r = .error (.malformed line (.redeclared name)) r := by
          simp only [declare, refused, ← reached]
          rfl
        rw [bind_error failed]
        refine .error both fun on again same => ?_
        cases same
        exact ⟨[], _, rfl, .name declares⟩
      · have entered : declare name r = .ok () { r with scopes } := by simp only [declare, declared]
        rw [bind_ok entered]
        have orderly := orderly.of_took both
        have rest := later before line name { r with scopes } ⟨orderly.synced, orderly.proper⟩
        exact .since both (rest.of_ahead_eq rfl rfl)
    · rw [bind_ok opened, bind_error failed]
      exact .error (took.trans took') fun line name same => absurd same (other line name)
  · rw [bind_error failed]
    exact .error took fun line name same => absurd same (other line name)

theorem traced_declareAll (opening : List (Token × Nat)) (called : Option String) {list : List (Token × Nat)}
    {names : List String} {close : Nat} {rest : Parsing α} (orderly : p.Orderly) (fresh : p.scopes.innermost = [])
    (opens : opening.map Prod.fst = .ofKind .functionWord :: (called.map (⟨.identifier, ·⟩)).toList)
    (spelled : list.map Prod.fst = .ofKind .leftParen :: parameterTokens names)
    (closes : list.getLast? = some (.ofKind .rightParen, close)) (reached : p.ahead.line = close)
    (later : Traces rest) :
    Traced ((opening ++ list).map .ofToken) p ((do
      declareAll names
      rest) p) := by
  rcases declareAll_of_fresh names fresh with ⟨q, ran, ahead, steps, -⟩ | ⟨q, i, name, failed, ahead, steps, repeats⟩
  · have here := took_of_ahead_eq ahead steps
    rw [bind_ok ran]
    exact ((later q (orderly.of_took here)).after _).of_ahead_eq ahead steps
  · rw [bind_error failed]
    refine .error (took_of_ahead_eq ahead steps) fun line again same => ?_
    cases same
    obtain ⟨own, place⟩ : ∃ own, list[2 * i + 1]? = some (⟨.identifier, name⟩, own) := by
      have named : (list.map Prod.fst)[2 * i + 1]? = some ⟨.identifier, name⟩ := by
        rw [spelled, List.getElem?_cons_succ, getElem?_parameterTokens repeats.here]
      rw [List.getElem?_map] at named
      obtain ⟨⟨token, own⟩, place, rfl⟩ := Option.map_eq_some_iff.1 named
      exact ⟨own, place⟩
    exact ⟨[], opening ++ list, by simp, .parameter opens spelled repeats place (reached ▸ closes)⟩

theorem traced_function {fuel before line : Nat} {name : String} (block : Traces (block fuel)) (orderly : p.Orderly) :
    Traced ([(.ofKind .functionWord, before), (⟨.identifier, name⟩, line)].map .ofToken) p ((inScope do
      let params ← parameters fuel
      declareAll params
      let body ← Parser.block fuel
      return Stmt.function name params body) p) := by
  have inside : Parser.Orderly { p with scopes := p.scopes.begin } := ⟨orderly.synced, orderly.proper⟩
  refine Traced.withScopes (?_ : Traced _ { p with scopes := p.scopes.begin } _) fun q => q.scopes.finish
  rcases parameters_listed inside fuel with ⟨names, list, close, q, ran, lists⟩ | ⟨e, q, taken, failed, took, other⟩
  · rw [bind_ok ran]
    refine .since lists.took (List.map_append ▸ ?_)
    exact traced_declareAll _ (some name) (inside.of_took lists.took) (lists.scopes_eq ▸ innermost_begin _) rfl
      lists.spelled lists.closes lists.line_eq (.bind block fun _ => .pure _)
  · rw [bind_error failed]
    exact .error took fun line name same => absurd same (other line name)

theorem traced_method {fuel before : Nat} (block : Traces (block fuel)) (orderly : p.Orderly) :
    Traced ([(.ofKind .functionWord, before)].map .ofToken) p ((do
      let params ← parameters fuel
      let body ← inMethod (inScope do
        declareAll params
        Parser.block fuel)
      return Expr.method params body) p) := by
  rcases parameters_listed orderly fuel with ⟨names, list, close, q, ran, lists⟩ | ⟨e, q, taken, failed, took, other⟩
  · rw [bind_ok ran]
    refine .since lists.took (List.map_append ▸ ?_)
    have orderly := orderly.of_took lists.took
    refine Traced.bind ?_ orderly fun body => .pure _
    have declared := traced_declareAll (p := { q with scopes := q.scopes.forMethod.begin })
      [(.ofKind .functionWord, before)] none ⟨orderly.synced, orderly.proper⟩ (innermost_begin _) rfl lists.spelled
      lists.closes lists.line_eq block
    exact (declared.withScopes fun r => r.scopes.finish).withScopes fun _ => q.scopes
  · rw [bind_error failed]
    exact .error took fun line name same => absurd same (other line name)

end Declarations

structure RulesTrace (n : Nat) : Prop where
  declaration : Traces (declaration n)
  variableDeclaration : Traces (variableDeclaration n)
  statement : Traces (statement n)
  function : Traces (function n)
  giveBack : Traces (giveBack n)
  importFrom : Traces (importFrom n)
  exportAs : Traces (exportAs n)
  branch : Traces (branch n)
  block : Traces (block n)
  blockRest : Traces (blockRest n)
  assignment : Traces (assignment n)
  chain (tier : Tier) : Traces (chain n tier)
  chainRest (tier : Tier) (left : Expr) : Traces (chainRest n tier left)
  operand (tier : Tier) : Traces (operand n tier)
  unary : Traces (unary n)
  accessRest (target : Expr) : Traces (accessRest n target)
  elements (close : TokenKind) : Traces (elements n close)
  primary : Traces (primary n)
  properties : Traces (properties n)

namespace RulesTrace

theorem zero : RulesTrace 0 where
  declaration := .outOfSteps
  variableDeclaration := .outOfSteps
  statement := .outOfSteps
  function := .outOfSteps
  giveBack := .outOfSteps
  importFrom := .outOfSteps
  exportAs := .outOfSteps
  branch := .outOfSteps
  block := .outOfSteps
  blockRest := .outOfSteps
  assignment := .outOfSteps
  chain _ := .outOfSteps
  chainRest _ _ := .outOfSteps
  operand _ := .outOfSteps
  unary := .outOfSteps
  accessRest _ := .outOfSteps
  elements _ := .outOfSteps
  primary := .outOfSteps
  properties := .outOfSteps

variable {n : Nat} (ih : RulesTrace n)
include ih

theorem declaration_succ : Traces (Parser.declaration (n + 1)) := by
  rw [Parser.declaration]
  refine .bind .peekKind fun kind => ?_
  split
  · exact ih.variableDeclaration
  · exact ih.statement

theorem variableDeclaration_succ : Traces (Parser.variableDeclaration (n + 1)) := by
  rw [Parser.variableDeclaration]
  refine .declares (by decide) (by decide) fun before line name q orderly => (?_ : Traces _) q orderly |>.after _
  refine .bind .peekKind fun kind => ?_
  split
  · exact .bind .discard fun _ => .pure _
  · exact .bind (.expect _) fun _ => .bind (ih.chain _) fun _ => .bind (.expect _) fun _ => .pure _

theorem statement_succ : Traces (Parser.statement (n + 1)) := by
  rw [Parser.statement]
  refine .bind .peekKind fun kind => ?_
  split
  · exact .bind (.inScope ih.block) fun _ => .pure _
  · exact ih.branch
  · exact .bind (.expect _) fun _ => .bind (ih.chain _) fun _ => .bind (.inScope ih.block) fun _ => .pure _
  · exact .bind .discard fun _ => .pure _
  · exact ih.function
  · exact ih.giveBack
  · exact .bind .discard fun _ => .bind (.expect _) fun _ => .pure _
  · exact .bind .discard fun _ => .bind (.expect _) fun _ => .pure _
  · exact ih.importFrom
  · exact ih.exportAs
  · exact .bind ih.assignment fun _ => .bind (.expect _) fun _ => .pure _

theorem function_succ : Traces (Parser.function (n + 1)) := by
  rw [Parser.function]
  exact .declares (by decide) (by decide) fun before line name q orderly => traced_function ih.block orderly

theorem giveBack_succ : Traces (Parser.giveBack (n + 1)) := by
  rw [Parser.giveBack]
  refine .bind (.expect _) fun _ => .bind .peekKind fun kind => ?_
  split
  · exact .bind .discard fun _ => .pure _
  · exact .bind (ih.chain _) fun _ => .bind (.expect _) fun _ => .pure _

theorem importFrom_succ : Traces (Parser.importFrom (n + 1)) := by
  rw [Parser.importFrom]
  refine .bind (.expect _) fun _ => .bind ih.primary fun source => .bind (.expect _) fun _ => ?_
  split
  · exact .pure _
  · exact .fail _ (by simp)

theorem exportAs_succ : Traces (Parser.exportAs (n + 1)) := by
  rw [Parser.exportAs]
  refine .bind (.expect _) fun _ => .bind ih.assignment fun value => .bind (.expect _) fun token => ?_
  split
  · split
    · exact .pure _
    · exact .fail _ (by simp)
  · exact .bind .identifier fun _ => .bind (.expect _) fun _ => .pure _

theorem branch_succ : Traces (Parser.branch (n + 1)) := by
  rw [Parser.branch]
  refine .bind (.expect _) fun _ => .bind (ih.chain _) fun _ => .bind ih.statement fun _ => ?_
  refine .bind .peekKind fun kind => ?_
  split
  · exact .bind .discard fun _ => .bind ih.statement fun _ => .pure _
  · exact .pure _

theorem block_succ : Traces (Parser.block (n + 1)) := by
  rw [Parser.block]
  exact .bind (.expect _) fun _ => ih.blockRest

theorem blockRest_succ : Traces (Parser.blockRest (n + 1)) := by
  rw [Parser.blockRest]
  refine .bind .peekKind fun kind => ?_
  split
  · exact .bind .discard fun _ => .pure _
  · exact .fail _ (by simp)
  · exact .bind ih.declaration fun _ => .bind ih.blockRest fun _ => .pure _

theorem assignment_succ : Traces (Parser.assignment (n + 1)) := by
  rw [Parser.assignment]
  refine .bind (ih.chain _) fun target => .bind .peekKind fun kind => ?_
  split
  · refine .bind .discard fun _ => ?_
    split
    · exact .bind ih.assignment fun _ => .pure _
    · exact .fail _ (by simp)
  · exact .pure _

theorem chain_succ (tier : Tier) : Traces (Parser.chain (n + 1) tier) := by
  rw [Parser.chain]
  exact .bind (ih.operand _) fun _ => ih.chainRest _ _

theorem chainRest_succ (tier : Tier) (left : Expr) : Traces (Parser.chainRest (n + 1) tier left) := by
  rw [Parser.chainRest]
  refine .bind .peekKind fun kind => ?_
  split
  · exact .bind .discard fun _ => .bind (ih.operand _) fun _ => ih.chainRest _ _
  · exact .pure _

theorem operand_succ (tier : Tier) : Traces (Parser.operand (n + 1) tier) := by
  rw [Parser.operand]
  split
  · exact ih.chain _
  · exact ih.unary

theorem unary_succ : Traces (Parser.unary (n + 1)) := by
  rw [Parser.unary]
  refine .bind .peekKind fun kind => ?_
  split
  · exact .bind .discard fun _ => .bind ih.unary fun _ => .pure _
  · exact .bind .discard fun _ => .bind ih.unary fun _ => .pure _
  · exact .bind ih.primary fun _ => ih.accessRest _

theorem accessRest_succ (target : Expr) : Traces (Parser.accessRest (n + 1) target) := by
  rw [Parser.accessRest]
  refine .bind .peekKind fun kind => ?_
  split
  · exact .bind .discard fun _ => .bind (ih.elements _) fun _ => ih.accessRest _
  · exact .bind .discard fun _ => .bind (ih.chain _) fun _ => .bind (.expect _) fun _ => ih.accessRest _
  · exact .bind .discard fun _ => .bind (.expect _) fun _ => ih.accessRest _
  · exact .pure _

theorem elements_succ (close : TokenKind) : Traces (Parser.elements (n + 1) close) := by
  rw [Parser.elements]
  refine .bind .peekKind fun kind => ?_
  split
  · exact .bind .discard fun _ => .pure _
  · refine .bind (ih.chain _) fun first => .bind .peekKind fun after => ?_
    have rest : Traces (do
        let later ← Parser.elements n close
        return first :: later) := .bind (ih.elements _) fun _ => .pure _
    split
    · exact .bind .discard fun _ => rest
    · split
      · exact .bind .take fun found => .bind (.fail _ (by simp)) fun _ => rest
      · exact rest

theorem primary_succ : Traces (Parser.primary (n + 1)) := by
  rw [Parser.primary]
  intro p orderly
  rcases take_line orderly with ⟨⟨token, line⟩, q, ran, took, -, -, proper⟩ | ⟨e, q, taken, failed, took, other⟩
  · have orderly := orderly.of_took took
    rw [bind_ok ran]
    refine .since took ?_
    by_cases isMethod : token.kind = .functionWord
    · cases proper.eq_ofKind isMethod (by decide)
      exact traced_method ih.block orderly
    · refine (?_ : Traces _) q orderly |>.after _
      split
      · exact .bind (.resolve _) fun _ => .pure _
      · exact .pure _
      · dsimp only
        split
        · exact .pure _
        · exact .fail _ (by simp)
      · exact .pure _
      · exact .pure _
      · exact .pure _
      · exact .bind (ih.chain _) fun _ => .bind (.expect _) fun _ => .pure _
      · exact .bind (ih.elements _) fun _ => .pure _
      · exact .bind (.expect _) fun _ => .bind ih.properties fun _ => .pure _
      · next same => exact absurd same isMethod
      · exact .fail _ (by simp)
  · rw [bind_error failed]
    exact .error took fun line name same => absurd same (other line name)

theorem properties_succ : Traces (Parser.properties (n + 1)) := by
  rw [Parser.properties]
  refine .bind .peekKind fun kind => ?_
  split
  · exact .bind .discard fun _ => .pure _
  · refine .bind (.expect _) fun _ => .bind (.expect _) fun _ => .bind (ih.chain _) fun _ => ?_
    refine .bind (.expect _) fun _ => ?_
    split
    · exact .pure _
    · exact .bind ih.properties fun _ => .pure _

theorem succ : RulesTrace (n + 1) where
  declaration := ih.declaration_succ
  variableDeclaration := ih.variableDeclaration_succ
  statement := ih.statement_succ
  function := ih.function_succ
  giveBack := ih.giveBack_succ
  importFrom := ih.importFrom_succ
  exportAs := ih.exportAs_succ
  branch := ih.branch_succ
  block := ih.block_succ
  blockRest := ih.blockRest_succ
  assignment := ih.assignment_succ
  chain := ih.chain_succ
  chainRest := ih.chainRest_succ
  operand := ih.operand_succ
  unary := ih.unary_succ
  accessRest := ih.accessRest_succ
  elements := ih.elements_succ
  primary := ih.primary_succ
  properties := ih.properties_succ

end RulesTrace

theorem rulesTrace (n : Nat) : RulesTrace n := by
  induction n with
  | zero => exact .zero
  | succ n ih => exact ih.succ

theorem nextStatement_traced {p q : Parser} {line : Nat} {name : String} (orderly : p.Orderly)
    (failed : nextStatement p = .error (.malformed line (.redeclared name)) q) :
    ∃ taken passed, p.Took (taken ++ passed) q ∧ Complains taken line name := by
  rcases peekKind_took p with ⟨t, r, looked, -, took, -⟩ | ⟨failure, on, r, unreadable, -, -⟩
  · rw [nextStatement_eq looked] at failed
    split at failed
    · cases failed
    · have traced := (rulesTrace r.steps).declaration r (orderly.of_took took)
      cases ran : declaration r.steps r with
      | ok stmt s =>
        rw [ran] at failed
        cases failed
      | error e s =>
        rw [ran] at traced failed
        obtain ⟨passed, u, -, later, -, ended⟩ := synchronize_took s.steps s
        rcases ended with synchronized | ⟨e', unsynchronized, -⟩
        · simp only [synchronized] at failed
          cases failed
          cases traced with
          | @error _ _ taken took' complaint =>
            exact ⟨taken, passed, (took.trans took').trans later, complaint line name rfl⟩
        · simp only [unsynchronized] at failed
          cases failed
          rcases synchronize_error unsynchronized with other | ⟨_, other⟩ <;> cases other
  · rw [nextStatement, bind_error unreadable] at failed
    cases failed

theorem collect_errors {fuel : Nat} {stmts : List Stmt} {found errors : List ParseError} {p : Parser}
    (failed : collect fuel stmts found p = .error errors) {e : ParseError} (among : e ∈ errors) :
    e ∈ found ∨ e = .outOfSteps ∨ ∃ calls q, nextStatement (afterCalls calls p) = .error e q := by
  induction fuel generalizing stmts found p with
  | zero =>
    cases failed
    rcases List.mem_append.1 among with earlier | last
    · exact .inl (List.mem_reverse.1 earlier)
    · exact .inr (.inl (List.mem_singleton.1 last))
  | succ fuel ih =>
    rw [collect] at failed
    have onward {q : Parser} (next : afterCalls 1 p = q)
        (later : e = .outOfSteps ∨ ∃ calls r, nextStatement (afterCalls calls q) = .error e r) :
        e = .outOfSteps ∨ ∃ calls r, nextStatement (afterCalls calls p) = .error e r := by
      refine later.imp_right ?_
      rintro ⟨calls, r, answered⟩
      exact ⟨calls + 1, r, by rw [p.afterCalls_succ, next, answered]⟩
    cases answered : nextStatement p with
    | ok stmt? q =>
      have next : afterCalls 1 p = q := by rw [afterCalls, afterCalls, answered]
      rw [answered] at failed
      cases stmt? with
      | some stmt => exact (ih failed).imp_right (onward next)
      | none =>
        dsimp only at failed
        split at failed
        · cases failed
        · cases failed
          exact .inl (List.mem_reverse.1 among)
    | error e' q =>
      have next : afterCalls 1 p = q := by rw [afterCalls, afterCalls, answered]
      have here : e = e' → ∃ calls r, nextStatement (afterCalls calls p) = .error e r := by
        rintro rfl
        exact ⟨0, q, answered⟩
      rw [answered] at failed
      cases e' with
      | malformed line error =>
        rcases ih failed with before | later
        · exact (List.mem_cons.1 before).elim (fun same => .inr (.inr (here same))) .inl
        · exact .inr (onward next later)
      | unreadable | outOfSteps =>
        cases failed
        rcases List.mem_append.1 (List.reverse_cons .. ▸ among) with earlier | last
        · exact .inl (List.mem_reverse.1 earlier)
        · exact .inr (.inr (here (List.mem_singleton.1 last)))

end Parser

/-- A redeclaration is reported with its name. The line is that of the name after `var` and `function`, and that of the
closing parenthesis for a parameter, which may be another one than its own. -/
theorem redeclared_of_calls (lexer : Lexer) :
    (∀ errors, Program.ofLexer lexer = .error errors → ∀ line name, .malformed line (.redeclared name) ∈ errors →
      ∃ calls q taken passed, let p := (Parser.ofLexer lexer).afterCalls calls
        Parser.nextStatement p = .error (.malformed line (.redeclared name)) q ∧ p.Took (taken ++ passed) q ∧
          Complains taken line name) ∧
    ∀ (p : Parser) n, p.Refuses n := by
  refine ⟨fun errors failed line name among => ?_, Parser.refuses⟩
  rcases Parser.collect_errors failed among with nothing | starved | ⟨calls, q, answered⟩
  · cases nothing
  · cases starved
  · obtain ⟨names, within, -⟩ := Parser.in_afterCalls lexer calls
    obtain ⟨taken, passed, took, complains⟩ := Parser.nextStatement_traced ⟨within.synced, within.proper⟩ answered
    exact ⟨calls, q, taken, passed, answered, took, complains⟩

def repeatedParameter : String := "function f(a,\na\n) \x7b\x7d"

theorem redeclared_of_calls_of_repeatedParameter : ∃ errors taken,
    Program.ofText repeatedParameter = .error errors ∧ .malformed 3 (.redeclared "a") ∈ errors ∧
      Complains taken 3 "a" := by
  have failed : Program.ofText repeatedParameter = .error [.malformed 3 (.redeclared "a")] := by cbv
  obtain ⟨-, -, taken, -, -, -, complains⟩ :=
    (redeclared_of_calls (.ofText repeatedParameter)).1 _ failed 3 "a" (List.mem_singleton.2 rfl)
  exact ⟨_, taken, failed, List.mem_singleton.2 rfl, complains⟩

/-- The name does not stand on the line that is reported. -/
theorem parameter_reported_late :
    (Lexer.ofText repeatedParameter).scans.filterMap Scan.token? =
      [(.ofKind .functionWord, 1), (⟨.identifier, "f"⟩, 1), (.ofKind .leftParen, 1), (⟨.identifier, "a"⟩, 1),
        (.ofKind .comma, 1), (⟨.identifier, "a"⟩, 2), (.ofKind .rightParen, 3), (.ofKind .leftBrace, 3),
        (.ofKind .rightBrace, 3)] ∧
    Program.ofText repeatedParameter = .error [.malformed 3 (.redeclared "a")] ∧
    (⟨.identifier, "a"⟩, 3) ∉ (Lexer.ofText repeatedParameter).scans.filterMap Scan.token? := by
  have tokens : (Lexer.ofText repeatedParameter).scans.filterMap Scan.token? =
      [(.ofKind .functionWord, 1), (⟨.identifier, "f"⟩, 1), (.ofKind .leftParen, 1), (⟨.identifier, "a"⟩, 1),
        (.ofKind .comma, 1), (⟨.identifier, "a"⟩, 2), (.ofKind .rightParen, 3), (.ofKind .leftBrace, 3),
        (.ofKind .rightBrace, 3)] := by cbv
  refine ⟨tokens, by cbv, ?_⟩
  rw [tokens]
  decide

end HookScript
