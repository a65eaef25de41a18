import HookScript.Proofs.Parsing.Brackets

/-!
Rules that take what they read. However a rule ends, the tokens that it has taken are known, and so are the names that
it has added to the scope around it. When it succeeds they are the tokens of what it has read. When it fails, every
scope that it has begun is gone, and the line of the complaint is the one that has been reached.
-/

namespace HookScript

namespace Parser

def Sees (p : Parser) (t : Token × Nat) : Prop := ∃ later, p.ahead.pending = .ofToken t :: later

theorem sees_of_held {p : Parser} {t : Token × Nat} (held : p.ahead.held = some t) : p.Sees t := by
  refine ⟨p.ahead.source.rest, ?_⟩
  rw [Lookahead.pending, held]
  rfl

namespace Took

variable {p q : Parser} {t u : Token × Nat} {taken : List Scan}

theorem head? (took : p.Took taken q) (sees : p.Sees t) (any : taken ≠ []) : taken.head? = some (.ofToken t) := by
  obtain ⟨spent, -, same⟩ := took.pending
  obtain ⟨later, pending⟩ := sees
  rw [pending] at same
  cases taken with
  | nil => exact absurd rfl any
  | cons scan rest => rw [← (List.cons.inj same).1, List.head?_cons]

theorem first (took : p.Took taken q) (sees : p.Sees t) (front : taken.head? = some (.ofToken u)) : u = t := by
  have any : taken ≠ [] := by
    rintro rfl
    cases front
  rw [took.head? sees any] at front
  exact Scan.ofToken_injective (Option.some.inj front).symm

theorem still (took : p.Took [] q) (sees : p.Sees t) (later : q.Sees u) : u = t := by
  obtain ⟨spent, -, same⟩ := took.pending
  obtain ⟨rest, pending⟩ := sees
  obtain ⟨others, pending'⟩ := later
  rw [pending, pending'] at same
  exact Scan.ofToken_injective (List.cons.inj same).1.symm

end Took

structure Leaving where
  allows : List Scan → List String → Prop
  start : allows [] []
  mono {taken more : List Scan} {declared : List String} (allowed : allows taken declared) :
    allows (taken ++ more) declared

namespace Leaving

def nothing : Leaving where
  allows _ declared := declared = []
  start := rfl
  mono := id

def outside : Leaving where
  allows taken declared := ∀ name ∈ declared, name ∈ namesOutside taken
  start := nofun
  mono allowed name among := mem_namesOutside_append (allowed name among)

def anything : Leaving where
  allows _ _ := True
  start := trivial
  mono := id

/-- After these tokens a rule may leave what the second allows, if the first is to be allowed in all. -/
def Joins (leaving later : Leaving) (ts : List Token) : Prop :=
  ∀ (placed : List (Token × Nat)) (taken : List Scan) (declared declared' : List String), placed.map Prod.fst = ts →
    leaving.allows (placed.map .ofToken) declared → later.allows taken declared' →
      leaving.allows (placed.map .ofToken ++ taken) (declared ++ declared')

theorem joins_nothing (leaving : Leaving) (ts : List Token) : leaving.Joins nothing ts := by
  rintro placed taken declared - - allowed rfl
  rw [List.append_nil]
  exact leaving.mono allowed

theorem joins_anything (later : Leaving) (ts : List Token) : anything.Joins later ts := fun _ _ _ _ _ _ _ => trivial

theorem joins_outside {ts : List Token} (balanced : Balanced ts) : outside.Joins outside ts := by
  rintro placed taken declared declared' rfl early late name among
  rcases List.mem_append.mp among with before | after
  · exact mem_namesOutside_append (early name before)
  · exact mem_namesOutside_of_balanced balanced (late name after)

end Leaving

structure In (p : Parser) (c : Context) : Prop where
  shows_c : p.scopes.Shows c
  synced : p.Synced
  proper : p.Proper

namespace In

variable {p q : Parser} {c d : Context}

theorem congr (within : p.In c) (same : c.names = d.names) : p.In d :=
  ⟨within.shows_c.congr same, within.synced, within.proper⟩

theorem of_took (within : p.In c) {taken : List Scan} (took : p.Took taken q) (shows_d : q.scopes.Shows d) : q.In d :=
  ⟨shows_d, took.synced within.synced, (took.proper within.proper).2⟩

theorem withScopes (within : p.In c) {scopes : ScopeStack} (shows_d : scopes.Shows d) :
    Parser.In { p with scopes } d :=
  ⟨shows_d, within.synced, within.proper⟩

end In

/-- Where an error comes from: the text is malformed on the line that has been reached, or what has been taken last could
not be read. -/
def Cause (taken : List Scan) (reached : Nat) : ParseError → Prop
  | .malformed line _ => line = reached
  | .unreadable failure => ∃ line, ⟨.error failure, line⟩ ∈ taken
  | .outOfSteps => True

theorem Cause.mono {taken more : List Scan} {reached : Nat} {e : ParseError} (cause : Cause taken reached e)
    (within : taken ⊆ more) : Cause more reached e := by
  cases e with
  | malformed | outOfSteps => exact cause
  | unreadable failure =>
    obtain ⟨line, among⟩ := cause
    exact ⟨line, within among⟩

inductive Ends {α : Type} (leaving : Leaving) (c : Context) (next : α → Context) (holds : α → List Token → Parser → Prop)
    (p : Parser) : EStateM.Result ParseError Parser α → Prop
  | ok {a q} (placed : List (Token × Nat)) (declared : List String) (took : p.Took (placed.map .ofToken) q)
    (real : ∀ t ∈ placed, t.1.kind ≠ .endOfFile) (within : q.In (next a)) (read : holds a (placed.map Prod.fst) q)
    (added : (next a).names = (c.declareAll declared).names) (allowed : leaving.allows (placed.map .ofToken) declared) :
    Ends leaving c next holds p (.ok a q)
  | error {e q taken} (declared : List String) (took : p.Took taken q) (cause : Cause taken q.ahead.line e)
    (within : q.In (c.declareAll declared)) (allowed : leaving.allows taken declared) :
    Ends leaving c next holds p (.error e q)

/-- How the rest of a rule ends that began with `p` and goes on with `q`. -/
def Takes {α : Type} (leaving : Leaving) (c : Context) (next : α → Context) (holds : α → List Token → Parser → Prop)
    (p q : Parser) (act : Parsing α) : Prop :=
  Ends leaving c next holds p (act q)

structure Midway (leaving : Leaving) (c : Context) (p : Parser) (ts : List Token) (d : Context) (q : Parser) : Prop where
  taken : ∃ (placed : List (Token × Nat)) (declared : List String), placed.map Prod.fst = ts ∧
    (∀ t ∈ placed, t.1.kind ≠ .endOfFile) ∧ p.Took (placed.map .ofToken) q ∧
      d.names = (c.declareAll declared).names ∧ leaving.allows (placed.map .ofToken) declared
  within : q.In d

def First (q : Parser) (ts : List Token) : Prop := ∀ t u, q.Sees t → ts.head? = some u → u = t.1

theorem midway_start {leaving : Leaving} {c : Context} {p : Parser} (within : p.In c) : Midway leaving c p [] c p where
  taken := ⟨[], [], rfl, nofun, .refl p, rfl, leaving.start⟩
  within := within

theorem Midway.onward {leaving : Leaving} {c d : Context} {p q r : Parser} {ts : List Token} {t : Token × Nat}
    (mid : Midway leaving c p ts d q) (took : q.Took [.ofToken t] r) (scopes : r.scopes = q.scopes)
    (more : t.1.kind ≠ .endOfFile) : Midway leaving c p (ts ++ [t.1]) d r := by
  obtain ⟨⟨placed, declared, rfl, real, before, same, allowed⟩, within⟩ := mid
  refine ⟨⟨placed ++ [t], declared, List.map_append, ?_, ?_, same, ?_⟩, within.of_took took (scopes ▸ within.shows_c)⟩
  · intro u among
    rcases List.mem_append.mp among with early | late
    · exact real u early
    · rwa [List.mem_singleton.mp late]
  · rw [List.map_append]
    exact before.trans took
  · rw [List.map_append]
    exact leaving.mono allowed

theorem Midway.unreadable {α : Type} {leaving : Leaving} {c d : Context} {next : α → Context}
    {holds : α → List Token → Parser → Prop} {p q r : Parser} {ts : List Token} {failure : ReadFailure} {line : Nat}
    (mid : Midway leaving c p ts d q) (took : q.Took [⟨.error failure, line⟩] r) (scopes : r.scopes = q.scopes) :
    Ends leaving c next holds p (.error (.unreadable failure) r) := by
  obtain ⟨⟨placed, declared, -, -, before, same, allowed⟩, within⟩ := mid
  have within : r.In d := within.of_took took (scopes ▸ within.shows_c)
  have cause : Cause [⟨.error failure, line⟩] r.ahead.line (.unreadable failure) := ⟨line, List.mem_singleton.mpr rfl⟩
  exact .error declared (before.trans took) (cause.mono (List.subset_append_right _ _)) (within.congr same)
    (leaving.mono allowed)

namespace Takes

variable {α β : Type} {leaving later : Leaving} {c d : Context} {next : α → Context} {next' : β → Context}
  {holds : α → List Token → Parser → Prop} {holds' : β → List Token → Parser → Prop} {p q : Parser} {ts : List Token}

theorem outOfSteps (within : p.In c) : Takes leaving c next holds p p (Parser.outOfSteps : Parsing α) :=
  .error [] (.refl p) trivial within leaving.start

theorem fail (mid : Midway leaving c p ts d q) (error : SyntaxError) :
    Takes leaving c next holds p q (Parser.fail error : Parsing α) := by
  obtain ⟨⟨placed, declared, -, -, took, same, allowed⟩, within⟩ := mid
  exact .error declared took rfl (within.congr same) allowed

theorem fail_bind {rest : α → Parsing β} (error : SyntaxError) :
    (Parser.fail error >>= rest : Parsing β) = Parser.fail error := rfl

theorem pure {a : α} (mid : Midway leaving c p ts d q) (same : d.names = (next a).names) (read : holds a ts q) :
    Takes leaving c next holds p q (Pure.pure a) := by
  obtain ⟨⟨placed, declared, rfl, real, took, added, allowed⟩, within⟩ := mid
  exact .ok placed declared took real (within.congr same) read (same.symm.trans added) allowed

section Steps

variable {act : Parsing α} {rest : α → Parsing β} {holdsFirst : α → List Token → Parser → Prop} {nextFirst : α → Context}

theorem bind (mid : Midway leaving c p ts d q) (joins : leaving.Joins later ts)
    (first : Takes later d nextFirst holdsFirst q q act)
    (second : ∀ a us r, holdsFirst a us r → q.First us → Midway leaving c p (ts ++ us) (nextFirst a) r →
      Takes leaving c next' holds' p r (rest a)) :
    Takes leaving c next' holds' p q (act >>= rest) := by
  obtain ⟨⟨placed, declared, rfl, real, took, same, allowed⟩, within⟩ := mid
  simp only [Takes, Bind.bind, EStateM.bind] at *
  cases ran : act q with
  | ok a r =>
    rw [ran] at first
    cases first with
    | ok placed' declared' took' real' within' read added allowed' =>
      refine second a _ r read ?_ ⟨⟨placed ++ placed', declared ++ declared', List.map_append, ?_, ?_, ?_, ?_⟩, within'⟩
      · intro t u sees front
        cases placed' with
        | nil => cases front
        | cons head tail =>
          cases front
          rw [took'.first sees rfl]
      · intro t among
        exact (List.mem_append.mp among).elim (real t) (real' t)
      · rw [List.map_append]
        exact took.trans took'
      · rw [Context.declareAll_append, added]
        exact Context.declareAll_congr same declared'
      · rw [List.map_append]
        exact joins placed _ declared declared' rfl allowed allowed'
  | error e r =>
    rw [ran] at first
    cases first with
    | error declared' took' cause within' allowed' =>
      refine .error (declared ++ declared') (took.trans took') (cause.mono (List.subset_append_right _ _)) (within'.congr ?_)
        (joins placed _ declared declared' rfl allowed allowed')
      rw [Context.declareAll_append]
      exact Context.declareAll_congr same declared'

theorem since (mid : Midway leaving c p ts d q) (joins : leaving.Joins later ts)
    (last : Takes later d nextFirst holdsFirst q q act)
    (read : ∀ a us r, holdsFirst a us r → q.First us → (nextFirst a).names = (next a).names ∧ holds a (ts ++ us) r) :
    Takes leaving c next holds p q act := by
  rw [← bind_pure act]
  refine bind mid joins last fun a us r done first mid => ?_
  obtain ⟨same, read⟩ := read a us r done first
  exact .pure mid same read

end Steps

theorem peek {rest : TokenKind → Parsing β} (mid : Midway leaving c p ts d q)
    (second : ∀ t r, r.ahead.held = some t → t.1.IsProper → (∀ u, q.Sees u → t = u) → Midway leaving c p ts d r →
      Takes leaving c next' holds' p r (rest t.1.kind)) :
    Takes leaving c next' holds' p q (peekKind >>= rest) := by
  simp only [Takes, Bind.bind, EStateM.bind] at *
  rcases peekKind_took q with ⟨t, r, ran, held, took', scopes⟩ | ⟨failure, line, r, ran, took', scopes⟩
  · rw [ran]
    obtain ⟨⟨placed, declared, rfl, real, took, same, allowed⟩, within⟩ := mid
    have within' : r.In d := within.of_took took' (scopes ▸ within.shows_c)
    refine second t r held ?_ (fun u sees => took'.still sees (sees_of_held held))
      ⟨⟨placed, declared, rfl, real, ?_, same, allowed⟩, within'⟩
    · obtain ⟨others, pending⟩ := sees_of_held held
      exact within'.proper (.ofToken t) (pending ▸ List.mem_cons_self) t rfl
    · simpa using took.trans took'
  · rw [ran]
    exact mid.unreadable took' scopes

theorem discard {rest : Unit → Parsing β} {t : Token × Nat} (mid : Midway leaving c p ts d q)
    (held : q.ahead.held = some t) (more : t.1.kind ≠ .endOfFile)
    (second : ∀ r, Midway leaving c p (ts ++ [t.1]) d r → Takes leaving c next' holds' p r (rest ())) :
    Takes leaving c next' holds' p q (Parser.discard >>= rest) :=
  second _ (mid.onward (took_discard q held) rfl more)

theorem discardWord {rest : Unit → Parsing β} {t : Token × Nat} {kind : TokenKind} (mid : Midway leaving c p ts d q)
    (held : q.ahead.held = some t) (proper : t.1.IsProper) (is : t.1.kind = kind) (fixed : kind.Fixed)
    (real : kind ≠ .endOfFile)
    (second : ∀ r, Midway leaving c p (ts ++ [.ofKind kind]) d r → Takes leaving c next' holds' p r (rest ())) :
    Takes leaving c next' holds' p q (Parser.discard >>= rest) := by
  refine .discard mid held (is ▸ real) fun r mid => second r ?_
  rwa [proper.eq_ofKind is fixed] at mid

theorem take {rest : Token → Parsing β} (mid : Midway leaving c p ts d q)
    (ending : ∀ token, token.kind = .endOfFile → ∃ error, rest token = Parser.fail error)
    (second : ∀ token r, token.kind ≠ .endOfFile → token.IsProper → (∀ u, q.Sees u → token = u.1) →
      Midway leaving c p (ts ++ [token]) d r → Takes leaving c next' holds' p r (rest token)) :
    Takes leaving c next' holds' p q (Parser.take >>= rest) := by
  simp only [Takes, Bind.bind, EStateM.bind] at *
  rcases take_took q with ⟨t, r, ran, took', scopes, -⟩ | ⟨failure, line, r, ran, took', scopes⟩
  · rw [ran]
    by_cases atEnd : t.1.kind = .endOfFile
    · obtain ⟨error, complains⟩ := ending t.1 atEnd
      obtain ⟨⟨placed, declared, rfl, real, took, same, allowed⟩, within⟩ := mid
      have within' : r.In d := within.of_took took' (scopes ▸ within.shows_c)
      dsimp only
      rw [complains]
      exact .error declared (took.trans took') rfl (within'.congr same) (leaving.mono allowed)
    · refine second t.1 r atEnd ?_ ?_ (mid.onward took' scopes atEnd)
      · exact (took'.proper mid.within.proper).1 _ (List.mem_singleton.mpr rfl) t rfl
      · intro u sees
        rw [took'.first sees rfl]
  · rw [ran]
    exact mid.unreadable took' scopes

theorem expect {rest : Token → Parsing β} {kinds : List TokenKind} (mid : Midway leaving c p ts d q)
    (real : .endOfFile ∉ kinds)
    (second : ∀ token r, token.kind ∈ kinds → token.IsProper → (∀ u, q.Sees u → token = u.1) →
      Midway leaving c p (ts ++ [token]) d r → Takes leaving c next' holds' p r (rest token)) :
    Takes leaving c next' holds' p q (Parser.expect kinds >>= rest) := by
  unfold Parser.expect
  rw [bind_assoc]
  refine .take mid ?_ fun token r more proper seen mid => ?_
  · intro token atEnd
    rw [if_neg (fun known => real (atEnd ▸ known))]
    exact ⟨_, rfl⟩
  · split
    · next known => exact second token r known proper seen mid
    · exact fail mid _

theorem expectWord {rest : Token → Parsing β} {kind : TokenKind} (mid : Midway leaving c p ts d q)
    (fixed : kind.Fixed) (real : kind ≠ .endOfFile)
    (second : ∀ r, Midway leaving c p (ts ++ [.ofKind kind]) d r →
      Takes leaving c next' holds' p r (rest (.ofKind kind))) :
    Takes leaving c next' holds' p q (Parser.expect [kind] >>= rest) := by
  refine .expect mid (fun among => real (List.mem_singleton.mp among).symm) fun token r known proper _ mid => ?_
  cases proper.eq_ofKind (List.mem_singleton.mp known) fixed
  exact second r mid

theorem identifier {rest : String → Parsing β} (mid : Midway leaving c p ts d q)
    (second : ∀ name r, Midway leaving c p (ts ++ [⟨.identifier, name⟩]) d r →
      Takes leaving c next' holds' p r (rest name)) :
    Takes leaving c next' holds' p q (Parser.identifier >>= rest) := by
  unfold Parser.identifier
  rw [bind_assoc]
  refine .expect mid (by decide) fun token r known _ _ mid => ?_
  obtain ⟨kind, lexeme⟩ := token
  cases List.mem_singleton.mp known
  exact second lexeme r mid

theorem declare {rest : Unit → Parsing β} {name : String} (mid : Midway leaving c p ts d q)
    (grows : ∀ (placed : List (Token × Nat)) (declared : List String), placed.map Prod.fst = ts →
      leaving.allows (placed.map .ofToken) declared → leaving.allows (placed.map .ofToken) (declared ++ [name]))
    (second : ∀ r, name ∉ d.inner.names → r.ahead = q.ahead → Midway leaving c p ts (d.declare name) r →
      Takes leaving c next' holds' p r (rest ())) :
    Takes leaving c next' holds' p q (Parser.declare name >>= rest) := by
  cases declares : q.scopes.declare? name with
  | none =>
    have failed : Parser.declare name q = Parser.fail (.redeclared name) q := by
      simp only [Parser.declare, declares]
    simp only [Takes, Bind.bind, EStateM.bind, failed]
    exact fail (α := β) mid _
  | some scopes =>
    have declared : Parser.declare name q = .ok () { q with scopes } := by
      simp only [Parser.declare, declares]
    simp only [Takes, Bind.bind, EStateM.bind, declared] at *
    obtain ⟨⟨placed, earlier, rfl, real, took, same, allowed⟩, within⟩ := mid
    have new := (ScopeStack.visible_declare? declares).1
    rw [within.shows_c.innermost_eq] at new
    refine second _ new rfl ⟨⟨placed, earlier ++ [name], rfl, real, ?_, ?_, grows placed earlier rfl allowed⟩,
      within.withScopes (within.shows_c.declare declares)⟩
    · exact ⟨took.pending, took.lines, took.synced, took.steps⟩
    · rw [Context.declareAll_append]
      exact Context.declareAll_congr same [name]

theorem declareAll {rest : Unit → Parsing β} {names : List String} (mid : Midway .anything c p ts d q)
    (second : ∀ r, d.Lacks names → Midway .anything c p ts (d.declareAll names) r →
      Takes .anything c next' holds' p r (rest ())) :
    Takes .anything c next' holds' p q (Parser.declareAll names >>= rest) := by
  induction names generalizing d q with
  | nil => exact second q ⟨.nil, nofun⟩ mid
  | cons name others ih =>
    rw [Parser.declareAll, bind_assoc]
    refine .declare mid (fun _ _ _ _ => trivial) fun r new _ mid => ih mid fun r lacks mid => ?_
    have lacksName : d.Lacks [name] := by
      refine ⟨List.pairwise_singleton _ name, fun other among => ?_⟩
      rwa [List.mem_singleton.mp among]
    exact second r (lacksName.append lacks) mid

theorem resolve {rest : Nat → Parsing β} {name : String}
    (second : ∀ level, Takes leaving c next' holds' p q (rest level)) :
    Takes leaving c next' holds' p q (Parser.resolve name >>= rest) := second (q.scopes.resolve name)

section Scopes

variable {act : Parsing α} {read : α → List Token → Prop}

theorem inScope (within : p.In c) (next : α → Context) (inside : ∀ q : Parser, q.In c.enter →
      Takes .anything c.enter next (fun a ts _ => read a ts) q q act) :
    Takes .nothing c (fun _ => c) (fun a ts _ => read a ts) p p (Parser.inScope act) := by
  have begun := inside { p with scopes := p.scopes.begin } (within.withScopes within.shows_c.begin)
  simp only [Takes, Parser.inScope] at *
  generalize act { p with scopes := p.scopes.begin } = result at begun
  have ended {r : Parser} {d : Context} {declared : List String} (inner : r.In d)
      (same : d.names = (c.enter.declareAll declared).names) : Parser.In { r with scopes := r.scopes.finish } c :=
    (inner.congr same).withScopes ((inner.congr same).shows_c.finish (Context.outer_declareAll c.enter declared))
  cases begun with
  | ok placed declared took real inner done added allowed =>
    exact .ok placed [] ⟨took.pending, took.lines, took.synced, took.steps⟩ real (ended inner added) done rfl rfl
  | error declared took cause inner allowed =>
    exact .error [] ⟨took.pending, took.lines, took.synced, took.steps⟩ cause (ended inner rfl) rfl

theorem inMethod (within : p.In c) (next : α → Context) (inside : ∀ q : Parser, q.In ⟨.receiver, [c.globals]⟩ →
      Takes later ⟨.receiver, [c.globals]⟩ next (fun a ts _ => read a ts) q q act) :
    Takes .nothing c (fun _ => c) (fun a ts _ => read a ts) p p (Parser.inMethod act) := by
  have begun := inside { p with scopes := p.scopes.forMethod } (within.withScopes within.shows_c.forMethod)
  simp only [Takes, Parser.inMethod] at *
  generalize act { p with scopes := p.scopes.forMethod } = result at begun
  cases begun with
  | ok placed declared took real inner done added allowed =>
    exact .ok placed [] ⟨took.pending, took.lines, took.synced, took.steps⟩ real (inner.withScopes within.shows_c) done
      rfl rfl
  | error declared took cause inner allowed =>
    exact .error [] ⟨took.pending, took.lines, took.synced, took.steps⟩ cause (inner.withScopes within.shows_c) rfl

end Scopes

end Takes

end Parser

end HookScript
