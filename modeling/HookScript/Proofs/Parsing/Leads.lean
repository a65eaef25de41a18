import HookScript.Proofs.Parsing.Grammar
import HookScript.Proofs.Parsing.Segment

/-!
Rules that find what they look for. A parser that has the tokens of a tree before it gives the tree, unless it runs out
of steps on the way. How a rule goes through the tokens is said in triples of what is before the parser, what is given,
and what is before the parser then. A rule that repeats itself can be followed up to any round of its loop.
-/

namespace HookScript

namespace Parser

structure Before (p : Parser) (c : Context) (ts : List Token) : Prop where
  faces : ∃ placed, placed.map Prod.fst = ts ∧ p.Faces placed
  shows_c : p.scopes.Shows c

structure AtHand (p : Parser) (c : Context) (t : Token) (ts : List Token) : Prop where
  before : p.Before c (t :: ts)
  held : ∃ line, p.ahead.held = some (t, line)

def nextKind : List Token → TokenKind
  | [] => .endOfFile
  | t :: _ => t.kind

/-- The rule gives `a` wherever the first holds, and then the second does, unless it runs out of steps. -/
def Leads {α : Type} (pre : Parser → Prop) (act : Parsing α) (a : α) (post : Parser → Prop) : Prop :=
  ∀ p, pre p → (∃ q, act p = .error .outOfSteps q) ∨ ∃ q, act p = .ok a q ∧ post q

/-- The rule comes to a round of the loop, where the second holds, unless it runs out of steps. -/
def Reaches {α : Type} (pre : Parser → Prop) (act : Parsing α) (loop : Nat → Parsing α) (post : Parser → Prop) : Prop :=
  ∀ p, pre p → (∃ q, act p = .error .outOfSteps q) ∨ ∃ n q, act p = loop n q ∧ post q

section Rules

variable {α β : Type} {pre mid post : Parser → Prop} {act : Parsing α} {rest : α → Parsing β} {loop : Nat → Parsing α}
  {a : α} {b : β}

theorem Leads.pure (holds : ∀ p, pre p → post p) : Leads pre (Pure.pure a) a post :=
  fun p before => .inr ⟨p, rfl, holds p before⟩

theorem Leads.outOfSteps : Leads pre (Parser.outOfSteps : Parsing α) a post := fun p _ => .inl ⟨p, rfl⟩

theorem Leads.bind (first : Leads pre act a mid) (second : Leads mid (rest a) b post) :
    Leads pre (act >>= rest) b post := by
  intro p before
  simp only [Bind.bind, EStateM.bind]
  rcases first p before with ⟨q, starved⟩ | ⟨q, ran, between⟩
  · exact .inl ⟨q, by rw [starved]⟩
  · rw [ran]
    exact second q between

theorem Leads.mono {pre' post' : Parser → Prop} (leads : Leads pre act a post) (weaker : ∀ p, pre' p → pre p)
    (stronger : ∀ p, post p → post' p) : Leads pre' act a post' := by
  intro p before
  rcases leads p (weaker p before) with starved | ⟨q, ran, after⟩
  · exact .inl starved
  · exact .inr ⟨q, ran, stronger q after⟩

theorem Reaches.outOfSteps : Reaches pre (Parser.outOfSteps : Parsing α) loop post := fun p _ => .inl ⟨p, rfl⟩

theorem Reaches.here {n : Nat} (same : act = loop n) : Reaches pre act loop pre :=
  fun p before => .inr ⟨n, p, by rw [same], before⟩

theorem Reaches.bind {first : Parsing β} {next : β → Parsing α} (leads : Leads pre first b mid)
    (reaches : Reaches mid (next b) loop post) : Reaches pre (first >>= next) loop post := by
  intro p before
  simp only [Bind.bind, EStateM.bind]
  rcases leads p before with ⟨q, starved⟩ | ⟨q, ran, between⟩
  · exact .inl ⟨q, by rw [starved]⟩
  · rw [ran]
    exact reaches q between

theorem Reaches.trans {later : Nat → Parsing α} (first : Reaches pre act loop mid)
    (second : ∀ n, Reaches mid (loop n) later post) : Reaches pre act later post := by
  intro p before
  rcases first p before with starved | ⟨n, q, same, between⟩
  · exact .inl starved
  · rw [same]
    exact second n q between

theorem Reaches.leads (first : Reaches pre act loop mid) (second : ∀ n, Leads mid (loop n) a post) :
    Leads pre act a post := by
  intro p before
  rcases first p before with starved | ⟨n, q, same, between⟩
  · exact .inl starved
  · rw [same]
    exact second n q between

end Rules

namespace Before

variable {p : Parser} {c d : Context} {t : Token} {ts : List Token}

theorem congr (before : p.Before c ts) (same : c.names = d.names) : p.Before d ts :=
  ⟨before.faces, before.shows_c.congr same⟩

end Before

section Primitives

variable {α β : Type} {c d : Context} {t : Token} {ts : List Token} {post : Parser → Prop} {b : β}

theorem peekKind_atHand : Leads (Before · c (t :: ts)) peekKind t.kind (AtHand · c t ts) := by
  rintro p ⟨⟨placed, same, faces⟩, shows_c⟩
  obtain ⟨u, later, rfl, rfl, rfl⟩ := List.map_eq_cons_iff.mp same
  obtain ⟨ahead, looked, held, -, faces⟩ := faces.peek
  exact .inr ⟨_, looked, ⟨⟨_, rfl, faces⟩, shows_c⟩, u.2, held⟩

theorem peekKind_before : Leads (Before · c ts) peekKind (nextKind ts) (Before · c ts) := by
  rintro p ⟨⟨placed, rfl, faces⟩, shows_c⟩
  cases placed with
  | nil =>
    obtain ⟨ahead, looked, faces⟩ := faces.peek_nil
    exact .inr ⟨_, looked, ⟨_, rfl, faces⟩, shows_c⟩
  | cons u later =>
    obtain ⟨ahead, looked, -, -, faces⟩ := faces.peek
    exact .inr ⟨_, looked, ⟨_, rfl, faces⟩, shows_c⟩

theorem ifPeek_pos {kind : TokenKind} {yes no : Parsing β} (known : t.kind = kind)
    (leads : Leads (AtHand · c t ts) yes b post) :
    Leads (Before · c (t :: ts)) (do if (← peekKind) = kind then yes else no) b post := by
  refine .bind peekKind_atHand ?_
  rwa [if_pos known]

theorem ifPeek_neg {kind : TokenKind} {yes no : Parsing β} (other : nextKind ts ≠ kind)
    (leads : Leads (Before · c ts) no b post) :
    Leads (Before · c ts) (do if (← peekKind) = kind then yes else no) b post := by
  refine .bind peekKind_before ?_
  rwa [if_neg other]

theorem discard_before : Leads (AtHand · c t ts) discard () (Before · c ts) := by
  rintro p ⟨⟨⟨placed, same, faces⟩, shows_c⟩, line, held⟩
  obtain ⟨u, later, rfl, rfl, rfl⟩ := List.map_eq_cons_iff.mp same
  obtain ⟨spent, found, same⟩ := faces.pending
  have front : u = (u.1, line) := by
    rw [Lookahead.pending, held] at same
    exact Scan.ofToken_injective (List.cons.inj same).1.symm
  exact .inr ⟨_, rfl, ⟨_, rfl, faces.discard (front ▸ held)⟩, shows_c⟩

theorem take_before : Leads (Before · c (t :: ts)) take t (Before · c ts) := by
  rintro p ⟨⟨placed, same, faces⟩, shows_c⟩
  obtain ⟨u, later, rfl, rfl, rfl⟩ := List.map_eq_cons_iff.mp same
  obtain ⟨ahead, taken, -, faces⟩ := faces.take
  exact .inr ⟨_, taken, ⟨_, rfl, faces⟩, shows_c⟩

theorem expect_before {kinds : List TokenKind} (known : t.kind ∈ kinds) :
    Leads (Before · c (t :: ts)) (expect kinds) t (Before · c ts) := by
  refine .bind take_before ?_
  rw [if_pos known]
  exact .pure fun _ => id

theorem identifier_before {name : String} :
    Leads (Before · c (⟨.identifier, name⟩ :: ts)) identifier name (Before · c ts) :=
  .bind (expect_before (List.mem_singleton.mpr rfl)) (.pure fun _ => id)

theorem declare_before {name : String} (new : name ∉ c.inner.names) :
    Leads (Before · c ts) (declare name) () (Before · (c.declare name) ts) := by
  rintro p ⟨faces, shows_c⟩
  rcases p.scopes.declare?_cases name with ⟨known, -⟩ | ⟨-, scopes, declared, -⟩
  · rw [shows_c.innermost_eq] at known
    exact absurd known new
  · refine .inr ⟨{ p with scopes }, by simp only [declare, declared], ?_, shows_c.declare declared⟩
    obtain ⟨placed, same, pending, line⟩ := faces
    exact ⟨placed, same, pending, line⟩

theorem resolve_before {name : String} : Leads (Before · c ts) (resolve name) (c.resolve name) (Before · c ts) := by
  rintro p ⟨faces, shows_c⟩
  refine .inr ⟨p, ?_, faces, shows_c⟩
  rw [resolve, shows_c.resolve_eq]

theorem inScope_before {act : Parsing α} {a : α} {us : List Token} (outer : d.outer = c.scopes)
    (inside : Leads (Before · c.enter ts) act a (Before · d us)) :
    Leads (Before · c ts) (inScope act) a (Before · c us) := by
  rintro p ⟨⟨placed, same, pending, line⟩, shows_c⟩
  have begun : Before { p with scopes := p.scopes.begin } c.enter ts := ⟨⟨placed, same, pending, line⟩, shows_c.begin⟩
  rcases inside _ begun with ⟨q, starved⟩ | ⟨q, ran, ⟨placed', same', pending', line'⟩, shows_d⟩
  · exact .inl ⟨{ q with scopes := q.scopes.finish }, by simp only [inScope, starved]⟩
  · refine .inr ⟨{ q with scopes := q.scopes.finish }, by simp only [inScope, ran], ?_⟩
    exact ⟨⟨placed', same', pending', line'⟩, shows_d.finish outer⟩

theorem inMethod_before {act : Parsing α} {a : α} {us : List Token}
    (inside : Leads (Before · ⟨.receiver, [c.globals]⟩ ts) act a (Before · d us)) :
    Leads (Before · c ts) (inMethod act) a (Before · c us) := by
  rintro p ⟨⟨placed, same, pending, line⟩, shows_c⟩
  have begun : Before { p with scopes := p.scopes.forMethod } ⟨.receiver, [c.globals]⟩ ts :=
    ⟨⟨placed, same, pending, line⟩, shows_c.forMethod⟩
  rcases inside _ begun with ⟨q, starved⟩ | ⟨q, ran, ⟨placed', same', pending', line'⟩, -⟩
  · exact .inl ⟨{ q with scopes := p.scopes }, by simp only [inMethod, starved]⟩
  · exact .inr ⟨{ q with scopes := p.scopes }, by simp only [inMethod, ran], ⟨placed', same', pending', line'⟩, shows_c⟩

end Primitives

end Parser

end HookScript
