import HookScript.Proofs.Parsing.Leads
import HookScript.Proofs.Parsing.RulesSpend

/-!
What every rule of the parser finds. Each kind of tree has a lemma that follows the rules through its tokens, given that
its parts are found. An expression is found by the loosest rule that its outermost construct belongs to, and the rules
looser than that one pass it on if nothing follows that they would go on with.
-/

namespace HookScript

namespace Parser

structure ExprFound (c : Context) (e : Expr) (ts : List Token) : Prop where
  access (tight : e.binding = accessBinding) (n : Nat) (rest : List Token) :
    Reaches (Before · c (ts ++ rest)) (unary n) (accessRest · (e.levelled c)) (Before · c rest)
  prefixed (tight : e.binding = prefixBinding) (n : Nat) {rest : List Token}
    (ends : (nextKind rest).Ends accessBinding) :
    Leads (Before · c (ts ++ rest)) (unary n) (e.levelled c) (Before · c rest)
  infixed {tier : Tier} (tight : e.binding = tier.binding) (n : Nat) {rest : List Token}
    (ends : (nextKind rest).Ends (tier.binding + 1)) :
    Reaches (Before · c (ts ++ rest)) (chain n tier) (chainRest · tier (e.levelled c)) (Before · c rest)
  assigned (loose : e.binding = 0) (n : Nat) {rest : List Token} (ends : (nextKind rest).Ends 0) :
    Leads (Before · c (ts ++ rest)) (assignment n) (e.levelled c) (Before · c rest)

section Rules

variable {c : Context} {e : Expr} {ts rest : List Token}

theorem accessRest_end (ends : (nextKind rest).Ends accessBinding) (n : Nat) :
    Leads (Before · c rest) (accessRest n e) e (Before · c rest) := by
  cases n with
  | zero => exact .outOfSteps
  | succ n =>
    rw [accessRest]
    refine .bind peekKind_before ?_
    split
    · next isCall => exact absurd isCall (ends.ne_of_binding rfl)
    · next isItem => exact absurd isItem (ends.ne_of_binding rfl)
    · next isProperty => exact absurd isProperty (ends.ne_of_binding rfl)
    · exact .pure fun _ => id

theorem chainRest_end {tier : Tier} (ends : (nextKind rest).Ends tier.binding) (n : Nat) :
    Leads (Before · c rest) (chainRest n tier e) e (Before · c rest) := by
  cases n with
  | zero => exact .outOfSteps
  | succ n =>
    rw [chainRest]
    refine .bind peekKind_before ?_
    rw [ends.combine?_eq_none]
    exact .pure fun _ => id

namespace ExprFound

theorem unary_leads (found : ExprFound c e ts) (tight : prefixBinding ≤ e.binding) (n : Nat)
    (ends : (nextKind rest).Ends accessBinding) :
    Leads (Before · c (ts ++ rest)) (unary n) (e.levelled c) (Before · c rest) := by
  rcases Nat.lt_or_eq_of_le tight with tighter | same
  · exact (found.access (Nat.le_antisymm e.binding_le tighter) n rest).leads (accessRest_end ends)
  · exact found.prefixed same.symm n ends

theorem chain_reaches_of_operand (found : ExprFound c e ts) {tier : Tier} (tight : tier.binding ≤ e.binding) (n : Nat)
    (ends : (nextKind rest).Ends (tier.binding + 1))
    (inner : tier.binding < e.binding → ∀ n,
      Leads (Before · c (ts ++ rest)) (operand n tier) (e.levelled c) (Before · c rest)) :
    Reaches (Before · c (ts ++ rest)) (chain n tier) (chainRest · tier (e.levelled c)) (Before · c rest) := by
  rcases Nat.lt_or_eq_of_le tight with tighter | same
  · cases n with
    | zero => exact .outOfSteps
    | succ n =>
      rw [chain]
      exact .bind (inner tighter n) (.here rfl)
  · exact found.infixed same.symm n ends

theorem operand_leads (found : ExprFound c e ts) {tier : Tier} (tight : tier.binding < e.binding) (n : Nat)
    (ends : (nextKind rest).Ends (tier.binding + 1)) :
    Leads (Before · c (ts ++ rest)) (operand n tier) (e.levelled c) (Before · c rest) := by
  generalize left : tier.rank = k
  induction k generalizing tier n with
  | zero =>
    cases n with
    | zero => exact .outOfSteps
    | succ n =>
      have tightest : tier.tighter? = none := by cases tier <;> cases left; rfl
      have binding := Tier.binding_of_tightest tightest
      rw [operand, tightest]
      exact found.unary_leads (binding ▸ tight) n (ends.mono (by rw [binding]; decide))
  | succ k ih =>
    cases n with
    | zero => exact .outOfSteps
    | succ n =>
      obtain ⟨tighter, next⟩ : ∃ tighter, tier.tighter? = some tighter := by
        cases tier with
        | product => cases left
        | _ => exact ⟨_, rfl⟩
      have binding := Tier.binding_tighter next
      have rank := Tier.rank_tighter next
      rw [operand, next]
      rw [← binding] at ends
      have later := ends.mono (Nat.le_succ _)
      refine (found.chain_reaches_of_operand (by omega) n later fun inner m => ih inner m later (by omega)).leads ?_
      exact chainRest_end ends

theorem chain_reaches (found : ExprFound c e ts) {tier : Tier} (tight : tier.binding ≤ e.binding) (n : Nat)
    (ends : (nextKind rest).Ends (tier.binding + 1)) :
    Reaches (Before · c (ts ++ rest)) (chain n tier) (chainRest · tier (e.levelled c)) (Before · c rest) :=
  found.chain_reaches_of_operand tight n ends fun inner m => found.operand_leads inner m ends

theorem chain_leads (found : ExprFound c e ts) (tight : 0 < e.binding) (n : Nat) (ends : (nextKind rest).Ends 1) :
    Leads (Before · c (ts ++ rest)) (chain n .logical) (e.levelled c) (Before · c rest) :=
  have loosest : Tier.logical.binding ≤ e.binding := tight
  (found.chain_reaches loosest n (ends.mono (by decide))).leads (chainRest_end ends)

theorem assignment_leads (found : ExprFound c e ts) (n : Nat) (ends : (nextKind rest).Ends 0) :
    Leads (Before · c (ts ++ rest)) (assignment n) (e.levelled c) (Before · c rest) := by
  rcases Nat.eq_zero_or_pos e.binding with loose | tight
  · exact found.assigned loose n ends
  · cases n with
    | zero => exact .outOfSteps
    | succ n =>
      rw [assignment]
      refine .bind (found.chain_leads tight n (ends.mono (by decide))) (ifPeek_neg (ends.ne_of_binding rfl) ?_)
      exact .pure fun _ => id

end ExprFound

end Rules

section Expressions

variable {c : Context} {e target index value left right : Expr} {t : Token} {ts a b v : List Token}

theorem primary_lookup (name : String) (n : Nat) :
    Leads (Before · c (⟨.identifier, name⟩ :: ts)) (primary n) (.lookup name (c.resolve name)) (Before · c ts) := by
  cases n with
  | zero => exact .outOfSteps
  | succ n =>
    rw [primary]
    exact .bind take_before (.bind resolve_before (.pure fun _ => id))

theorem primary_literal {l : Literal} (spelled : l.Spelled t) (shaped : (Expr.literal l).Shaped) (n : Nat) :
    Leads (Before · c (t :: ts)) (primary n) (.literal l) (Before · c ts) := by
  cases n with
  | zero => exact .outOfSteps
  | succ n =>
    rw [primary]
    refine .bind take_before ?_
    cases l with
    | integer n =>
      obtain ⟨kind, rfl⟩ := spelled
      have small : decimalValue t.lexeme.toList < integerLimit := shaped
      rw [kind]
      dsimp only
      rw [if_pos small]
      exact .pure fun _ => id
    | float x =>
      obtain ⟨kind, rfl⟩ := spelled
      rw [kind]
      exact .pure fun _ => id
    | boolean b =>
      cases spelled
      cases b
      · exact .pure fun _ => id
      · exact .pure fun _ => id
    | string | nil =>
      cases spelled
      exact .pure fun _ => id

namespace ExprFound

theorem of_access (tight : e.binding = accessBinding)
    (reaches : ∀ n rest, Reaches (Before · c (ts ++ rest)) (unary n) (accessRest · (e.levelled c)) (Before · c rest)) :
    ExprFound c e ts where
  access _ := reaches
  prefixed loose := absurd (tight.symm.trans loose) (by decide)
  infixed {tier} loose := absurd (tight.symm.trans loose) (by cases tier <;> decide)
  assigned loose := absurd (tight.symm.trans loose) (by decide)

theorem of_primary (tight : e.binding = accessBinding) (plain : t.kind ∉ [.bang, .minus])
    (leads : ∀ n rest, Leads (Before · c (t :: ts ++ rest)) (primary n) (e.levelled c) (Before · c rest)) :
    ExprFound c e (t :: ts) := by
  refine .of_access tight fun n rest => ?_
  cases n with
  | zero => exact .outOfSteps
  | succ n =>
    rw [unary]
    refine .bind peekKind_before ?_
    split
    · next isBang => exact absurd (List.mem_cons.mpr (.inl isBang)) plain
    · next isMinus => exact absurd (List.mem_cons_of_mem _ (List.mem_singleton.mpr isMinus)) plain
    · exact .bind (leads n rest) (.here rfl)

theorem lookup (name : String) (level : Nat) : ExprFound c (.lookup name level) [⟨.identifier, name⟩] :=
  .of_primary rfl (by simp) fun n _ => primary_lookup name n

theorem literal {l : Literal} (spelled : l.Spelled t) (shaped : (Expr.literal l).Shaped) :
    ExprFound c (.literal l) [t] := by
  refine .of_primary rfl ?_ fun n _ => primary_literal spelled shaped n
  rw [spelled.kind_eq]
  cases l <;> simp [Literal.kind]

theorem group (found : ExprFound c e a) (tight : 0 < e.binding) :
    ExprFound c (.group e) (.ofKind .leftParen :: (a ++ [.ofKind .rightParen])) := by
  refine .of_primary rfl (by decide) fun n rest => ?_
  cases n with
  | zero => exact .outOfSteps
  | succ n =>
    rw [primary, List.cons_append, List.append_assoc]
    refine .bind take_before (.bind (found.chain_leads tight n ?_) ?_)
    · exact .of_binding?_eq_none rfl
    · exact .bind (expect_before (by decide)) (.pure fun _ => id)

theorem of_step (found : ExprFound c target a) (callable : target.binding = accessBinding)
    (tight : e.binding = accessBinding) (step : ∀ n rest, Reaches (Before · c (b ++ rest))
      (accessRest n (target.levelled c)) (accessRest · (e.levelled c)) (Before · c rest)) : ExprFound c e (a ++ b) := by
  refine .of_access tight fun n rest => ?_
  rw [List.append_assoc]
  exact (found.access callable n (b ++ rest)).trans fun n => step n rest

theorem item (found : ExprFound c target a) (callable : target.binding = accessBinding) (inside : ExprFound c index b)
    (tight : 0 < index.binding) :
    ExprFound c (.item target index) (a ++ .ofKind .leftBracket :: (b ++ [.ofKind .rightBracket])) := by
  refine found.of_step callable rfl fun n rest => ?_
  cases n with
  | zero => exact .outOfSteps
  | succ n =>
    rw [accessRest, List.cons_append, List.append_assoc]
    refine .bind peekKind_atHand (.bind discard_before (.bind (inside.chain_leads tight n ?_) ?_))
    · exact .of_binding?_eq_none rfl
    · exact .bind (expect_before (by decide)) (.here rfl)

theorem property {name : String} {key : Token} (found : ExprFound c target a) (callable : target.binding = accessBinding)
    (spelled : SpellsKey name key) : ExprFound c (.property target name) (a ++ [.ofKind .dot, key]) := by
  refine found.of_step callable rfl fun n rest => ?_
  cases n with
  | zero => exact .outOfSteps
  | succ n =>
    rw [accessRest]
    refine .bind peekKind_atHand (.bind discard_before (.bind (expect_before spelled.kind_mem) ?_))
    rw [spelled.lexeme_eq]
    exact .here rfl

theorem call {args : List Expr} (found : ExprFound c target a) (callable : target.binding = accessBinding)
    (inside : ∀ n rest, Leads (Before · c (b ++ rest)) (elements n .rightParen) (levelledExprs c args) (Before · c rest)) :
    ExprFound c (.call target args) (a ++ .ofKind .leftParen :: b) := by
  refine found.of_step callable rfl fun n rest => ?_
  cases n with
  | zero => exact .outOfSteps
  | succ n =>
    rw [accessRest]
    exact .bind peekKind_atHand (.bind discard_before (.bind (inside n rest) (.here rfl)))

theorem list {items : List Expr}
    (inside : ∀ n rest, Leads (Before · c (b ++ rest)) (elements n .rightBracket) (levelledExprs c items) (Before · c rest)) :
    ExprFound c (.list items) (.ofKind .leftBracket :: b) := by
  refine .of_primary rfl (by decide) fun n rest => ?_
  cases n with
  | zero => exact .outOfSteps
  | succ n =>
    rw [primary]
    exact .bind take_before (.bind (inside n rest) (.pure fun _ => id))

theorem object {properties : List (String × Expr)}
    (inside : ∀ n rest, Leads (Before · c (b ++ rest)) (Parser.properties n) (levelledProperties c properties)
      (Before · c rest)) :
    ExprFound c (.object properties) (.ofKind .objectWord :: .ofKind .leftBrace :: b) := by
  refine .of_primary rfl (by decide) fun n rest => ?_
  cases n with
  | zero => exact .outOfSteps
  | succ n =>
    rw [primary]
    exact .bind take_before (.bind (expect_before (by decide)) (.bind (inside n rest) (.pure fun _ => id)))

theorem unary {op : UnaryOp} (found : ExprFound c e a) (tight : prefixBinding ≤ e.binding) :
    ExprFound c (.unary op e) (.ofKind op.kind :: a) where
  access loose := absurd loose (show prefixBinding ≠ accessBinding by decide)
  infixed {tier} loose := absurd loose (by cases tier <;> simp [Expr.binding, prefixBinding, Tier.binding])
  assigned loose := absurd loose (show prefixBinding ≠ 0 by decide)
  prefixed _ n rest ends := by
    cases n with
    | zero => exact .outOfSteps
    | succ n =>
      rw [Parser.unary]
      refine .bind peekKind_atHand ?_
      cases op with
      | negate => exact .bind discard_before (.bind (found.unary_leads tight n ends) (.pure fun _ => id))
      | not => exact .bind discard_before (.bind (found.unary_leads tight n ends) (.pure fun _ => id))

theorem of_operator {tier : Tier} {op : TokenKind} {combine : Expr → Expr → Expr} (known : tier.combine? op = some combine)
    (binding : e.binding = tier.binding) (levelled : e.levelled c = combine (left.levelled c) (right.levelled c))
    (first : ExprFound c left a) (loose : tier.binding ≤ left.binding) (second : ExprFound c right b)
    (tight : tier.binding < right.binding) : ExprFound c e (a ++ .ofKind op :: b) where
  access same := absurd (binding.symm.trans same) (by cases tier <;> decide)
  prefixed same := absurd (binding.symm.trans same) (by cases tier <;> decide)
  assigned same := absurd (binding.symm.trans same) (Nat.ne_of_gt tier.binding_pos)
  infixed {other} same n rest ends := by
    have : other = tier := by
      rw [binding] at same
      cases tier <;> cases other <;> first | rfl | cases same
    subst this
    rw [List.append_assoc, levelled]
    refine (first.chain_reaches loose n ?_).trans fun n => ?_
    · exact .of_combine? known
    · cases n with
      | zero => exact .outOfSteps
      | succ n =>
        rw [chainRest]
        refine .bind peekKind_atHand ?_
        rw [show (Token.ofKind op).kind = op from rfl, known]
        refine .bind discard_before (.bind (second.operand_leads tight n ends) (.here rfl))

theorem of_assignment {assign : Expr → Expr} (known : assignmentTo? (target.levelled c) = some assign)
    (loose : e.binding = 0) (levelled : e.levelled c = assign (value.levelled c)) (place : ExprFound c target a)
    (tight : 0 < target.binding) (given : ExprFound c value v) : ExprFound c e (a ++ .ofKind .equal :: v) where
  access same := absurd (loose.symm.trans same) (by decide)
  prefixed same := absurd (loose.symm.trans same) (by decide)
  infixed {tier} same := absurd (loose.symm.trans same) (Nat.ne_of_lt tier.binding_pos)
  assigned _ n rest ends := by
    cases n with
    | zero => exact .outOfSteps
    | succ n =>
      rw [assignment, List.append_assoc, levelled]
      refine .bind (place.chain_leads tight n ?_) (ifPeek_pos rfl (.bind discard_before ?_))
      · exact fun binding found => by cases found; decide
      · rw [known]
        exact .bind (given.assignment_leads n ends) (.pure fun _ => id)

end ExprFound

theorem elements_nil {close : TokenKind} (n : Nat) :
    Leads (Before · c (.ofKind close :: ts)) (elements n close) [] (Before · c ts) := by
  cases n with
  | zero => exact .outOfSteps
  | succ n =>
    rw [elements]
    exact ifPeek_pos rfl (.bind discard_before (.pure fun _ => id))

theorem elements_cons {close : TokenKind} {es others : List Expr} (closes : close ∈ [.rightParen, .rightBracket])
    (other : t.kind ≠ close) (first : ExprFound c e (t :: a)) (tight : 0 < e.binding)
    (later : ∀ n rest, Leads (Before · c (b ++ rest)) (elements n close) es (Before · c rest))
    (last : others = [] → b = [.ofKind close]) (separated : Separated others (t :: a) b ts) (n : Nat) (rest : List Token) :
    Leads (Before · c (ts ++ rest)) (elements n close) (e.levelled c :: es) (Before · c rest) := by
  have noComma : close ≠ .comma := by
    rintro rfl
    exact absurd closes (by decide)
  cases n with
  | zero => exact .outOfSteps
  | succ n =>
    rw [elements]
    have more : Leads (Before · c (b ++ rest)) (do return e.levelled c :: (← elements n close)) (e.levelled c :: es)
        (Before · c rest) := .bind (later n rest) (.pure fun _ => id)
    rcases separated with rfl | ⟨none, rfl⟩
    · rw [List.append_assoc]
      refine ifPeek_neg other (.bind (first.chain_leads tight n (.of_binding?_eq_none rfl)) (.bind peekKind_atHand ?_))
      dsimp only
      rw [if_pos (show (Token.ofKind .comma).kind = .comma from rfl)]
      exact .bind discard_before more
    · rw [List.append_assoc]
      cases last none
      have ends : close.Ends 1 := by
        simp only [List.mem_cons, List.not_mem_nil, or_false] at closes
        rcases closes with rfl | rfl <;> exact .of_binding?_eq_none rfl
      refine ifPeek_neg other (.bind (first.chain_leads tight n ends) (.bind peekKind_before ?_))
      dsimp only
      rw [show nextKind ([Token.ofKind close] ++ rest) = close from rfl, if_neg noComma, if_neg (· rfl)]
      exact more

theorem properties_nil (n : Nat) : Leads (Before · c (.ofKind .rightBrace :: ts)) (properties n) [] (Before · c ts) := by
  cases n with
  | zero => exact .outOfSteps
  | succ n =>
    rw [properties]
    exact ifPeek_pos rfl (.bind discard_before (.pure fun _ => id))

theorem properties_cons {key : String} {es others : List (String × Expr)} (spelled : SpellsKey key t)
    (first : ExprFound c e a) (tight : 0 < e.binding)
    (later : ∀ n rest, Leads (Before · c (b ++ rest)) (properties n) es (Before · c rest))
    (last : others = [] → es = [] ∧ b = [.ofKind .rightBrace])
    (separated : Separated others (t :: .ofKind .colon :: a) b ts) (n : Nat) (rest : List Token) :
    Leads (Before · c (ts ++ rest)) (properties n) ((key, e.levelled c) :: es) (Before · c rest) := by
  cases n with
  | zero => exact .outOfSteps
  | succ n =>
    have other : t.kind ≠ .rightBrace := by rcases spelled with rfl | rfl <;> simp
    rw [properties]
    rcases separated with rfl | ⟨none, rfl⟩
    · rw [List.append_assoc]
      refine ifPeek_neg other (.bind (expect_before spelled.kind_mem) (.bind (expect_before (by decide)) ?_))
      refine .bind (first.chain_leads tight n (.of_binding?_eq_none rfl)) (.bind (expect_before (by decide)) ?_)
      rw [if_neg (by decide), spelled.lexeme_eq]
      exact .bind (later n rest) (.pure fun _ => id)
    · rw [List.append_assoc]
      obtain ⟨rfl, rfl⟩ := last none
      refine ifPeek_neg other (.bind (expect_before spelled.kind_mem) (.bind (expect_before (by decide)) ?_))
      refine .bind (first.chain_leads tight n (.of_binding?_eq_none rfl)) (.bind (expect_before (by decide)) ?_)
      rw [if_pos (by decide), spelled.lexeme_eq]
      exact .pure fun _ => id

theorem parameterNames_leads {names : List String} (some : names ≠ []) (n : Nat) :
    Leads (Before · c (parameterTokens names ++ ts)) (parameterNames n) names (Before · c ts) := by
  induction names generalizing n with
  | nil => exact absurd rfl some
  | cons name others ih =>
    cases n with
    | zero => exact .outOfSteps
    | succ n =>
      rw [parameterNames]
      cases others with
      | nil =>
        refine .bind identifier_before (.bind (expect_before (by decide)) ?_)
        rw [if_pos (by decide)]
        exact .pure fun _ => id
      | cons second others =>
        refine .bind identifier_before (.bind (expect_before (by decide)) ?_)
        rw [if_neg (by decide)]
        exact .bind (ih (by simp) n) (.pure fun _ => id)

theorem parameters_leads (names : List String) (n : Nat) :
    Leads (Before · c (.ofKind .leftParen :: (parameterTokens names ++ ts))) (parameters n) names (Before · c ts) := by
  unfold parameters
  refine .bind (expect_before (by decide)) ?_
  cases names with
  | nil => exact ifPeek_pos rfl (.bind discard_before (.pure fun _ => id))
  | cons name others =>
    refine ifPeek_neg ?_ (parameterNames_leads (by simp) n)
    cases others <;> simp [parameterTokens, nextKind]

theorem declareAll_before {names : List String} (lacks : c.Lacks names) :
    Leads (Before · c ts) (declareAll names) () (Before · (c.declareAll names) ts) := by
  induction names generalizing c with
  | nil => exact .pure fun _ => id
  | cons name others ih =>
    obtain ⟨here, later⟩ := Context.Lacks.append_iff.mp (show c.Lacks ([name] ++ others) from lacks)
    exact .bind (declare_before (here.2 name List.mem_cons_self)) (ih later)

end Expressions

end Parser

end HookScript
