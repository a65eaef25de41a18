import HookScript.Proofs.Parsing.Grammar
import HookScript.Proofs.Parsing.Taken

/-!
Brackets. What is written with a tree closes every bracket that it opens. A name that a statement adds to the scope
around it comes right after `var` or `function`, and outside all of its brackets.
-/

namespace HookScript

/-- How many brackets are open after a token, if so many have been before it. -/
def TokenKind.deeper (depth : Nat) : TokenKind → Nat
  | .leftParen | .leftBrace | .leftBracket => depth + 1
  | .rightParen | .rightBrace | .rightBracket => depth - 1
  | _ => depth

def depthAfter (depth : Nat) (ts : List Token) : Nat := ts.foldl (fun depth t => t.kind.deeper depth) depth

/-- Every bracket that is opened is closed, and no other. -/
def Balanced (ts : List Token) : Prop := ∀ depth, depthAfter depth ts = depth

def Closing (ts : List Token) : Prop := ∀ depth, depthAfter (depth + 1) ts = depth

/-- The tokens that stand outside all brackets, if so many are open before them. -/
def outside : Nat → List (Token × Nat) → List (Token × Nat)
  | _, [] => []
  | 0, t :: rest => t :: outside (t.1.kind.deeper 0) rest
  | depth + 1, t :: rest => outside (t.1.kind.deeper (depth + 1)) rest

/-- The names that come right after `var` and `function`, outside all brackets. -/
def namesOutside (taken : List Scan) : List String := declaredNames (outside 0 (taken.filterMap Scan.token?))

section Depth

variable {ts us : List Token} {t : Token} {depth : Nat}

@[simp] theorem depthAfter_nil : depthAfter depth [] = depth := rfl

@[simp] theorem depthAfter_cons : depthAfter depth (t :: ts) = depthAfter (t.kind.deeper depth) ts := rfl

@[simp] theorem depthAfter_append : depthAfter depth (ts ++ us) = depthAfter (depthAfter depth ts) us := List.foldl_append

theorem Balanced.depthAfter_eq (balanced : Balanced ts) : depthAfter depth ts = depth := balanced depth

theorem Closing.depthAfter_eq (closing : Closing ts) : depthAfter (depth + 1) ts = depth := closing depth

theorem UnaryOp.deeper_kind (op : UnaryOp) : op.kind.deeper depth = depth := by
  cases op <;> rfl

theorem BinaryOp.deeper_kind (op : BinaryOp) : op.kind.deeper depth = depth := by
  cases op <;> rfl

theorem LogicalOp.deeper_kind (op : LogicalOp) : op.kind.deeper depth = depth := by
  cases op <;> rfl

theorem Literal.deeper_kind (literal : Literal) : literal.kind.deeper depth = depth := by
  cases literal <;> rfl

theorem closing_parameterTokens (params : List String) : Closing (parameterTokens params) := by
  intro depth
  induction params using parameterTokens.induct with
  | case1 => rfl
  | case2 name => rfl
  | case3 name rest more ih =>
    rw [parameterTokens]
    · exact ih
    · exact more

theorem Separated.closing {α : Type} {others : List α} {first later : List Token}
    (separated : Separated others first later ts) (balanced : Balanced first) (closing : Closing later) :
    Closing ts := by
  intro depth
  rcases separated with rfl | ⟨-, rfl⟩
  · simp only [depthAfter_append, depthAfter_cons, balanced.depthAfter_eq, Token.ofKind, TokenKind.deeper,
      closing.depthAfter_eq]
  · simp only [depthAfter_append, balanced.depthAfter_eq, closing.depthAfter_eq]

end Depth

mutual

theorem Expr.Written.balanced : ∀ {e : Expr} {ts : List Token}, e.Written ts → Balanced ts
  | .lookup _ _, _, written, depth => by
    cases written
    rfl
  | .assign _ _ _, _, ⟨_, value, same⟩, depth => by
    simp [same, Token.ofKind, TokenKind.deeper, value.balanced.depthAfter_eq]
  | .item _ _, _, ⟨_, _, target, index, same⟩, depth => by
    simp [same, Token.ofKind, TokenKind.deeper, target.balanced.depthAfter_eq, index.balanced.depthAfter_eq]
  | .setItem _ _ _, _, ⟨_, _, _, target, index, value, same⟩, depth => by
    simp [same, Token.ofKind, TokenKind.deeper, target.balanced.depthAfter_eq, index.balanced.depthAfter_eq,
      value.balanced.depthAfter_eq]
  | .property _ _, _, ⟨_, _, target, key, same⟩, depth => by
    rcases key with rfl | rfl <;> simp [same, Token.ofKind, TokenKind.deeper, target.balanced.depthAfter_eq]
  | .setProperty _ _ _, _, ⟨_, _, _, target, key, value, same⟩, depth => by
    rcases key with rfl | rfl <;>
      simp [same, Token.ofKind, TokenKind.deeper, target.balanced.depthAfter_eq, value.balanced.depthAfter_eq]
  | .literal literal, _, ⟨_, spelled, same⟩, depth => by
    simp [same, spelled.kind_eq, literal.deeper_kind]
  | .group _, _, ⟨_, inner, same⟩, depth => by
    simp [same, Token.ofKind, TokenKind.deeper, inner.balanced.depthAfter_eq]
  | .unary op _, _, ⟨_, operand, same⟩, depth => by
    simp [same, Token.ofKind, op.deeper_kind, operand.balanced.depthAfter_eq]
  | .binary _ op _, _, ⟨_, _, left, right, same⟩, depth => by
    simp [same, Token.ofKind, op.deeper_kind, left.balanced.depthAfter_eq, right.balanced.depthAfter_eq]
  | .logical _ op _, _, ⟨_, _, left, right, same⟩, depth => by
    simp [same, Token.ofKind, op.deeper_kind, left.balanced.depthAfter_eq, right.balanced.depthAfter_eq]
  | .call _ _, _, ⟨_, _, callee, args, same⟩, depth => by
    simp [same, Token.ofKind, TokenKind.deeper, callee.balanced.depthAfter_eq,
      (args.closing fun _ => rfl).depthAfter_eq]
  | .list _, _, ⟨_, items, same⟩, depth => by
    simp [same, Token.ofKind, TokenKind.deeper, (items.closing fun _ => rfl).depthAfter_eq]
  | .object _, _, ⟨_, properties, same⟩, depth => by
    simp [same, Token.ofKind, TokenKind.deeper, properties.closing.depthAfter_eq]
  | .method params _, _, ⟨_, body, same⟩, depth => by
    simp [same, Token.ofKind, TokenKind.deeper, (closing_parameterTokens params).depthAfter_eq,
      body.balanced.depthAfter_eq]

theorem ElementsWritten.closing : ∀ {close : TokenKind} {es : List Expr} {ts : List Token},
    ElementsWritten close es ts → (∀ depth, close.deeper (depth + 1) = depth) → Closing ts
  | _, [], _, same, closes, depth => by
    cases same
    exact closes depth
  | _, _ :: _, _, ⟨_, _, first, rest, separated⟩, closes, depth =>
    separated.closing first.balanced (rest.closing closes) depth

theorem PropertiesWritten.closing : ∀ {properties : List (String × Expr)} {ts : List Token},
    PropertiesWritten properties ts → Closing ts
  | [], _, same, depth => by
    cases same
    rfl
  | (_, _) :: _, _, ⟨_, _, _, key, value, rest, separated⟩, depth => by
    refine separated.closing (fun depth => ?_) rest.closing depth
    rcases key with rfl | rfl <;> simp [Token.ofKind, TokenKind.deeper, value.balanced.depthAfter_eq]

theorem Stmt.Written.balanced : ∀ {stmt : Stmt} {ts : List Token}, stmt.Written ts → Balanced ts
  | .expression _, _, ⟨_, value, same⟩, depth => by
    simp [same, Token.ofKind, TokenKind.deeper, value.balanced.depthAfter_eq]
  | .declare _ none, _, same, depth => by
    cases same
    rfl
  | .declare _ (some _), _, ⟨_, initial, same⟩, depth => by
    simp [same, Token.ofKind, TokenKind.deeper, initial.balanced.depthAfter_eq]
  | .block _, _, ⟨_, body, same⟩, depth => by
    simp [same, Token.ofKind, TokenKind.deeper, body.balanced.depthAfter_eq]
  | .branch _ _ none, _, ⟨_, _, condition, yes, same⟩, depth => by
    simp [same, Token.ofKind, TokenKind.deeper, condition.balanced.depthAfter_eq, yes.balanced.depthAfter_eq]
  | .branch _ _ (some _), _, ⟨_, _, _, condition, yes, no, same⟩, depth => by
    simp [same, Token.ofKind, TokenKind.deeper, condition.balanced.depthAfter_eq, yes.balanced.depthAfter_eq,
      no.balanced.depthAfter_eq]
  | .loop _ _, _, ⟨_, _, condition, body, same⟩, depth => by
    simp [same, Token.ofKind, TokenKind.deeper, condition.balanced.depthAfter_eq, body.balanced.depthAfter_eq]
  | .function _ params _, _, ⟨_, body, same⟩, depth => by
    simp [same, Token.ofKind, TokenKind.deeper, (closing_parameterTokens params).depthAfter_eq,
      body.balanced.depthAfter_eq]
  | .giveBack none, _, same, depth => by
    cases same
    rfl
  | .giveBack (some _), _, ⟨_, value, same⟩, depth => by
    simp [same, Token.ofKind, TokenKind.deeper, value.balanced.depthAfter_eq]
  | .leaveLoop, _, same, depth => by
    cases same
    rfl
  | .nextRound, _, same, depth => by
    cases same
    rfl
  | .importFrom _, _, ⟨_, source, same⟩, depth => by
    simp [same, Token.ofKind, TokenKind.deeper, source.balanced.depthAfter_eq]
  | .exportAs _ _, _, ⟨_, value, same⟩, depth => by
    rcases same with same | ⟨-, same⟩ <;> simp [same, Token.ofKind, TokenKind.deeper, value.balanced.depthAfter_eq]
  | .empty, _, same, depth => by
    cases same
    rfl

theorem StmtsWritten.balanced : ∀ {stmts : List Stmt} {ts : List Token}, StmtsWritten stmts ts → Balanced ts
  | [], _, same, depth => by
    cases same
    rfl
  | _ :: _, _, ⟨_, _, first, rest, same⟩, depth => by
    simp [same, first.balanced.depthAfter_eq, rest.balanced.depthAfter_eq]

end

section Outside

variable {xs ys : List (Token × Nat)} {name : String}

theorem outside_append (depth : Nat) : outside depth (xs ++ ys) =
    outside depth xs ++ outside (depthAfter depth (xs.map Prod.fst)) ys := by
  induction xs generalizing depth with
  | nil => rfl
  | cons t rest ih =>
    cases depth with
    | zero => simp only [List.cons_append, outside, ih, List.map_cons, depthAfter_cons]
    | succ depth => simp only [List.cons_append, outside, ih, List.map_cons, depthAfter_cons]

theorem declaredNames_append_left (declared : name ∈ declaredNames xs) : name ∈ declaredNames (xs ++ ys) := by
  induction xs with
  | nil => cases declared
  | cons first rest ih =>
    cases rest with
    | nil => cases declared
    | cons second others =>
      simp only [declaredNames, List.cons_append] at declared ih ⊢
      split at declared
      · next declares =>
        rw [if_pos declares]
        rcases List.mem_cons.mp declared with rfl | later
        · exact List.mem_cons_self
        · exact List.mem_cons_of_mem _ (ih later)
      · next other =>
        rw [if_neg other]
        exact ih declared

theorem declaredNames_append_right (declared : name ∈ declaredNames ys) : name ∈ declaredNames (xs ++ ys) := by
  induction xs with
  | nil => exact declared
  | cons first rest ih => exact declaredNames_of_rest ih

theorem mem_outside_of_balanced (balanced : Balanced (xs.map Prod.fst)) (declared : name ∈ declaredNames (outside 0 ys)) :
    name ∈ declaredNames (outside 0 (xs ++ ys)) := by
  rw [outside_append, balanced 0]
  exact declaredNames_append_right declared

theorem mem_outside_append (declared : name ∈ declaredNames (outside 0 xs)) :
    name ∈ declaredNames (outside 0 (xs ++ ys)) := by
  rw [outside_append]
  exact declaredNames_append_left declared

end Outside

theorem mem_namesOutside_append {taken more : List Scan} {name : String} (declared : name ∈ namesOutside taken) :
    name ∈ namesOutside (taken ++ more) := by
  rw [namesOutside, List.filterMap_append]
  exact mem_outside_append declared

theorem mem_namesOutside_of_balanced {tokens : List (Token × Nat)} {taken : List Scan} {name : String}
    (balanced : Balanced (tokens.map Prod.fst)) (declared : name ∈ namesOutside taken) :
    name ∈ namesOutside (tokens.map .ofToken ++ taken) := by
  rw [namesOutside, List.filterMap_append, Scan.filterMap_token?_ofToken]
  exact mem_outside_of_balanced balanced declared

theorem mem_outside_of_word {tokens : List (Token × Nat)} {word : Token} {name : String} {rest : List Token}
    (declares : word.kind ∈ [.varWord, .functionWord])
    (same : tokens.map Prod.fst = word :: ⟨.identifier, name⟩ :: rest) : name ∈ declaredNames (outside 0 tokens) := by
  obtain ⟨t, later, rfl, rfl, rest⟩ := List.map_eq_cons_iff.mp same
  obtain ⟨n, others, rfl, named, -⟩ := List.map_eq_cons_iff.mp rest
  have level : t.1.kind.deeper 0 = 0 := by
    rcases List.mem_cons.mp declares with isVar | declares
    · rw [isVar]
      rfl
    · rw [List.mem_singleton.mp declares]
      rfl
  have both : t.1.kind ∈ [.varWord, .functionWord] ∧ n.1.kind = .identifier := ⟨declares, by rw [named]⟩
  rw [outside, level, outside, declaredNames, if_pos both, named]
  exact List.mem_cons_self

end HookScript
