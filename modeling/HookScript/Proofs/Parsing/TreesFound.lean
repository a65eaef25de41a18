import HookScript.Proofs.Parsing.StmtsFound

/-!
Every tree of the grammar is found from its tokens. The recursion is over the tree and has one case for each of its
constructors.
-/

namespace HookScript

namespace Parser

mutual

theorem exprFound : ∀ {e : Expr} {ts : List Token} (c : Context), e.Written ts → e.Shaped → ExprFound c e ts
  | .lookup name level, _, _, same, _ => by
    subst same
    exact .lookup name level
  | .assign name level _, _, c, ⟨_, value, same⟩, shaped => by
    subst same
    exact .of_assignment (a := [⟨.identifier, name⟩]) rfl rfl rfl (.lookup name level) accessBinding_pos
      (exprFound c value shaped)
  | .item _ _, _, c, ⟨_, _, target, index, same⟩, ⟨shaped, inside, callable, tight⟩ => by
    subst same
    exact (exprFound c target shaped).item callable (exprFound c index inside) tight
  | .setItem _ _ _, _, c, ⟨_, _, _, target, index, value, same⟩, ⟨shaped, inside, given, callable, tight⟩ => by
    have place := (exprFound c target shaped).item callable (exprFound c index inside) tight
    have found := ExprFound.of_assignment (e := .setItem _ _ _) rfl rfl rfl place accessBinding_pos
      (exprFound c value given)
    rw [same]
    simpa only [List.append_assoc, List.cons_append, List.nil_append] using found
  | .property _ _, _, c, ⟨_, _, target, key, same⟩, ⟨shaped, callable⟩ => by
    subst same
    exact (exprFound c target shaped).property callable key
  | .setProperty _ _ _, _, c, ⟨_, _, _, target, key, value, same⟩, ⟨shaped, given, callable⟩ => by
    have place := (exprFound c target shaped).property callable key
    have found := ExprFound.of_assignment (e := .setProperty _ _ _) rfl rfl rfl place accessBinding_pos
      (exprFound c value given)
    rw [same]
    simpa only [List.append_assoc, List.cons_append, List.nil_append] using found
  | .literal _, _, _, ⟨_, spelled, same⟩, shaped => by
    subst same
    exact .literal spelled shaped
  | .group _, _, c, ⟨_, inner, same⟩, ⟨shaped, tight⟩ => by
    subst same
    exact (exprFound c inner shaped).group tight
  | .unary _ _, _, c, ⟨_, operand, same⟩, ⟨shaped, tight⟩ => by
    subst same
    exact (exprFound c operand shaped).unary tight
  | .binary _ op _, _, c, ⟨_, _, left, right, same⟩, ⟨shaped, shaped', loose, tight⟩ => by
    subst same
    exact .of_operator op.combine?_kind rfl rfl (exprFound c left shaped) loose (exprFound c right shaped') tight
  | .logical _ op _, _, c, ⟨_, _, left, right, same⟩, ⟨shaped, shaped', loose, tight⟩ => by
    subst same
    exact .of_operator op.combine?_kind rfl rfl (exprFound c left shaped) loose (exprFound c right shaped') tight
  | .call _ args, _, c, ⟨_, _, callee, inside, same⟩, ⟨shaped, callable, others⟩ => by
    subst same
    exact (exprFound c callee shaped).call callable (elementsFound c inside others (by decide))
  | .list items, _, c, ⟨_, inside, same⟩, shaped => by
    subst same
    exact .list (elementsFound c inside shaped (by decide))
  | .object properties, _, c, ⟨_, inside, same⟩, shaped => by
    subst same
    exact .object (propertiesFound c inside shaped)
  | .method params body, _, c, ⟨_, inside, same⟩, ⟨distinct, shaped⟩ => by
    subst same
    obtain ⟨first, later⟩ := Context.Lacks.append_iff.mp (Context.Lacks.enter (c := ⟨.receiver, [c.globals]⟩) distinct)
    refine .method (bodyFound (c.methodBody params) inside shaped ?_) first.1
    exact later.congr (Context.names_settleAll _ _).symm

theorem elementsFound : ∀ {es : List Expr} {close : TokenKind} {ts : List Token} (c : Context), ElementsWritten close es ts →
    ElementsShaped es → close ∈ [.rightParen, .rightBracket] → ∀ n rest,
      Leads (Before · c (ts ++ rest)) (elements n close) (levelledExprs c es) (Before · c rest)
  | [], _, _, _, same, _, _, n, _ => by
    subst same
    exact elements_nil n
  | e :: others, close, _, c, ⟨_, _, first, later, separated⟩, ⟨shaped, tight, shaped'⟩, closes, n, rest => by
    obtain ⟨t, more, rfl, kind⟩ := first.head
    have other : t.kind ≠ close := by
      have known := e.opening_mem
      rintro rfl
      rw [← kind] at known
      simp only [List.mem_cons, List.not_mem_nil, or_false] at closes
      rcases closes with close | close <;> exact absurd (close ▸ known) (by decide)
    refine elements_cons closes other (exprFound c first shaped) tight (elementsFound c later shaped' closes) ?_ separated
      n rest
    rintro rfl
    exact later

theorem propertiesFound : ∀ {properties : List (String × Expr)} {ts : List Token} (c : Context),
    PropertiesWritten properties ts → PropertiesShaped properties → ∀ n rest,
      Leads (Before · c (ts ++ rest)) (Parser.properties n) (levelledProperties c properties) (Before · c rest)
  | [], _, _, same, _, n, _ => by
    subst same
    exact properties_nil n
  | (_, _) :: others, _, c, ⟨_, _, _, key, value, later, separated⟩, ⟨shaped, tight, shaped'⟩, n, rest => by
    refine properties_cons key (exprFound c value shaped) tight (propertiesFound c later shaped') ?_ separated n rest
    rintro rfl
    exact ⟨rfl, later⟩

theorem stmtFound : ∀ {stmt : Stmt} {ts : List Token} (c : Context), stmt.Written ts → stmt.Shaped →
    c.Lacks stmt.declares → StmtFound c stmt ts
  | .expression e, _, c, ⟨_, value, same⟩, ⟨shaped, plain⟩, _ => by
    obtain ⟨t, more, rfl, kind⟩ := value.head
    subst same
    exact .expression (exprFound c value shaped) (kind ▸ e.opening_mem) (kind ▸ plain)
  | .declare _ none, _, _, same, _, lacks => by
    subst same
    exact .declare_none lacks
  | .declare name (some _), _, c, ⟨_, initial, same⟩, ⟨shaped, tight⟩, lacks => by
    subst same
    exact .declare_some lacks (exprFound (c.declare name) initial shaped) tight
  | .block _, _, c, ⟨_, body, same⟩, ⟨distinct, shaped⟩, _ => by
    subst same
    exact .block (bodyFound c.enter body shaped (.enter distinct))
  | .branch _ _ none, _, c, ⟨_, _, condition, yes, same⟩, ⟨shaped, tight, shaped', plain, starts⟩, lacks => by
    obtain ⟨t, more, rfl, kind⟩ := yes.head
    subst same
    exact .branch_none (exprFound c condition shaped) tight (kind ▸ starts) (stmtFound c yes shaped' lacks) plain
  | .branch _ _ (some _), _, c, ⟨_, _, _, condition, yes, no, same⟩,
      ⟨shaped, tight, shaped', plain, starts, closed, shaped'', plain'⟩, lacks => by
    obtain ⟨first, later⟩ := Context.Lacks.append_iff.mp lacks
    obtain ⟨t, more, rfl, kind⟩ := yes.head
    subst same
    exact .branch_some (exprFound c condition shaped) tight (kind ▸ starts) (stmtFound c yes shaped' first) plain closed
      (stmtFound _ no shaped'' later) plain'
  | .loop _ _, _, c, ⟨_, _, condition, body, same⟩, ⟨shaped, tight, distinct, shaped'⟩, _ => by
    subst same
    exact .loop (exprFound c condition shaped) tight (bodyFound c.enter body shaped' (.enter distinct))
  | .function name params body, _, c, ⟨_, inside, same⟩, ⟨distinct, shaped⟩, lacks => by
    subst same
    obtain ⟨first, later⟩ := Context.Lacks.append_iff.mp (Context.Lacks.enter (c := c.settle name) distinct)
    refine .function (bodyFound (c.functionBody name params) inside shaped ?_) first.1 lacks
    exact later.congr (Context.names_settleAll _ _).symm
  | .giveBack none, _, _, same, _, _ => by
    subst same
    exact .giveBack_none
  | .giveBack (some e), _, c, ⟨_, value, same⟩, ⟨shaped, tight⟩, _ => by
    obtain ⟨t, more, rfl, kind⟩ := value.head
    subst same
    refine .giveBack_some (exprFound c value shaped) (fun known => ?_) tight
    exact absurd e.opening_mem (by rw [← kind, known]; decide)
  | .leaveLoop, _, _, same, _, _ => by
    subst same
    exact .leaveLoop
  | .nextRound, _, _, same, _, _ => by
    subst same
    exact .nextRound
  | .importFrom _, _, _, ⟨_, source, same⟩, shaped, _ => by
    subst same
    exact .importFrom shaped source
  | .exportAs _ _, _, c, ⟨_, value, .inl same⟩, shaped, _ => by
    subst same
    exact .exportAs_named (exprFound c value shaped)
  | .exportAs _ _, _, c, ⟨_, value, .inr ⟨⟨_, bare⟩, same⟩⟩, shaped, _ => by
    subst same bare
    exact .exportAs_bare (exprFound c value shaped)
  | .empty, _, _, same, _, _ => by
    subst same
    exact .empty

theorem bodyFound : ∀ {stmts : List Stmt} {ts : List Token} (c : Context), StmtsWritten stmts ts → StmtsShaped stmts →
    c.Lacks (declaresAll stmts) → BodyFound c stmts ts
  | [], _, _, same, _, _ => by
    subst same
    exact .nil
  | _ :: _, _, c, ⟨_, _, first, later, same⟩, ⟨shaped, shaped'⟩, lacks => by
    subst same
    obtain ⟨here, there⟩ := Context.Lacks.append_iff.mp lacks
    exact .cons (stmtFound c first shaped here) first later
      (bodyFound _ later shaped' (there.congr (Context.names_after c _).symm))

end

end Parser

end HookScript
