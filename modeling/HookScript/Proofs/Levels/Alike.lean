import HookScript.Proofs.Parsing.RulesAgree
import Mathlib.Data.List.Forall2

/-!
Programs that differ in nothing but the levels of their names. A program is like the one with its levels counted in any
place, and alike programs are put together of alike parts.
-/

namespace HookScript

variable {c d : Context}

theorem Expr.alike_of_levelled {e e' : Expr} (same : e.levelled c = e'.levelled d) : e.Alike e' := fun k => by
  rw [← e.levelled_levelled k c, same, e'.levelled_levelled]

theorem Stmt.alike_of_levelled {stmt stmt' : Stmt} (same : stmt.levelled c = stmt'.levelled d) : stmt.Alike stmt' :=
  fun k => by rw [← stmt.levelled_levelled k c, same, stmt'.levelled_levelled]

theorem alike_of_levelledExprs {es es' : List Expr} (same : levelledExprs c es = levelledExprs d es') :
    List.Forall₂ Expr.Alike es es' := by
  induction es generalizing es' with
  | nil => cases es' with
    | nil => exact .nil
    | cons first' rest' => cases same
  | cons first rest ih => cases es' with
    | nil => cases same
    | cons first' rest' =>
      obtain ⟨here, there⟩ := List.cons.inj same
      exact .cons (Expr.alike_of_levelled here) (ih there)

theorem alike_of_levelledProperties {properties properties' : List (String × Expr)}
    (same : levelledProperties c properties = levelledProperties d properties') :
    properties'.map (·.1) = properties.map (·.1) ∧
      List.Forall₂ Expr.Alike (properties.map (·.2)) (properties'.map (·.2)) := by
  induction properties generalizing properties' with
  | nil => cases properties' with
    | nil => exact ⟨rfl, .nil⟩
    | cons first' rest' => cases same
  | cons first rest ih => cases properties' with
    | nil => cases same
    | cons first' rest' =>
      obtain ⟨here, there⟩ := List.cons.inj same
      obtain ⟨key, value⟩ := Prod.mk.inj here
      obtain ⟨keys, values⟩ := ih there
      exact ⟨by rw [List.map_cons, List.map_cons, keys, key], .cons (Expr.alike_of_levelled value) values⟩

theorem alike_of_levelledStmts {stmts stmts' : List Stmt} (same : levelledStmts c stmts = levelledStmts d stmts') :
    List.Forall₂ Stmt.Alike stmts stmts' := by
  induction stmts generalizing stmts' c d with
  | nil => cases stmts' with
    | nil => exact .nil
    | cons first' rest' => cases same
  | cons first rest ih => cases stmts' with
    | nil => cases same
    | cons first' rest' =>
      obtain ⟨here, there⟩ := List.cons.inj same
      exact .cons (Stmt.alike_of_levelled here) (ih there)

theorem alike_levelledStmts (c : Context) (stmts : List Stmt) : List.Forall₂ Stmt.Alike stmts (levelledStmts c stmts) :=
  alike_of_levelledStmts (levelledStmts_levelled c c stmts).symm

theorem Stmt.alike_refl (stmt : Stmt) : stmt.Alike stmt := fun _ => rfl

theorem stmts_alike_refl (stmts : List Stmt) : List.Forall₂ Stmt.Alike stmts stmts :=
  List.forall₂_same.2 fun stmt _ => stmt.alike_refl

/-! How alike programs are put together -/

inductive Expr.Matches : Expr → Expr → Prop
  | lookup {name level level'} : Matches (.lookup name level) (.lookup name level')
  | assign {name level level' value value'} : Expr.Alike value value' →
    Matches (.assign name level value) (.assign name level' value')
  | item {target target' index index'} : Expr.Alike target target' → Expr.Alike index index' →
    Matches (.item target index) (.item target' index')
  | setItem {target target' index index' value value'} : Expr.Alike target target' → Expr.Alike index index' →
    Expr.Alike value value' → Matches (.setItem target index value) (.setItem target' index' value')
  | property {target target' name} : Expr.Alike target target' → Matches (.property target name) (.property target' name)
  | setProperty {target target' name value value'} : Expr.Alike target target' → Expr.Alike value value' →
    Matches (.setProperty target name value) (.setProperty target' name value')
  | literal {literal} : Matches (.literal literal) (.literal literal)
  | group {inner inner'} : Expr.Alike inner inner' → Matches (.group inner) (.group inner')
  | unary {op operand operand'} : Expr.Alike operand operand' → Matches (.unary op operand) (.unary op operand')
  | binary {left left' op right right'} : Expr.Alike left left' → Expr.Alike right right' →
    Matches (.binary left op right) (.binary left' op right')
  | logical {left left' op right right'} : Expr.Alike left left' → Expr.Alike right right' →
    Matches (.logical left op right) (.logical left' op right')
  | call {callee callee' args args'} : Expr.Alike callee callee' → List.Forall₂ Expr.Alike args args' →
    Matches (.call callee args) (.call callee' args')
  | list {items items'} : List.Forall₂ Expr.Alike items items' → Matches (.list items) (.list items')
  | object {properties properties'} : properties'.map (·.1) = properties.map (·.1) →
    List.Forall₂ Expr.Alike (properties.map (·.2)) (properties'.map (·.2)) →
    Matches (.object properties) (.object properties')
  | method {params body body'} : List.Forall₂ Stmt.Alike body body' →
    Matches (.method params body) (.method params body')

inductive Stmt.Matches : Stmt → Stmt → Prop
  | expression {value value'} : Expr.Alike value value' → Matches (.expression value) (.expression value')
  | declare_none {name} : Matches (.declare name none) (.declare name none)
  | declare_some {name initial initial'} : Expr.Alike initial initial' →
    Matches (.declare name (some initial)) (.declare name (some initial'))
  | block {body body'} : List.Forall₂ Stmt.Alike body body' → Matches (.block body) (.block body')
  | branch_none {condition condition' yes yes'} : Expr.Alike condition condition' → Stmt.Alike yes yes' →
    Matches (.branch condition yes none) (.branch condition' yes' none)
  | branch_some {condition condition' yes yes' no no'} : Expr.Alike condition condition' → Stmt.Alike yes yes' →
    Stmt.Alike no no' → Matches (.branch condition yes (some no)) (.branch condition' yes' (some no'))
  | loop {condition condition' body body'} : Expr.Alike condition condition' → List.Forall₂ Stmt.Alike body body' →
    Matches (.loop condition body) (.loop condition' body')
  | function {name params body body'} : List.Forall₂ Stmt.Alike body body' →
    Matches (.function name params body) (.function name params body')
  | giveBack_none : Matches (.giveBack none) (.giveBack none)
  | giveBack_some {value value'} : Expr.Alike value value' → Matches (.giveBack (some value)) (.giveBack (some value'))
  | leaveLoop : Matches .leaveLoop .leaveLoop
  | nextRound : Matches .nextRound .nextRound
  | importFrom {source source'} : Expr.Alike source source' → Matches (.importFrom source) (.importFrom source')
  | exportAs {name value value'} : Expr.Alike value value' → Matches (.exportAs name value) (.exportAs name value')
  | empty : Matches .empty .empty

theorem Expr.Alike.matches {e e' : Expr} (alike : e.Alike e') : e.Matches e' := by
  have same := alike .start
  cases e with
  | lookup name level => cases e' with
    | lookup name' level' =>
      cases (Expr.lookup.inj same).1
      exact .lookup
    | _ => cases same
  | assign name level value => cases e' with
    | assign name' level' value' =>
      obtain ⟨rfl, -, value⟩ := Expr.assign.inj same
      exact .assign (alike_of_levelled value)
    | _ => cases same
  | item target index => cases e' with
    | item target' index' =>
      obtain ⟨target, index⟩ := Expr.item.inj same
      exact .item (alike_of_levelled target) (alike_of_levelled index)
    | _ => cases same
  | setItem target index value => cases e' with
    | setItem target' index' value' =>
      obtain ⟨target, index, value⟩ := Expr.setItem.inj same
      exact .setItem (alike_of_levelled target) (alike_of_levelled index) (alike_of_levelled value)
    | _ => cases same
  | property target name => cases e' with
    | property target' name' =>
      obtain ⟨target, rfl⟩ := Expr.property.inj same
      exact .property (alike_of_levelled target)
    | _ => cases same
  | setProperty target name value => cases e' with
    | setProperty target' name' value' =>
      obtain ⟨target, rfl, value⟩ := Expr.setProperty.inj same
      exact .setProperty (alike_of_levelled target) (alike_of_levelled value)
    | _ => cases same
  | literal literal => cases e' with
    | literal literal' =>
      cases Expr.literal.inj same
      exact .literal
    | _ => cases same
  | group inner => cases e' with
    | group inner' => exact .group (alike_of_levelled (Expr.group.inj same))
    | _ => cases same
  | unary op operand => cases e' with
    | unary op' operand' =>
      obtain ⟨rfl, operand⟩ := Expr.unary.inj same
      exact .unary (alike_of_levelled operand)
    | _ => cases same
  | binary left op right => cases e' with
    | binary left' op' right' =>
      obtain ⟨left, rfl, right⟩ := Expr.binary.inj same
      exact .binary (alike_of_levelled left) (alike_of_levelled right)
    | _ => cases same
  | logical left op right => cases e' with
    | logical left' op' right' =>
      obtain ⟨left, rfl, right⟩ := Expr.logical.inj same
      exact .logical (alike_of_levelled left) (alike_of_levelled right)
    | _ => cases same
  | call callee args => cases e' with
    | call callee' args' =>
      obtain ⟨callee, args⟩ := Expr.call.inj same
      exact .call (alike_of_levelled callee) (alike_of_levelledExprs args)
    | _ => cases same
  | list items => cases e' with
    | list items' => exact .list (alike_of_levelledExprs (Expr.list.inj same))
    | _ => cases same
  | object properties => cases e' with
    | object properties' =>
      obtain ⟨keys, values⟩ := alike_of_levelledProperties (Expr.object.inj same)
      exact .object keys values
    | _ => cases same
  | method params body => cases e' with
    | method params' body' =>
      obtain ⟨rfl, body⟩ := Expr.method.inj same
      exact .method (alike_of_levelledStmts body)
    | _ => cases same

theorem Stmt.ctorIdx_levelled (c : Context) (stmt : Stmt) : (stmt.levelled c).ctorIdx = stmt.ctorIdx := by
  cases stmt with
  | declare name initial | giveBack initial => cases initial <;> rfl
  | branch condition yes no => cases no <;> rfl
  | _ => rfl

theorem Stmt.matches_declare {name name' : String} {initial initial' : Option Expr}
    (same : (Stmt.declare name initial).levelled c = (Stmt.declare name' initial').levelled d) :
    (Stmt.declare name initial).Matches (.declare name' initial') := by
  cases initial with
  | none => cases initial' with
    | none =>
      cases (Stmt.declare.inj same).1
      exact .declare_none
    | some initial' => cases same
  | some initial => cases initial' with
    | none => cases same
    | some initial' =>
      obtain ⟨rfl, initials⟩ := Stmt.declare.inj same
      exact .declare_some (Expr.alike_of_levelled (Option.some.inj initials))

theorem Stmt.matches_branch {condition condition' : Expr} {yes yes' : Stmt} {no no' : Option Stmt}
    (same : (Stmt.branch condition yes no).levelled c = (Stmt.branch condition' yes' no').levelled d) :
    (Stmt.branch condition yes no).Matches (.branch condition' yes' no') := by
  cases no with
  | none => cases no' with
    | none =>
      obtain ⟨condition, yes, -⟩ := Stmt.branch.inj same
      exact .branch_none (Expr.alike_of_levelled condition) (alike_of_levelled yes)
    | some no' => cases (Stmt.branch.inj same).2.2
  | some no => cases no' with
    | none => cases (Stmt.branch.inj same).2.2
    | some no' =>
      obtain ⟨condition, yes, no⟩ := Stmt.branch.inj same
      exact .branch_some (Expr.alike_of_levelled condition) (alike_of_levelled yes)
        (alike_of_levelled (Option.some.inj no))

theorem Stmt.matches_giveBack {value value' : Option Expr}
    (same : (Stmt.giveBack value).levelled c = (Stmt.giveBack value').levelled d) :
    (Stmt.giveBack value).Matches (.giveBack value') := by
  cases value with
  | none => cases value' with
    | none => exact .giveBack_none
    | some value' => cases same
  | some value => cases value' with
    | none => cases same
    | some value' => exact .giveBack_some (Expr.alike_of_levelled (Option.some.inj (Stmt.giveBack.inj same)))

theorem Stmt.Alike.matches {stmt stmt' : Stmt} (alike : stmt.Alike stmt') : stmt.Matches stmt' := by
  have same := alike .start
  have form : stmt.ctorIdx = stmt'.ctorIdx := by
    rw [← stmt.ctorIdx_levelled .start, same, stmt'.ctorIdx_levelled]
  cases stmt with
  | expression value => cases stmt' with
    | expression value' => exact .expression (Expr.alike_of_levelled (Stmt.expression.inj same))
    | _ => cases form
  | declare name initial => cases stmt' with
    | declare name' initial' => exact matches_declare same
    | _ => cases form
  | block body => cases stmt' with
    | block body' => exact .block (alike_of_levelledStmts (Stmt.block.inj same))
    | _ => cases form
  | branch condition yes no => cases stmt' with
    | branch condition' yes' no' => exact matches_branch same
    | _ => cases form
  | loop condition body => cases stmt' with
    | loop condition' body' =>
      obtain ⟨condition, body⟩ := Stmt.loop.inj same
      exact .loop (Expr.alike_of_levelled condition) (alike_of_levelledStmts body)
    | _ => cases form
  | function name params body => cases stmt' with
    | function name' params' body' =>
      obtain ⟨rfl, rfl, body⟩ := Stmt.function.inj same
      exact .function (alike_of_levelledStmts body)
    | _ => cases form
  | giveBack value => cases stmt' with
    | giveBack value' => exact matches_giveBack same
    | _ => cases form
  | leaveLoop => cases stmt' with
    | leaveLoop => exact .leaveLoop
    | _ => cases form
  | nextRound => cases stmt' with
    | nextRound => exact .nextRound
    | _ => cases form
  | importFrom source => cases stmt' with
    | importFrom source' => exact .importFrom (Expr.alike_of_levelled (Stmt.importFrom.inj same))
    | _ => cases form
  | exportAs name value => cases stmt' with
    | exportAs name' value' =>
      obtain ⟨rfl, value⟩ := Stmt.exportAs.inj same
      exact .exportAs (Expr.alike_of_levelled value)
    | _ => cases form
  | empty => cases stmt' with
    | empty => exact .empty
    | _ => cases form

end HookScript
