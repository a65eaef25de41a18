import HookScript.Proofs.Lexing.Cuts
import HookScript.Proofs.Parsing.Accepted
import HookScript.Proofs.Parsing.ReadBack

/-!
Reading a program in pieces. An accepted text can be cut behind any of its statements, and each piece is accepted by itself:
it has the statements that stand in it, with the levels of their names counted anew.
-/

namespace HookScript

theorem stmtsShaped_iff {stmts : List Stmt} : StmtsShaped stmts ↔ ∀ stmt ∈ stmts, stmt.Shaped := by
  induction stmts with
  | nil => simp [StmtsShaped]
  | cons first rest ih => rw [StmtsShaped, ih, List.forall_mem_cons]

theorem Program.Shaped.part {parts : List Program} (shaped : Program.Shaped parts.flatten) {part : Program}
    (among : part ∈ parts) : part.Shaped := by
  have within : part.Sublist parts.flatten := List.sublist_flatten_of_mem among
  refine ⟨shaped.1.sublist (within.flatMap _), ?_⟩
  exact stmtsShaped_iff.2 fun stmt found => stmtsShaped_iff.1 shaped.2 stmt (within.subset found)

/-- The text has the tokens that the program is written with, whatever the levels in it. -/
def Program.SpelledBy (program : Program) (text : String) : Prop :=
  ∃ placed, Finds (Lexer.ofText text).scans placed ∧ program.Written (placed.map Prod.fst)

theorem Program.ofText_pieces {parts : List Program} {texts : List String} (shaped : ∀ part ∈ parts, part.Shaped)
    (spelled : List.Forall₂ Program.SpelledBy parts texts) :
    List.Forall₂ (fun text program => Program.ofText text = .ok program) texts (parts.map Program.levelled) := by
  induction spelled with
  | nil => exact .nil
  | cons first rest ih =>
    obtain ⟨here, there⟩ := List.forall_mem_cons.1 shaped
    obtain ⟨placed, found, written⟩ := first
    exact .cons (Program.ofLexer_written written here found) (ih there)

/-! Cutting a text into pieces -/

def Closes (ts : List Token) : Prop := ∃ t ∈ ts.getLast?, t.kind = .semicolon ∨ t.kind = .rightBrace

theorem Closes.append {ts : List Token} (closes : Closes ts) (before : List Token) : Closes (before ++ ts) := by
  obtain ⟨t, last, kind⟩ := closes
  exact ⟨t, by simp [List.getLast?_append, Option.mem_def.1 last], kind⟩

theorem closes_semicolon (before : List Token) : Closes (before ++ [.ofKind .semicolon]) :=
  .append ⟨_, rfl, .inl rfl⟩ before

theorem closes_rightBrace (before : List Token) : Closes (before ++ [.ofKind .rightBrace]) :=
  .append ⟨_, rfl, .inr rfl⟩ before

theorem Stmt.Written.closes : ∀ {stmt : Stmt} {ts : List Token}, stmt.Written ts → Closes ts
  | .expression _, _, ⟨a, _, same⟩ => same ▸ closes_semicolon a
  | .declare name none, _, same => same ▸ closes_semicolon [.ofKind .varWord, ⟨.identifier, name⟩]
  | .declare name (some _), _, ⟨a, _, same⟩ =>
    same ▸ closes_semicolon (.ofKind .varWord :: ⟨.identifier, name⟩ :: .ofKind .equal :: a)
  | .block _, _, ⟨b, _, same⟩ => same ▸ closes_rightBrace (.ofKind .leftBrace :: b)
  | .branch _ _ none, _, ⟨a, _, _, yes, same⟩ => same ▸ yes.closes.append (.ofKind .ifWord :: a)
  | .branch _ _ (some _), _, ⟨a, b, _, _, _, no, same⟩ => by
    have closes := (no.closes.append [.ofKind .elseWord]).append b
    exact same ▸ closes.append (.ofKind .ifWord :: a)
  | .loop _ _, _, ⟨a, b, _, _, same⟩ => by
    have closes := (closes_rightBrace b).append [.ofKind .leftBrace]
    exact same ▸ closes.append (.ofKind .whileWord :: a)
  | .function name params _, _, ⟨b, _, same⟩ => by
    have closes := ((closes_rightBrace b).append [.ofKind .leftBrace]).append (parameterTokens params)
    exact same ▸ closes.append [.ofKind .functionWord, ⟨.identifier, name⟩, .ofKind .leftParen]
  | .giveBack none, _, same => same ▸ closes_semicolon [.ofKind .returnWord]
  | .giveBack (some _), _, ⟨a, _, same⟩ => same ▸ closes_semicolon (.ofKind .returnWord :: a)
  | .leaveLoop, _, same => same ▸ closes_semicolon [.ofKind .breakWord]
  | .nextRound, _, same => same ▸ closes_semicolon [.ofKind .continueWord]
  | .importFrom _, _, ⟨a, _, same⟩ => same ▸ closes_semicolon (.ofKind .importWord :: a)
  | .exportAs name _, _, ⟨a, _, .inl same⟩ => by
    have closes := (closes_semicolon [.ofKind .asWord, ⟨.identifier, name⟩]).append a
    exact same ▸ closes.append [.ofKind .exportWord]
  | .exportAs _ _, _, ⟨a, _, .inr ⟨_, same⟩⟩ => same ▸ closes_semicolon (.ofKind .exportWord :: a)
  | .empty, _, same => same ▸ closes_semicolon []

theorem closes_of_stmtsWritten {stmts : List Stmt} {ts : List Token} (written : StmtsWritten stmts ts) :
    ts = [] ∨ Closes ts := by
  induction stmts generalizing ts with
  | nil => exact .inl written
  | cons first rest ih =>
    obtain ⟨a, b, here, there, rfl⟩ := written
    rcases ih there with rfl | closes
    · rw [List.append_nil]
      exact .inr here.closes
    · exact .inr (closes.append a)

theorem stmtsWritten_append {stmts later : List Stmt} {ts : List Token} (written : StmtsWritten (stmts ++ later) ts) :
    ∃ a b, StmtsWritten stmts a ∧ StmtsWritten later b ∧ ts = a ++ b := by
  induction stmts generalizing ts with
  | nil => exact ⟨[], ts, rfl, written, rfl⟩
  | cons first rest ih =>
    obtain ⟨a, b, here, there, rfl⟩ := written
    obtain ⟨c, d, before, after, rfl⟩ := ih there
    exact ⟨a ++ c, d, ⟨a, c, here, before, rfl⟩, after, (List.append_assoc _ _ _).symm⟩

open Text.Utf8 (encode)

theorem Program.spelledBy_of_cut {program : Program} {ts : List Token} {text : String} (written : program.Written ts)
    (cut : Lexer.Cut ts (encode text)) : program.SpelledBy text := by
  obtain ⟨placed, rfl, found⟩ := Lexer.finds_of_cut cut (Lexer.awaits_ofBytes _)
  exact ⟨placed, found, written⟩

theorem exists_texts_of_closes {ts : List Token} {text : String} {front back : List UInt8} (closes : ts = [] ∨ Closes ts)
    (bytes : encode text = front ++ back)
    (ends : front = [] ∨ ∃ t ∈ ts.getLast?, t.kind ≠ .illegal → Lexer.EndsPlain front) :
    ∃ first second, text = first ++ second ∧ encode first = front ∧ encode second = back := by
  rcases ends with rfl | ⟨t, last, plain⟩
  · exact ⟨"", text, by simp, rfl, bytes⟩
  · obtain ⟨u, last', kind⟩ : Closes ts := closes.resolve_left fun none => by simp [none] at last
    obtain rfl := Option.mem_unique last last'
    obtain ⟨b, ending, small⟩ := plain (by rcases kind with kind | kind <;> rw [kind] <;> decide)
    obtain ⟨before, rfl⟩ := List.getLast?_eq_some_iff.1 ending
    rw [List.append_assoc] at bytes
    exact Text.Utf8.exists_texts small bytes

theorem exists_pieces_of_cut {parts : List Program} {ts : List Token} {text : String}
    (written : StmtsWritten parts.flatten ts) (cut : Lexer.Cut ts (encode text)) :
    ∃ texts rest, text = String.join texts ++ rest ∧ List.Forall₂ Program.SpelledBy parts texts ∧
      Program.SpelledBy [] rest := by
  induction parts generalizing ts text with
  | nil => exact ⟨[], text, by simp, .nil, Program.spelledBy_of_cut written cut⟩
  | cons part later ih =>
    obtain ⟨a, b, here, there, rfl⟩ := stmtsWritten_append written
    obtain ⟨front, back, bytes, before, after, ends⟩ := cut.split
    obtain ⟨first, second, rfl, rfl, rfl⟩ := exists_texts_of_closes (closes_of_stmtsWritten here) bytes ends
    obtain ⟨texts, rest, rfl, spelled, ending⟩ := ih there after
    exact ⟨first :: texts, rest, by simp [String.append_assoc], .cons (Program.spelledBy_of_cut here before) spelled,
      ending⟩

theorem Program.exists_pieces {text : String} {parts : List Program} (accepted : Program.ofText text = .ok parts.flatten) :
    ∃ texts rest, text = String.join texts ++ rest ∧ List.Forall₂ Program.SpelledBy parts texts ∧
      Program.SpelledBy [] rest := by
  obtain ⟨tokens, ending, found, atEnd, real, written, -⟩ := written_of_ofLexer accepted
  exact exists_pieces_of_cut written (Lexer.cut_of_scans (Lexer.awaits_ofBytes _) found atEnd real)

end HookScript
