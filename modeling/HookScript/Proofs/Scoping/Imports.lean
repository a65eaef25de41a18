import HookScript.Proofs.Scoping.Depth

/-!
Names that come from imports. An import binds what the file exports in the scope that it stands in, and the text
does not show these names. A reference after it has the level of a declaration further out, or of the builtins,
and what is bound there comes first.
-/

namespace HookScript

namespace Run

inductive Imports (world : World) (n : Nat) (source : Expr) (m : Machine) : Table Value → Machine → Prop
  | intro {path place text program m₁ m₂} (hs : evaluate world (n + 1) source m = .ok (.string path) m₁)
    (found : world.resolveFrom m₁.interpreter.directory path = .ok place) (fresh : place ∉ m₁.interpreter.imports)
    (read : world.readText place = .ok text) (accepted : Program.ofText text = .ok program)
    (ran : executeProgram world n program (m₁.importing place) = .ok () m₂) :
    Imports world n source m m₂.interpreter.exports { m₂ with
      heap := m₂.heap.declareAll m₁.interpreter.scope m₂.interpreter.exports.entries,
      interpreter := m₁.interpreter }

variable {world : World} {n : Nat} {source : Expr} {m m' : Machine} {exports : Table Value}

theorem importFile_eq {path text : String} {place : Path} {program : Program}
    (found : world.resolveFrom m.interpreter.directory path = .ok place)
    (fresh : place ∉ m.interpreter.imports) (read : world.readText place = .ok text)
    (accepted : Program.ofText text = .ok program) :
    importFile world (n + 1) (.string path) m =
      match executeProgram world n program (m.importing place) with
      | .ok () m₂ => .ok () ⟨m₂.heap.declareAll m.interpreter.scope m₂.interpreter.exports.entries, m₂.out,
          m.interpreter⟩
      | .error e m₂ => .error e { m₂ with interpreter := m.interpreter } := by
  have entered : m.importing place =
      ⟨(Interpreter.start m.heap (some place.parent) (m.interpreter.imports ++ [place])).2, m.out,
        (Interpreter.start m.heap (some place.parent) (m.interpreter.imports ++ [place])).1⟩ := rfl
  simp only [importFile, bind, EStateM.bind, interpreter, found, fresh, if_false, read, accepted, changeHeap_eq,
    withInterpreter_eq, entered]
  generalize executeProgram world n program _ = ended
  cases ended <;> rfl

theorem importFile_ok {path text : String} {place : Path} {program : Program} {m₂ : Machine}
    (found : world.resolveFrom m.interpreter.directory path = .ok place) (fresh : place ∉ m.interpreter.imports)
    (read : world.readText place = .ok text) (accepted : Program.ofText text = .ok program)
    (ran : executeProgram world n program (m.importing place) = .ok () m₂) :
    importFile world (n + 1) (.string path) m = .ok () { m₂ with
      heap := m₂.heap.declareAll m.interpreter.scope m₂.interpreter.exports.entries,
      interpreter := m.interpreter } := by
  rw [importFile_eq found fresh read accepted, ran]

theorem execute_of_imports (imports : Imports world n source m exports m') :
    execute world (n + 2) (.importFrom source) m = .ok .normal m' := by
  cases imports with
  | intro hs found fresh read accepted ran =>
    rw [execute]
    simp only [bind, EStateM.bind, hs, importFile_ok found fresh read accepted ran]
    rfl

theorem importFile_refused_or (world : World) (n : Nat) (v : Value) (m : Machine) :
    (∃ e, importFile world n v m = .error e m) ∨
      ∃ path place text program, v = .string path ∧ world.resolveFrom m.interpreter.directory path = .ok place ∧
        place ∉ m.interpreter.imports ∧ world.readText place = .ok text ∧ Program.ofText text = .ok program := by
  cases n with
  | zero => exact .inl ⟨.outOfFuel, rfl⟩
  | succ n =>
    cases v with
    | string path =>
      cases found : world.resolveFrom m.interpreter.directory path with
      | error error =>
        refine .inl ⟨.fault (.file error), ?_⟩
        simp only [importFile, bind, EStateM.bind, interpreter, found]
        rfl
      | ok place =>
        by_cases cyclic : place ∈ m.interpreter.imports
        · refine .inl ⟨.fault (.cyclicImport place.text), ?_⟩
          simp only [importFile, bind, EStateM.bind, interpreter, found, cyclic, if_true]
          rfl
        · cases read : world.readText place with
          | error error =>
            refine .inl ⟨.fault (.file error), ?_⟩
            simp only [importFile, bind, EStateM.bind, interpreter, found, cyclic, if_false, read]
            rfl
          | ok text =>
            cases accepted : Program.ofText text with
            | error errors =>
              refine .inl ⟨.fault (.importErrors place.text errors), ?_⟩
              simp only [importFile, bind, EStateM.bind, interpreter, found, cyclic, if_false, read, accepted]
              rfl
            | ok program => exact .inr ⟨path, place, text, program, rfl, found, cyclic, read, accepted⟩
    | _ => exact .inl ⟨.fault (.importValue _), rfl⟩

theorem ok_of_importFile {path : Value} {u : Unit} (h : importFile world (n + 1) path m = .ok u m') :
    ∃ text place content program m₂, path = .string text ∧
      world.resolveFrom m.interpreter.directory text = .ok place ∧ place ∉ m.interpreter.imports ∧
      world.readText place = .ok content ∧ Program.ofText content = .ok program ∧
      executeProgram world n program (m.importing place) = .ok () m₂ := by
  rcases importFile_refused_or world (n + 1) path m with
    ⟨e, refused⟩ | ⟨text, place, content, program, rfl, found, fresh, read, accepted⟩
  · cases h.symm.trans refused
  · rw [importFile_eq found fresh read accepted] at h
    cases ran : executeProgram world n program (m.importing place) with
    | ok u m₂ => exact ⟨text, place, content, program, m₂, rfl, found, fresh, read, accepted, ran⟩
    | error e m₂ =>
      rw [ran] at h
      cases h

theorem imports_of_execute {done : Completion} (ran : execute world n (.importFrom source) m = .ok done m') :
    ∃ k exports, n = k + 2 ∧ Imports world k source m exports m' := by
  cases n with
  | zero => cases ran
  | succ n =>
    rw [execute] at ran
    obtain ⟨path, m₁, hs, ran⟩ := ok_of_bind ran
    obtain ⟨u, m₂, imported, ran⟩ := ok_of_bind ran
    cases ran
    cases n with
    | zero => cases imported
    | succ k =>
      obtain ⟨text, place, content, program, m₃, rfl, found, fresh, read, accepted, ended⟩ :=
        ok_of_importFile imported
      have same := importFile_ok found fresh read accepted ended
      rw [imported] at same
      cases same
      exact ⟨k, _, rfl, .intro hs found fresh read accepted ended⟩

theorem Imports.binding? (imports : Imports world n source m exports m')
    (inside : m.heap.HasFrame m.interpreter.scope) {name : String} {v : Value}
    (exported : exports.get? name = some v) :
    m'.heap.binding? m'.interpreter.scope name = some v := by
  cases imports with
  | @intro path place text program m₁ m₂ hs found fresh read accepted ran =>
    have later := later_of_ran (.evaluate _) hs rfl
    have started := (Enters.program (n := n) found fresh read accepted).extends
    have ended := later_of_ran (.executeProgram _) ran rfl
    have grown := later.grows.extended.trans (started.trans ended.grows.extended)
    have still : m₂.heap.HasFrame m₁.interpreter.scope := by
      rw [later.scope_eq]
      exact grown.hasFrame inside
    have lookup : m₂.interpreter.exports.entries.lookup name = some v := exported
    exact (Heap.binding?_declareAll m₂.interpreter.exports.sorted still).trans (by rw [lookup, Option.some_or])

end Run

/-- What a name means right after an import that has succeeded, in the scope of the import, where its level is
counted from the same place. A name that the file exports means what was exported, unless the frame that the level
leads to is another one and binds the name itself; then it means that binding. -/
theorem imported_name_of_visits {world : World} {sources : Program → Prop} {p : Point} {n : Nat} {source : Expr}
    {done : Completion} {m m' : Machine} (visits : Visits world sources p n (.execute (.importFrom source)) m)
    (ran : Run.execute world n (.importFrom source) m = .ok done m') :
    ∃ k exports, n = k + 2 ∧ Run.Imports world k source m exports m' ∧
      ∀ name v, exports.get? name = some v → ∃ frame, p.instances[p.context.resolve name]? = some frame ∧
        m'.heap.ancestor? m'.interpreter.scope (p.context.resolve name) = some frame ∧
        (frame = m'.interpreter.scope ∨ m'.heap.binding? frame name = none → ∀ fuel,
          Run.evaluate world (fuel + 1) (.lookup name (p.context.resolve name)) m' = .ok v m') ∧
        ∀ w, m'.heap.binding? frame name = some w → ∀ fuel,
          Run.evaluate world (fuel + 1) (.lookup name (p.context.resolve name)) m' = .ok w m' := by
  obtain ⟨k, exports, fuel_eq, imports⟩ := Run.imports_of_execute ran
  refine ⟨k, exports, fuel_eq, imports, fun name v exported => ?_⟩
  have sits := visits.sits
  have later := Run.later_of_ran (.execute _) ran rfl
  have chain : m'.heap.chain m'.interpreter.scope = p.instances := by
    rw [later.scope_eq]
    exact (later.grows.extended.chain_eq sits.inside).trans sits.chain_eq
  have bounded := p.context.resolve_le name
  have inside : p.context.resolve name < p.instances.length := by
    rw [sits.length_eq]
    omega
  have found : m'.heap.ancestor? m'.interpreter.scope (p.context.resolve name) =
      some p.instances[p.context.resolve name] := by
    rw [Heap.ancestor?, chain]
    exact List.getElem?_eq_getElem inside
  have here := imports.binding? sits.inside exported
  have bound (w : Value) (binding : m'.heap.binding? p.instances[p.context.resolve name] name = some w)
      (fuel : Nat) :
      Run.evaluate world (fuel + 1) (.lookup name (p.context.resolve name)) m' = .ok w m' := by
    have binds : m'.heap.Binds p.instances[p.context.resolve name] name := by rw [Heap.Binds, binding]; rfl
    exact Run.evaluate_lookup ((Heap.get?_of_binds found binds).trans binding)
  refine ⟨p.instances[p.context.resolve name], List.getElem?_eq_getElem inside, found, fun free fuel => ?_, bound⟩
  rcases free with own | free
  · exact bound v (by rw [own, here]) fuel
  · exact Run.evaluate_lookup (Heap.get?_of_not_bound found free here)

theorem exporting_file :
    ∃ world : World, world = .ofFiles [("/a", "export true as n;")] ∧
      world.resolveFrom none "a" = .ok (.ofText "/a") ∧
      world.readText (.ofText "/a") = .ok "export true as n;" ∧
      Program.ofText "export true as n;" = .ok [.exportAs "n" (.literal (.boolean true))] := by
  refine ⟨_, rfl, ?_, ?_, ?_⟩ <;> cbv

theorem imported_name_of_block :
    ∃ world p m m', world = .ofFiles [("/a", "export true as n;")] ∧
      Visits world (fun _ => True) p 5 (.execute (.importFrom (.literal (.string "a")))) m ∧
      Run.execute world 5 (.importFrom (.literal (.string "a"))) m = .ok .normal m' ∧
      ∃ k exports, 5 = k + 2 ∧ Run.Imports world k (.literal (.string "a")) m exports m' ∧
        ∀ v, exports.get? "n" = some v → ∃ frame, p.instances[2]? = some frame ∧
          (frame = m'.interpreter.scope ∨ m'.heap.binding? frame "n" = none → ∀ fuel,
            Run.evaluate world (fuel + 1) (.lookup "n" 2) m' = .ok v m') := by
  obtain ⟨world, isFiles, found, read, exporting⟩ := exporting_file
  have accepted : Program.ofText "\x7b import \"a\"; n; \x7d" =
      .ok [.block [.importFrom (.literal (.string "a")), .expression (.lookup "n" 2)]] := by cbv
  have started : Visits world (fun _ => True) _ 8 _ (Machine.start none) :=
    .start (.text (.start none) accepted trivial)
  have visits := ((started.step .firstOfProgram rfl).step .block rfl).step .firstStmt rfl
  have source : Run.evaluate world 4 (.literal (.string "a")) (Machine.start none).opened =
      .ok (.string "a") _ := rfl
  have ran := Run.execute_of_imports (.intro source found List.not_mem_nil read exporting rfl)
  obtain ⟨k, exports, fuel_eq, imports, means⟩ := imported_name_of_visits visits ran
  refine ⟨world, _, _, _, isFiles, visits, ran, k, exports, fuel_eq, imports, fun v exported => ?_⟩
  obtain ⟨frame, instanced, -, own, -⟩ := means "n" v exported
  exact ⟨frame, instanced, own⟩

/-- A variable further out that the text shows comes before what the import has bound. -/
theorem outer_variable_hides_import :
    ∃ world p m exports m', world = .ofFiles [("/a", "export true as n;")] ∧
      Program.ofText "var n; \x7b import \"a\"; export n as r; \x7d" = .ok [.declare "n" none,
        .block [.importFrom (.literal (.string "a")), .exportAs "r" (.lookup "n" (p.context.resolve "n"))]] ∧
      Visits world (fun _ => True) p 5 (.execute (.importFrom (.literal (.string "a")))) m ∧
      Run.execute world 5 (.importFrom (.literal (.string "a"))) m = .ok .normal m' ∧
      Run.Imports world 3 (.literal (.string "a")) m exports m' ∧ exports.get? "n" = some (.boolean true) ∧
      Run.evaluate world 1 (.lookup "n" (p.context.resolve "n")) m' = .ok .nil m' := by
  obtain ⟨world, isFiles, found, read, exporting⟩ := exporting_file
  have accepted : Program.ofText "var n; \x7b import \"a\"; export n as r; \x7d" = .ok [.declare "n" none,
      .block [.importFrom (.literal (.string "a")), .exportAs "r" (.lookup "n" 1)]] := by cbv
  have started : Visits world (fun _ => True) _ 9 _ (Machine.start none) :=
    .start (.text (.start none) accepted trivial)
  have declared := started.step (.restOfProgram rfl) rfl
  have visits := ((declared.step .firstOfProgram rfl).step .block rfl).step .firstStmt rfl
  have source : Run.evaluate world 4 (.literal (.string "a"))
      (Machine.opened { Machine.start none with heap := (Machine.start none).heap.declare ⟨1⟩ "n" .nil }) =
        .ok (.string "a") _ := rfl
  have imports := Run.Imports.intro source found List.not_mem_nil read exporting rfl
  refine ⟨world, _, _, _, _, isFiles, ?accepted, visits, Run.execute_of_imports imports, imports, rfl,
    Run.evaluate_lookup ?hidden⟩
  case accepted => exact accepted
  case hidden => cbv

end HookScript
