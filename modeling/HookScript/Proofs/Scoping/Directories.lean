import HookScript.Proofs.Scoping.Imports
import HookScript.Proofs.Scoping.Origin

/-!
Directories of imports. What an import looks for is found from the directory of the file that the interpreter at
work has begun last. This is the file that the import is written in, as long as nobody else calls its functions
and methods.
-/

namespace HookScript

namespace Run

variable {world : World} {n : Nat} {source : Expr} {path : String} {m m₁ : Machine}

theorem execute_import_missing {error : FileError} (hs : evaluate world (n + 1) source m = .ok (.string path) m₁)
    (missing : world.resolveFrom m₁.interpreter.directory path = .error error) :
    execute world (n + 2) (.importFrom source) m = .error (.fault (.file error)) m₁ := by
  simp only [execute, importFile, bind, EStateM.bind, hs, interpreter, missing]
  rfl

end Run

/-- An import resolves its path from the directory of the file that the interpreter at work has begun last, which
is the one that it is executing if it is executing any. It fails if the path leads nowhere from there, and it
can succeed only by running the file that the path leads to from there. -/
theorem import_directory_of_written {world : World} {sources : Program → Prop} {author worker : Runner}
    {p : Point} {n : Nat} {source : Expr} {place : Path} {path : String} {m m₁ : Machine}
    (written : Written world sources author worker p (n + 2) (.execute (.importFrom source)) m)
    (running : worker.file = some place) (hs : Run.evaluate world (n + 1) source m = .ok (.string path) m₁) :
    world.resolveFrom m₁.interpreter.directory path = world.resolve place.parent path ∧
      (∀ error, world.resolve place.parent path = .error error →
        Run.execute world (n + 2) (.importFrom source) m = .error (.fault (.file error)) m₁) ∧
      ∀ done m', Run.execute world (n + 2) (.importFrom source) m = .ok done m' →
        ∃ target text program m₂, world.resolve place.parent path = .ok target ∧
          world.readText target = .ok text ∧ Program.ofText text = .ok program ∧
          Run.executeProgram world n program (m₁.importing target) = .ok () m₂ ∧
          m' = { m₂ with
            heap := m₂.heap.declareAll m₁.interpreter.scope m₂.interpreter.exports.entries,
            interpreter := m₁.interpreter } := by
  have working : m₁.interpreter.directory = some place.parent := by
    rw [(Run.later_of_ran (.evaluate _) hs rfl).interpreter]
    exact written.directory_eq running
  have resolved : world.resolveFrom m₁.interpreter.directory path = world.resolve place.parent path := by
    rw [working]
    rfl
  refine ⟨resolved, fun error missing => Run.execute_import_missing hs (resolved.trans missing), ?imported⟩
  intro done m' ran
  obtain ⟨k, exports, fuel_eq, imports⟩ := Run.imports_of_execute ran
  obtain rfl : n = k := by omega
  cases imports with
  | @intro path' target text program m₁' m₂ hs' found _ read accepted ended =>
    obtain ⟨rfl, rfl⟩ : path' = path ∧ m₁' = m₁ := by
      rw [hs] at hs'
      cases hs'
      exact ⟨rfl, rfl⟩
    exact ⟨target, text, program, m₂, resolved.symm.trans found, read, accepted, ended, rfl⟩

def crossingFiles : World := .ofFiles
  [("/main", "import \"lib/a\"; load();"), ("/lib/a", "function load() \x7b import \"b\"; \x7d export load;"),
    ("/lib/b", "export true as n;"), ("/b", "export false as n;")]

theorem crossingFiles_resolve :
    crossingFiles.resolve (.ofText "/") "lib/a" = .ok (.ofText "/lib/a") ∧
      crossingFiles.resolve (.ofText "/lib") "b" = .ok (.ofText "/lib/b") ∧
      crossingFiles.resolve (.ofText "/") "b" = .ok (.ofText "/b") := by
  refine ⟨?_, ?_, ?_⟩ <;> cbv

theorem crossingFiles_readText :
    crossingFiles.readText (.ofText "/main") = .ok "import \"lib/a\"; load();" ∧
      crossingFiles.readText (.ofText "/lib/a") =
        .ok "function load() \x7b import \"b\"; \x7d export load;" ∧
      crossingFiles.readText (.ofText "/b") = .ok "export false as n;" := by
  refine ⟨?_, ?_, ?_⟩ <;> cbv

theorem crossingFiles_programs :
    Program.ofText "import \"lib/a\"; load();" = .ok [.importFrom (.literal (.string "lib/a")),
        .expression (.call (.lookup "load" 1) [])] ∧
      Program.ofText "function load() \x7b import \"b\"; \x7d export load;" =
        .ok [.function "load" [] [.importFrom (.literal (.string "b"))], .exportAs "load" (.lookup "load" 0)] ∧
      Program.ofText "export false as n;" = .ok [.exportAs "n" (.literal (.boolean false))] := by
  refine ⟨?_, ?_, ?_⟩ <;> cbv

theorem crossing_call :
    ∃ author worker p m,
      Written crossingFiles (fun _ => True) author worker p 9 (.execute (.importFrom (.literal (.string "b")))) m ∧
      author.file = some (.ofText "/lib/a") ∧ worker.file = some (.ofText "/main") ∧
      m.interpreter.directory = some (.ofText "/") ∧ m.interpreter.imports = [.ofText "/main"] := by
  obtain ⟨found, -, -⟩ := crossingFiles_resolve
  obtain ⟨-, read, -⟩ := crossingFiles_readText
  obtain ⟨accepted, loading, -⟩ := crossingFiles_programs
  obtain ⟨body, is_body⟩ : ∃ body : List Stmt, body = [.importFrom (.literal (.string "b"))] := ⟨_, rfl⟩
  rw [← is_body] at loading
  obtain ⟨m₀, is_m₀⟩ : ∃ m, m = (Machine.start none).running (.ofText "/main") := ⟨_, rfl⟩
  have directory : m₀.interpreter.directory = some (.ofText "/") := by
    rw [is_m₀]
    rfl
  have imports : m₀.interpreter.imports = [.ofText "/main"] := by
    rw [is_m₀]
    rfl
  have found' : crossingFiles.resolveFrom m₀.interpreter.directory "lib/a" = .ok (.ofText "/lib/a") := by
    rw [directory]
    exact found
  have fresh : Path.ofText "/lib/a" ∉ m₀.interpreter.imports := by
    rw [imports]
    decide
  have starts : Run.Starts crossingFiles (fun _ => True) 16 _ ((Machine.start none).running (.ofText "/main")) :=
    .file (.start none) accepted trivial
  have begun := Written.file starts
  rw [← is_m₀] at begun
  have source : Run.evaluate crossingFiles 14 (.literal (.string "lib/a")) m₀ = .ok (.string "lib/a") m₀ := rfl
  have within := ((begun.stay .firstOfProgram).stay (.importFile source)).imported found' fresh read loading
  obtain ⟨m₁, is_m₁⟩ : ∃ m, m = m₀.importing (.ofText "/lib/a") := ⟨_, rfl⟩
  rw [← is_m₁] at within
  have made := within.stay .firstOfProgram
  obtain ⟨m₂, is_m₂, ran_load⟩ : ∃ m : Machine, m =
        ⟨m₁.heap.withFunction m₁.interpreter.scope "load" [] body, m₁.out, m₁.interpreter⟩ ∧
      Run.execute crossingFiles 12 (.function "load" [] body) m₁ = .ok .normal m := ⟨_, rfl, rfl⟩
  have load : m₂.heap.get? m₂.interpreter.scope 0 "load" = some (.callable ⟨10⟩) := by
    subst is_m₂ is_m₁ is_m₀
    cbv
  have ended : Run.executeProgram crossingFiles 13 [.function "load" [] body, .exportAs "load" (.lookup "load" 0)] m₁ =
      .ok () _ :=
    (Run.executeProgram_cons ran_load).trans
      (Run.executeProgram_cons (Run.execute_exportAs (Run.evaluate_lookup load)))
  rw [is_m₁] at ended
  obtain ⟨m₃, imported, heap_m₃, interpreter_m₃⟩ : ∃ m : Machine,
      Run.execute crossingFiles 15 (.importFrom (.literal (.string "lib/a"))) m₀ = .ok .normal m ∧
      m.heap = m₂.heap.declareAll m₀.interpreter.scope
        (m₂.interpreter.exports.insert "load" (.callable ⟨10⟩)).entries ∧ m.interpreter = m₀.interpreter :=
    ⟨_, Run.execute_of_imports (.intro source found' fresh read loading ended), rfl, rfl⟩
  have calling := ((begun.past (.restOfProgram imported)).stay .firstOfProgram).stay .value
  have callee : m₃.heap.get? m₃.interpreter.scope 1 "load" = some (.callable ⟨10⟩) := by
    rw [heap_m₃, interpreter_m₃]
    subst is_m₂ is_m₁ is_m₀
    cbv
  have callable : m₃.heap.callable? ⟨10⟩ = some (.function "load" [] body m₁.interpreter.scope) := by
    rw [heap_m₃]
    subst is_m₂ is_m₁ is_m₀
    cbv
  have called := calling.stay (.called (Run.evaluate_lookup callee) callable rfl rfl)
  have since : (m₁.heap.withFunction m₁.interpreter.scope "load" [] body).Extends m₃.heap := by
    rw [heap_m₃, is_m₂]
    exact Heap.extends_declareAll _ _ _
  have inside := (called.functionBody rfl made rfl since).stay .body
  rw [is_body] at inside
  have visits := inside.stay .firstStmt
  refine ⟨_, _, _, _, visits, rfl, rfl, ?_, ?_⟩
  · exact (congrArg Interpreter.directory interpreter_m₃).trans directory
  · exact (congrArg Interpreter.imports interpreter_m₃).trans imports

theorem import_directory_of_call :
    ∃ author worker p m,
      Written crossingFiles (fun _ => True) author worker p 9 (.execute (.importFrom (.literal (.string "b")))) m ∧
      worker.file = some (.ofText "/main") ∧
      Run.evaluate crossingFiles 8 (.literal (.string "b")) m = .ok (.string "b") m ∧
      crossingFiles.resolveFrom m.interpreter.directory "b" = crossingFiles.resolve (.ofText "/") "b" := by
  obtain ⟨author, worker, p, m, written, -, running, -⟩ := crossing_call
  have hs : Run.evaluate crossingFiles 8 (.literal (.string "b")) m = .ok (.string "b") m := rfl
  exact ⟨author, worker, p, m, written, running, hs, (import_directory_of_written written running hs).1⟩

/-- A function that another file calls imports from the directory of that file, whatever lies beside its own. -/
theorem callers_directory_hides_own :
    ∃ author worker p m m' exports,
      Written crossingFiles (fun _ => True) author worker p 9 (.execute (.importFrom (.literal (.string "b")))) m ∧
      author.file = some (.ofText "/lib/a") ∧ worker.file = some (.ofText "/main") ∧
      crossingFiles.resolve (.ofText "/lib") "b" = .ok (.ofText "/lib/b") ∧
      crossingFiles.resolveFrom m.interpreter.directory "b" = .ok (.ofText "/b") ∧
      Run.Imports crossingFiles 7 (.literal (.string "b")) m exports m' ∧ exports.get? "n" = some (.boolean false) := by
  obtain ⟨-, beside, found⟩ := crossingFiles_resolve
  obtain ⟨-, -, read⟩ := crossingFiles_readText
  obtain ⟨-, -, exporting⟩ := crossingFiles_programs
  obtain ⟨author, worker, p, m, written, own, running, directory, imports⟩ := crossing_call
  have source : Run.evaluate crossingFiles 8 (.literal (.string "b")) m = .ok (.string "b") m := rfl
  have found' : crossingFiles.resolveFrom m.interpreter.directory "b" = .ok (.ofText "/b") := by
    rw [directory]
    exact found
  have fresh : Path.ofText "/b" ∉ m.interpreter.imports := by
    rw [imports]
    decide
  obtain ⟨m₁, is_m₁⟩ : ∃ m₁, m₁ = m.importing (.ofText "/b") := ⟨_, rfl⟩
  have value : Run.evaluate crossingFiles 5 (.literal (.boolean false)) m₁ = .ok (.boolean false) m₁ := rfl
  have ended : Run.executeProgram crossingFiles 7 [.exportAs "n" (.literal (.boolean false))] m₁ = .ok () _ :=
    Run.executeProgram_cons (Run.execute_exportAs value)
  have exported : (m₁.interpreter.exports.insert "n" (.boolean false)).get? "n" = some (.boolean false) := by
    rw [Table.get?_insert, if_pos rfl]
  rw [is_m₁] at ended exported
  exact ⟨author, worker, p, m, _, _, written, own, running, beside, found',
    .intro source found' fresh read exporting ended, exported⟩

end HookScript
