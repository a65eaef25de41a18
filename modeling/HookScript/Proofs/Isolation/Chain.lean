import Mathlib
import HookScript.Proofs.Run.Files
import HookScript.Proofs.Run.Session

/-!
Chains of imports. Every import puts an interpreter to work and lets another one wait. The chain of an interpreter
names the files that are being run, the one of whoever waits longest first; no file is named twice, so there are
at most as many imports under way as there are files.
-/

namespace HookScript

structure Activity where
  file : Option Path
  interpreter : Interpreter

namespace Activity

/-- The chain of an interpreter is that of the one that waits for it, with the file that it runs at its end. The host's
own interpreter begins the chain. -/
def Chained (world : World) : Activity → List Activity → Prop
  | a, [] => a.interpreter.imports = a.file.toList
  | a, importer :: waiting =>
    (∃ place ∈ world.places, a.file = some place ∧ place ∉ importer.interpreter.imports ∧
      a.interpreter.imports = importer.interpreter.imports ++ [place]) ∧ importer.Chained world waiting

namespace Chained

variable {world : World} {a : Activity} {waiting : List Activity}

theorem congr {i : Interpreter} (chained : a.Chained world waiting) (same : i.imports = a.interpreter.imports) :
    Chained world ⟨a.file, i⟩ waiting := by
  cases waiting with
  | nil => exact same.trans chained
  | cons importer rest =>
    obtain ⟨⟨place, known, running, fresh, extended⟩, below⟩ := chained
    exact ⟨⟨place, known, running, fresh, same.trans extended⟩, below⟩

theorem nodup (chained : a.Chained world waiting) : ∀ b ∈ a :: waiting, b.interpreter.imports.Nodup := by
  induction waiting generalizing a with
  | nil =>
    intro b listed
    rw [List.mem_singleton.1 listed, show a.interpreter.imports = _ from chained]
    cases a.file <;> simp
  | cons importer rest ih =>
    obtain ⟨⟨place, -, -, fresh, extended⟩, below⟩ := chained
    intro b listed
    rcases List.mem_cons.1 listed with rfl | waits
    · rw [extended, List.nodup_append_comm, List.singleton_append, List.nodup_cons]
      exact ⟨fresh, ih below importer List.mem_cons_self⟩
    · exact ih below b waits

/-- Beyond what the host runs, the chain names one file for every interpreter that waits. -/
theorem imported (chained : a.Chained world waiting) :
    ∃ (own : Option Path) (places : List Path), a.interpreter.imports = own.toList ++ places ∧
      places.length = waiting.length ∧ ∀ place ∈ places, place ∈ world.places := by
  induction waiting generalizing a with
  | nil => exact ⟨a.file, [], by rw [List.append_nil]; exact chained, rfl, by simp⟩
  | cons importer rest ih =>
    obtain ⟨⟨place, known, -, -, extended⟩, below⟩ := chained
    obtain ⟨own, places, named, length_eq, all⟩ := ih below
    refine ⟨own, places ++ [place], ?_, ?_, ?_⟩
    · rw [extended, named, List.append_assoc]
    · simp [length_eq]
    · intro other listed
      rcases List.mem_append.1 listed with before | last
      · exact all other before
      · rwa [List.mem_singleton.1 last]

theorem length_le (chained : a.Chained world waiting) : (waiting.length : ℕ∞) ≤ world.places.encard := by
  obtain ⟨own, places, named, length_eq, all⟩ := chained.imported
  have distinct : places.Nodup := by
    have nodup := chained.nodup a List.mem_cons_self
    rw [named] at nodup
    exact nodup.of_append_right
  calc (waiting.length : ℕ∞) = (places.toFinset : Set Path).encard := by
        rw [Set.encard_coe_eq_coe_finsetCard, List.toFinset_card_of_nodup distinct, length_eq]
    _ ≤ world.places.encard := Set.encard_le_encard fun place listed => all place (List.mem_toFinset.1 listed)

end Chained

end Activity

/-- The tasks that come up in a session, with the file being run and the interpreters that wait for it to end, the one
that imports it first. -/
inductive Stack (world : World) (sources : Program → Prop) :
    Option Path → List Activity → Nat → Task → Machine → Prop
  | host {n t m} (between : Session world sources m) (starts : Run.Starts world sources n t m) :
    Stack world sources none [] n t m
  | file {n program place m} (between : Session world sources m)
    (starts : Run.Starts world sources n (.executeProgram program) (m.running place)) :
    Stack world sources (some place) [] n (.executeProgram program) (m.running place)
  | step {file waiting n move t m t' m'} (stack : Stack world sources file waiting (n + 1) t m)
    (enters : Run.Enters world n move t m t' m') (here : move ≠ .file) : Stack world sources file waiting n t' m'
  | imported {file waiting n path place text program m}
    (stack : Stack world sources file waiting (n + 1) (.importFile (.string path)) m)
    (found : world.resolveFrom m.interpreter.directory path = .ok place) (fresh : place ∉ m.interpreter.imports)
    (read : world.readText place = .ok text) (accepted : Program.ofText text = .ok program) :
    Stack world sources (some place) (⟨file, m.interpreter⟩ :: waiting) n (.executeProgram program)
      (m.importing place)

variable {world : World} {sources : Program → Prop}

theorem Machine.imports_after (world : World) (n : Nat) (t : Task) (m : Machine) :
    (t.after world n m).interpreter.imports = m.interpreter.imports := by
  have later : m.Later (fun _ _ _ => True) (t.after world n m) := Task.later Run.closed_true _ _ trivial
  exact later.stays.imports

theorem Host.imports_runFile (world : World) (fuel : Nat) (path : Path) (m : Machine) :
    (Host.after (Host.runFile world fuel path) m).interpreter.imports = m.interpreter.imports := by
  rcases Host.after_runFile world fuel m path with same | ⟨place, text, program, -, -, -, after⟩
  · rw [same]
  · rw [after]
    have kept := Machine.imports_after world fuel (.executeProgram program) (m.running place)
    exact (congrArg List.dropLast kept).trans List.dropLast_concat

theorem Session.imports_eq {m : Machine} (session : Session world sources m) : m.interpreter.imports = [] := by
  induction session with
  | start directory => rfl
  | @runText m between fuel text source ih =>
    rcases Host.after_runText world fuel m text with same | ⟨program, -, after⟩
    · rwa [same]
    · rw [after, Machine.imports_after, ih]
  | @runFile m between fuel path source ih => rw [Host.imports_runFile, ih]
  | declare between name value ih => exact ih
  | @callValue m between fuel value args ih =>
    rcases Host.after_callValue world fuel m value args with same | ⟨id, callable, -, -, after⟩
    · rwa [same]
    · rw [after, Machine.imports_after, ih]
  | @callOn m between fuel value receiver args ih =>
    rcases Host.after_callOn world fuel m value receiver args with same | ⟨method, -, -, after⟩
    · rwa [same]
    · rw [after, Machine.imports_after, ih]
  | exchange between exchange ih => exact ih

namespace Stack

theorem of_reached {n : Nat} {t : Task} {m : Machine} (reached : Run.Reached world sources n t m) :
    ∃ file waiting, Stack world sources file waiting n t m := by
  induction reached with
  | start starts =>
    cases starts with
    | text between accepted source => exact ⟨_, _, .host between (.text between accepted source)⟩
    | file between accepted source => exact ⟨_, _, .file between (.file between accepted source)⟩
    | call between found arity => exact ⟨_, _, .host between (.call between found arity)⟩
    | callOn between held arity => exact ⟨_, _, .host between (.callOn between held arity)⟩
  | @enter n move t m t' m' _ enters ih =>
    obtain ⟨file, waiting, stack⟩ := ih
    by_cases begun : move = .file
    · subst begun
      cases enters with
      | program found fresh read accepted => exact ⟨_, _, .imported stack found fresh read accepted⟩
    · exact ⟨file, waiting, .step stack enters begun⟩

theorem chained {file : Option Path} {waiting : List Activity} {n : Nat} {t : Task} {m : Machine}
    (stack : Stack world sources file waiting n t m) :
    (Activity.mk file m.interpreter).Chained world waiting := by
  induction stack with
  | host between => exact between.imports_eq
  | @file n program place m between =>
    change m.interpreter.imports ++ [place] = [place]
    rw [between.imports_eq, List.nil_append]
  | step _ enters here ih => exact ih.congr (enters.stays here).imports
  | @imported file waiting n path place text program m _ found fresh read _ ih =>
    exact ⟨⟨place, World.mem_places_of_readText found read, rfl, fresh, rfl⟩, ih⟩

end Stack

theorem Run.execute_import_cyclic {other : World} {k : Nat} {source : Expr} {path : String} {place : Path}
    {m m₁ : Machine} (same : world.SamePaths other)
    (hs : Run.evaluate other (k + 1) source m = .ok (.string path) m₁)
    (found : world.resolveFrom m₁.interpreter.directory path = .ok place) (cyclic : place ∈ m₁.interpreter.imports) :
    Run.execute other (k + 2) (.importFrom source) m = .error (.fault (.cyclicImport place.text)) m₁ := by
  have foundOther := (same.resolveFrom_eq m₁.interpreter.directory path).trans found
  simp only [Run.execute, Run.importFile, bind, EStateM.bind, hs, Run.interpreter, foundOther, cyclic, if_true]
  rfl

/-- At every moment of a session the chain of every interpreter that is at work or waits is free of duplicates and
extends the chain of its importer by the file that it runs. So there are at most as many imports under way as there
are files, and an import of a file on the chain fails whatever the files hold. After a file that the host has run, the
chain is as before. -/
theorem import_chain_of_stack {file : Option Path} {waiting : List Activity} {n : Nat} {t : Task} {m : Machine}
    (stack : Stack world sources file waiting n t m) :
    (Activity.mk file m.interpreter).Chained world waiting ∧
      (∀ a ∈ ⟨file, m.interpreter⟩ :: waiting, a.interpreter.imports.Nodup) ∧
      (waiting.length : ℕ∞) ≤ world.places.encard ∧
      (∀ other k source path place m₁, world.SamePaths other →
        Run.evaluate other (k + 1) source m = .ok (.string path) m₁ →
        world.resolveFrom m.interpreter.directory path = .ok place → place ∈ m.interpreter.imports →
        Run.execute other (k + 2) (.importFrom source) m =
          .error (.fault (.cyclicImport place.text)) m₁) ∧
      (∀ n t m, Run.Reached world sources n t m → ∃ file waiting, Stack world sources file waiting n t m) ∧
      ∀ fuel path m, (Host.after (Host.runFile world fuel path) m).interpreter.imports = m.interpreter.imports := by
  have chained := stack.chained
  refine ⟨chained, chained.nodup, chained.length_le, ?cyclic, fun _ _ _ => Stack.of_reached,
    Host.imports_runFile world⟩
  intro other k source path place m₁ same hs found listed
  have stays := (Run.later_of_ran (.evaluate _) hs rfl).stays
  rw [← stays.directory] at found
  rw [← stays.imports] at listed
  exact Run.execute_import_cyclic same hs found listed

/-- Two files that import each other, one of them by its absolute path, and a file that imports the first of them. -/
def ringFiles : World :=
  .ofFiles [("/main", "import \"a\";"), ("/a", "import \"b\";"), ("/b", "import \"/a\";")]

theorem import_chain_of_ring :
    ∃ waiting m,
      Stack ringFiles (fun _ => True) (some (.ofText "/b")) waiting 9
        (.execute (.importFrom (.literal (.string "/a")))) m ∧
      waiting.map (·.file) = [some (.ofText "/a"), some (.ofText "/main")] ∧
      m.interpreter.imports = [.ofText "/main", .ofText "/a", .ofText "/b"] ∧
      m.interpreter.imports.Nodup ∧ 2 ≤ ringFiles.places.encard ∧
      Run.execute ringFiles 9 (.importFrom (.literal (.string "/a"))) m = .error (.fault (.cyclicImport "/a")) m := by
  obtain ⟨foundA, foundB, again⟩ : ringFiles.resolve (.ofText "/") "a" = .ok (.ofText "/a") ∧
      ringFiles.resolve (.ofText "/") "b" = .ok (.ofText "/b") ∧
      ringFiles.resolve (.ofText "/") "/a" = .ok (.ofText "/a") := by
    refine ⟨?_, ?_, ?_⟩ <;> cbv
  obtain ⟨readA, readB⟩ : ringFiles.readText (.ofText "/a") = .ok "import \"b\";" ∧
      ringFiles.readText (.ofText "/b") = .ok "import \"/a\";" := by
    constructor <;> cbv
  obtain ⟨parsedMain, parsedA, parsedB⟩ :
      Program.ofText "import \"a\";" = .ok [.importFrom (.literal (.string "a"))] ∧
      Program.ofText "import \"b\";" = .ok [.importFrom (.literal (.string "b"))] ∧
      Program.ofText "import \"/a\";" = .ok [.importFrom (.literal (.string "/a"))] := by
    refine ⟨?_, ?_, ?_⟩ <;> cbv
  have value (n : Nat) (name : String) (m : Machine) :
      Run.evaluate ringFiles (n + 1) (.literal (.string name)) m = .ok (.string name) m := rfl
  have begun : Stack ringFiles (fun _ => True) (some (.ofText "/main")) [] 16 _
      ((Machine.start none).running (.ofText "/main")) :=
    .file (.start none) (.file (.start none) parsedMain trivial)
  have inA := Stack.imported ((begun.step .firstOfProgram (by simp)).step (.importFile (value 13 "a" _)) (by simp)) foundA
    (by decide) readA parsedA
  have inB := Stack.imported ((inA.step .firstOfProgram (by simp)).step (.importFile (value 10 "b" _)) (by simp)) foundB
    (by decide) readB parsedB
  have stack := inB.step .firstOfProgram (by simp)
  obtain ⟨-, nodup, bound, cyclic, -⟩ := import_chain_of_stack stack
  refine ⟨_, _, stack, rfl, rfl, nodup _ List.mem_cons_self, bound, ?_⟩
  have refused := cyclic ringFiles 7 _ "/a" (.ofText "/a") _ ⟨fun _ => rfl⟩ (value 7 "/a" _) again (by decide)
  rwa [Path.text_ofText] at refused

end HookScript
