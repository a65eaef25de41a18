import HookScript.Proofs.Isolation.Evaluator
import HookScript.Proofs.Scoping.Imports

/-!
Imports on their own. The file that an import leads to runs as it would run on an empty machine, above the machine of
whoever imports it. So an import that fails leaves nothing behind but cells that nobody refers to and what the file
has printed, and one that succeeds adds the exports to the current scope.
-/

namespace HookScript

structure Heap.PartOf (heap heap' : Heap) : Prop where
  frames {i : Nat} (inside : i < heap.frames.size) : heap'.frames[i]? = heap.frames[i]?
  lists {i : Nat} (inside : i < heap.lists.size) : heap'.lists[i]? = heap.lists[i]?
  objects {i : Nat} (inside : i < heap.objects.size) : heap'.objects[i]? = heap.objects[i]?
  methods {i : Nat} (inside : i < heap.methods.size) : heap'.methods[i]? = heap.methods[i]?
  callables {i : Nat} (inside : i < heap.callables.size) : heap'.callables[i]? = heap.callables[i]?
  decoders {i : Nat} (inside : i < heap.decoders.size) : heap'.decoders[i]? = heap.decoders[i]?

namespace Heap

variable (base heap : Heap)

theorem partOf_above : base.PartOf (heap.above base) := by
  constructor <;> exact fun inside => Array.getElem?_append_left inside

theorem PartOf.refl : base.PartOf base := by
  constructor <;> exact fun _ => rfl

variable {base heap} {frame : FrameId} {name : String}

theorem PartOf.hasFrame (part : base.PartOf heap) (inside : base.HasFrame frame) : heap.HasFrame frame := by
  refine Nat.lt_of_not_le fun outside => ?_
  have here := part.frames inside
  rw [Array.getElem?_eq_none outside, Array.getElem?_eq_getElem inside] at here
  cases here

theorem PartOf.binding?_eq (part : base.PartOf heap) (inside : base.HasFrame frame) :
    heap.binding? frame name = base.binding? frame name := by
  rw [binding?, binding?, part.frames inside]

theorem empty_above (base : Heap) : Heap.empty.above base = base := by
  simp only [above, empty, Array.map_empty, Array.append_empty]

end Heap

/-- A machine with an interpreter at work on a file and nothing else. The files of the chain import each other, and
the last one this file. -/
def Machine.alone (chain : List Path) (place : Path) : Machine :=
  let (interpreter, heap) := Interpreter.start .empty (some place.parent) (chain ++ [place])
  ⟨heap, "", interpreter⟩

theorem Machine.sound_alone (chain : List Path) (place : Path) : (alone chain place).Sound :=
  Interpreter.sound_start .empty "" (some place.parent) (chain ++ [place])

/-- The empty machine is below none, so whoever begins to work on a file stands above whoever imports it. -/
theorem Machine.importing_eq (m : Machine) (place : Path) :
    m.importing place = (alone m.interpreter.imports place).above m := by
  have started := Interpreter.start_above m.heap .empty (some place.parent) (m.interpreter.imports ++ [place])
  rw [Heap.empty_above] at started
  simp only [importing, alone, above, started, String.append_empty]

namespace Run

variable {world : World} {n k : Nat} {source : Expr} {m m' : Machine} {place : Path} {program : Program}

/-- How an import ends, after a run of the file on its own. -/
def imported (m : Machine) : EStateM.Result Stop Machine Unit → EStateM.Result Stop Machine Completion
  | .ok () child => .ok .normal ⟨(child.heap.above m.heap).declareAll m.interpreter.scope
      (child.interpreter.exports.map (·.above m.heap)).entries, m.out ++ child.out, m.interpreter⟩
  | .error e child => .error e ⟨child.heap.above m.heap, m.out ++ child.out, m.interpreter⟩

/-- The import leads to a file that is not being run yet, and that is a program. -/
def Finds (world : World) (source : Expr) (m : Machine) (place : Path) (program : Program) : Prop :=
  ∃ path text, evaluate world 1 source m = .ok (.string path) m ∧
    world.resolveFrom m.interpreter.directory path = .ok place ∧ place ∉ m.interpreter.imports ∧
    world.readText place = .ok text ∧ Program.ofText text = .ok program

theorem evaluate_source (written : Parser.isImportSource source = true) (world : World) (m : Machine) :
    (∃ e, ∀ n, evaluate world (n + 1) source m = .error e m) ∨ ∃ v, ∀ n, evaluate world (n + 1) source m = .ok v m := by
  cases source with
  | lookup name level =>
    cases found : m.heap.get? m.interpreter.scope level name with
    | none =>
      refine .inl ⟨.fault (.undeclared name), fun n => ?_⟩
      simp only [evaluate, lookup?, interpreter, readHeap, bind, EStateM.bind, found]
      rfl
    | some v => exact .inr ⟨v, fun n => evaluate_lookup found⟩
  | literal literal => exact .inr ⟨literalValue literal, fun n => rfl⟩
  | _ => cases written

theorem evaluate_source_eq (written : Parser.isImportSource source = true) {v : Value}
    (read : evaluate world 1 source m = .ok v m) (n : Nat) : evaluate world (n + 1) source m = .ok v m := by
  rcases evaluate_source written world m with ⟨e, failed⟩ | ⟨w, same⟩
  · cases read.symm.trans (failed 0)
  · cases read.symm.trans (same 0)
    exact same n

theorem execute_import (written : Parser.isImportSource source = true) (finds : Finds world source m place program) :
    execute world (k + 2) (.importFrom source) m =
      imported m (executeProgram world k program (.alone m.interpreter.imports place)) := by
  obtain ⟨path, text, hs, found, fresh, read, accepted⟩ := finds
  -- The file runs above the importer as it runs alone, with the same fuel.
  have lifted := ((lifts_calls world m k).executeProgram (Machine.sound_alone m.interpreter.imports place) program).same
  rw [← Machine.importing_eq] at lifted
  have hs' := evaluate_source_eq written hs k
  simp only [execute, bind, EStateM.bind, hs', importFile_eq found fresh read accepted, lifted]
  cases executeProgram world k program (.alone m.interpreter.imports place) <;> rfl

theorem execute_import_cases (written : Parser.isImportSource source = true) (world : World) (n : Nat)
    (m : Machine) :
    (∃ e, execute world n (.importFrom source) m = .error e m) ∨
      ∃ k place program, n = k + 2 ∧ Finds world source m place program := by
  rcases n with _ | _ | k
  · exact .inl ⟨.outOfFuel, rfl⟩
  · exact .inl ⟨.outOfFuel, rfl⟩
  · rcases evaluate_source written world m with ⟨e, failed⟩ | ⟨v, same⟩
    · refine .inl ⟨e, ?_⟩
      simp only [execute, bind, EStateM.bind, failed]
    · rcases importFile_refused_or world (k + 1) v m with ⟨e, refused⟩ | ⟨path, place, text, program, rfl, found⟩
      · refine .inl ⟨e, ?_⟩
        simp only [execute, bind, EStateM.bind, same, refused]
      · exact .inr ⟨k, place, program, rfl, path, text, same 0, found⟩

end Run

theorem Parser.importFrom_source {fuel : Nat} {p p' : Parser} {stmt : Stmt}
    (read : importFrom fuel p = .ok stmt p') :
    ∃ source, stmt = .importFrom source ∧ isImportSource source = true := by
  cases fuel with
  | zero => cases read
  | succ fuel =>
    obtain ⟨_, p₁, -, read⟩ := ok_of_bind read
    obtain ⟨source, p₂, -, read⟩ := ok_of_bind read
    obtain ⟨_, p₃, -, read⟩ := ok_of_bind read
    split at read
    · next accepted =>
      cases read
      exact ⟨source, rfl, accepted⟩
    · cases read

/-- An import that fails, for whatever reason, leaves the interpreter and every cell of the heap as they were; only
the printed text may have become longer. One that succeeds binds what the file exports in the current frame, and
nothing else changes. What the file prints and exports is what it prints and exports when it runs on a machine of
its own, where there is only the chain of files that are being imported. -/
theorem import_isolated {source : Expr} (written : Parser.isImportSource source = true) (world : World) (n : Nat)
    (m : Machine) :
    (∀ e m', Run.execute world n (.importFrom source) m = .error e m' →
      m'.interpreter = m.interpreter ∧ m.heap.PartOf m'.heap ∧ ∃ text, m'.out = m.out ++ text) ∧
    (∀ done m', Run.execute world n (.importFrom source) m = .ok done m' →
      ∃ k place program child exports heap, n = k + 2 ∧ Run.Finds world source m place program ∧
        Run.executeProgram world k program (.alone m.interpreter.imports place) = .ok () child ∧
        exports = child.interpreter.exports.map (·.above m.heap) ∧
        done = .normal ∧ m'.interpreter = m.interpreter ∧ m'.out = m.out ++ child.out ∧ m.heap.PartOf heap ∧
        m'.heap = heap.declareAll m.interpreter.scope exports.entries ∧
        ∀ frame name, m.heap.HasFrame frame → m'.heap.binding? frame name =
          if frame = m.interpreter.scope then (exports.get? name).or (m.heap.binding? frame name)
          else m.heap.binding? frame name) ∧
    ∀ k place program, n = k + 2 → Run.Finds world source m place program →
      Run.execute world n (.importFrom source) m =
        Run.imported m (Run.executeProgram world k program (.alone m.interpreter.imports place)) := by
  refine ⟨?failed, ?succeeded, ?alone⟩
  case failed =>
    intro e m' ran
    rcases Run.execute_import_cases written world n m with ⟨e', refused⟩ | ⟨k, place, program, rfl, finds⟩
    · cases ran.symm.trans refused
      exact ⟨rfl, .refl _, "", String.append_empty.symm⟩
    · rw [Run.execute_import written finds] at ran
      cases ended : Run.executeProgram world k program (.alone m.interpreter.imports place) with
      | ok u child =>
        rw [ended] at ran
        cases ran
      | error e' child =>
        rw [ended] at ran
        cases ran
        exact ⟨rfl, m.heap.partOf_above child.heap, child.out, rfl⟩
  case succeeded =>
    intro done m' ran
    rcases Run.execute_import_cases written world n m with ⟨e', refused⟩ | ⟨k, place, program, rfl, finds⟩
    · cases ran.symm.trans refused
    · rw [Run.execute_import written finds] at ran
      cases ended : Run.executeProgram world k program (.alone m.interpreter.imports place) with
      | ok u child =>
        rw [ended] at ran
        cases ran
        have part := m.heap.partOf_above child.heap
        refine ⟨k, place, program, child, _, _, rfl, finds, ended, rfl, rfl, rfl, rfl, part, rfl, ?_⟩
        intro frame name inside
        rw [← part.binding?_eq inside]
        split
        · next here =>
          subst here
          exact Heap.binding?_declareAll (Table.sorted _) (part.hasFrame inside)
        · next apart => exact Heap.binding?_declareAll_of_ne apart _
      | error e' child =>
        rw [ended] at ran
        cases ran
  case alone =>
    rintro k place program rfl finds
    exact Run.execute_import written finds

/-- The name that the file has exported before it fails is not bound. -/
theorem import_isolated_of_stray_jump :
    ∃ world m', world = .ofFiles [("/a", "export true as n; break;")] ∧
      Parser.isImportSource (.literal (.string "a")) = true ∧
      Run.execute world 9 (.importFrom (.literal (.string "a"))) (Machine.start none) =
        .error (.fault (.stray .leaveLoop)) m' ∧
      (m'.interpreter = (Machine.start none).interpreter ∧ (Machine.start none).heap.PartOf m'.heap ∧
        ∃ text, m'.out = (Machine.start none).out ++ text) ∧
      m'.heap.binding? ⟨1⟩ "n" = none := by
  obtain ⟨world, isFiles, found, read, accepted⟩ :
      ∃ world : World, world = .ofFiles [("/a", "export true as n; break;")] ∧
        world.resolveFrom none "a" = .ok (.ofText "/a") ∧
        world.readText (.ofText "/a") = .ok "export true as n; break;" ∧
        Program.ofText "export true as n; break;" = .ok [.exportAs "n" (.literal (.boolean true)), .leaveLoop] := by
    refine ⟨_, rfl, ?_, ?_, ?_⟩ <;> cbv
  have finds : Run.Finds world (.literal (.string "a")) (Machine.start none) (.ofText "/a") _ :=
    ⟨"a", _, rfl, found, List.not_mem_nil, read, accepted⟩
  have isSource : Parser.isImportSource (.literal (.string "a")) = true := rfl
  obtain ⟨failed, -, alone⟩ := import_isolated isSource world 9 (Machine.start none)
  have ran : Run.execute world 9 (.importFrom (.literal (.string "a"))) (Machine.start none) =
      .error (.fault (.stray .leaveLoop)) _ := alone 7 _ _ rfl finds
  have left := failed _ _ ran
  have inside : (Machine.start none).heap.HasFrame ⟨1⟩ := by cbv
  have unbound : (Machine.start none).heap.binding? ⟨1⟩ "n" = none := by cbv
  exact ⟨world, _, isFiles, isSource, ran, left, (left.2.1.binding?_eq inside).trans unbound⟩

end HookScript
