import HookScript.Proofs.Run.Preservation

/-!
Where a task leads: to a heap that has grown, and to the frame that is current there. An interpreter is at home in
two frames, the one of its globals and around it the one of its builtins.
-/

namespace HookScript

namespace Heap

structure IsBuiltins (heap : Heap) (frame : FrameId) : Prop where
  inside : heap.HasFrame frame
  outermost : heap.parent? frame = none
  bound {builtin : Builtin} (known : builtin ∈ Builtin.all) : heap.Binds frame builtin.name

theorem IsBuiltins.extends {heap heap' : Heap} {frame : FrameId} (builtins : heap.IsBuiltins frame)
    (extended : heap.Extends heap') : heap'.IsBuiltins frame where
  inside := extended.hasFrame builtins.inside
  outermost := (extended.parent?_eq builtins.inside).trans builtins.outermost
  bound known := extended.binds (builtins.bound known)

theorem chain_of_parent_none {heap : Heap} {frame : FrameId} (h : heap.parent? frame = none) :
    heap.chain frame = [frame] := by
  rw [chain_eq, h]
  rfl

theorem chain_newFrame {heap : Heap} {parent : FrameId} (inside : heap.HasFrame parent) :
    (heap.newFrame (some parent)).2.chain (heap.newFrame (some parent)).1 =
      (heap.newFrame (some parent)).1 :: heap.chain parent := by
  rw [chain_of_parent (parent?_newFrame_self inside)]
  rw [(extends_newFrame heap (some parent)).chain_eq inside]

theorem hasFrame_newFrame (heap : Heap) (parent : Option FrameId) :
    (heap.newFrame parent).2.HasFrame (heap.newFrame parent).1 := by
  simp [HasFrame, newFrame]

theorem binds_declareAll {heap : Heap} {frame : FrameId} {entries : List (String × Value)} {name : String}
    (inside : heap.HasFrame frame) (listed : name ∈ entries.map (·.1)) :
    (heap.declareAll frame entries).Binds frame name := by
  induction entries generalizing heap with
  | nil => cases listed
  | cons entry rest ih =>
    rw [List.map_cons, List.mem_cons] at listed
    rcases listed with rfl | later
    · have now : (heap.declare frame entry.1 entry.2).Binds frame entry.1 := binds_declare_self inside
      exact (extends_declareAll _ frame rest).binds now
    · exact ih ((extends_declare heap frame entry.1 entry.2).hasFrame inside) later

theorem frameWith_spec {heap heap' : Heap} {parent frame : FrameId} {entries : List (String × Value)}
    (inside : heap.HasFrame parent) (entry : heap.frameWith parent entries = (frame, heap')) :
    heap.Extends heap' ∧ heap'.HasFrame frame ∧ heap'.chain frame = frame :: heap.chain parent ∧
      ∀ name ∈ entries.map (·.1), heap'.Binds frame name := by
  cases entry
  have made := hasFrame_newFrame heap (some parent)
  have declared := extends_declareAll (heap.newFrame (some parent)).2 (heap.newFrame (some parent)).1 entries
  refine ⟨(extends_newFrame heap (some parent)).trans declared, declared.hasFrame made, ?_, ?_⟩
  · exact (declared.chain_eq made).trans (chain_newFrame inside)
  · intro name listed
    exact binds_declareAll made listed

theorem binding?_frameWith {heap heap' : Heap} {frame other parent : FrameId} {name : String} {value : Value}
    {entries : List (String × Value)} (binding : heap.binding? frame name = some value)
    (entry : heap.frameWith parent entries = (other, heap')) : heap'.binding? frame name = some value := by
  cases entry
  have bound : heap.Binds frame name := by
    rw [Binds, binding]
    rfl
  have inside := hasFrame_of_binds bound
  have apart : frame ≠ (heap.newFrame (some parent)).1 := by
    rintro rfl
    exact Nat.lt_irrefl _ inside
  exact (binding?_declareAll_of_ne apart entries).trans
    ((binding?_newFrame heap (some parent) name inside).trans binding)

end Heap

namespace Interpreter

def home (i : Interpreter) : List FrameId := [i.globals, i.builtins]

structure Home (i : Interpreter) (heap : Heap) : Prop where
  inside : heap.HasFrame i.globals
  chain_eq : heap.chain i.globals = i.home
  builtins : heap.IsBuiltins i.builtins

theorem Home.extends {i : Interpreter} {heap heap' : Heap} (home : i.Home heap) (extended : heap.Extends heap') :
    i.Home heap' where
  inside := extended.hasFrame home.inside
  chain_eq := (extended.chain_eq home.inside).trans home.chain_eq
  builtins := home.builtins.extends extended

theorem Home.of_home_eq {i j : Interpreter} {heap : Heap} (home : i.Home heap) (same : j.home = i.home) :
    j.Home heap := by
  obtain ⟨globals, builtins⟩ : j.globals = i.globals ∧ j.builtins = i.builtins := by
    simpa [Interpreter.home] using same
  refine ⟨?_, ?_, ?_⟩
  · rw [globals]
    exact home.inside
  · rw [globals, same]
    exact home.chain_eq
  · rw [builtins]
    exact home.builtins

theorem binds_declareBuiltins {heap : Heap} {frame : FrameId} {builtins : List Builtin} {b : Builtin}
    (inside : heap.HasFrame frame) (listed : b ∈ builtins) :
    (declareBuiltins frame builtins heap).Binds frame b.name := by
  induction builtins generalizing heap with
  | nil => cases listed
  | cons first rest ih =>
    have made : (heap.newCallable (.builtin first)).2.HasFrame frame := inside
    rcases List.mem_cons.1 listed with rfl | later
    · exact (extends_declareBuiltins frame rest _).binds (Heap.binds_declare_self made)
    · exact ih ((Heap.extends_declare _ frame _ _).hasFrame made) later

theorem home_start (heap : Heap) (directory : Option Path) (imports : List Path) :
    (start heap directory imports).1.Home (start heap directory imports).2 := by
  have inside := Heap.hasFrame_newFrame heap none
  have grown := extends_declareBuiltins (heap.newFrame none).1 Builtin.all (heap.newFrame none).2
  have outermost : (heap.newFrame none).2.parent? (heap.newFrame none).1 = none := by
    simp [Heap.parent?, Heap.newFrame]
  have builtins : (declareBuiltins (heap.newFrame none).1 Builtin.all (heap.newFrame none).2).IsBuiltins
      (heap.newFrame none).1 :=
    ⟨grown.hasFrame inside, (grown.parent?_eq inside).trans outermost, binds_declareBuiltins inside⟩
  have last := Heap.extends_newFrame (declareBuiltins (heap.newFrame none).1 Builtin.all (heap.newFrame none).2)
    (some (heap.newFrame none).1)
  refine ⟨Heap.hasFrame_newFrame _ _, ?_, builtins.extends last⟩
  exact (Heap.chain_newFrame builtins.inside).trans
    (congrArg _ (Heap.chain_of_parent_none builtins.outermost))

end Interpreter

structure Interpreter.Stays (i j : Interpreter) : Prop where
  directory : j.directory = i.directory
  builtins : j.builtins = i.builtins
  globals : j.globals = i.globals
  imports : j.imports = i.imports

theorem Interpreter.Stays.refl (i : Interpreter) : i.Stays i := ⟨rfl, rfl, rfl, rfl⟩

theorem Interpreter.Stays.trans {i j k : Interpreter} (first : i.Stays j) (second : j.Stays k) : i.Stays k where
  directory := second.directory.trans first.directory
  builtins := second.builtins.trans first.builtins
  globals := second.globals.trans first.globals
  imports := second.imports.trans first.imports

theorem Machine.stays_opened (m : Machine) : m.interpreter.Stays m.opened.interpreter := ⟨rfl, rfl, rfl, rfl⟩

theorem Machine.stays_inFrame (m : Machine) (frame : FrameId) : m.interpreter.Stays (m.inFrame frame).interpreter :=
  ⟨rfl, rfl, rfl, rfl⟩

theorem Machine.Later.stays {S : Nat → Task → Machine → Prop} {m m' : Machine} (later : m.Later S m') :
    m.interpreter.Stays m'.interpreter := by
  constructor <;> rw [later.interpreter]

namespace Run

section

variable {world : World} {S : Nat → Task → Machine → Prop} {n : Nat} {m m₁ : Machine}

theorem later_of_ok {α : Type} {act : Run α} {a : α} {t : Task} (closed : Closed world S) (task : S n t m)
    (ran : act m = .ok a m₁) (same : t.after world n m = m.after act) : m.Later S m₁ := by
  have later := Task.later closed _ _ task
  rwa [same, Machine.after_of_ok ran] at later

theorem Enters.grows (closed : Closed world S) {move : Move} {t t' : Task} (task : S (n + 1) t m)
    (enters : Enters world n move t m t' m₁) : m.heap.Grows S m₁.heap := by
  have opened (m : Machine) : m.heap.Grows S m.opened.heap := Heap.grows_newFrame _ _
  cases enters with
  | itemIndex ht => exact (later_of_ok closed (closed task .itemTarget (.refl _)) ht rfl).grows
  | setItemTarget hv => exact (later_of_ok closed (closed task .setItemValue (.refl _)) hv rfl).grows
  | setItemIndex hv ht =>
    have later := later_of_ok closed (closed task .setItemValue (.refl _)) hv rfl
    exact (later.trans (later_of_ok closed (closed task (.setItemTarget hv) later.grows) ht rfl)).grows
  | setPropertyTarget hv => exact (later_of_ok closed (closed task .setPropertyValue (.refl _)) hv rfl).grows
  | binaryRight hl => exact (later_of_ok closed (closed task .binaryLeft (.refl _)) hl rfl).grows
  | andRight hl truthy => exact (later_of_ok closed (closed task .logicalLeft (.refl _)) hl rfl).grows
  | orRight hl falsy => exact (later_of_ok closed (closed task .logicalLeft (.refl _)) hl rfl).grows
  | args hc found arity => exact (later_of_ok closed (closed task .callee (.refl _)) hc rfl).grows
  | called hc found arity ha =>
    have later := later_of_ok closed (closed task .callee (.refl _)) hc rfl
    exact (later.trans (later_of_ok closed (closed task (.args hc found arity) later.grows) ha rfl)).grows
  | restExprs hf => exact (later_of_ok closed (closed task .firstExpr (.refl _)) hf rfl).grows
  | functionBody entry => exact Heap.grows_frameWith entry
  | methodBody outer entry => exact (Heap.grows_frameWith outer).trans (Heap.grows_frameWith entry)
  | block => exact opened m
  | yes hc truthy => exact (later_of_ok closed (closed task .branchCondition (.refl _)) hc rfl).grows
  | no hc falsy => exact (later_of_ok closed (closed task .branchCondition (.refl _)) hc rfl).grows
  | importFile hs => exact (later_of_ok closed (closed task .source (.refl _)) hs rfl).grows
  | restStmts hf => exact (later_of_ok closed (closed task .firstStmt (.refl _)) hf rfl).grows
  | loopBody hc truthy =>
    exact (later_of_ok closed (closed task .loopCondition (.refl _)) hc rfl).grows.trans (opened _)
  | nextRound hc truthy hb goesOn =>
    have later := (later_of_ok closed (closed task .loopCondition (.refl _)) hc rfl).grows.trans (opened _)
    exact later.trans (later_of_ok closed (closed task (.loopBody hc truthy) later) hb rfl).grows
  | restOfProgram hf => exact (later_of_ok closed (closed task .firstOfProgram (.refl _)) hf rfl).grows
  | @program path place =>
    exact Interpreter.grows_start m.heap (some place.parent) (m.interpreter.imports ++ [place])
  | _ => exact .refl _

end

end Run

def Task.frame : Task → Machine → FrameId
  | runBody frame _, _ => frame
  | _, m => m.interpreter.scope

/-- What a move means for the current frame and for the interpreter's own. A call may lead anywhere. -/
def Move.Leads (m : Machine) (frame : FrameId) (m' : Machine) (frame' : FrameId) : Move → Prop
  | enter => frame' = m'.interpreter.scope ∧ m'.heap.HasFrame frame' ∧
      m'.heap.chain frame' = frame' :: m.heap.chain frame ∧ m'.interpreter.home = m.interpreter.home
  | call => m'.interpreter.home = m.interpreter.home
  | file => m'.interpreter.Home m'.heap ∧ frame' = m'.interpreter.globals
  | _ => frame' = frame ∧ m'.interpreter.home = m.interpreter.home

theorem Move.Leads.home_eq {m m' : Machine} {frame frame' : FrameId} {move : Move}
    (leads : move.Leads m frame m' frame') (here : move ≠ .file) : m'.interpreter.home = m.interpreter.home := by
  cases move with
  | enter => exact leads.2.2.2
  | call => exact leads
  | file => exact absurd rfl here
  | stay | initial | past | otherwise => exact leads.2

namespace Run

variable {world : World} {n : Nat} {m m₁ : Machine}

theorem closed_true : Closed world fun _ _ _ => True := fun _ _ _ _ _ _ _ _ _ => trivial

theorem later_of_ran {α : Type} {act : Run α} {a : α} (t : Task) (ran : act m = .ok a m₁)
    (same : t.after world n m = m.after act) : m.Later (fun _ _ _ => True) m₁ :=
  later_of_ok closed_true (t := t) trivial ran same

theorem Enters.extends {move : Move} {t t' : Task} (enters : Enters world n move t m t' m₁) :
    m.heap.Extends m₁.heap := (enters.grows closed_true trivial).extended

theorem stays_of_later (later : m.Later (fun _ _ _ => True) m₁) :
    m₁.interpreter.scope = m.interpreter.scope ∧ m₁.interpreter.home = m.interpreter.home := by
  simp only [Interpreter.home, later.scope_eq, later.globals_eq, later.builtins_eq, and_self]

theorem chain_opened (inside : m.heap.HasFrame m.interpreter.scope) :
    m.opened.heap.HasFrame m.opened.interpreter.scope ∧
      m.opened.heap.chain m.opened.interpreter.scope =
        m.opened.interpreter.scope :: m.heap.chain m.interpreter.scope :=
  ⟨Heap.hasFrame_newFrame _ _, Heap.chain_newFrame inside⟩

theorem Enters.leads {move : Move} {t t' : Task} (enters : Enters world n move t m t' m₁)
    (inside : m.heap.HasFrame (t.frame m)) : move.Leads m (t.frame m) m₁ (t'.frame m₁) := by
  cases enters with
  | itemIndex hv | setItemTarget hv | setPropertyTarget hv | binaryRight hv | andRight hv | orRight hv
  | restExprs hv | args hv | yes hv | no hv | importFile hv =>
    exact stays_of_later (later_of_ran (.evaluate _) hv rfl)
  | setItemIndex hv ht =>
    have later := later_of_ran (.evaluate _) hv rfl
    exact stays_of_later (later.trans (later_of_ran (.evaluate _) ht rfl))
  | called hc found arity ha =>
    have later := later_of_ran (.evaluate _) hc rfl
    exact stays_of_later (later.trans (later_of_ran (.evaluateAll _) ha rfl))
  | restStmts hf | restOfProgram hf => exact stays_of_later (later_of_ran (.execute _) hf rfl)
  | block => exact ⟨rfl, (chain_opened inside).1, (chain_opened inside).2, rfl⟩
  | loopBody hc truthy =>
    have later := later_of_ran (.evaluate _) hc rfl
    obtain ⟨scope, home⟩ := stays_of_later later
    change m.heap.HasFrame m.interpreter.scope at inside
    have inside₁ := later.grows.extended.hasFrame inside
    rw [← scope] at inside₁
    obtain ⟨made, chain⟩ := chain_opened inside₁
    rw [scope, later.grows.extended.chain_eq inside] at chain
    exact ⟨rfl, made, chain, home⟩
  | nextRound hc truthy hb goesOn =>
    obtain ⟨scope, home⟩ := stays_of_later (later_of_ran (.evaluate _) hc rfl)
    obtain ⟨-, home₂⟩ := stays_of_later (later_of_ran (.executeAll _) hb rfl)
    exact ⟨scope, home₂.trans home⟩
  | functionBody | methodBody => rfl
  | program => exact ⟨Interpreter.home_start _ _ _, rfl⟩
  | _ => exact ⟨rfl, rfl⟩

theorem Enters.stays {move : Move} {t t' : Task} (enters : Enters world n move t m t' m₁) (here : move ≠ .file) :
    m.interpreter.Stays m₁.interpreter := by
  cases enters with
  | itemIndex hv | setItemTarget hv | setPropertyTarget hv | binaryRight hv | andRight hv | orRight hv
  | restExprs hv | args hv | yes hv | no hv | importFile hv =>
    exact (later_of_ran (.evaluate _) hv rfl).stays
  | setItemIndex hv ht =>
    exact (later_of_ran (.evaluate _) hv rfl).stays.trans (later_of_ran (.evaluate _) ht rfl).stays
  | called hc found arity ha =>
    exact (later_of_ran (.evaluate _) hc rfl).stays.trans (later_of_ran (.evaluateAll _) ha rfl).stays
  | restStmts hf | restOfProgram hf => exact (later_of_ran (.execute _) hf rfl).stays
  | loopBody hc truthy => exact (later_of_ran (.evaluate _) hc rfl).stays.trans (Machine.stays_opened _)
  | nextRound hc truthy hb goesOn =>
    have begun := (later_of_ran (.evaluate _) hc rfl).stays.trans (Machine.stays_opened _)
    exact (begun.trans (later_of_ran (.executeAll _) hb rfl).stays).trans (Machine.stays_inFrame _ _)
  | block => exact m.stays_opened
  | body => exact m.stays_inFrame _
  | program => exact absurd rfl here
  | _ => exact .refl _

inductive Names (world : World) (n : Nat) : Expr → Machine → String → Nat → Machine → Prop
  | lookup {name level m} : Names world n (.lookup name level) m name level m
  | assign {name level value m} : Names world n (.assign name level value) m name level m
  | assigned {name level value v m m₁} (hv : evaluate world n value m = .ok v m₁) :
    Names world n (.assign name level value) m name level m₁

theorem Names.later {expr : Expr} {name : String} {level : Nat} (names : Names world n expr m name level m₁) :
    m.Later (fun _ _ _ => True) m₁ := by
  cases names with
  | lookup | assign => exact .refl m
  | assigned hv => exact later_of_ran (.evaluate _) hv rfl

end Run

end HookScript
