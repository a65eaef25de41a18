import HookScript.Proofs.Scoping.Context

/-!
Names of a context. Levels depend on the names of the scopes only, not on which of them are settled. A scope lacks names
as long as it can still declare all of them.
-/

namespace HookScript

def declaresAll (stmts : List Stmt) : List String := stmts.flatMap Stmt.declares

namespace Context

variable {c d : Context}

theorem names_declareAll (c : Context) (names : List String) :
    (c.declareAll names).names = (names.reverse ++ c.inner.names) :: c.outer.map (·.names) := by
  induction names generalizing c with
  | nil => rfl
  | cons name rest ih =>
    rw [List.reverse_cons, List.append_assoc]
    exact ih (c.declare name)

theorem declareAll_append (c : Context) (first second : List String) :
    c.declareAll (first ++ second) = (c.declareAll first).declareAll second := List.foldl_append

theorem inner_congr (same : c.names = d.names) : c.inner.names = d.inner.names := (List.cons.inj same).1

theorem outer_congr (same : c.names = d.names) : c.outer.map (·.names) = d.outer.map (·.names) := (List.cons.inj same).2

theorem declareAll_congr (same : c.names = d.names) (names : List String) :
    (c.declareAll names).names = (d.declareAll names).names := by
  rw [names_declareAll, names_declareAll, inner_congr same, outer_congr same]

theorem names_settleAll (c : Context) (names : List String) : (c.settleAll names).names = (c.declareAll names).names := by
  induction names generalizing c with
  | nil => rfl
  | cons name rest ih =>
    exact (ih (c.settle name)).trans (declareAll_congr (c := c.settle name) (d := c.declare name) rfl rest)

theorem inner_declareAll (c : Context) (names : List String) :
    (c.declareAll names).inner.names = names.reverse ++ c.inner.names := (List.cons.inj (names_declareAll c names)).1

/-- The innermost scope has none of these names, which are all different. -/
def Lacks (c : Context) (names : List String) : Prop := names.Nodup ∧ ∀ name ∈ names, name ∉ c.inner.names

namespace Lacks

variable {names first second : List String}

theorem congr (lacks : c.Lacks names) (same : c.names = d.names) : d.Lacks names := by
  rwa [Lacks, ← inner_congr same]

theorem append_iff : c.Lacks (first ++ second) ↔ c.Lacks first ∧ (c.declareAll first).Lacks second := by
  simp only [Lacks, inner_declareAll, List.nodup_append, List.mem_append, List.mem_reverse]
  constructor
  · rintro ⟨⟨distinct, distinct', apart⟩, absent⟩
    refine ⟨⟨distinct, fun name early => absent name (.inl early)⟩, distinct', fun name late known => ?_⟩
    exact known.elim (fun early => apart name early name late rfl) (absent name (.inr late))
  · rintro ⟨⟨distinct, absent⟩, distinct', absent'⟩
    refine ⟨⟨distinct, distinct', ?_⟩, ?_⟩
    · rintro name early _ late rfl
      exact absent' name late (.inl early)
    · rintro name (early | late)
      · exact absent name early
      · exact fun known => absent' name late (.inr known)

theorem append (lacks : c.Lacks first) (later : (c.declareAll first).Lacks second) : c.Lacks (first ++ second) :=
  append_iff.mpr ⟨lacks, later⟩

theorem enter (distinct : names.Nodup) : c.enter.Lacks names := ⟨distinct, fun _ _ => List.not_mem_nil⟩

end Lacks

end Context

end HookScript
