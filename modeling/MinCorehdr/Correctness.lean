import MinCorehdr.Emitter.ReadBack
import MinCorehdr.Main
import MinCorehdr.ObjectDemand

/-!
# What a run writes, in terms of what its objects hold

The file that a successful run leaves is C, and declares what the types and relocations of
its objects ask the base for.
-/

namespace MinCorehdr

open Support.CUnit Support.Result Support.Sequence

open Classical in
/-- What is printed of a record where `demand` says which members are kept. -/
noncomputable def Demand.ctx (demand : Demand) (base : Btf) : EmitCtx where
  btf := base
  keeps := fun id i => decide (demand.Keeps id i)

open Classical in
theorem SeedState.demand_ctx {base : Btf} {state : SeedState} (hgood : state.Good base) :
    state.demand.ctx base = emitCtx base (some state.requirements) := by
  unfold Demand.ctx emitCtx
  congr 1
  funext id i
  rw [Bool.eq_iff_iff]
  exact decide_eq_true_iff.trans (state.demand_keeps hgood)

section

variable {fuel : Nat} {env : Env} {opts : CliOptions} {world world' : World} {path : CString}

/-- A run that ends well has written the header it selected. -/
theorem main_writes (hruns : opts.Runs) (hpath : opts.outputPath = some path)
    (h : main fuel env opts world = some (0, world')) :
    ∃ selection items, selectTypes env opts = .ok selection ∧
      mchEmitHeaderWithOptions fuel selection.base selection.required
        (some selection.requirements) = .ok items ∧
      world'.files path = some (headerText items) := by
  rw [main_of_runs hruns] at h
  have hfails : ∀ {world : World} {fault : Fault},
      finish env world (.error fault) ≠ some (0, world') := by
    intro world fault hfinish
    obtain ⟨_, ⟨_, hok⟩ | ⟨hone, _⟩⟩ := finish_eq_some hfinish
    · cases hok
    · cases hone
  cases hselect : selectTypes env opts with
  | error fault =>
      rw [hselect] at h
      exact absurd h hfails
  | ok selection =>
      rw [hselect] at h
      dsimp only at h
      unfold writeOutput at h
      rw [hpath] at h
      dsimp only at h
      cases hwrite : writeHeaderToPath fuel env selection path world.files with
      | mk files written =>
          rw [hwrite] at h
          rcases writeHeaderToPath_cases hwrite with ⟨rfl, fault, rfl⟩ | ⟨rfl, items, hitems, rfl⟩
          · exact absurd h hfails
          · obtain ⟨rfl, _⟩ := finish_eq_some h
            exact ⟨selection, items, rfl, hitems, Function.update_self _ _ _⟩

end

/-- A run over an object that names `struct R` and one that reads `R.x`. -/
def readsWritten : Env × CliOptions :=
  ({ smallEnv 0 false with
      loadBase := fun _ => .ok smallBase
      loadObject := loadWritten },
    { btfPath := ['b'], objects := [['a'], ['b']], outputPath := some ['h'] })

end MinCorehdr
