import ScriptEngine.Proofs.Compiler.Heights
import ScriptEngine.Proofs.Machine.Runs

/-!
# Executions of compiled programs

A program that compilation yields runs in order, with the layouts that it was generated for.
-/

namespace ScriptEngine

section
variable {linker : Linker} {exporting : Bool} {body : List Stmt} {c : Compiler.Compiled}
  {m : Machine}

/-- What runs of a compiled program are judged by, with natives that may crash unless they are calm. -/
theorem compiled_tidy (tidy calm strict : Prop) (known : NativeInfo → Prop)
    (hcompiled : (Compiler.compile linker exporting body).result = .ok c)
    (hsize : c.program.size ≤ Slot.limit) (hcalls : m.library.CallsOnly)
    (hproper : tidy → m.library.Tidy calm strict known) (hfresh : m.world.store.closures = #[])
    (hclean : tidy → m.world.store.Neat strict known)
    (hbindings : tidy → m.library.bindings.All (m.world.store.Admits known)) :
    ∃ r : Regime, r.Valid ∧ r.floor = none ∧ r.tidy = tidy ∧ r.calm = calm ∧ r.known = known ∧
      r.library = m.library ∧ Op.ofProgram c.program = ⟨r.ops, none⟩ ∧ Compiler.NodesGain c.program r.ty ∧
      Compiler.LoopsBare c.program r.ty ∧ ∀ s, m.Reaches c.program s → InOrder r s := by
  obtain ⟨ops, ty, hops, hlen, hfit, hnodes, hbare⟩ := Compiler.compile_lays hcompiled hsize
  have hr : Regime.Valid ⟨c.program, ops, ty, m.library, tidy, known, none, calm, strict⟩ :=
    ⟨hfit, hlen.symm, hlen ▸ hsize, hcalls, hproper⟩
  refine ⟨_, hr, rfl, rfl, rfl, rfl, rfl, hops, hnodes, hbare, ?_⟩
  intro s hreaches
  refine State.Leads.inOrder hr rfl ?_ hreaches
  exact Machine.start_inOrder hr rfl rfl (by rw [hops]) rfl hfresh hclean hbindings

end

/-!
# A small program

It has a native call a function with a loop in it, so its run nests.
-/

/-- The program `relay(func() { while true { break } })`. -/
def relayedLoop : List Stmt :=
  [.expr .zero (.call .zero (.var .zero "relay")
    [.func .zero Text.empty []
      (.mk .zero [.whileLoop .zero (.boolean .zero true) (.mk .zero [.leave .zero])])])]

/-- A new engine whose only native calls what it is given. -/
def relayEngine : Machine :=
  .new ⟨.empty, .new Text.empty, .new false⟩ .relaying (.ofHost false false Text.empty 0)

end ScriptEngine
