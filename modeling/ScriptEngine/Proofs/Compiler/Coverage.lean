import ScriptEngine.Proofs.Compiler.Heights
import ScriptEngine.Proofs.Machine.Discipline

/-!
# Nodes around instructions

Every node is recorded as a whole, so the debug table of compiled code has an entry around each
instruction, those apart that only put a null on the stack or drop a value between two statements.
-/

namespace ScriptEngine

/-- The operation neither raises a failure nor calls. -/
def Op.Silent : Op → Prop
  | .push _ | .pop => True
  | _ => False

namespace Program

/-- The instruction at a position lies inside a node that the program records. -/
def Spans (p : Program) (ip : Int) : Prop :=
  (p.debug.lookup ip).isSome = true

/-- Every instruction that may raise a failure or call lies inside a recorded node. -/
def Covers (p : Program) (ops : Array Op) : Prop :=
  ∀ (i : Nat) op, ops[i]? = some op → op.Silent ∨ p.Spans i

end Program

namespace DebugTable

/-- An entry around an instruction is found, or a better one. -/
theorem isSome_lookup {t : DebugTable} {e : DebugEntry} {ip : Int} (he : e ∈ t)
    (hcovers : e.covers ip = true) : (t.lookup ip).isSome = true := by
  have hkept : ∀ (t : DebugTable) (best : Option DebugEntry), best.isSome = true →
      (t.foldl (better ip) best).isSome = true := by
    intro t
    induction t with
    | nil => exact fun _ h => h
    | cons e rest ih =>
      intro best hbest
      refine ih _ ?_
      unfold better
      split
      · split
        · rfl
        · split
          · rfl
          · exact hbest
      · exact hbest
  have hfound : ∀ (t : DebugTable) (best : Option DebugEntry), e ∈ t →
      (t.foldl (better ip) best).isSome = true := by
    intro t
    induction t with
    | nil => exact fun _ h => absurd h List.not_mem_nil
    | cons e' rest ih =>
      intro best he
      rcases List.mem_cons.mp he with rfl | he
      · refine hkept rest _ ?_
        unfold better
        rw [if_pos hcovers]
        split
        · rfl
        · split <;> rfl
      · exact ih _ he
  exact hfound t none he

end DebugTable

namespace Fragment

/-- An entry of the fragment's own lies around the instruction. -/
def Around (f : Fragment) (i : Nat) : Prop :=
  ∃ e ∈ f.debug, e.stop - e.length ≤ i ∧ (i : Int) < e.stop

/-- Every instruction lies inside a node, those apart that push a null or pop. -/
def Covered (f : Fragment) : Prop :=
  ∀ i ins, f.code[i]? = some ins →
    ins = .bare .pushNull ∨ ins = .bare .pop ∨ f.Around i

variable {f g : Fragment}

theorem Around.append_left {i : Nat} (h : f.Around i) : (f ++ g).Around i := by
  obtain ⟨e, he, hi⟩ := h
  exact ⟨e, List.mem_append_left _ he, hi⟩

theorem Around.append_right {i : Nat} (h : g.Around i) : (f ++ g).Around (f.length + i) := by
  obtain ⟨e, he, hstart, hstop⟩ := h
  refine ⟨e.shift f.length, List.mem_append_right _ (List.mem_map_of_mem he), ?_, ?_⟩
  · show e.stop + f.length - e.length ≤ _
    omega
  · show _ < e.stop + f.length
    omega

theorem covered_empty : empty.Covered := by
  intro i ins h
  cases h

theorem covered_ofCode {ins : Instruction} (h : ins = .bare .pushNull ∨ ins = .bare .pop) :
    (ofCode [ins]).Covered := by
  intro i ins' hins
  rw [List.mem_singleton.mp (List.mem_of_getElem? hins)]
  exact h.imp_right Or.inl

theorem Covered.append (hf : f.Covered) (hg : g.Covered) : (f ++ g).Covered := by
  intro i ins h
  rw [code_append] at h
  rcases Nat.lt_or_ge i f.length with hi | hi
  · rw [List.getElem?_append_left hi] at h
    exact (hf i ins h).imp_right (Or.imp_right Around.append_left)
  · rw [List.getElem?_append_right hi] at h
    have haround : g.Around (i - f.length) → (f ++ g).Around i := by
      intro h
      have hright := h.append_right (f := f)
      rwa [Nat.add_sub_cancel' hi] at hright
    exact (hg _ ins h).imp_right (Or.imp_right haround)

/-- A fragment that is recorded as a whole. -/
theorem covered_mark (f : Fragment) (kind : String) (span : Span) : (f.mark kind span).Covered := by
  intro i ins h
  rw [mark_code] at h
  have hi : i < f.length := (List.getElem?_eq_some_iff.mp h).1
  have hcode : f.code ≠ [] := by
    intro hnil
    rw [hnil] at h
    cases h
  refine Or.inr (Or.inr ⟨⟨f.length, f.length, span, kind⟩, ?_, ?_, ?_⟩)
  · rw [mark_debug hcode]
    exact List.mem_append_right _ List.mem_cons_self
  · show (f.length : Int) - f.length ≤ i
    omega
  · exact Int.ofNat_lt.mpr hi

theorem Covered.discard (hf : f.Covered) : f.discard.Covered := by
  unfold Fragment.discard
  rw [emit_eq]
  exact hf.append (covered_ofCode (Or.inr rfl))

end Fragment

namespace Compiler

variable {linker : Linker} {place : Place} {p p' : Progress} {f : Fragment}

/-!
# Statements
-/

theorem covered_expr {e : Expr} (h : expr linker e p = .ok f p') : f.Covered := by
  obtain ⟨g, kind, span, rfl⟩ := expr_marked h
  exact Fragment.covered_mark g kind span

theorem covered_linked (span : Span) (kind : String) (code : Fragment) :
    (linked span kind code).Covered :=
  Fragment.covered_mark _ _ _

theorem covered_importStmt {s : Span} {path : Text} {names : List Text}
    (h : importStmt linker s path names p = .ok f p') : f.Covered := by
  unfold importStmt at h
  cases linker with
  | modules =>
    obtain ⟨rfl, -⟩ := pure_ok h
    exact covered_linked _ _ _
  | absent | closed =>
    obtain ⟨_, _, -, h⟩ := bind_ok h
    obtain ⟨rfl, -⟩ := pure_ok h
    exact covered_linked _ _ _

theorem covered_exportStmt {s : Span} {names : List Text}
    (h : exportStmt linker s names p = .ok f p') : f.Covered := by
  unfold exportStmt at h
  cases linker with
  | modules =>
    obtain ⟨_, _, -, h⟩ := bind_ok h
    obtain ⟨_, _, -, h⟩ := bind_ok h
    obtain ⟨rfl, -⟩ := pure_ok h
    exact covered_linked _ _ _
  | absent | closed =>
    obtain ⟨_, _, -, h⟩ := bind_ok h
    obtain ⟨rfl, -⟩ := pure_ok h
    exact covered_linked _ _ _

/-- So is the code of a statement, unless it is a single null. -/
theorem covered_stmt {s : Stmt} (h : stmt linker place s p = .ok f p') : f.Covered := by
  cases s with
  | expr _ x =>
    rw [stmt] at h
    exact covered_expr h
  | block | ret | typeDef =>
    rw [stmt] at h
    obtain ⟨_, _, -, h⟩ := bind_ok h
    obtain ⟨rfl, -⟩ := pure_ok h
    exact Fragment.covered_mark _ _ _
  | cond | whileLoop | loop | each =>
    rw [stmt] at h
    obtain ⟨_, _, -, h⟩ := bind_ok h
    obtain ⟨_, _, -, h⟩ := bind_ok h
    obtain ⟨rfl, -⟩ := pure_ok h
    exact Fragment.covered_mark _ _ _
  | forLoop =>
    rw [stmt] at h
    obtain ⟨_, _, -, h⟩ := bind_ok h
    obtain ⟨_, _, -, h⟩ := bind_ok h
    obtain ⟨_, _, -, h⟩ := bind_ok h
    obtain ⟨_, _, -, h⟩ := bind_ok h
    obtain ⟨rfl, -⟩ := pure_ok h
    exact Fragment.covered_mark _ _ _
  | select s subject cs otherwise =>
    rw [stmt] at h
    obtain ⟨_, _, -, h⟩ := bind_ok h
    split at h
    · cases h
    · obtain ⟨_, _, -, h⟩ := bind_ok h
      obtain ⟨_, _, -, h⟩ := bind_ok h
      obtain ⟨rfl, -⟩ := pure_ok h
      exact Fragment.covered_mark _ _ _
  | impl s method type params body =>
    rw [stmt] at h
    split at h
    · obtain ⟨_, _, -, h⟩ := bind_ok h
      obtain ⟨rfl, -⟩ := pure_ok h
      exact Fragment.covered_ofCode (Or.inl rfl)
    · obtain ⟨_, _, -, h⟩ := bind_ok h
      obtain ⟨_, _, -, h⟩ := bind_ok h
      obtain ⟨_, _, -, h⟩ := bind_ok h
      obtain ⟨rfl, -⟩ := pure_ok h
      exact Fragment.covered_mark _ _ _
  | leave | again =>
    rw [stmt] at h
    obtain ⟨rfl, -⟩ := pure_ok h
    exact Fragment.covered_mark _ _ _
  | imports =>
    rw [stmt] at h
    exact covered_importStmt h
  | exports =>
    rw [stmt] at h
    exact covered_exportStmt h
  | missing =>
    rw [stmt] at h
    cases h

theorem covered_stmts {body : List Stmt} (h : stmts linker place body p = .ok f p') : f.Covered := by
  induction body generalizing p p' f with
  | nil =>
    rw [stmts] at h
    obtain ⟨rfl, -⟩ := pure_ok h
    exact Fragment.covered_empty
  | cons s rest ih =>
    rw [stmts] at h
    obtain ⟨first, p₁, hfirst, h⟩ := bind_ok h
    obtain ⟨others, p₂, hothers, h⟩ := bind_ok h
    obtain ⟨rfl, -⟩ := pure_ok h
    exact (covered_stmt hfirst).discard.append (ih hothers)

/-!
# Programs
-/

/-- A compiled program covers all its instructions that may raise a failure or call. -/
theorem compile_covers {exporting : Bool} {body : List Stmt} {c : Compiled} {ops : Array Op}
    {ty : Nat → Layout} (h : (compile linker exporting body).result = .ok c)
    (hsize : c.program.size ≤ Slot.limit) (hops : Op.ofProgram c.program = ⟨ops, none⟩)
    (hnodes : NodesGain c.program ty) : c.program.Covers ops := by
  obtain ⟨f, p, hf, rfl⟩ := compile_ok h
  obtain ⟨hlen, -, hreads⟩ := Op.decodeAll_reads hops
  intro i op hop
  have hi : i < f.code.length := by
    have hlt := (Array.getElem?_eq_some_iff.mp hop).1
    rw [hlen] at hlt
    simpa using hlt
  obtain ⟨op', hop', hread⟩ := hreads i f.code[i] (List.getElem?_eq_getElem hi)
  have hsame : op' = op := by
    rw [show (#[] : Array Op).size + i = i from Nat.zero_add i, hop] at hop'
    exact (Option.some.inj hop').symm
  subst hsame
  rcases covered_stmts hf i f.code[i] (List.getElem?_eq_getElem hi) with hnull | hpop | ⟨e, he, hle, hlt⟩
  · rw [hnull] at hread
    rw [hread.eq_of_stands (Instruction.stands_bare rfl) (by decide)]
    exact Or.inl trivial
  · rw [hpop] at hread
    rw [hread.eq_of_stands (Instruction.stands_bare rfl) (by decide)]
    exact Or.inl trivial
  · obtain ⟨first, stop, hbefore, hinside, hstop, hlength, -⟩ := hnodes e he
    -- a program that memory can hold is too short for ranges to wrap around
    have hstart : e.start = first := by
      unfold DebugEntry.start
      rw [hstop, hlength, show (stop : Int) - (stop - first) = first by omega]
      exact wrapWord_of_le (by omega)
    refine Or.inr (DebugTable.isSome_lookup he ?_)
    unfold DebugEntry.covers
    rw [Bool.and_eq_true, decide_eq_true_iff, decide_eq_true_iff, hstart]
    exact ⟨by omega, hlt⟩

end Compiler
end ScriptEngine
