import ScriptEngine.Compiler.Fragment

/-!
# The algebra of fragments

Lengths, instructions and waiting exits of fragments that are put together.
-/

namespace ScriptEngine

/-- Whether nodes of the kind are loops that keep names for themselves. -/
def Compiler.ofLoop (kind : Text) : Bool :=
  kind == "Loop" || kind == "Each"

namespace Fragment

@[simp] theorem length_empty : empty.length = 0 := rfl

@[simp] theorem length_ofCode (code : List Instruction) : (ofCode code).length = code.length := rfl

@[simp] theorem length_append (f g : Fragment) : (f ++ g).length = f.length + g.length :=
  List.length_append

@[simp] theorem length_emit (f : Fragment) (code : List Instruction) :
    (f.emit code).length = f.length + code.length :=
  List.length_append

theorem mark_code (f : Fragment) (kind : String) (span : Span) : (f.mark kind span).code = f.code := by
  unfold mark
  split <;> rfl

theorem mark_exits (f : Fragment) (kind : String) (span : Span) :
    (f.mark kind span).exits = f.exits := by
  unfold mark
  split <;> rfl

@[simp] theorem length_mark (f : Fragment) (kind : String) (span : Span) :
    (f.mark kind span).length = f.length :=
  congrArg List.length (f.mark_code kind span)

theorem mark_debug {f : Fragment} (h : f.code ≠ []) (kind : String) (span : Span) :
    (f.mark kind span).debug = f.debug ++ [⟨f.length, f.length, span, kind⟩] := by
  unfold mark
  rw [if_neg (by simpa using h)]

theorem mark_of_code_nil {f : Fragment} (h : f.code = []) (kind : String) (span : Span) :
    f.mark kind span = f := by
  unfold mark
  rw [if_pos (by simp [h])]

theorem code_append (f g : Fragment) : (f ++ g).code = f.code ++ g.code := rfl

theorem debug_append (f g : Fragment) :
    (f ++ g).debug = f.debug ++ g.debug.map (·.shift f.length) := rfl

theorem exits_append (f g : Fragment) :
    (f ++ g).exits = f.exits ++ g.exits.map fun e => { e with index := e.index + f.length } := rfl

/-- Instructions behind a fragment are a fragment of their own. -/
theorem emit_eq (f : Fragment) (code : List Instruction) : f.emit code = f ++ ofCode code := by
  show (⟨f.code ++ code, f.debug, f.exits⟩ : Fragment) =
    ⟨f.code ++ code, f.debug ++ [].map _, f.exits ++ [].map _⟩
  simp only [List.map_nil, List.append_nil]

theorem ofCode_cons (i : Instruction) (code : List Instruction) :
    ofCode (i :: code) = ofCode [i] ++ ofCode code := by
  show (⟨i :: code, [], []⟩ : Fragment) = ⟨[i] ++ code, [] ++ [].map _, [] ++ [].map _⟩
  rfl

theorem append_empty (f : Fragment) : f ++ empty = f := by
  show (⟨f.code ++ [], f.debug ++ [].map _, f.exits ++ [].map _⟩ : Fragment) = f
  simp only [List.map_nil, List.append_nil]

theorem empty_append (f : Fragment) : empty ++ f = f := by
  obtain ⟨code, debug, exits⟩ := f
  show (⟨[] ++ code, [] ++ debug.map (·.shift 0), [] ++ exits.map fun e => ⟨e.index + 0, e.again⟩⟩ :
    Fragment) = _
  have hshift : (fun e : DebugEntry => e.shift 0) = id := by
    funext e
    simp [DebugEntry.shift]
  simp [hshift]

theorem append_assoc (f g h : Fragment) : f ++ g ++ h = f ++ (g ++ h) := by
  show (⟨f.code ++ g.code ++ h.code, _, _⟩ : Fragment) = ⟨f.code ++ (g.code ++ h.code), _, _⟩
  simp only [List.append_assoc, mk.injEq, true_and]
  constructor
  · show (f.debug ++ g.debug.map (·.shift f.length)) ++ h.debug.map (·.shift (f ++ g).length) =
      f.debug ++ (g.debug ++ h.debug.map (·.shift g.length)).map (·.shift f.length)
    simp only [List.map_append, List.append_assoc, List.map_map]
    have hshift : (fun e : DebugEntry => e.shift (f ++ g).length) =
        (fun e => e.shift f.length) ∘ fun e => e.shift g.length := by
      funext e
      simp only [Function.comp, DebugEntry.shift, length_append, DebugEntry.mk.injEq, and_self,
        and_true]
      omega
    rw [hshift]
  · show (f.exits ++ g.exits.map _) ++ h.exits.map (fun e => (⟨e.index + (f ++ g).length, _⟩ : LoopExit)) =
      f.exits ++ (g.exits ++ h.exits.map _).map _
    simp only [List.map_append, List.append_assoc, List.map_map]
    have hshift : (fun e : LoopExit => (⟨e.index + (f ++ g).length, e.again⟩ : LoopExit)) =
        (fun e : LoopExit => (⟨e.index + f.length, e.again⟩ : LoopExit)) ∘
          fun e : LoopExit => (⟨e.index + g.length, e.again⟩ : LoopExit) := by
      funext e
      simp only [Function.comp, length_append, LoopExit.mk.injEq, and_true]
      omega
    rw [hshift]

/-!
## Resolved exits
-/

/-- The code with every exit of a list turned into a jump. -/
def patched (leave again : Nat) (exits : List LoopExit) (code : List Instruction) :
    List Instruction :=
  exits.foldl
    (fun code e => code.set e.index (jumpTo e.index (if e.again then again else leave))) code

theorem resolve_code (f : Fragment) (leave again : Nat) :
    (f.resolve leave again).code = patched leave again f.exits f.code := rfl

theorem length_patched (leave again : Nat) (exits : List LoopExit) (code : List Instruction) :
    (patched leave again exits code).length = code.length := by
  induction exits generalizing code with
  | nil => rfl
  | cons e rest ih =>
    show (patched leave again rest (code.set e.index _)).length = _
    rw [ih, List.length_set]

@[simp] theorem length_resolve (f : Fragment) (leave again : Nat) :
    (f.resolve leave again).length = f.length :=
  length_patched leave again f.exits f.code

/-- A patched instruction is a jump of an exit at its place, any other is as it was. -/
theorem getElem?_patched {leave again : Nat} {exits : List LoopExit} {code : List Instruction}
    {i : Nat} {ins : Instruction} (h : (patched leave again exits code)[i]? = some ins) :
    (code[i]? = some ins ∧ ∀ e ∈ exits, e.index ≠ i) ∨
      ∃ e ∈ exits, e.index = i ∧ ins = jumpTo i (if e.again then again else leave) := by
  induction exits generalizing code with
  | nil => exact Or.inl ⟨h, fun _ he => absurd he List.not_mem_nil⟩
  | cons e rest ih =>
    have hset : (patched leave again rest (code.set e.index
        (jumpTo e.index (if e.again then again else leave))))[i]? = some ins := h
    rcases ih hset with ⟨hcode, hrest⟩ | ⟨e', he', hi, hins⟩
    · by_cases hi : e.index = i
      · rw [hi, List.getElem?_set_self'] at hcode
        obtain ⟨_, _, hins⟩ := Option.map_eq_some_iff.mp hcode
        exact Or.inr ⟨e, List.mem_cons_self, hi, hins.symm⟩
      · rw [List.getElem?_set_ne hi] at hcode
        refine Or.inl ⟨hcode, ?_⟩
        intro e' he'
        rcases List.mem_cons.mp he' with rfl | he'
        · exact hi
        · exact hrest e' he'
    · exact Or.inr ⟨e', List.mem_cons_of_mem e he', hi, hins⟩

end Fragment
end ScriptEngine
