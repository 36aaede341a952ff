import ScriptEngine.Proofs.Execution.Compiled
import ScriptEngine.Proofs.Native.Standard
import ScriptEngine.Proofs.Store.Scope

/-!
# What equality operators compare

Operators get copies of their operands, and the copy of an object is a new object. So the operators
for equality compare scalars, types and natives as such, but never find two objects the same: a list,
dict, closure or instance is not even equal to itself.
-/

namespace ScriptEngine

/-- The operator is answered by a native that compares two values as programs see them and says what
`answer` makes of it; the library has no method for the operator. -/
structure Library.Compares (l : Library) (op : Text) (answer : Bool → Bool) : Prop where
  native : ∃ n : NativeInfo, l.resolve (Key.operatorMethod op) = some (.native n) ∧
    n.arity = some 2 ∧ ∀ a b w, l.behaviour n [a, b] w =
      .done (some (.boolean (answer (a.equal b)))) w
  methods : ∀ type : Text, type.isEmpty = false →
    l.resolve (Key.join (Key.operatorMethod op) type) = none

namespace Value

variable {a b : Value}

/-- Objects are compared by identity. -/
theorem eq_of_equal (ha : a.isHandle = true) (h : a.equal b = true) : a = b := by
  cases a with
  | list l =>
    cases b with
    | list l' => exact congrArg list (eq_of_beq h)
    | _ => cases h
  | dict d =>
    cases b with
    | dict d' => exact congrArg dict (eq_of_beq h)
    | _ => cases h
  | closure c =>
    cases b with
    | closure c' => exact congrArg closure (eq_of_beq h)
    | _ => cases h
  | inst i =>
    cases b with
    | inst i' => exact congrArg inst (eq_of_beq h)
    | _ => cases h
  | _ => cases ha

/-- Nothing but an object equals an object. -/
theorem equal_object (ha : a.isHandle = false) (hb : b.isHandle = true) : a.equal b = false := by
  cases b with
  | list | dict | closure | inst =>
    cases a with
    | list | dict | closure | inst => cases ha
    | _ => rfl
  | _ => cases hb

end Value

namespace Store

variable {s : Store} {a b : Value}

/-- Copies of two values in scope, the second one copied first, are equal if the values are and are
no objects. -/
theorem equal_copies (ha : s.Has a) (hb : s.Has b) :
    ((s.copy b).2.copy a).1.equal (s.copy b).1 = (!a.isHandle && a.equal b) := by
  obtain ⟨hhas, hkind, -, hself⟩ := copy_spec hb
  obtain ⟨-, hkind', hnew, hself'⟩ := copy_spec (ha.mono (.copy s b))
  cases hobject : a.isHandle with
  | true =>
    -- The copy of an object is no object that was there, and the other copy was.
    refine Bool.eq_false_iff.mpr fun hequal => hnew hobject ?_
    rw [Value.eq_of_equal (hkind'.trans hobject) hequal]
    exact hhas
  | false =>
    rw [hself' hobject]
    cases hobject' : b.isHandle with
    | true =>
      rw [Value.equal_object hobject (hkind.trans hobject'), Value.equal_object hobject hobject']
      rfl
    | false =>
      rw [hself hobject']
      rfl

/-- A copy has the type of what it is a copy of. -/
theorem typeName_copy (ha : s.Has a) : (s.copy a).2.typeName (s.copy a).1 = s.typeName a := by
  cases a with
  | closure c =>
    have hc : s.closure? c = some s.closures[c] := Array.getElem?_eq_getElem ha
    unfold copy
    simp only [hc]
    rfl
  | inst i =>
    obtain ⟨inst, hi⟩ : ∃ inst, s.instances[i]? = some inst := ⟨_, Array.getElem?_eq_getElem ha⟩
    have hnew : (s.instances.push inst)[s.instances.size]? = some inst := Array.getElem?_push_size
    unfold copy
    simp only [show s.instance? i = some inst from hi]
    simp only [typeName, instanceType, hi, hnew]
  | _ => rfl

/-- Copying leaves the instances that were there. -/
theorem instances_copy {i : InstanceId} (hi : i < s.instances.size) :
    (s.copy b).2.instances[i]? = s.instances[i]? := by
  cases b with
  | inst i' =>
    unfold copy
    cases hi' : s.instance? i' with
    | none => simp only [hi']
    | some inst =>
      simp only [hi']
      rw [Array.getElem?_push_lt hi, Array.getElem?_eq_getElem hi]
  | closure c =>
    unfold copy
    cases hc : s.closure? c with
    | none => simp only [hc]
    | some cl =>
      simp only [hc]
      rfl
  | _ => rfl

theorem typeName_of_copy (ha : s.Has a) : (s.copy b).2.typeName a = s.typeName a := by
  cases a with
  | inst i => simp only [typeName, instanceType, instances_copy ha]
  | _ => rfl

/-- A name that no frame binds is not found. -/
theorem lookup_unbound {name : Text} {shallow : Bool} {f : Option FrameId}
    (h : ∀ g fr, s.frame? g = some fr → fr.vars.get? name = none) :
    s.lookup f name shallow = none := by
  have hwalk : ∀ (fuel : Nat) (f : Option FrameId), s.lookupFrom name shallow fuel f = none := by
    intro fuel
    induction fuel with
    | zero => exact fun _ => rfl
    | succ fuel ih =>
      intro f
      cases f with
      | none => rfl
      | some f =>
        unfold lookupFrom
        cases hf : s.frame? f with
        | none => rfl
        | some fr =>
          simp only [h f fr hf]
          split
          · rfl
          · exact ih _
  exact hwalk _ f

end Store

/-!
# The operators
-/

section
variable {m : Machine} {p : Program} {i : Nat} {a b : Value} {rest : List Value} {op : Text}
  {answer : Bool → Bool}

/-- An operator that the library compares with, and that nothing else is bound to, stands for the
comparison. -/
theorem Library.Compares.operator (h : m.library.Compares op answer)
    (hmethods : ∀ f fr, m.world.store.frame? f = some fr →
      fr.vars.get? (Key.join (Key.operatorMethod op) (m.world.store.typeName a)) = none) :
    Exec.operator op a m = .ok (m.library.resolve (Key.operatorMethod op)) m := by
  have hresolve : m.resolve (Key.join (Key.operatorMethod op) (m.world.store.typeName a)) =
      m.library.resolve (Key.join (Key.operatorMethod op) (m.world.store.typeName a)) := by
    unfold Machine.resolve
    rw [Store.lookup_unbound hmethods]
  obtain ⟨n, hn, -⟩ := h.native
  unfold Exec.operator Exec.reads
  dsimp only
  rw [hresolve]
  cases htype : (m.world.store.typeName a).isEmpty with
  | true =>
    unfold Key.join
    rw [if_pos htype, hn]
  | false => rw [h.methods _ htype]

/-- The engine with its two operands copied and off the stack. -/
def Machine.comparing (m : Machine) (a b : Value) (rest : List Value) : Machine :=
  (m.leaving rest).withStore ((m.world.store.copy b).2.copy a).2

theorem Exec.applyOperator_found {m m' : Machine} {first callee : Value} {others : List Value}
    (h : Exec.operator op first m = .ok (some callee) m') :
    Exec.applyOperator op (first :: others) m = Exec.callValue callee (first :: others) m' := by
  unfold Exec.applyOperator
  dsimp only
  rw [Exec.bind_of_ok h]

/-- The instruction has the native called with the copies. -/
theorem Exec.step_equality (hlibrary : m.library.Compares op answer) {n : NativeInfo}
    (hn : m.library.resolve (Key.operatorMethod op) = some (.native n))
    (hstack : m.Stacks (.number (Number.ofNat 2) :: b :: a :: rest)) (ha : m.world.store.Has a)
    (hmethods : ∀ f fr, m.world.store.frame? f = some fr →
      fr.vars.get? (Key.join (Key.operatorMethod op) (m.world.store.typeName a)) = none) :
    Exec.step (.dispatch op) m =
      .ok (.call (.native n) [((m.world.store.copy b).2.copy a).1, (m.world.store.copy b).1])
        (m.comparing a b rest) := by
  have hframes : (m.comparing a b rest).world.store.frames = m.world.store.frames :=
    (Exec.copy_frames _ a).trans (Exec.copy_frames _ b)
  have htype : (m.comparing a b rest).world.store.typeName ((m.world.store.copy b).2.copy a).1 =
      m.world.store.typeName a :=
    (Store.typeName_copy (ha.mono (.copy _ b))).trans (Store.typeName_of_copy ha)
  have hoperator : Exec.operator op ((m.world.store.copy b).2.copy a).1 (m.comparing a b rest) =
      .ok (some (.native n)) (m.comparing a b rest) := by
    rw [← hn]
    refine Library.Compares.operator (m := m.comparing a b rest) hlibrary fun f fr hf => ?_
    rw [htype]
    refine hmethods f fr ?_
    unfold Store.frame? at hf ⊢
    rw [← hframes]
    exact hf
  rw [Exec.step_dispatch (n := 2) (l := [b, a]) (by decide) rfl hstack]
  show ((Exec.copy b >>= fun b' => Exec.copy a >>= fun a' => pure [a', b']) >>= _) _ = _
  rw [Exec.bind_assoc, Exec.bind_of_ok (Exec.copy_eq _ b), Exec.bind_assoc,
    Exec.bind_of_ok (Exec.copy_eq _ a)]
  exact Exec.applyOperator_found hoperator

/-- Operators for equality compare copies of their operands: three transitions push the answer, in
which no object equals any value, itself included. -/
theorem equality_compares_copies (hlibrary : m.library.Compares op answer)
    (hp : m.program = some p) (hip : m.ip = i) (hi : i < p.size)
    (hop : m.ops[i]? = some (.dispatch op))
    (hstack : m.Stacks (.number (Number.ofNat 2) :: b :: a :: rest))
    (ha : m.world.store.Has a) (hb : m.world.store.Has b)
    (hmethods : ∀ f fr, m.world.store.frame? f = some fr →
      fr.vars.get? (Key.join (Key.operatorMethod op) (m.world.store.typeName a)) = none)
    (hnatives : m.natives.size < nativeLimit) (pending : List Pending) :
    ∃ m', State.steps 3 ⟨m, pending, .running⟩ = some ⟨m', pending, .running⟩ ∧ m'.ip = m.ip + 1 ∧
      m'.Stacks (.boolean (answer (!a.isHandle && a.equal b)) :: rest) := by
  obtain ⟨n, hn, harity, hbehaviour⟩ := hlibrary.native
  obtain ⟨j, hexecute⟩ := State.execute_eq hp hip hi hop pending
  obtain ⟨m₂, hm₂⟩ : ∃ m₂, m₂ = (m.withJournal j).comparing a b rest := ⟨_, rfl⟩
  have hstep := Exec.step_equality (m := m.withJournal j) hlibrary hn ⟨hstack.backed, hstack.items⟩
    ha hmethods
  rw [← hm₂] at hstep
  have hrest : m₂.Stacks rest := by
    rw [hm₂]
    exact Machine.Stacks.withStore (Machine.Stacks.leaving (m := m.withJournal j)
      (l := [.number (Number.ofNat 2), b, a]) ⟨hstack.backed, hstack.items⟩) _
  have hexecuted : State.advance ⟨m, pending, .running⟩ =
      .next ⟨m₂, .instruction :: pending, .invoking (.native n)
        [((m.world.store.copy b).2.copy a).1, (m.world.store.copy b).1]⟩ := by
    show State.execute m pending = _
    rw [hexecute]
    exact congrArg (State.after pending) hstep
  have hstarted : State.advance ⟨m₂, .instruction :: pending, .invoking (.native n)
      [((m.world.store.copy b).2.copy a).1, (m.world.store.copy b).1]⟩ =
      .next ⟨m₂, .instruction :: pending,
        .delivering (.ok (.boolean (answer (!a.isHandle && a.equal b))))⟩ := by
    have hlimit : ¬ nativeLimit ≤ m₂.natives.size := by
      rw [hm₂]
      exact Nat.not_le_of_lt hnatives
    rw [show m.library = m₂.library by rw [hm₂]; rfl] at hbehaviour
    show State.startNative m₂ (.instruction :: pending) n none _ = _
    unfold State.startNative State.enterNative State.handOver
    simp only [harity, Exec.withReceiver, List.length_cons, List.length_nil, Nat.reduceAdd,
      bne_self_eq_false, Bool.false_eq_true, if_false, hlimit, hbehaviour, State.follow,
      Array.pop_push, Store.equal_copies ha hb, Option.getD_some]
    rfl
  refine ⟨{ m₂ with
    stack := m₂.stack.push (.boolean (answer (!a.isHandle && a.equal b))), ip := m₂.ip + 1 }, ?_, ?_,
    ?_⟩
  · unfold State.steps
    simp only [hexecuted]
    unfold State.steps
    simp only [hstarted]
    rfl
  · rw [hm₂]
    rfl
  · have hpushed := hrest.push (.boolean (answer (!a.isHandle && a.equal b)))
    exact ⟨hpushed.backed, hpushed.items⟩

end

/-!
# The library of the language
-/

/-- The last bytes of a method's key. -/
def Key.methodEnd (name : Text) : List UInt8 :=
  (Key.separator ++ name).toList

/-- A name without methods in a library is not found for any type. -/
theorem Library.resolve_method {l : Library} {name type : Text} (htype : type.isEmpty = false)
    (h : l.bindings.keys.all fun k => !(Key.methodEnd name).isSuffixOf k.toList) :
    l.resolve (Key.join name type) = none := by
  cases hv : l.resolve (Key.join name type) with
  | none => rfl
  | some v =>
    have hmem : Key.join name type ∈ l.bindings.keys :=
      List.mem_map.mpr ⟨_, Table.mem_of_lookup hv, rfl⟩
    have hends : (Key.methodEnd name).isSuffixOf (Key.join name type).toList = true := by
      refine List.isSuffixOf_iff_suffix.mpr ⟨type.toList, ?_⟩
      unfold Key.join Key.methodEnd
      rw [if_neg (by rw [htype]; exact Bool.false_ne_true), Text.toList_append, Text.toList_append,
        Text.toList_append, List.append_assoc]
    have hkept := List.all_eq_true.mp h _ hmem
    rw [hends] at hkept
    cases hkept

theorem Library.standard_compares_eq : Library.standard.Compares "==" id where
  native := ⟨⟨"eq", some 2, 9⟩, Library.standard_native rfl, rfl, fun a b w => rfl⟩
  methods type htype := Library.resolve_method htype (by decide)

theorem Library.standard_compares_neq : Library.standard.Compares "!=" not where
  native := ⟨⟨"neq", some 2, 10⟩, Library.standard_native rfl, rfl, fun a b w => rfl⟩
  methods type htype := Library.resolve_method htype (by decide)

/-- A new engine with the natives of the language. -/
def standardEngine : Machine :=
  .new ⟨.empty, .new Text.empty, .new false⟩ .standard (.ofHost false false Text.empty 0)

/-- An engine in front of the instruction that compares a list with itself. -/
def comparingEngine : Machine :=
  { standardEngine.withStore (Store.empty.newList #[]).2 with
    program := some ⟨#[.withText .dispatch "=="], []⟩
    ops := #[.dispatch "=="]
    stack := ⟨#[.list 0, .list 0, .number (Number.ofNat 2)], 3⟩ }

theorem equality_compares_copies_list :
    ∃ m', State.steps 3 ⟨comparingEngine, [], .running⟩ = some ⟨m', [], .running⟩ ∧ m'.ip = 1 ∧
      m'.Stacks [.boolean false] := by
  obtain ⟨m', hsteps, hip, hstack⟩ := equality_compares_copies (m := comparingEngine) (i := 0)
    (a := .list 0) (b := .list 0) Library.standard_compares_eq rfl rfl (by decide) rfl
    ⟨Nat.le_refl 3, rfl⟩ Nat.zero_lt_one Nat.zero_lt_one (fun f fr hf => by cases hf) (by decide) []
  exact ⟨m', hsteps, hip, hstack⟩

/-!
# A list that differs from itself
-/

/-- The program `x = [1]; return x == x`. -/
def selfComparison : List Stmt :=
  [.expr .zero (.assign .zero (.var .zero "x") (.list .zero [.number .zero 1]) .inner),
    .ret .zero (some (.binary .zero "==" (.var .zero "x") (.var .zero "x")))]

/-- The program ends with the answer that the list is not equal to itself. -/
theorem list_differs_from_itself :
    ∃ c, (Compiler.compile .absent false selfComparison).result = .ok c ∧
      ((standardEngine.execute 40 c.program).map fun e => match e.1 with
        | .value (.boolean b) => some b
        | _ => none) = some (some false) :=
  ⟨_, rfl, by decide +kernel⟩

end ScriptEngine
