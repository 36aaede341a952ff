import ScriptEngine.Proofs.Machine.Blindness
import ScriptEngine.Proofs.Machine.Executions
import ScriptEngine.Proofs.Machine.Runs
import ScriptEngine.Proofs.Store.Copies

/-!
# Straight code

Code without jumps and calls is executed from its beginning to its end. What it does is described by
where the engine stands: the place in the program, the operands and the store. All else is as it was.
-/

namespace ScriptEngine

/-- The engine at some place, with some operands and some store. Slots that are not in use may hold
anything, and the journal may have been told something. -/
inductive Machine.At (m : Machine) (ip : Nat) (operands : List Value) (s : Store) : Machine → Prop
  | mk {st : OperandStack} {j : Journal} (hbacked : st.Backed) (hitems : st.items = operands) :
    At m ip operands s { ((m.withStore s).withStack st).withJournal j with ip := (ip : Int) }

/-- The engine executes the instructions from one position up to another one, one after the other. -/
inductive State.Walks : Nat → Nat → State → State → Prop
  | refl (i : Nat) (s : State) : Walks i i s s
  | step {i j : Nat} {m m' : Machine} {pending : List Pending} {s : State} (hip : m.ip = i)
    (hnext : State.advance ⟨m, pending, .running⟩ = .next ⟨m', pending, .running⟩)
    (hcalls : m'.calls = m.calls) (h : Walks (i + 1) j ⟨m', pending, .running⟩ s) :
    Walks i j ⟨m, pending, .running⟩ s

/-- From one place the engine comes to another one. -/
def Machine.Passes (m : Machine) (ip : Nat) (l : List Value) (s : Store) (ip' : Nat) (l' : List Value)
    (s' : Store) : Prop :=
  ∀ pending m₁, m.At ip l s m₁ → ∃ m₂, m.At ip' l' s' m₂ ∧
    State.Walks ip ip' ⟨m₁, pending, .running⟩ ⟨m₂, pending, .running⟩

/-- From the place the engine comes to a fault, with the store in the end. -/
def Machine.Breaks (m : Machine) (ip : Nat) (l : List Value) (s : Store) (f : Fault) (ip' : Nat)
    (s' : Store) : Prop :=
  ∀ pending m₁, m.At ip l s m₁ → ∃ m₂ l', m.At ip' l' s' m₂ ∧
    State.Leads ⟨m₁, pending, .running⟩ ⟨m₂, pending, .delivering (.error (m₂.locate f))⟩

namespace State.Walks

variable {i j k : Nat} {s s' s'' : State}

theorem trans (h : Walks i j s s') (h' : Walks j k s' s'') : Walks i k s s'' := by
  induction h with
  | refl => exact h'
  | step hip hnext hcalls _ ih => exact .step hip hnext hcalls (ih h')

theorem le (h : Walks i j s s') : i ≤ j := by
  induction h with
  | refl => exact Nat.le_refl _
  | step _ _ _ _ ih => exact Nat.le_of_succ_le ih

theorem leads (h : Walks i j s s') : s.Leads s' := by
  induction h with
  | refl => exact .refl
  | step _ hnext _ _ ih => exact .cons hnext ih

end State.Walks

namespace Op

/-- Instructions inside a program that was decoded spell the operations that they stand for. -/
theorem spelled_of_code {p : Program} {ops : Array Op} (hops : ofProgram p = ⟨ops, none⟩)
    {before code behind : List Instruction} {l : List Op}
    (hcode : p.code.toList = before ++ (code ++ behind))
    (hl : List.Forall₂ Instruction.Reads code l) : Spelled ops before.length l := by
  obtain ⟨-, -, hreads⟩ := decodeAll_reads hops
  intro k op hk
  have hlt : k < code.length := by
    rw [hl.length_eq]
    exact (List.getElem?_eq_some_iff.mp hk).1
  have hins : p.code.toList[before.length + k]? = some code[k] := by
    rw [hcode, List.getElem?_append_right (Nat.le_add_right _ _), Nat.add_sub_cancel_left,
      List.getElem?_append_left hlt, List.getElem?_eq_getElem hlt]
  obtain ⟨op', hop', hread'⟩ := hreads _ _ hins
  have hread : code[k].Reads op := by
    have hlt' : k < l.length := (List.getElem?_eq_some_iff.mp hk).1
    rw [← (List.getElem?_eq_some_iff.mp hk).2]
    exact hl.get hlt hlt'
  rw [Array.size_empty, Nat.zero_add] at hop'
  rw [hop', Option.some.inj (hread'.symm.trans hread)]

end Op

/-- What attaching a method to a receiver gives, and makes of the store. -/
def Store.attachTo (s : Store) (method receiver : Value) : Value × Store :=
  match method with
  | .closure c => s.attach c receiver
  | .native n | .bound n _ => (.bound n receiver, s)
  | v => (v, s)

/-- An assignment in the scope binds the name in the frame itself. -/
def Scope.Stays (scope : Scope) (s : Store) (f : FrameId) (name : Text) : Prop :=
  scope = .inner ∨ scope = .nearest ∧ s.Binds f name

namespace Exec

theorem nameClosure_eq (v : Value) (name : Text) (m : Machine) :
    nameClosure v name m = .ok () (m.withStore (m.world.store.nameValue v name)) := by
  cases v <;> rfl

theorem bindName_eq {m : Machine} {g : FrameId} {scope : Scope} (hframe : m.frame = some g) (name : Text)
    (v : Value) (hscope : scope.Stays m.world.store g name) :
    bindName scope name v m = .ok () (m.withStore (m.world.store.define g name v)) := by
  show (reads (·.frame) >>= _) m = _
  rw [bind_of_ok (show reads (·.frame) m = .ok (some g) m by rw [← hframe]; rfl)]
  rcases hscope with rfl | ⟨rfl, hbinds⟩
  · rfl
  · obtain ⟨w, hw⟩ := hbinds.var
    have hsame : m.world.store.setNearest g name v = m.world.store.define g name v := by
      unfold Store.setNearest
      rw [Store.lookup_of_var hw]
    rw [← hsame]
    rfl

end Exec

section
variable {m m₁ : Machine} {p : Program} {i : Nat} {op : Op} {l l' : List Value} {s s' s'' : Store}
  {f : Fault} {v : Value}

namespace Machine

theorem At.self (h : m.Stacks l) (hip : m.ip = i) : m.At i l m.world.store m := by
  have hself : m.At i l m.world.store { m with ip := (i : Int) } :=
    At.mk (s := m.world.store) (j := m.world.journal) h.backed h.items
  rw [← hip] at hself
  exact hself

namespace At

variable {ip : Nat}

theorem operands (h : m.At ip l s m₁) : m₁.Stacks l := by
  cases h with
  | mk hbacked hitems => exact ⟨hbacked, hitems⟩

theorem ip_eq (h : m.At ip l s m₁) : m₁.ip = ip := by
  cases h with
  | mk => rfl

theorem store (h : m.At ip l s m₁) : m₁.world.store = s := by
  cases h with
  | mk => rfl

theorem program (h : m.At ip l s m₁) : m₁.program = m.program := by
  cases h with
  | mk => rfl

theorem ops (h : m.At ip l s m₁) : m₁.ops = m.ops := by
  cases h with
  | mk => rfl

theorem frame (h : m.At ip l s m₁) : m₁.frame = m.frame := by
  cases h with
  | mk => rfl

theorem root (h : m.At ip l s m₁) : m₁.root = m.root := by
  cases h with
  | mk => rfl

theorem calls (h : m.At ip l s m₁) : m₁.calls = m.calls := by
  cases h with
  | mk => rfl

theorem library (h : m.At ip l s m₁) : m₁.library = m.library := by
  cases h with
  | mk => rfl

theorem natives (h : m.At ip l s m₁) : m₁.natives = m.natives := by
  cases h with
  | mk => rfl

theorem trans {m₂ : Machine} {ip' : Nat} (h : m.At ip l s m₁) (h' : m₁.At ip' l' s' m₂) :
    m.At ip' l' s' m₂ := by
  cases h with
  | mk =>
    cases h' with
    | mk hbacked hitems => exact .mk hbacked hitems

theorem resolve (h : m.At ip l s m₁) (name : Text) : m₁.resolve name = (m.withStore s).resolve name := by
  cases h with
  | mk => rfl

theorem withJournal (h : m.At ip l s m₁) (j : Journal) : m.At ip l s (m₁.withJournal j) := by
  cases h with
  | mk hbacked hitems => exact .mk hbacked hitems

theorem moved (h : m.At ip l s m₁) (ip' : Nat) : m.At ip' l s { m₁ with ip := (ip' : Int) } := by
  cases h with
  | mk hbacked hitems => exact .mk hbacked hitems

theorem withStore (h : m.At ip l s m₁) (s' : Store) : m.At ip l s' (m₁.withStore s') := by
  cases h with
  | mk hbacked hitems => exact .mk hbacked hitems

theorem push (h : m.At ip l s m₁) (v : Value) :
    m.At ip (v :: l) s (m₁.withStack (m₁.stack.push v)) := by
  have hpushed := h.operands.push v
  cases h with
  | mk => exact .mk hpushed.backed hpushed.items

theorem leaving (h : m.At ip (l ++ l') s m₁) : m.At ip l' s (m₁.leaving l') := by
  have hleft := h.operands.leaving
  cases h with
  | mk => exact .mk hleft.backed hleft.items

end At

theorem Passes.refl {ip : Nat} : m.Passes ip l s ip l s :=
  fun _ m₁ h => ⟨m₁, h, .refl _ _⟩

theorem Passes.trans {ip ip' ip'' : Nat} {l'' : List Value} (h : m.Passes ip l s ip' l' s')
    (h' : m.Passes ip' l' s' ip'' l'' s'') : m.Passes ip l s ip'' l'' s'' := by
  intro pending m₁ hm₁
  obtain ⟨m₂, hm₂, hwalks⟩ := h pending m₁ hm₁
  obtain ⟨m₃, hm₃, hwalks'⟩ := h' pending m₂ hm₂
  exact ⟨m₃, hm₃, hwalks.trans hwalks'⟩

theorem Passes.breaks {ip ip' ip'' : Nat} (h : m.Passes ip l s ip' l' s')
    (h' : m.Breaks ip' l' s' f ip'' s'') : m.Breaks ip l s f ip'' s'' := by
  intro pending m₁ hm₁
  obtain ⟨m₂, hm₂, hwalks⟩ := h pending m₁ hm₁
  obtain ⟨m₃, l'', hm₃, hleads⟩ := h' pending m₂ hm₂
  exact ⟨m₃, l'', hm₃, hwalks.leads.trans hleads⟩

/-- An instruction that goes on with the next one. -/
theorem passes_step (hp : m.program = some p) (hi : i < p.size) (hop : m.ops[i]? = some op)
    (hstep : ∀ m₁, m.At i l s m₁ → ∃ m₂, Exec.step op m₁ = .ok .next m₂ ∧ m.At i l' s' m₂) :
    m.Passes i l s (i + 1) l' s' := by
  intro pending m₁ hm₁
  obtain ⟨j, hexecute⟩ := State.execute_eq (hm₁.program.trans hp) hm₁.ip_eq hi (hm₁.ops ▸ hop) pending
  obtain ⟨m₂, hm₂, hat⟩ := hstep _ (hm₁.withJournal j)
  rw [hm₂] at hexecute
  refine ⟨{ m₂ with ip := m₂.ip + 1 }, ?_,
    .step hm₁.ip_eq hexecute (hat.calls.trans hm₁.calls.symm) (.refl _ _)⟩
  rw [hat.ip_eq]
  exact hat.moved (i + 1)

/-- An instruction that raises a fault. -/
theorem breaks_step (hp : m.program = some p) (hi : i < p.size) (hop : m.ops[i]? = some op)
    (hstep : ∀ m₁, m.At i l s m₁ → ∃ m₂, Exec.step op m₁ = .error (.fault f) m₂ ∧ m.At i l' s' m₂) :
    m.Breaks i l s f i s' := by
  intro pending m₁ hm₁
  obtain ⟨j, hexecute⟩ := State.execute_eq (hm₁.program.trans hp) hm₁.ip_eq hi (hm₁.ops ▸ hop) pending
  obtain ⟨m₂, hm₂, hat⟩ := hstep _ (hm₁.withJournal j)
  rw [hm₂] at hexecute
  exact ⟨m₂, l', hat, .step .refl hexecute⟩

/-!
# Instructions
-/

section
variable (hp : m.program = some p) (hi : i < p.size)
include hp hi

theorem passes_push (hop : m.ops[i]? = some (.push v)) : m.Passes i l s (i + 1) (v :: l) s :=
  passes_step hp hi hop fun _ hm₁ => ⟨_, rfl, hm₁.push v⟩

theorem passes_pop (hop : m.ops[i]? = some .pop) : m.Passes i (v :: l) s (i + 1) l s :=
  passes_step hp hi hop fun m₁ hm₁ => ⟨m₁.leaving l, Exec.step_pop hm₁.operands, hm₁.leaving (l := [v])⟩

theorem passes_getVar {name : Text} (hop : m.ops[i]? = some (.getVar name))
    (hv : (m.withStore s).resolve name = some v) : m.Passes i l s (i + 1) (v :: l) s := by
  refine passes_step hp hi hop fun m₁ hm₁ => ⟨_, ?_, hm₁.push v⟩
  have hvalue : Exec.valueOf name m₁ = .ok v m₁ := by
    show (Exec.reads (fun m => m.resolve name) >>= _) m₁ = _
    rw [Exec.bind_of_ok (show Exec.reads (fun m => m.resolve name) m₁ = .ok (some v) m₁ by
      rw [← hv, ← hm₁.resolve]
      rfl)]
    rfl
  rw [Exec.step_getVar]
  unfold Exec.result
  rw [Exec.bind_of_ok hvalue]
  rfl

theorem breaks_getVar {name : Text} (hop : m.ops[i]? = some (.getVar name))
    (hv : (m.withStore s).resolve name = none) :
    m.Breaks i l s (.raised .unbound (Exec.unbound name)) i s := by
  refine @breaks_step m p i (.getVar name) l l s s _ hp hi hop fun m₁ hm₁ => ⟨m₁, ?_, hm₁⟩
  have hvalue : Exec.valueOf name m₁ = .error (.fault (.raised .unbound (Exec.unbound name))) m₁ := by
    show (Exec.reads (fun m => m.resolve name) >>= _) m₁ = _
    rw [Exec.bind_of_ok (show Exec.reads (fun m => m.resolve name) m₁ = .ok none m₁ by
      rw [← hv, ← hm₁.resolve]
      rfl)]
    rfl
  rw [Exec.step_getVar]
  exact Exec.bind_of_error hvalue

/-- A dict without entries. -/
theorem passes_buildDict (hop : m.ops[i]? = some .buildDict) :
    m.Passes i (.number (Number.ofNat 0) :: l) s (i + 1) (.dict (s.newDict Table.empty).1 :: l)
      (s.newDict Table.empty).2 := by
  refine passes_step hp hi hop fun m₁ hm₁ => ?_
  have hleft : m.At i l s (m₁.leaving l) := hm₁.leaving (l := [.number (Number.ofNat 0)])
  refine ⟨_, ?_, (hleft.withStore (s.newDict Table.empty).2).push _⟩
  have hcount : Exec.popCount m₁ = .ok ((0 : Nat) : Int) (m₁.leaving l) :=
    Exec.popCount_eq (Nat.zero_le _) hm₁.operands
  show (Exec.popCount >>= _) m₁ = _
  rw [Exec.bind_of_ok hcount, ← hleft.store]
  rfl

/-- A member that is there. -/
theorem passes_getMember {object key : Value} (hop : m.ops[i]? = some .getMember)
    (hmember : ∀ m₁, m₁.world.store = s → m₁.resolve = (m.withStore s).resolve →
      Exec.member object key m₁ = .ok v (m₁.withStore s')) :
    m.Passes i (key :: object :: l) s (i + 1) (v :: l) s' := by
  refine passes_step hp hi hop fun m₁ hm₁ => ?_
  have hleft : m.At i l s (m₁.leaving l) := hm₁.leaving (l := [key, object])
  refine ⟨_, ?_, (hleft.withStore s').push v⟩
  rw [Exec.step_getMember hm₁.operands]
  unfold Exec.result
  rw [Exec.bind_of_ok (hmember _ hleft.store (funext hleft.resolve))]
  rfl

theorem breaks_getMember {object key : Value} (hop : m.ops[i]? = some .getMember)
    (hmember : ∀ m₁, m₁.world.store = s → m₁.resolve = (m.withStore s).resolve →
      Exec.member object key m₁ = .error (.fault f) m₁) :
    m.Breaks i (key :: object :: l) s f i s := by
  have hstep : ∀ m₁, m.At i (key :: object :: l) s m₁ →
      ∃ m₂, Exec.step .getMember m₁ = .error (.fault f) m₂ ∧ m.At i l s m₂ := by
    intro m₁ hm₁
    have hleft : m.At i l s (m₁.leaving l) := hm₁.leaving (l := [key, object])
    refine ⟨_, ?_, hleft⟩
    rw [Exec.step_getMember hm₁.operands]
    unfold Exec.result
    rw [Exec.bind_of_error (hmember _ hleft.store (funext hleft.resolve))]
  exact breaks_step hp hi hop hstep

/-- A name is bound in the current scope. -/
theorem passes_assign {name : Text} {g : FrameId} {scope : Scope} (hop : m.ops[i]? = some (.assign scope))
    (hframe : m.frame = some g) (hscope : scope.Stays s g name) :
    m.Passes i (.text name :: .empty :: v :: l) s (i + 1) ((s.copy v).1 :: l)
      (s.bindCopy g name v) := by
  refine passes_step hp hi hop fun m₁ hm₁ => ?_
  have hleft : m.At i l s (m₁.leaving l) := hm₁.leaving (l := [.text name, .empty, v])
  refine ⟨_, ?_, (hleft.withStore (s.bindCopy g name v)).push (s.copy v).1⟩
  rw [Exec.step_assign hm₁.operands]
  unfold Exec.result
  have hplace : Exec.place scope (.text name) .empty v (m₁.leaving l) =
      .ok (s.copy v).1 ((m₁.leaving l).withStore (s.bindCopy g name v)) := by
    unfold Exec.place
    rw [Exec.bind_of_ok (Exec.copy_eq _ v), hleft.store]
    show (Exec.nameClosure (s.copy v).1 name >>= fun _ =>
      Exec.bindName scope name (s.copy v).1 >>= fun _ => pure (s.copy v).1) _ = _
    rw [Exec.bind_of_ok (Exec.nameClosure_eq _ name _)]
    have hnamed : (((m₁.leaving l).withStore (s.copy v).2).withStore
        ((s.copy v).2.nameValue (s.copy v).1 name)).frame = some g := hleft.frame.trans hframe
    refine Exec.bind_of_ok (Exec.bindName_eq hnamed name (s.copy v).1 (hscope.imp_right (And.imp_right ?_)))
    show s.Binds g name → Store.Binds ((s.copy v).2.nameValue (s.copy v).1 name) g name
    unfold Store.Binds
    rw [Store.frame?_nameValue, Store.frame?_of_frames (Exec.copy_frames s v)]
    exact id
  rw [Exec.bind_of_ok hplace]
  rfl

theorem passes_assignInner {name : Text} {g : FrameId} (hop : m.ops[i]? = some (.assign .inner))
    (hframe : m.frame = some g) :
    m.Passes i (.text name :: .empty :: v :: l) s (i + 1) ((s.copy v).1 :: l) (s.bindCopy g name v) :=
  passes_assign hp hi hop hframe (.inl rfl)

/-- An entry of a dict is written. -/
theorem passes_assignMember {scope : Scope} {d : DictId} {key : Text}
    (hop : m.ops[i]? = some (.assign scope)) :
    m.Passes i (.text key :: .dict d :: v :: l) s (i + 1) ((s.copy v).1 :: l)
      ((s.copy v).2.modifyDict d (·.insert key (s.copy v).1)) := by
  refine passes_step hp hi hop fun m₁ hm₁ => ?_
  have hleft : m.At i l s (m₁.leaving l) := hm₁.leaving (l := [.text key, .dict d, v])
  refine ⟨_, ?_, (hleft.withStore ((s.copy v).2.modifyDict d (·.insert key (s.copy v).1))).push
    (s.copy v).1⟩
  rw [Exec.step_assign hm₁.operands]
  unfold Exec.result
  have hplace : Exec.place scope (.text key) (.dict d) v (m₁.leaving l) =
      .ok (s.copy v).1
        ((m₁.leaving l).withStore ((s.copy v).2.modifyDict d (·.insert key (s.copy v).1))) := by
    unfold Exec.place
    rw [Exec.bind_of_ok (Exec.copy_eq _ v), hleft.store]
    rfl
  rw [Exec.bind_of_ok hplace]
  rfl

end
end Machine

/-!
# Members of dicts
-/

theorem Exec.bind_eq (method receiver : Value) (m : Machine) :
    Exec.bind method receiver m = .ok (m.world.store.attachTo method receiver).1
      (m.withStore (m.world.store.attachTo method receiver).2) := by
  cases method with
  | closure c =>
    rfl
  | _ => rfl

theorem Exec.member_entry {d : DictId} {k : Text} (h : (m.world.store.dict d).get? k = some v) :
    Exec.member (.dict d) (.text k) m = .ok v m := by
  show (Exec.reads (fun m => (m.world.store.dict d).get? k) >>= _) m = _
  rw [Exec.bind_of_ok (show Exec.reads (fun m => (m.world.store.dict d).get? k) m = .ok (some v) m by
    rw [← h]; rfl)]
  rfl

theorem Exec.ownMember_dict (d : DictId) (k : Text) (m : Machine) :
    Exec.ownMember (.dict d) (.text k) m = .ok ((m.world.store.dict d).get? k) m :=
  rfl

/-- A value without a member of its own gives the method that its type has under the name, attached to it. -/
theorem Exec.member_method {object method : Value} {k : Text} (hown : Exec.ownMember object (.text k) m = .ok none m)
    (hmethod : m.resolve (Key.join k (m.world.store.typeName object)) = some method) :
    Exec.member object (.text k) m = .ok (m.world.store.attachTo method object).1
      (m.withStore (m.world.store.attachTo method object).2) := by
  have hfound : Exec.method object (.text k) m = .ok (some (m.world.store.attachTo method object).1)
      (m.withStore (m.world.store.attachTo method object).2) := by
    show (Exec.reads (fun m => m.resolve (Key.join k (m.world.store.typeName object))) >>= _) m = _
    rw [Exec.bind_of_ok (show Exec.reads (fun m => m.resolve (Key.join k (m.world.store.typeName object))) m =
      .ok (some method) m by rw [← hmethod]; rfl)]
    show (Exec.bind method object >>= _) m = _
    rw [Exec.bind_of_ok (Exec.bind_eq method object m)]
    rfl
  unfold Exec.member
  rw [Exec.bind_of_ok hown]
  dsimp only
  rw [Exec.bind_of_ok hfound]
  rfl

/-- What is said about a key that a dict has neither as an entry nor as a method. -/
def Exec.noSuchKey (k : Text) : Fault :=
  .raised .notFound ("key " ++ k.quoted ++ " not found in " ++ "Dict")

theorem Exec.member_missing {d : DictId} {k : Text} (h : (m.world.store.dict d).get? k = none)
    (hmethod : m.resolve (Key.join k "Dict") = none) :
    Exec.member (.dict d) (.text k) m = .error (.fault (Exec.noSuchKey k)) m := by
  have hnone : Exec.method (.dict d) (.text k) m = .ok none m := by
    show (Exec.reads (fun m => m.resolve (Key.join k "Dict")) >>= _) m = _
    rw [Exec.bind_of_ok (show Exec.reads (fun m => m.resolve (Key.join k "Dict")) m =
      .ok none m by rw [← hmethod]; rfl)]
    rfl
  show (Exec.reads (fun m => (m.world.store.dict d).get? k) >>= _) m = _
  rw [Exec.bind_of_ok (show Exec.reads (fun m => (m.world.store.dict d).get? k) m = .ok none m by
    rw [← h]; rfl)]
  show (Exec.method (.dict d) (.text k) >>= _) m = _
  rw [Exec.bind_of_ok hnone]
  rfl

end

/-!
# Whole programs
-/

theorem State.Leads.run {s s' : State} (h : s.Leads s') {n : Nat} {a : Advance}
    (hrun : State.run n s' = some a) : ∃ fuel, State.run fuel s = some a := by
  induction h generalizing n with
  | refl => exact ⟨n, hrun⟩
  | step _ hnext ih =>
    refine ih (n := n + 1) ?_
    unfold State.run
    rw [hnext]
    exact hrun

theorem State.run_unique {s : State} {n k : Nat} {a b : Advance} (ha : State.run n s = some a)
    (hb : State.run k s = some b) : a = b := by
  induction n generalizing k s with
  | zero => cases ha
  | succ n ih =>
    cases k with
    | zero => cases hb
    | succ k =>
      unfold State.run at ha hb
      cases hnext : s.advance with
      | next s' =>
        rw [hnext] at ha hb
        exact ih ha hb
      | finished | crashed =>
        rw [hnext] at ha hb
        exact Option.some.inj (ha.symm.trans hb)

/-- Executing the program ends, and leaves the engine behind. -/
def Machine.Ends (m : Machine) (p : Program) (e : Ending) (m' : Machine) : Prop :=
  ∃ fuel, m.execute fuel p = some (e, m')

/-- What an execution without natives leaves behind. -/
structure Machine.Leaves (m : Machine) (s : Store) (m' : Machine) : Prop where
  store : m'.world.store = s
  host : m'.world.host = m.world.host
  library : m'.library = m.library
  root : m'.root = some m.world.store.frames.size

namespace Machine

variable {m m₁ m₂ : Machine} {p : Program} {ops : Array Op} {i : Nat} {l : List Value} {s : Store}

theorem Ends.unique {e e' : Ending} (h : m.Ends p e m₁) (h' : m.Ends p e' m₂) : e = e' ∧ m₁ = m₂ := by
  obtain ⟨n, hn⟩ := h
  obtain ⟨k, hk⟩ := h'
  rw [execute_ending] at hn hk
  cases hflaw : (Op.ofProgram p).flaw with
  | some flaw =>
    rw [hflaw] at hn hk
    exact Prod.mk.inj (Option.some.inj (hn.symm.trans hk))
  | none =>
    rw [hflaw] at hn hk
    obtain ⟨a, ha, hea⟩ := Option.bind_eq_some_iff.mp hn
    obtain ⟨b, hb, heb⟩ := Option.bind_eq_some_iff.mp hk
    cases State.run_unique ha hb
    exact Prod.mk.inj (Option.some.inj (hea.symm.trans heb))

theorem loaded_at (m : Machine) (p : Program) :
    (m.loaded p).At 0 [] (m.loaded p).world.store (m.loaded p) := by
  obtain ⟨j, hj⟩ := m.loaded_eq p
  refine At.self ?_ ?_
  · rw [hj]
    exact ⟨OperandStack.backed_cut_zero, rfl⟩
  · rw [hj]
    rfl

theorem At.leaves (h : (m.loaded p).At i l s m₁) : m.Leaves s m₁ := by
  obtain ⟨j, hj⟩ := m.loaded_eq p
  rw [hj] at h
  cases h with
  | mk => exact ⟨rfl, rfl, rfl, rfl⟩

theorem Leaves.tell (h : m.Leaves s m₁) (level : Level) (text : Machine → Text) :
    m.Leaves s (m₁.tell level text) := by
  obtain ⟨j, hj⟩ := m₁.tell_eq level text
  rw [hj]
  exact ⟨h.store, h.host, h.library, h.root⟩

/-- Code that leads to the end of the program. -/
theorem Passes.ends (hops : Op.ofProgram p = ⟨ops, none⟩)
    (h : (m.loaded p).Passes 0 [] (m.loaded p).world.store p.size l s) :
    ∃ m', m.Ends p (.value .null) m' ∧ m.Leaves s m' := by
  obtain ⟨m₁, hat, hwalks⟩ := h [] _ (m.loaded_at p)
  have hprogram : m₁.program = some p ∧ m₁.calls = #[] := by
    obtain ⟨j, hj⟩ := m.loaded_eq p
    rw [hj] at hat
    cases hat with
    | mk => exact ⟨rfl, rfl⟩
  have hlast : State.run 2 ⟨m₁, [], .running⟩ = some (.finished (.ok .null) m₁) := by
    unfold State.run State.advance State.execute
    simp only [hprogram.1, hat.ip_eq, Int.le_refl, if_true, hprogram.2]
    rfl
  obtain ⟨fuel, hrun⟩ := hwalks.leads.run hlast
  have hends : m.execute fuel p = some (m₁.endWell .null) := by
    rw [execute_eq hops, show State.run fuel (m.start p) = _ from hrun]
  exact ⟨_, ⟨fuel, hends⟩, hat.leaves.tell .debug _⟩

/-- Code that comes to a fault. -/
theorem Breaks.ends {failure : Failure} {message : Text} (hops : Op.ofProgram p = ⟨ops, none⟩)
    (h : (m.loaded p).Breaks 0 [] (m.loaded p).world.store (.raised failure message) i s) :
    ∃ m' kind span trace, m.Ends p (.failed #[failure.problem kind span message] trace) m' ∧
      m.Leaves s m' := by
  obtain ⟨m₁, l', hat, hleads⟩ := h [] _ (m.loaded_at p)
  obtain ⟨kind, span, hproblem⟩ : ∃ kind span,
      m₁.problemAt m₁.ip failure message = failure.problem kind span message := by
    unfold problemAt
    split
    · exact ⟨_, _, rfl⟩
    · exact ⟨_, _, rfl⟩
  obtain ⟨fuel, hrun⟩ := hleads.run (n := 1) rfl
  have hends : m.execute fuel p =
      some (.failed #[m₁.problemAt m₁.ip failure message] (m₁.traceAt m₁.ip),
        m₁.tell .debug fun _ => "runtime problem: " ++ (m₁.problemAt m₁.ip failure message).text) := by
    rw [execute_eq hops, show State.run fuel (m.start p) = _ from hrun]
    rfl
  exact ⟨_, kind, span, m₁.traceAt m₁.ip, ⟨fuel, hproblem ▸ hends⟩, hat.leaves.tell .debug _⟩

end Machine
end ScriptEngine
