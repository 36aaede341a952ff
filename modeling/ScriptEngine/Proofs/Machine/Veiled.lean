import ScriptEngine.Proofs.Machine.Straight
import ScriptEngine.Proofs.Native.Conduct
import ScriptEngine.Proofs.Compiler.Naming

/-!
# Work that spares what is hidden

An engine is veiled if its store is and if no operand and no binding of its library is hidden. Work of
the engine leaves it veiled and spares what is hidden: it meets with no other values than those that it
takes from the operand stack and those that can be reached from there. An operation heeds a veil if it names
nothing hidden; where a name is bound, the marker below it tells it from a member of a value.
-/

namespace ScriptEngine

variable {V : Veil}

/-- No value that the engine may come across is hidden. -/
structure Machine.Veiled (V : Veil) (m : Machine) : Prop where
  store : m.world.store.Veiled V
  bindings : m.library.bindings.Every (m.world.store.Shows V)
  backed : m.stack.Backed
  operands : ∀ v ∈ m.stack.items, m.world.store.Shows V v

/-- The operation pushes no marker, does not find the hidden binding and builds no type without a name. -/
def Op.Heeds (V : Veil) (m : Machine) : Op → Prop
  | .push v => v.Constant
  | .getVar name | .bump name _ => V.Misses m.world.store m.frame name
  | .buildType name => name.isEmpty = false
  | _ => True

/-- A name may be assigned in the scope: this does not change the hidden binding. -/
def Machine.MayBind (V : Veil) (m : Machine) (scope : Scope) (name : Text) : Prop :=
  ∀ g, V.slot = some (g, name) → ∃ f, m.frame = some f ∧ f ≠ g ∧
    (scope = .inner ∨ scope = .nearest ∧ m.world.store.Binds f name)

/-- The second engine is veiled, and came out of the first one by work that spares what is hidden. -/
structure Machine.Spares (V : Veil) (m m' : Machine) : Prop where
  veiled : m'.Veiled V
  store : m.world.store.Spares V m'.world.store
  root : m'.root = m.root

theorem OperandStack.items_suffix {s : OperandStack} {n : Nat} (hs : s.Backed) (hn : n ≤ s.height) :
    (s.cut n).items <:+ s.items := by
  have hlen : n ≤ s.items.length := (length_items hs).symm ▸ hn
  have hparts : s.items = s.items.take (s.items.length - n) ++ s.items.drop (s.items.length - n) :=
    (List.take_append_drop _ _).symm
  have hcut := items_cut hs hparts
  rw [List.length_drop, Nat.sub_sub_self hlen] at hcut
  rw [hcut]
  exact List.drop_suffix _ _

namespace Machine

variable {m m' m'' : Machine} {v : Value}

theorem Veiled.refl (h : m.Veiled V) : m.Spares V m :=
  ⟨h, h.store.refl, rfl⟩

theorem Spares.trans (h : m.Spares V m') (h' : m'.Spares V m'') : m.Spares V m'' :=
  ⟨h'.veiled, h.store.trans h'.store, h'.root.trans h.root⟩

theorem Spares.shows (h : m.Spares V m') (hv : m.world.store.Shows V v) : m'.world.store.Shows V v :=
  h.store.shows hv

/-- An engine whose store has been worked on, and which differs otherwise in its place only or in what it
tells. -/
theorem Veiled.worked (h : m.Veiled V) (hstore : m.world.store.Spares V m'.world.store)
    (hlibrary : m'.library = m.library) (hstack : m'.stack = m.stack) (hroot : m'.root = m.root) :
    m.Spares V m' := by
  refine ⟨⟨hstore.veiled, ?_, ?_, ?_⟩, hstore, hroot⟩
  · rw [hlibrary]
    exact h.bindings.imp fun _ hv => hstore.shows hv
  · rw [hstack]
    exact h.backed
  · rw [hstack]
    exact fun v hv => hstore.shows (h.operands v hv)

theorem Veiled.withStore (h : m.Veiled V) {s : Store} (hs : m.world.store.Spares V s) :
    m.Spares V (m.withStore s) :=
  h.worked hs rfl rfl rfl

theorem Veiled.of_same (h : m.Veiled V) (hstore : m'.world.store = m.world.store)
    (hlibrary : m'.library = m.library) (hstack : m'.stack = m.stack) (hroot : m'.root = m.root) :
    m.Spares V m' :=
  h.worked (hstore ▸ h.store.refl) hlibrary hstack hroot

theorem Veiled.push (h : m.Veiled V) (hv : m.world.store.Shows V v) :
    m.Spares V (m.withStack (m.stack.push v)) := by
  refine ⟨⟨h.store, h.bindings, OperandStack.backed_push h.backed v, fun w hw => ?_⟩, h.store.refl, rfl⟩
  have hw : w ∈ (m.stack.push v).items := hw
  rw [OperandStack.items_push h.backed] at hw
  rcases List.mem_cons.mp hw with rfl | hw
  · exact hv
  · exact h.operands w hw

/-- Operands may be dropped. -/
theorem Veiled.cut (h : m.Veiled V) {n : Nat} (hn : n ≤ m.stack.height) :
    m.Spares V (m.withStack (m.stack.cut n)) :=
  ⟨⟨h.store, h.bindings, OperandStack.backed_cut h.backed hn,
    fun v hv => h.operands v ((OperandStack.items_suffix h.backed hn).subset hv)⟩, h.store.refl, rfl⟩

theorem Veiled.tell (h : m.Veiled V) (level : Level) (text : Machine → Text) :
    m.Spares V (m.tell level text) := by
  obtain ⟨j, hj⟩ := m.tell_eq level text
  rw [hj]
  exact h.of_same rfl rfl rfl rfl

theorem Veiled.resolve (h : m.Veiled V) {name : Text} (hname : V.Misses m.world.store m.frame name)
    (hv : m.resolve name = some v) : m.world.store.Shows V v := by
  unfold Machine.resolve at hv
  split at hv
  · rename_i found owner hfound
    cases hv
    exact h.store.lookup hname hfound
  · exact h.bindings.get? hv

/-- Members of types are not found under the hidden name. -/
theorem Veiled.resolveMember (h : m.Veiled V) {name type : Text} (htype : type.isEmpty = false)
    (hv : m.resolve (Key.join name type) = some v) : m.world.store.Shows V v :=
  h.resolve (Veil.misses_of_ne (fun _ hslot => V.unjoined _ hslot name htype rfl) _ _) hv

theorem Veiled.resolveMethod (h : m.Veiled V) {object : Value} {name : Text}
    (hobject : m.world.store.Has object)
    (hv : m.resolve (Key.join name (m.world.store.typeName object)) = some v) :
    m.world.store.Shows V v :=
  h.resolveMember (h.store.typeName hobject) hv

/-- Only the frame and its bindings say whether a name may be assigned. -/
theorem MayBind.same {scope : Scope} {name : Text} (h : m.MayBind V scope name) (hframe : m'.frame = m.frame)
    (hframes : m'.world.store.frames = m.world.store.frames) : m'.MayBind V scope name := by
  intro g hg
  obtain ⟨f, hf, hne, hin⟩ := h g hg
  refine ⟨f, hframe.trans hf, hne, hin.imp_right (And.imp_right ?_)⟩
  unfold Store.Binds Store.frame?
  rw [hframes]
  exact id

theorem Veiled.entered {c : Closure} {args : List Value} (h : m.Veiled V)
    (hargs : ∀ v ∈ Exec.withReceiver c.receiver args, m.world.store.Shows V v) (reentry : Bool)
    (native : Text) : m.Spares V (m.entered c args reentry native) := by
  obtain ⟨j, hj⟩ := m.entered_eq c args reentry native
  have hvars : (m.callFrame c args native).vars.Every (m.world.store.Shows V) :=
    Table.Every.empty.insertAll fun e he => hargs e.2 (List.of_mem_zip he).2
  have hspares := h.withStore (h.store.newFrame hvars)
  rw [hj]
  exact hspares.trans (hspares.veiled.of_same rfl rfl rfl rfl)

end Machine

namespace Exec

/-- The work spares what is hidden, and its result has the property. -/
def Spares {α : Type} (V : Veil) (x : Exec α) (m : Machine) (P : α → Machine → Prop) : Prop :=
  match x m with
  | .ok a m' => m.Spares V m' ∧ P a m'
  | .error _ m' => m.Spares V m'

section
variable {α β : Type} {m : Machine} {v : Value}

namespace Spares

theorem bind {x : Exec α} {k : α → Exec β} {P : α → Machine → Prop} {Q : β → Machine → Prop}
    (hx : Spares V x m P) (hk : ∀ a m', m.Spares V m' → P a m' → Spares V (k a) m' Q) :
    Spares V (x >>= k) m Q := by
  unfold Spares at hx ⊢
  cases hrun : x m with
  | ok a m' =>
    rw [hrun] at hx
    rw [bind_of_ok hrun]
    have hnext := hk a m' hx.1 hx.2
    unfold Spares at hnext
    cases hrun' : k a m' with
    | ok b m'' =>
      rw [hrun'] at hnext
      exact ⟨hx.1.trans hnext.1, hnext.2⟩
    | error e m'' =>
      rw [hrun'] at hnext
      exact hx.1.trans hnext
  | error e m' =>
    rw [hrun] at hx
    rw [bind_of_error hrun]
    exact hx

theorem imp {x : Exec α} {P Q : α → Machine → Prop} (hx : Spares V x m P)
    (h : ∀ a m', m.Spares V m' → P a m' → Q a m') : Spares V x m Q := by
  unfold Spares at hx ⊢
  cases hrun : x m with
  | ok a m' =>
    rw [hrun] at hx
    exact ⟨hx.1, h a m' hx.1 hx.2⟩
  | error e m' =>
    rw [hrun] at hx
    exact hx

theorem pure {a : α} {P : α → Machine → Prop} (hm : m.Veiled V) (h : P a m) :
    Spares V (Pure.pure a) m P :=
  ⟨hm.refl, h⟩

theorem raise {f : Failure} {message : Text} {P : α → Machine → Prop} (hm : m.Veiled V) :
    Spares V (Exec.raise f message) m P :=
  hm.refl

theorem crash {message : Text} {P : α → Machine → Prop} (hm : m.Veiled V) :
    Spares V (Exec.crash message) m P :=
  hm.refl

/-- What is read off the machine is known. -/
theorem reads {f : Machine → α} {k : α → Exec β} {Q : β → Machine → Prop}
    (h : Spares V (k (f m)) m Q) : Spares V (Exec.reads f >>= k) m Q := by
  unfold Spares at h ⊢
  rw [bind_of_ok (show Exec.reads f m = .ok (f m) m from rfl)]
  exact h

theorem onStore {f : Store → α × Store} {P : α → Machine → Prop} (hm : m.Veiled V)
    (hs : m.world.store.Spares V (f m.world.store).2)
    (h : P (f m.world.store).1 (m.withStore (f m.world.store).2)) : Spares V (Exec.onStore f) m P :=
  ⟨hm.withStore hs, h⟩

theorem change {g : Machine → Machine} {P : Unit → Machine → Prop} (hg : m.Spares V (g m))
    (h : P () (g m)) : Spares V (modify g) m P :=
  ⟨hg, h⟩

end Spares

/-!
# Operands
-/

theorem spares_push (hm : m.Veiled V) (hv : m.world.store.Shows V v) :
    Spares V (push v) m fun _ _ => True :=
  .change (hm.push hv) trivial

/-- An operand is shown. -/
theorem shows_top (hm : m.Veiled V) (h : m.stack.top? = some v) :
    m.world.store.Shows V v ∧ ∃ rest, m.stack.items = v :: rest := by
  cases hitems : m.stack.items with
  | nil =>
    have hheight : m.stack.height = 0 := by
      rw [← OperandStack.length_items hm.backed, hitems]
      rfl
    unfold OperandStack.top? at h
    rw [hheight] at h
    cases h
  | cons w rest =>
    rw [OperandStack.top?_of_items hm.backed hitems] at h
    cases h
    exact ⟨hm.operands v (hitems ▸ List.mem_cons_self), rest, rfl⟩

theorem spares_top (hm : m.Veiled V) :
    Spares V top m fun v m' => m' = m ∧ m.world.store.Shows V v := by
  unfold Spares top
  cases hv : m.stack.top? with
  | none => exact hm.refl
  | some v => exact ⟨hm.refl, rfl, (shows_top hm hv).1⟩

theorem spares_pop (hm : m.Veiled V) :
    Spares V pop m fun v m' => m' = m.withStack m.stack.drop ∧ m.world.store.Shows V v := by
  unfold Spares pop
  cases hv : m.stack.top? with
  | none => exact hm.refl
  | some v => exact ⟨hm.cut (Nat.sub_le _ _), rfl, (shows_top hm hv).1⟩

/-- The same where only the operand is of interest. -/
theorem spares_popped (hm : m.Veiled V) :
    Spares V pop m fun v m' => m'.world.store.Shows V v := by
  refine (spares_pop hm).imp ?_
  rintro v m' - ⟨rfl, hv⟩
  exact hv

theorem spares_copy (hm : m.Veiled V) (hv : m.world.store.Shows V v) :
    Spares V (copy v) m fun a m' => m'.world.store.Shows V a := by
  unfold Spares
  rw [copy_eq]
  obtain ⟨hspares, hshows⟩ := hm.store.copy hv
  exact ⟨hm.withStore hspares, hshows⟩

theorem spares_raise_typeName {P : α → Machine → Prop} (hm : m.Veiled V) (v : Value) (f : Failure)
    (message : Text → Text) : Spares V (typeName v >>= fun t => raise f (message t)) m P :=
  .reads (.raise hm)

theorem spares_popCount (hm : m.Veiled V) : Spares V popCount m fun _ _ => True := by
  refine (spares_popped hm).bind fun v m' h _ => ?_
  cases v with
  | number x =>
    dsimp only
    split
    · exact .crash h.veiled
    · exact .pure h.veiled trivial
  | _ => exact .crash h.veiled

theorem spares_checkCount (hm : m.Veiled V) (n : Int) :
    Spares V (checkCount n) m fun _ _ => True := by
  unfold checkCount
  split
  · exact .crash hm
  · exact .pure hm trivial

theorem spares_condition (hm : m.Veiled V) (v : Value) : Spares V (condition v) m fun _ _ => True := by
  cases v with
  | boolean b => exact .pure hm trivial
  | _ => exact spares_raise_typeName hm _ _ _

theorem spares_popCopies (hm : m.Veiled V) (n : Nat) {acc : List Value}
    (hacc : ∀ v ∈ acc, m.world.store.Shows V v) :
    Spares V (popCopies n acc) m fun args m' => ∀ v ∈ args, m'.world.store.Shows V v := by
  induction n generalizing m acc with
  | zero => exact .pure hm hacc
  | succ n ih =>
    refine (spares_popped hm).bind fun v m₁ h₁ hv => ?_
    refine (spares_copy h₁.veiled hv).bind fun a m₂ h₂ ha => ih h₂.veiled fun w hw => ?_
    rcases List.mem_cons.mp hw with rfl | hw
    · exact ha
    · exact h₂.shows (h₁.shows (hacc w hw))

theorem spares_popArgs (hm : m.Veiled V) :
    Spares V popArgs m fun args m' => ∀ v ∈ args, m'.world.store.Shows V v :=
  (spares_popCount hm).bind fun n _ h₁ _ => (spares_checkCount h₁.veiled n).bind fun n _ h₂ _ =>
    spares_popCopies h₂.veiled n fun _ h => absurd h List.not_mem_nil

theorem spares_popItems (hm : m.Veiled V) (n : Nat) {acc : Array Value}
    (hacc : ∀ v ∈ acc, m.world.store.Shows V v) :
    Spares V (popItems n acc) m fun items m' => ∀ v ∈ items, m'.world.store.Shows V v := by
  induction n generalizing m acc with
  | zero => exact .pure hm hacc
  | succ n ih =>
    refine (spares_popped hm).bind fun v m₁ h₁ hv => ?_
    refine (spares_copy h₁.veiled hv).bind fun a m₂ h₂ ha => ih h₂.veiled fun w hw => ?_
    rcases Array.mem_push.mp hw with hw | rfl
    · exact h₂.shows (h₁.shows (hacc w hw))
    · exact ha

theorem spares_popEntries (hm : m.Veiled V) (n : Nat) {acc : Table Value}
    (hacc : acc.Every (m.world.store.Shows V)) (hkeys : acc.keys.Nodup) :
    Spares V (popEntries n acc) m fun entries m' =>
      entries.Every (m'.world.store.Shows V) ∧ entries.keys.Nodup := by
  induction n generalizing m acc with
  | zero => exact .pure hm ⟨hacc, hkeys⟩
  | succ n ih =>
    refine (spares_popped hm).bind fun key m₁ h₁ _ => ?_
    refine (spares_popped h₁.veiled).bind fun v m₂ h₂ hv => ?_
    refine (spares_copy h₂.veiled hv).bind fun a m₃ h₃ ha => ?_
    cases key with
    | text k =>
      exact ih h₃.veiled ((hacc.imp fun w hw => h₃.shows (h₂.shows (h₁.shows hw))).insert k ha)
        (Table.nodup_insert hkeys k a)
    | _ => exact .raise h₃.veiled

theorem spares_popFields (hm : m.Veiled V) (n : Nat) (acc : List Text) :
    Spares V (popFields n acc) m fun _ _ => True := by
  induction n generalizing m acc with
  | zero => exact .pure hm trivial
  | succ n ih =>
    refine (spares_popped hm).bind fun v m₁ h₁ _ => ?_
    cases v with
    | text name => exact ih h₁.veiled _
    | _ => exact .crash h₁.veiled

/-!
# Members
-/

theorem spares_bind {method receiver : Value} (hm : m.Veiled V)
    (hmethod : m.world.store.Shows V method) (hreceiver : m.world.store.Shows V receiver) :
    Spares V (Exec.bind method receiver) m fun a m' => m'.world.store.Shows V a := by
  cases method with
  | closure c =>
    obtain ⟨cl, hc⟩ : ∃ cl, m.world.store.closure? c = some cl := ⟨_, Array.getElem?_eq_getElem hmethod.has⟩
    unfold Exec.bind
    refine .onStore hm ?_ ?_
    · simp only [hc]
      refine hm.store.newClosure fun r hr => ?_
      cases hr
      exact hreceiver
    · simp only [hc]
      exact ⟨Store.size_lt_push _ _, hm.store.not_hidden (Nat.lt_irrefl _)⟩
  | native info => exact .pure hm ⟨hreceiver.has, hreceiver.shown⟩
  | bound info r => exact .pure hm ⟨hreceiver.has, hreceiver.shown⟩
  | _ => exact .pure hm hmethod

theorem spares_ownMember {object : Value} (hm : m.Veiled V) (hobject : m.world.store.Shows V object)
    (key : Value) :
    Spares V (ownMember object key) m fun a m' => m' = m ∧ ∀ v, a = some v → m.world.store.Shows V v := by
  have hnone : Spares V (Pure.pure none) m
      fun a m' => m' = m ∧ ∀ v, a = some v → m.world.store.Shows V v :=
    .pure hm ⟨rfl, fun _ h => by cases h⟩
  have hread : ∀ {f : Machine → Option Value}, (∀ v, f m = some v → m.world.store.Shows V v) →
      Spares V (Exec.reads f) m fun a m' => m' = m ∧ ∀ v, a = some v → m.world.store.Shows V v :=
    fun hf => ⟨hm.refl, rfl, hf⟩
  cases object with
  | dict d =>
    cases key with
    | text k => exact hread fun v hv => (hm.store.dict hobject.shown).get? hv
    | _ => exact hnone
  | inst i =>
    cases key with
    | text k => exact hread fun v hv => hm.store.field hobject.shown hv
    | _ => exact hnone
  | list l =>
    cases key with
    | number x =>
      refine .reads ?_
      split
      · rename_i i _
        refine .reads (.pure hm ⟨rfl, fun v hv => ?_⟩)
        cases hv
        exact hm.store.listGet l i
      · exact .raise hm
    | _ => exact hnone
  | _ => exact hnone

theorem spares_method {object : Value} (hm : m.Veiled V) (hobject : m.world.store.Shows V object)
    (key : Value) :
    Spares V (method object key) m fun a m' => ∀ v, a = some v → m'.world.store.Shows V v := by
  cases key with
  | text k =>
    refine .reads ?_
    cases hfound : m.resolve (Key.join k (m.world.store.typeName object)) with
    | none => exact .pure hm fun _ h => by cases h
    | some found =>
      refine (spares_bind hm (hm.resolveMethod hobject.has hfound) hobject).bind fun a m' h ha => ?_
      refine .pure h.veiled fun v hv => ?_
      cases hv
      exact ha
  | _ => exact .pure hm fun _ h => by cases h

theorem spares_member {object key : Value} (hm : m.Veiled V) (hobject : m.world.store.Shows V object) :
    Spares V (member object key) m fun a m' => m'.world.store.Shows V a := by
  refine (spares_ownMember hm hobject key).bind ?_
  rintro own m₁ - ⟨rfl, hown⟩
  cases own with
  | some v => exact .pure hm (hown v rfl)
  | none =>
    refine (spares_method hm hobject key).bind fun found m₂ h₂ hfound => ?_
    cases found with
    | some v => exact .pure h₂.veiled (hfound v rfl)
    | none => exact .reads (spares_raise_typeName h₂.veiled object _ _)

/-- Writing into the store. -/
theorem spares_write {f : Store → Store} (hm : m.Veiled V)
    (hs : m.world.store.Spares V (f m.world.store)) :
    Spares V (onStore fun s => ((), f s)) m fun _ _ => True :=
  .onStore hm hs trivial

theorem spares_setMember {target key value : Value} (hm : m.Veiled V)
    (htarget : m.world.store.Shows V target) (hvalue : m.world.store.Shows V value) :
    Spares V (setMember target key value) m fun _ _ => True := by
  cases target with
  | dict d =>
    cases key with
    | text k =>
      unfold setMember
      exact spares_write hm (hm.store.insertDict htarget hvalue k)
    | _ => exact spares_raise_typeName hm _ _ _
  | list l =>
    refine .reads ?_
    split
    · rename_i i _
      exact spares_write hm (hm.store.listSet htarget hvalue i)
    · exact .reads (.raise hm)
  | inst i =>
    refine .reads ?_
    cases key with
    | text k =>
      refine .reads ?_
      split
      · exact spares_write hm (hm.store.setField htarget hvalue k)
      · exact .raise hm
    | _ => exact .reads (.raise hm)
  | _ => exact spares_raise_typeName hm _ _ _

/-!
# Assignment
-/

theorem spares_nameClosure (hm : m.Veiled V) (hv : m.world.store.Shows V v) (name : Text) :
    Spares V (nameClosure v name) m fun _ _ => True := by
  unfold Spares
  rw [nameClosure_eq]
  exact ⟨hm.withStore (hm.store.nameValue hv name), trivial⟩

theorem spares_bindName {name : Text} {scope : Scope} (hm : m.Veiled V) (hv : m.world.store.Shows V v)
    (hname : m.MayBind V scope name) : Spares V (bindName scope name v) m fun _ _ => True := by
  refine .reads ?_
  cases hframe : m.frame with
  | none => exact .crash hm
  | some f =>
    have hslot : V.slot ≠ some (f, name) := by
      intro hslot
      obtain ⟨f', hf', hne, -⟩ := hname f hslot
      exact hne (Option.some.inj (hf'.symm.trans hframe))
    cases scope with
    | inner => exact spares_write hm (hm.store.define hv hslot)
    | nearest =>
      refine spares_write hm (hm.store.setNearest hv (fun g hg => ?_) hslot)
      obtain ⟨f', hf', -, hin⟩ := hname g hg
      obtain rfl : f' = f := Option.some.inj (hf'.symm.trans hframe)
      rcases hin with hin | ⟨-, hbound⟩
      · cases hin
      · exact Store.misses_of_binds hbound hslot g hg
    | outer =>
      refine spares_write hm (hm.store.setOuter hv (fun g hg => ?_) f)
      obtain ⟨-, -, -, hin | ⟨hin, -⟩⟩ := hname g hg
      · cases hin
      · cases hin

/-- An assignment into a value, since no operand is a marker. -/
theorem spares_assign (hm : m.Veiled V) (scope : Scope) :
    Spares V (assign scope) m fun _ _ => True := by
  refine (spares_popped hm).bind fun name m₁ h₁ _ => ?_
  refine (spares_popped h₁.veiled).bind fun target m₂ h₂ htarget => ?_
  refine (spares_popped h₂.veiled).bind fun value m₃ h₃ hvalue => ?_
  refine (spares_copy h₃.veiled hvalue).bind fun copied m₄ h₄ hcopied => ?_
  have htarget := h₄.shows (h₃.shows htarget)
  have hmember : Spares V (setMember target name copied >>= fun _ => push copied) m₄ fun _ _ => True :=
    (spares_setMember h₄.veiled htarget hcopied).bind fun _ m₅ h₅ _ =>
      spares_push h₅.veiled (h₅.shows hcopied)
  cases target with
  | empty => exact htarget.shown.elim
  | _ => exact hmember

/-- What binds a name to a value. -/
theorem spares_bindValue {name : Text} {scope : Scope} (hm : m.Veiled V) (hv : m.world.store.Shows V v)
    (hname : m.MayBind V scope name) :
    Spares V (copy v >>= fun value => nameClosure value name >>= fun _ =>
      bindName scope name value >>= fun _ => push value) m fun _ _ => True := by
  -- neither the copy nor its name changes a frame
  refine Spares.bind (P := fun a m' => m'.world.store.Shows V a ∧ m'.MayBind V scope name) ?_ ?_
  · unfold Spares
    rw [copy_eq]
    obtain ⟨hspares, hshows⟩ := hm.store.copy hv
    exact ⟨hm.withStore hspares, hshows, hname.same rfl (copy_frames _ v)⟩
  rintro a m₁ h₁ ⟨hcopied, hname⟩
  refine Spares.bind (P := fun _ m' => m'.MayBind V scope name) ?_ fun _ m₂ h₂ hname => ?_
  · unfold Spares
    rw [nameClosure_eq]
    refine ⟨h₁.veiled.withStore (h₁.veiled.store.nameValue hcopied name), hname.same rfl ?_⟩
    cases a <;> rfl
  · exact (spares_bindName h₂.veiled (h₂.shows hcopied) hname).bind fun _ _ h₃ _ =>
      spares_push h₃.veiled (h₃.shows (h₂.shows hcopied))

theorem spares_bump (hm : m.Veiled V) {name : Text} (hname : V.Misses m.world.store m.frame name) (up : Bool) :
    Spares V (bump name up) m fun _ _ => True := by
  refine .reads ?_
  cases hfound : m.world.store.lookup m.frame name false with
  | none => exact .raise hm
  | some found =>
    obtain ⟨v, owner⟩ := found
    cases v with
    | number x =>
      exact spares_write hm (hm.store.define (v := .number _) ⟨trivial, trivial⟩
        fun hslot => hname owner hslot _ _ hfound)
    | _ => exact spares_raise_typeName hm _ _ _

/-!
# Closures
-/

theorem spares_guardOf (hm : m.Veiled V) (name : Text) (v : Value) :
    Spares V (guardOf name v) m fun _ _ => True := by
  cases v with
  | null | type _ => exact .pure hm trivial
  | _ => exact spares_raise_typeName hm _ _ _

theorem spares_popParams (hm : m.Veiled V) (n : Nat) (acc : List Parameter) :
    Spares V (popParams n acc) m fun _ _ => True := by
  induction n generalizing m acc with
  | zero => exact .pure hm trivial
  | succ n ih =>
    refine (spares_popped hm).bind fun v m₁ h₁ _ => ?_
    cases v with
    | text name =>
      refine (spares_popped h₁.veiled).bind fun g m₂ h₂ _ => ?_
      exact (spares_guardOf h₂.veiled name g).bind fun guard m₃ h₃ _ => ih h₃.veiled _
    | _ => exact .crash h₁.veiled

theorem spares_buildClosure (hm : m.Veiled V) :
    Spares V buildClosure m fun a m' => m'.world.store.Shows V a := by
  refine (spares_popCount hm).bind fun n m₁ h₁ _ => ?_
  refine (spares_checkCount h₁.veiled n).bind fun n m₂ h₂ _ => ?_
  refine (spares_popParams h₂.veiled n []).bind fun params m₃ h₃ _ => ?_
  refine .reads (.reads (.onStore h₃.veiled ?_ ?_))
  · exact h₃.veiled.store.newClosure fun r hr => by cases hr
  · exact ⟨Store.size_lt_push _ _, h₃.veiled.store.not_hidden (Nat.lt_irrefl _)⟩

/-- What a closure is given is shown if its arguments are. -/
theorem shows_withReceiver {c : ClosureId} {cl : Closure} {args : List Value} (hm : m.Veiled V)
    (hc : m.world.store.closure? c = some cl) (hargs : ∀ v ∈ args, m.world.store.Shows V v) :
    ∀ v ∈ withReceiver cl.receiver args, m.world.store.Shows V v := by
  intro v hv
  cases hr : cl.receiver with
  | none =>
    rw [hr] at hv
    exact hargs v hv
  | some r =>
    rw [hr] at hv
    rcases List.mem_cons.mp hv with rfl | hv
    · exact hm.store.closure hc hr
    · exact hargs v hv

theorem spares_enterClosure {c : Closure} {args : List Value} (hm : m.Veiled V)
    (hargs : ∀ v ∈ withReceiver c.receiver args, m.world.store.Shows V v) (reentry : Bool)
    (native : Text) : Spares V (enterClosure c args reentry native) m fun _ _ => True := by
  unfold Spares
  rcases enterClosure_spec c args reentry native m with ⟨hok, -⟩ | ⟨f, hf⟩
  · rw [hok]
    exact ⟨hm.entered hargs reentry native, trivial⟩
  · rw [hf]
    exact hm.refl

/-!
# Calls and returns
-/

/-- What an instruction leads to is shown. -/
def Next.Shown (V : Veil) (s : Store) : Next → Prop
  | .call callee args => s.Shows V callee ∧ ∀ v ∈ args, s.Shows V v
  | .done v => s.Shows V v
  | _ => True

theorem spares_callValue {callee : Value} {args : List Value} (hm : m.Veiled V)
    (hcallee : m.world.store.Shows V callee) (hargs : ∀ v ∈ args, m.world.store.Shows V v) :
    Spares V (callValue callee args) m fun n m' => n.Shown V m'.world.store := by
  cases callee with
  | closure c =>
    refine .reads ?_
    cases hc : m.world.store.closure? c with
    | none => exact .crash hm
    | some cl =>
      exact (spares_enterClosure hm (shows_withReceiver hm hc hargs) false Text.empty).bind
        fun _ _ h _ => .pure h.veiled trivial
  | native | bound | type => exact .pure hm ⟨hcallee, hargs⟩
  | _ => exact spares_raise_typeName hm _ _ _

theorem spares_operator {first : Value} (hm : m.Veiled V) (hfirst : m.world.store.Shows V first)
    (op : Text) :
    Spares V (operator op first) m fun a m' => m' = m ∧ ∀ v, a = some v → m.world.store.Shows V v := by
  refine ⟨hm.refl, rfl, fun v hv => ?_⟩
  dsimp only at hv
  split at hv
  · rename_i found hfound
    cases hv
    exact hm.resolveMethod hfirst.has hfound
  · exact hm.bindings.get? hv

theorem spares_dispatch (hm : m.Veiled V) (op : Text) :
    Spares V (dispatch op) m fun n m' => n.Shown V m'.world.store := by
  refine (spares_popArgs hm).bind fun args m₁ h₁ hargs => ?_
  cases args with
  | nil => exact .crash h₁.veiled
  | cons first rest =>
    refine (spares_operator h₁.veiled (hargs first List.mem_cons_self) op).bind ?_
    rintro callee m₂ - ⟨rfl, hshows⟩
    cases callee with
    | some callee => exact spares_callValue h₁.veiled (hshows callee rfl) hargs
    | none =>
      refine .reads ?_
      cases rest with
      | nil => exact .raise h₁.veiled
      | cons second rest =>
        cases rest with
        | nil => exact spares_raise_typeName h₁.veiled second _ _
        | cons => exact .raise h₁.veiled

theorem spares_tell (hm : m.Veiled V) (text : Machine → Text) :
    Spares V (tell text) m fun _ m' => m'.stack = m.stack := by
  obtain ⟨j, hj⟩ := m.tell_eq .debug text
  refine .change (hm.tell .debug text) ?_
  rw [hj]
  rfl

/-- A return shows no operand that was not in use when it began. -/
theorem spares_ret (hm : m.Veiled V) (hdeep : ∀ record ∈ m.calls, record.depth ≤ m.stack.height) :
    Spares V ret m fun n m' => n.Shown V m'.world.store := by
  refine (spares_pop hm).bind ?_
  rintro v m₁ h₁ ⟨rfl, hv⟩
  refine .reads ?_
  cases hrecord : m.calls.back? with
  | none =>
    rw [show (m.withStack m.stack.drop).calls.back? = none from hrecord]
    exact .pure h₁.veiled hv
  | some record =>
    rw [show (m.withStack m.stack.drop).calls.back? = some record from hrecord]
    have hdepth : record.depth ≤ m.stack.height := hdeep record (Array.mem_of_back? hrecord)
    refine .reads (Spares.bind (P := fun _ m' => m' = { m.withStack m.stack.drop with calls := m.calls.pop })
      (.change (h₁.veiled.of_same rfl rfl rfl rfl) rfl) ?_)
    rintro _ m₂ h₂ rfl
    dsimp only
    split
    · exact .crash h₂.veiled
    · rename_i b _
      refine (spares_tell h₂.veiled _).bind fun _ m₃ h₃ hstack => ?_
      have hcut : m₃.stack.cut record.depth = m.stack.cut record.depth := by
        rw [hstack]
        rfl
      have hwhole : m.Spares V m₃ := (h₁.trans h₂).trans h₃
      refine Spares.bind (P := fun _ m' => m'.world.store = m₃.world.store) (.change ?_ rfl)
        fun _ m₄ h₄ hstore => ?_
      · refine ⟨⟨h₃.veiled.store, h₃.veiled.bindings, ?_, fun w hw => ?_⟩, h₃.veiled.store.refl, rfl⟩
        · show (m₃.stack.cut record.depth).Backed
          rw [hcut]
          exact OperandStack.backed_cut hm.backed hdepth
        · have hw : w ∈ (m₃.stack.cut record.depth).items := hw
          rw [hcut] at hw
          exact hwhole.shows (hm.operands w ((OperandStack.items_suffix hm.backed hdepth).subset hw))
      · have hv₄ : m₄.world.store.Shows V v := hstore ▸ h₃.shows (h₂.shows hv)
        split
        · exact .pure h₄.veiled hv₄
        · refine (spares_push h₄.veiled hv₄).bind fun _ m₅ h₅ _ => ?_
          refine Spares.bind (P := fun _ _ => True)
            (.change (h₅.veiled.of_same rfl rfl rfl rfl) trivial) fun _ m₆ h₆ _ => ?_
          exact .pure h₆.veiled trivial

theorem spares_scopeEnter (hm : m.Veiled V) :
    Spares V (step .scopeEnter) m fun n m' => n.Shown V m'.world.store := by
  have hspares := hm.withStore (@Store.Veiled.newFrame V _ hm.store ⟨Table.empty, m.frame, .block⟩ .empty)
  unfold Spares
  rw [step_scopeEnter]
  exact ⟨hspares.trans (hspares.veiled.of_same rfl rfl rfl rfl), trivial⟩

theorem spares_scopeExit (hm : m.Veiled V) :
    Spares V (step .scopeExit) m fun n m' => n.Shown V m'.world.store := by
  refine .reads ?_
  split
  · exact .crash hm
  · split
    · exact .crash hm
    · exact Spares.bind (P := fun _ _ => True) (.change (hm.of_same rfl rfl rfl rfl) trivial)
        fun _ _ h _ => .pure h.veiled trivial

/-!
# One instruction
-/

/-- An instruction that is done once its value is pushed. -/
theorem spares_pushed (hm : m.Veiled V) (hv : m.world.store.Shows V v) {n : Next}
    (hn : ∀ s, n.Shown V s) :
    Spares V (push v >>= fun _ => Pure.pure n) m fun n m' => n.Shown V m'.world.store :=
  (spares_push hm hv).bind fun _ _ h _ => .pure h.veiled (hn _)

/-- A constant is shown. -/
theorem shows_constant {s : Store} (h : v.Constant) : s.Shows V v := by
  cases v with
  | null | number | text | boolean => exact ⟨trivial, trivial⟩
  | type t =>
    refine ⟨trivial, fun hrecord => ?_⟩
    have h : t.record = false := h
    rw [h] at hrecord
    cases hrecord
  | _ => exact h.elim

theorem spares_step (hm : m.Veiled V) {op : Op} (hop : op.Heeds V m)
    (hdeep : ∀ record ∈ m.calls, record.depth ≤ m.stack.height) :
    Spares V (step op) m fun n m' => n.Shown V m'.world.store := by
  have htrue : ∀ {v : Value}, (∀ s : Store, s.Shows V v) → ∀ {m : Machine}, m.Veiled V →
      Spares V (push v >>= fun _ => Pure.pure Next.next) m fun n m' => n.Shown V m'.world.store :=
    fun hv _ hm => spares_pushed hm (hv _) fun _ => trivial
  cases op with
  | push v => exact htrue (fun _ => shows_constant hop) hm
  | buildList =>
    refine (spares_popCount hm).bind fun n m₁ h₁ _ => (spares_checkCount h₁.veiled n).bind fun n m₂ h₂ _ => ?_
    refine (spares_popItems h₂.veiled n fun v h => absurd h (Array.not_mem_empty v)).bind
      fun items m₃ h₃ hitems => ?_
    refine Spares.bind (P := fun l m' => m'.world.store.Shows V (.list l))
      (.onStore h₃.veiled (h₃.veiled.store.newListIn hitems _) ?_) fun l m₄ h₄ hl => ?_
    · exact ⟨Store.size_lt_push _ _, h₃.veiled.store.not_hidden (Nat.lt_irrefl _)⟩
    · exact spares_pushed h₄.veiled hl fun _ => trivial
  | buildDict =>
    refine (spares_popCount hm).bind fun n m₁ h₁ _ => ?_
    refine (spares_popEntries h₁.veiled n.toNat .empty List.nodup_nil).bind fun entries m₂ h₂ hentries => ?_
    refine Spares.bind (P := fun d m' => m'.world.store.Shows V (.dict d))
      (.onStore h₂.veiled (h₂.veiled.store.newDict hentries.1 fun _ => hentries.2) ?_) fun d m₃ h₃ hd => ?_
    · exact ⟨Store.size_lt_push _ _, h₂.veiled.store.not_hidden (Nat.lt_irrefl _)⟩
    · exact spares_pushed h₃.veiled hd fun _ => trivial
  | buildType name =>
    refine (spares_popCount hm).bind fun n m₁ h₁ _ => (spares_checkCount h₁.veiled n).bind fun n m₂ h₂ _ => ?_
    exact (spares_popFields h₂.veiled n []).bind fun fields m₃ h₃ _ =>
      htrue (v := .type (TypeInfo.ofFields name fields)) (fun _ => ⟨trivial, fun _ => hop⟩) h₃.veiled
  | buildFunc distance =>
    exact (spares_buildClosure hm).bind fun c m₁ h₁ hc => spares_pushed h₁.veiled hc fun _ => trivial
  | jump distance => exact .pure hm trivial
  | jumpPeek expected distance =>
    refine (spares_top hm).bind ?_
    rintro v m₁ h₁ -
    refine (spares_condition h₁.veiled v).bind fun b m₂ h₂ _ => ?_
    split
    · exact .pure h₂.veiled trivial
    · exact .pure h₂.veiled trivial
  | jumpIfFalse distance =>
    refine (spares_popped hm).bind fun v m₁ h₁ _ => (spares_condition h₁.veiled v).bind fun b m₂ h₂ _ => ?_
    split
    · exact .pure h₂.veiled trivial
    · exact .pure h₂.veiled trivial
  | call =>
    exact (spares_popped hm).bind fun callee m₁ h₁ hcallee => (spares_popArgs h₁.veiled).bind
      fun args m₂ h₂ hargs => spares_callValue h₂.veiled (h₂.shows hcallee) hargs
  | dispatch op => exact spares_dispatch hm op
  | ret => exact spares_ret hm hdeep
  | getVar name =>
    refine .reads ?_
    cases hv : m.resolve name with
    | none => exact .raise hm
    | some v => exact spares_pushed hm (hm.resolve hop hv) fun _ => trivial
  | getMember =>
    refine (spares_popped hm).bind fun key m₁ h₁ _ => ?_
    refine (spares_popped h₁.veiled).bind fun object m₂ h₂ hobject => ?_
    exact (spares_member h₂.veiled hobject).bind fun v m₃ h₃ hv =>
      spares_pushed h₃.veiled hv fun _ => trivial
  | assign scope =>
    exact (spares_assign hm scope).bind fun _ m₁ h₁ _ => .pure h₁.veiled trivial
  | bump name up =>
    exact (spares_bump hm hop up).bind fun _ m₁ h₁ _ => .pure h₁.veiled trivial
  | negate =>
    refine (spares_popped hm).bind fun v m₁ h₁ _ => ?_
    cases v with
    | number x => exact htrue (v := .number _) (fun _ => ⟨trivial, trivial⟩) h₁.veiled
    | _ => exact spares_raise_typeName h₁.veiled _ _ _
  | not =>
    exact (spares_popped hm).bind fun v m₁ h₁ _ => (spares_condition h₁.veiled v).bind
      fun b m₂ h₂ _ => htrue (v := .boolean _) (fun _ => ⟨trivial, trivial⟩) h₂.veiled
  | stray again => exact .raise hm
  | scopeEnter => exact spares_scopeEnter hm
  | scopeExit => exact spares_scopeExit hm
  | pop => exact (spares_popped hm).bind fun _ m₁ h₁ _ => .pure h₁.veiled trivial
  | unknown b => exact .crash hm

/-!
# Conversions and new instances
-/

theorem spares_newList (hm : m.Veiled V) {items : Array Value}
    (hitems : ∀ v ∈ items, m.world.store.Shows V v) (capacity : Nat) :
    Spares V (onStore fun s => (Value.list (s.newListIn items capacity).1, (s.newListIn items capacity).2))
      m fun a m' => m'.world.store.Shows V a :=
  .onStore hm (hm.store.newListIn hitems capacity)
    ⟨Store.size_lt_push _ _, hm.store.not_hidden (Nat.lt_irrefl _)⟩

theorem spares_fieldDict (hm : m.Veiled V) {i : InstanceId} (hi : ¬ V.hidden (.inst i)) :
    Spares V (effect (Native.fieldDict i)) m fun a m' => m'.world.store.Shows V a := by
  unfold Native.fieldDict
  rw [effect_changeGet]
  refine .onStore hm (hm.store.newDict (Table.Every.empty.insertAll fun e he => ?_)
    fun _ => Table.nodup_insertAll (t := .empty) List.nodup_nil _)
    ⟨Store.size_lt_push _ _, hm.store.not_hidden (Nat.lt_irrefl _)⟩
  obtain ⟨f, -, rfl⟩ := List.mem_map.mp he
  dsimp only
  cases hf : m.world.store.field? i f with
  | none => exact ⟨trivial, trivial⟩
  | some v => exact hm.store.field hi hf

theorem spares_convert (hm : m.Veiled V) (hv : m.world.store.Shows V v) (target : Text) :
    Spares V (effect (Native.convert v target)) m fun a m' => m'.world.store.Shows V a := by
  have hrefuse : Spares V (effect (Native.cannotConvert v target)) m
      fun a m' => m'.world.store.Shows V a := by
    unfold Native.cannotConvert
    rw [effect_bind]
    exact .reads (.raise hm)
  have hplain : ∀ {a : Value}, (∀ s : Store, s.Shows V a) →
      Spares V (Pure.pure a) m fun a m' => m'.world.store.Shows V a := fun h => .pure hm (h _)
  unfold Native.convert
  rw [effect_bind]
  refine .reads ?_
  split
  · unfold Native.copyValue
    rw [effect_changeGet]
    obtain ⟨hspares, hshows⟩ := hm.store.copy hv
    exact .onStore hm hspares hshows
  split
  · rw [effect_bind]
    exact .reads (.pure hm ⟨trivial, trivial⟩)
  split
  · cases v with
    | text t =>
      unfold Native.parseNumber
      dsimp only
      split
      · exact hplain fun _ => ⟨trivial, trivial⟩
      · exact .raise hm
    | boolean b => exact hplain fun _ => ⟨trivial, trivial⟩
    | _ => exact hrefuse
  split
  · cases v with
    | number _ | text _ | null => exact hplain fun _ => ⟨trivial, trivial⟩
    | _ => exact hrefuse
  split
  · cases v with
    | text t =>
      unfold Native.charList
      rw [effect_changeGet]
      refine spares_newList hm (fun w hw => ?_) t.size
      obtain ⟨c, -, rfl⟩ := List.mem_map.mp (List.mem_toArray.mp hw)
      exact ⟨trivial, trivial⟩
    | dict d =>
      dsimp only
      rw [effect_bind]
      refine .reads ?_
      unfold Effect.newList
      rw [effect_changeGet]
      refine spares_newList hm (fun w hw => ?_) _
      obtain ⟨k, -, rfl⟩ := List.mem_map.mp (List.mem_toArray.mp hw)
      exact ⟨trivial, trivial⟩
    | _ => exact hrefuse
  split
  · cases v with
    | inst i => exact spares_fieldDict hm hv.shown
    | _ => exact hrefuse
  split
  · rw [effect_bind]
    refine .reads (.pure hm ⟨trivial, fun hrecord => ?_⟩)
    cases v with
    | inst i => exact hm.store.instanceType hv.has
    | _ => cases hrecord
  · exact hrefuse

end
end Exec

/-- Filling the fields of an instance. -/
theorem Store.Veiled.fill {s : Store} (h : s.Veiled V) {i : InstanceId} (hi : s.Shows V (.inst i))
    {pairs : List (Text × Value)} (hpairs : ∀ e ∈ pairs, s.Shows V e.2) :
    s.Spares V (State.startConstruction.fill s i pairs) := by
  induction pairs generalizing s with
  | nil => exact h.refl
  | cons e rest ih =>
    have hset := h.setField hi (hpairs e List.mem_cons_self) e.1
    exact hset.trans (ih hset.veiled (hset.shows hi)
      fun e' he' => hset.shows (hpairs e' (List.mem_cons_of_mem e he')))

end ScriptEngine
