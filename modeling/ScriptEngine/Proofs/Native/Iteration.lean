import ScriptEngine.Proofs.Execution.Equality
import ScriptEngine.Proofs.Native.Endings
import ScriptEngine.Proofs.Number.Values
import ScriptEngine.Proofs.Store.Copies

/-!
# Steps of iterators

The fields of an iterator are open to programs, so a step may find anything in them. It gives an
element, or says that there is none, or refuses what it finds; but the position is moved before it is
looked at, and one that is no index of any list breaks the engine.
-/

namespace ScriptEngine

namespace Store

/-- What a step of an iterator gives, and the store that it leaves. -/
inductive Steps (s : Store) (it : InstanceId) : Except Failure Value → Store → Prop
  | item {l : ListId} {x : Float} {i : Nat} (hitems : s.field? it "items" = some (.list l))
    (hposition : s.field? it "position" = some (.number x))
    (hindex : Number.whole? x = some i) (hsize : i < s.listSize l) :
    Steps s it (.ok (.list s.lists.size))
      ((s.setField it "position" (.number (x + 1))).newList #[s.listGet l i, .boolean true]).2
  | past {l : ListId} {x : Float} {i : Nat}
    (hitems : s.field? it "items" = some (.list l))
    (hposition : s.field? it "position" = some (.number x))
    (hindex : Number.whole? x = some i) (hsize : s.listSize l ≤ i) :
    Steps s it (.ok (.list s.lists.size)) (s.newList #[.null, .boolean false]).2
  | refused (h : ∀ l x, s.field? it "items" = some (.list l) →
      s.field? it "position" ≠ some (.number x)) :
    Steps s it (.error .typeMismatch) s

/-- An iterator of a list whose position is no index: it is -1 or less, `2^63` or more, or not finite. -/
def Astray (s : Store) (it : InstanceId) : Prop :=
  ∃ l x, s.field? it "items" = some (.list l) ∧ s.field? it "position" = some (.number x) ∧
    Number.whole? x = none

section
variable {s s' : Store} {it : InstanceId} {name other : Text} {v : Value} {r : Value} {f : Failure}

theorem field?_setField (hfield : s.field? it name = some v) (u : Value) :
    (s.setField it name u).field? it other = if name = other then some u else s.field? it other := by
  unfold field? setField at *
  simp only [Array.getElem?_modify, if_true]
  cases hinst : s.instances[it]? with
  | none =>
    rw [hinst] at hfield
    cases hfield
  | some inst => exact Table.get?_insert ..

theorem field?_newList (items : Array Value) :
    (s.newList items).2.field? it name = s.field? it name :=
  rfl

/-- A step gives a new list of an element and true, or of null and false. Of the fields of the iterator
only the position changes, and only if there was an element: it is one more. -/
theorem Steps.observed (h : s.Steps it (.ok r) s') :
    ∃ answer, r = .list answer ∧
      ((∃ l x i, s.field? it "items" = some (.list l) ∧
        s.field? it "position" = some (.number x) ∧ Number.whole? x = some i ∧ i < s.listSize l ∧
        s'.items answer = #[s.listGet l i, .boolean true] ∧
        ∀ name, s'.field? it name =
          if Text.ofString "position" = name then some (.number (x + 1)) else s.field? it name) ∨
      (s'.items answer = #[.null, .boolean false] ∧
        ∀ name, s'.field? it name = s.field? it name)) := by
  cases h with
  | item hitems hposition hindex hsize =>
    refine ⟨_, rfl, .inl ⟨_, _, _, hitems, hposition, hindex, hsize, items_newListIn, fun name => ?_⟩⟩
    rw [field?_newList, field?_setField hposition]
  | past hitems hposition hindex hsize =>
    exact ⟨_, rfl, .inr ⟨items_newListIn, fun name => rfl⟩⟩

end

end Store

namespace Native

section
variable {it : InstanceId} {w : World} {l : ListId} {x : Float} {i : Nat}

theorem next_item (hitems : w.store.field? it "items" = some (.list l))
    (hposition : w.store.field? it "position" = some (.number x))
    (hindex : Number.whole? x = some i) (hsize : i < w.store.listSize l) :
    next it w = .ok (.list w.store.lists.size)
      { w with store := ((w.store.setField it "position" (.number (x + 1))).newList
          #[w.store.listGet l i, .boolean true]).2 } := by
  have hword : Number.toWord x = i := Number.toWord_of_whole hindex
  have hinside : ¬ (w.store.listSize l : Int) ≤ i := by omega
  have hnatural : ¬ (i : Int) < 0 := by omega
  simp only [next, Effect.reads, bind, EStateM.bind, hitems, hposition, Option.getD_some, hword,
    hinside, hnatural, if_false, Int.toNat_natCast]
  rfl

theorem next_past (hitems : w.store.field? it "items" = some (.list l))
    (hposition : w.store.field? it "position" = some (.number x))
    (hindex : Number.whole? x = some i) (hsize : w.store.listSize l ≤ i) :
    next it w = .ok (.list w.store.lists.size)
      { w with store := (w.store.newList #[.null, .boolean false]).2 } := by
  have hword : Number.toWord x = i := Number.toWord_of_whole hindex
  have houtside : (w.store.listSize l : Int) ≤ i := by omega
  simp only [next, Effect.reads, bind, EStateM.bind, hitems, hposition, Option.getD_some, hword,
    houtside, if_true]
  rfl

theorem next_astray (hitems : w.store.field? it "items" = some (.list l))
    (hposition : w.store.field? it "position" = some (.number x))
    (hindex : Number.whole? x = none) :
    ∃ message w', next it w = .error (.crash message) w' := by
  have hword : Number.toWord x < 0 := Number.toWord_of_not_whole hindex
  have hinside : ¬ (w.store.listSize l : Int) ≤ Number.toWord x := by omega
  simp only [next, Effect.reads, bind, EStateM.bind, hitems, hposition, Option.getD_some,
    hinside, hword, if_false, if_true]
  exact ⟨_, _, rfl⟩

theorem wrongField_raises (field expected : String) (v : Value) (w : World) :
    ∃ message, wrongField field expected v w = .error (.fault (.raised .typeMismatch message)) w :=
  ⟨_, rfl⟩

theorem next_refused (h : ∀ l x, w.store.field? it "items" = some (.list l) →
      w.store.field? it "position" ≠ some (.number x)) :
    ∃ message, next it w = .error (.fault (.raised .typeMismatch message)) w := by
  simp only [next, Effect.reads, bind, EStateM.bind]
  cases hitems : (w.store.field? it "items").getD .null with
  | list l =>
    have hitems : w.store.field? it "items" = some (.list l) := by
      cases hfield : w.store.field? it "items" with
      | none =>
        rw [hfield] at hitems
        cases hitems
      | some v =>
        rw [hfield] at hitems
        exact congrArg some hitems
    cases hposition : (w.store.field? it "position").getD .null with
    | number x =>
      refine absurd ?_ (h l x hitems)
      cases hfield : w.store.field? it "position" with
      | none =>
        rw [hfield] at hposition
        cases hposition
      | some v =>
        rw [hfield] at hposition
        exact congrArg some hposition
    | _ => exact wrongField_raises ..
  | _ => exact wrongField_raises ..

end

end Native

section
variable {m : Machine} {pending : List Pending} {method : NativeInfo} {it : InstanceId}

/-- The native that steps iterators. -/
theorem Library.resolve_next : Library.standard.resolve (Key.join "next" iteratorName) =
    some (.native ⟨Key.join "next" iteratorName, some 1, 61⟩) :=
  Library.standard_native rfl

/-- What that native does to an iterator. -/
theorem Library.standard_next {method : NativeInfo} {w : World}
    (h : Library.standard.resolve (Key.join "next" iteratorName) = some (.native method))
    (hit : w.store.isBuiltin (.inst it) iteratorName = true) :
    method.arity = some 1 ∧ Library.standard.behaviour method [.inst it] w =
      Action.ofEffect (Native.next it >>= fun v => pure (some v)) w := by
  rw [resolve_next] at h
  cases h
  refine ⟨rfl, ?_⟩
  show Primitive.guarded (Key.join "next" iteratorName) iteratorName _ [.inst it] w = _
  unfold Primitive.guarded
  dsimp only
  rw [if_pos hit]
  rfl

/-- What `next` comes to for an iterator with any fields. Unless the position is astray it gives what
`Steps` says, or a diagnostic; with a position astray the engine breaks. -/
theorem iterator_step (m : Machine) (pending : List Pending) (method : NativeInfo) (it : InstanceId)
    (hmethod : Library.standard.resolve (Key.join "next" iteratorName) = some (.native method))
    (hbehaviour : m.library.behaviour method = Library.standard.behaviour method)
    (hit : m.world.store.isBuiltin (.inst it) iteratorName = true) :
    (nativeLimit ≤ m.natives.size → ∃ message,
      State.advance ⟨m, pending, .invoking (.bound method (.inst it)) []⟩ =
        .next ⟨m, pending, .delivering (.error (.raised .callDepth message))⟩) ∧
    (m.natives.size < nativeLimit →
      (¬ m.world.store.Astray it → ∃ m' outcome,
        State.advance ⟨m, pending, .invoking (.bound method (.inst it)) []⟩ =
            .next ⟨m', pending, .delivering outcome⟩ ∧
          m.world.store.Steps it (outcome.mapError Fault.failure) m'.world.store) ∧
      (m.world.store.Astray it → ∃ message m',
        State.advance ⟨m, pending, .invoking (.bound method (.inst it)) []⟩ =
          .crashed message m')) := by
  obtain ⟨harity, haction⟩ := Library.standard_next hmethod hit
  rw [← hbehaviour] at haction
  have hadvance : State.advance ⟨m, pending, .invoking (.bound method (.inst it)) []⟩ =
      State.enterNative m pending method [.inst it] :=
    State.startNative_takes fun arity hsome => by
      rw [harity] at hsome
      cases hsome
      rfl
  rw [hadvance]
  refine ⟨fun hfull => State.enterNative_full _ hfull, fun hroom => ⟨fun hsound => ?_, fun hastray => ?_⟩⟩
  · by_cases hfields : ∃ l x, m.world.store.field? it "items" = some (.list l) ∧
        m.world.store.field? it "position" = some (.number x)
    · obtain ⟨l, x, hitems, hposition⟩ := hfields
      cases hindex : Number.whole? x with
      | none => exact (hsound ⟨l, x, hitems, hposition, hindex⟩).elim
      | some i =>
        rcases Nat.lt_or_ge i (m.world.store.listSize l) with hsize | hsize
        · rw [Action.ofEffect_ok (Native.next_item hitems hposition hindex hsize)] at haction
          exact ⟨_, _, State.enterNative_done hroom haction, .item hitems hposition hindex hsize⟩
        · rw [Action.ofEffect_ok (Native.next_past hitems hposition hindex hsize)] at haction
          exact ⟨_, _, State.enterNative_done hroom haction, .past hitems hposition hindex hsize⟩
    · have hrefused : ∀ l x, m.world.store.field? it "items" = some (.list l) →
          m.world.store.field? it "position" ≠ some (.number x) :=
        fun l x hitems hposition => hfields ⟨l, x, hitems, hposition⟩
      obtain ⟨message, hnext⟩ := Native.next_refused hrefused
      rw [Action.ofEffect_fault hnext] at haction
      obtain ⟨m', hfail, hstore⟩ := State.enterNative_fail pending hroom haction
      refine ⟨m', _, hfail, ?_⟩
      rw [hstore]
      exact .refused hrefused
  · obtain ⟨l, x, hitems, hposition, hindex⟩ := hastray
    obtain ⟨message, w', hnext⟩ := Native.next_astray hitems hposition hindex
    rw [Action.ofEffect_crash hnext] at haction
    exact ⟨message, State.enterNative_crash hroom haction⟩

end

/-- An engine with an iterator of a list of one truth value. -/
def iteratingEngine : Machine :=
  let s := (Store.empty.newList #[.boolean true]).2
  let s := (s.newInstance TypeInfo.iterator).2
  standardEngine.withStore ((s.setField 0 "items" (.list 0)).setField 0 "position"
    (.number (Number.ofNat 0)))

theorem iterator_step_first :
    ∃ m' outcome, State.advance ⟨iteratingEngine, [],
        .invoking (.bound ⟨Key.join "next" iteratorName, some 1, 61⟩ (.inst 0)) []⟩ =
        .next ⟨m', [], .delivering outcome⟩ ∧
      iteratingEngine.world.store.Steps 0 (outcome.mapError Fault.failure) m'.world.store := by
  obtain ⟨-, hroom⟩ := iterator_step iteratingEngine []
    ⟨Key.join "next" iteratorName, some 1, 61⟩ 0 Library.resolve_next rfl (by decide)
  refine (hroom (by decide)).1 ?_
  rintro ⟨l, x, -, hposition, hindex⟩
  have hfield : iteratingEngine.world.store.field? 0 "position" = some (.number (Number.ofNat 0)) :=
    rfl
  cases hfield.symm.trans hposition
  rw [Number.whole?_ofNat (by decide)] at hindex
  cases hindex

/-!
# Going through a list
-/

namespace Number

variable {n : Nat}

/-- Numbers count up to `2 ^ 53`, and stay there. -/
theorem ofNat_onward (h : n ≤ 2 ^ 53) : ofNat n + 1 = ofNat (min (n + 1) (2 ^ 53)) := by
  rcases Nat.lt_trichotomy (n + 1) (2 ^ 53) with hless | hlast | hover
  · rw [ofNat_succ hless, Nat.min_eq_left (Nat.le_of_lt hless)]
  · obtain rfl : n = 2 ^ 53 - 1 := by omega
    decide
  · obtain rfl : n = 2 ^ 53 := by omega
    decide

theorem whole?_ofNat_le (h : n ≤ 2 ^ 53) : whole? (ofNat n) = some n := by
  rcases Nat.lt_or_eq_of_le h with hless | rfl
  · exact whole?_ofNat hless
  · decide +kernel

end Number

/-- An iterator that has given the elements of the list before position `i`, counted from zero. -/
structure Instance.Traverses (inst : Instance) (l : ListId) (i : Nat) : Prop where
  type : inst.type = TypeInfo.iterator
  items : inst.fields.get? "items" = some (.list l)
  position : inst.fields.get? "position" = some (.number (Number.ofNat i))
  reach : i ≤ 2 ^ 53
  plain : inst.fields.get? "next" = none

/-- What a step of an iterator answers: an element and true, or null and false. -/
def Value.answer : Option Value → Array Value
  | some v => #[v, .boolean true]
  | none => #[.null, .boolean false]

namespace Store

/-- In the store the iterator has given the elements of the list before position `i`. -/
def Traverses (s : Store) (it : InstanceId) (l : ListId) (i : Nat) : Prop :=
  ∃ inst, s.instance? it = some inst ∧ inst.Traverses l i

/-- The element of the list at a position counted from zero. -/
def element? (s : Store) (l : ListId) (i : Nat) : Option Value :=
  if i < s.listSize l then some (s.listGet l i) else none

/-- The store with a new iterator of some items. -/
def newIterator (s : Store) (items : Value) : Store :=
  ((s.newInstance TypeInfo.iterator).2.setField s.instances.size "items" items).setField s.instances.size
    "position" (.number 0)

/-- The store in which the iterator has moved on from a position, unless it found none there. -/
def movedOn (s : Store) (it : InstanceId) (i : Nat) : Option Value → Store
  | some _ => s.setField it "position" (.number (Number.ofNat i + 1))
  | none => s

/-- The store after a step of an iterator that found the element at a position, or none. -/
def stepped (s : Store) (it : InstanceId) (i : Nat) (found : Option Value) : Store :=
  ((s.movedOn it i found).newList (Value.answer found)).2

section
variable {s s' : Store} {it : InstanceId} {inst : Instance} {l : ListId} {i : Nat} {found : Option Value}

theorem instance?_setField (h : s.instance? it = some inst) (name : Text) (v : Value) :
    (s.setField it name v).instance? it = some { inst with fields := inst.fields.insert name v } := by
  unfold instance? at h
  show (s.instances.modify it _)[it]? = _
  rw [Array.getElem?_modify, if_pos rfl, h]
  rfl

theorem Traverses.field? (h : s.Traverses it l i) : s.field? it "items" = some (.list l) ∧
    s.field? it "position" = some (.number (Number.ofNat i)) ∧ s.field? it "next" = none := by
  obtain ⟨inst, hinst, h⟩ := h
  have hfield : ∀ name, s.field? it name = inst.fields.get? name := fun name => by
    unfold Store.field?
    rw [show s.instances[it]? = some inst from hinst]
  rw [hfield, hfield, hfield]
  exact ⟨h.items, h.position, h.plain⟩

theorem Traverses.instanceType (h : s.Traverses it l i) : s.instanceType it = TypeInfo.iterator := by
  obtain ⟨inst, hinst, h⟩ := h
  unfold Store.instanceType
  rw [show s.instances[it]? = some inst from hinst]
  exact h.type

theorem Traverses.builtin (h : s.Traverses it l i) : s.isBuiltin (.inst it) iteratorName = true := by
  show ((s.instanceType it).builtin && (s.instanceType it).name == iteratorName) = true
  rw [h.instanceType]
  rfl

theorem Traverses.typeName (h : s.Traverses it l i) : s.typeName (.inst it) = iteratorName :=
  congrArg TypeInfo.name h.instanceType

/-- An iterator with the same fields is as far. -/
theorem Traverses.congr {it' : InstanceId} (h : s.Traverses it l i)
    (hsame : s'.content (.inst it') = s.content (.inst it)) : s'.Traverses it' l i := by
  obtain ⟨inst, hinst, h⟩ := h
  exact ⟨inst, (Content.fields.inj hsame).trans hinst, h⟩

/-- A step that gives an element moves on by one, as far as Numbers do. -/
theorem Traverses.stepped (h : s.Traverses it l i) :
    (s.stepped it i found).Traverses it l (if found.isSome then min (i + 1) (2 ^ 53) else i) := by
  cases found with
  | none => exact h
  | some v =>
    obtain ⟨inst, hinst, h⟩ := h
    refine ⟨_, instance?_setField hinst _ _, h.type, ?_, ?_, Nat.min_le_right _ _, ?_⟩
    · rw [Table.get?_insert, if_neg (by decide)]
      exact h.items
    · rw [Table.get?_insert, if_pos rfl, Number.ofNat_onward h.reach]
      rfl
    · rw [Table.get?_insert, if_neg (by decide)]
      exact h.plain

end
end Store

/-- What a step of an iterator does that is as far. -/
theorem Native.next_traverses {w : World} {it : InstanceId} {l : ListId} {i : Nat}
    (h : w.store.Traverses it l i) : next it w = .ok (.list w.store.lists.size)
      { w with store := w.store.stepped it i (w.store.element? l i) } := by
  obtain ⟨hitems, hposition, -⟩ := h.field?
  have hindex := Number.whole?_ofNat_le (h.elim fun _ h => h.2.reach)
  unfold Store.element?
  split
  · exact next_item hitems hposition hindex ‹_›
  · exact next_past hitems hposition hindex (Nat.le_of_not_lt ‹_›)

/-- Lists and dicts of the library give iterators, and iterators of the library take steps. -/
structure Library.Iterates (l : Library) : Prop where
  lists : ∃ n, l.resolve (Key.join "iter" "List") = some (.native n) ∧ n.arity = some 1 ∧
    ∀ id w, l.behaviour n [.list id] w = .done (some (.inst w.store.instances.size))
      { w with store := w.store.newIterator (.list id) }
  dicts : ∃ n, l.resolve (Key.join "iter" "Dict") = some (.native n) ∧ n.arity = some 1 ∧
    ∀ id w, l.behaviour n [.dict id] w = .done (some (.inst w.store.instances.size))
      { w with
        store := (w.store.newList (Native.dictKeys w.store id)).2.newIterator (.list w.store.lists.size) }
  steps : ∃ n, l.resolve (Key.join "next" iteratorName) = some (.native n) ∧ n.arity = some 1 ∧
    ∀ it w, w.store.isBuiltin (.inst it) iteratorName = true → l.behaviour n [.inst it] w =
      Action.ofEffect (Native.next it >>= fun v => pure (some v)) w

/-- The program `it = [1].iter(); it.position = 1e19; return it.next()`. -/
def strayPosition : List Stmt :=
  [.expr .zero (.assign .zero (.var .zero "it")
      (.call .zero (.member .zero (.list .zero [.number .zero 1]) "iter") []) .nearest),
    .expr .zero (.assign .zero (.member .zero (.var .zero "it") "position")
      (.number .zero 1e19) .nearest),
    .ret .zero (some (.call .zero (.member .zero (.var .zero "it") "next") []))]

/-- The program breaks the engine, though there is no element at or behind that position. -/
theorem stray_position_breaks :
    ∃ c, (Compiler.compile .absent false strayPosition).result = .ok c ∧
      ((standardEngine.execute 60 c.program).map fun e => match e.1 with
        | .value _ => []
        | .failed problems _ => problems.toList.map (·.code)) =
        some (["RE0000"] : List Text) :=
  ⟨_, rfl, by decide +kernel⟩

end ScriptEngine
