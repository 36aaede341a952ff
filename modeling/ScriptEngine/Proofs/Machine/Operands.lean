import ScriptEngine.Machine.Stack
import ScriptEngine.Machine.Step
import ScriptEngine.Proofs.Number.Bits
import ScriptEngine.Proofs.Program.Layout

/-!
# The operand stack as a list

Seen from the top, the values in use are a list that pushing and popping change at its head. Cutting
the stack at the height of a tail of the list leaves that tail.
-/

namespace ScriptEngine
namespace OperandStack

/-- The values in use, the top first. -/
def items (s : OperandStack) : List Value :=
  s.values.reverse

/-- Every value in use has a slot. -/
def Backed (s : OperandStack) : Prop :=
  s.height ≤ s.slots.size

variable {s : OperandStack} {v : Value} {l rest : List Value}

theorem length_items (h : s.Backed) : s.items.length = s.height := by
  have hle : s.height ≤ s.slots.toList.length := h
  rw [items, values, List.length_reverse, List.length_take, Nat.min_eq_left hle]

theorem backed_push (h : s.Backed) (v : Value) : (s.push v).Backed := by
  unfold Backed at h
  unfold Backed push
  split
  · simp only [Array.size_setIfInBounds]
    omega
  · simp only [Array.size_push]
    omega

theorem backed_drop (h : s.Backed) : s.drop.Backed :=
  Nat.le_trans (Nat.sub_le _ _) h

theorem backed_cut {n : Nat} (h : s.Backed) (hn : n ≤ s.height) : (s.cut n).Backed :=
  Nat.le_trans hn h

theorem items_push (h : s.Backed) (v : Value) : (s.push v).items = v :: s.items := by
  have hle : s.height ≤ s.slots.toList.length := h
  have hvalues : (s.push v).values = s.values ++ [v] := by
    unfold push
    split
    · rename_i hlt
      show (s.slots.setIfInBounds s.height v).toList.take (s.height + 1) =
        s.slots.toList.take s.height ++ [v]
      have hlt' : s.height < s.slots.toList.length := hlt
      rw [Array.toList_setIfInBounds, List.take_add_one, List.take_set_of_le (Nat.le_refl _),
        List.getElem?_set_self hlt']
      rfl
    · have heq : s.slots.toList.length = s.height := by
        have hsize : s.slots.toList.length = s.slots.size := rfl
        omega
      show (s.slots.push v).toList.take (s.height + 1) = s.slots.toList.take s.height ++ [v]
      rw [Array.toList_push, ← heq, List.take_of_length_le (by simp), List.take_length]
  rw [items, hvalues, List.reverse_append]
  rfl

/-- The values are the tail of the list below the top, and the top. -/
theorem values_of_items (h : s.items = v :: rest) : s.values = rest.reverse ++ [v] := by
  have hrev : s.values = (v :: rest).reverse := by
    rw [← h, items, List.reverse_reverse]
  rw [hrev, List.reverse_cons]

theorem height_of_items (hs : s.Backed) (h : s.items = v :: rest) :
    s.height = rest.length + 1 := by
  rw [← length_items hs, h, List.length_cons]

theorem top?_of_items (hs : s.Backed) (h : s.items = v :: rest) : s.top? = some v := by
  have hheight := height_of_items hs h
  have hvalue : s.values[rest.length]? = some v := by
    rw [values_of_items h, List.getElem?_append_right (by simp)]
    simp
  have hslot : s.slots[rest.length]? = some v := by
    rw [values, List.getElem?_take, if_pos (by omega), Array.getElem?_toList] at hvalue
    exact hvalue
  have hne : (s.height == 0) = false := by
    rw [hheight]
    rfl
  rw [top?, hne, hheight]
  exact hslot

theorem items_cut (hs : s.Backed) (h : s.items = l ++ rest) :
    (s.cut rest.length).items = rest := by
  have hle : rest.length ≤ s.height := by
    rw [← length_items hs, h, List.length_append]
    exact Nat.le_add_left _ _
  have hvalues : s.values = rest.reverse ++ l.reverse := by
    rw [← List.reverse_append, ← h, items, List.reverse_reverse]
  have hcut : (s.cut rest.length).values = s.values.take rest.length := by
    rw [values, values, List.take_take]
    show s.slots.toList.take rest.length = _
    rw [Nat.min_eq_left hle]
  rw [items, hcut, hvalues, List.take_left' (by simp), List.reverse_reverse]

theorem backed_cut_zero : (s.cut 0).Backed :=
  Nat.zero_le _

end OperandStack

/-!
# Instructions and their operands

An instruction first pops its operands and then works on them without looking at the stack. For
each operation the work is stated as a computation on operands that were popped; executing the
operation is that work, done with the operands off the stack.
-/

namespace Machine

/-- The machine with another store. -/
def withStore (m : Machine) (s : Store) : Machine :=
  { m with world := { m.world with store := s } }

/-- The machine with another operand stack. -/
def withStack (m : Machine) (s : OperandStack) : Machine :=
  { m with stack := s }

/-- The machine with only the lowest values left on its stack, as many as there are in `rest`. -/
def leaving (m : Machine) (rest : List Value) : Machine :=
  m.withStack (m.stack.cut rest.length)

/-- The values of the machine's stack are known, the top first. -/
structure Stacks (m : Machine) (l : List Value) : Prop where
  backed : m.stack.Backed
  items : m.stack.items = l

variable {m : Machine} {l rest : List Value}

theorem Stacks.leaving (h : m.Stacks (l ++ rest)) : (m.leaving rest).Stacks rest where
  backed := by
    refine OperandStack.backed_cut h.backed ?_
    rw [← OperandStack.length_items h.backed, h.items, List.length_append]
    exact Nat.le_add_left _ _
  items := OperandStack.items_cut h.backed h.items

theorem Stacks.leaving_self (h : m.Stacks l) : m.leaving l = m := by
  have hheight : l.length = m.stack.height := by
    rw [← h.items, OperandStack.length_items h.backed]
  unfold Machine.leaving OperandStack.cut
  rw [hheight]
  rfl

theorem Stacks.push (h : m.Stacks l) (v : Value) : (m.withStack (m.stack.push v)).Stacks (v :: l) where
  backed := OperandStack.backed_push h.backed v
  items := by
    show (m.stack.push v).items = _
    rw [OperandStack.items_push h.backed, h.items]

theorem Stacks.withStore (h : m.Stacks l) (s : Store) : (m.withStore s).Stacks l :=
  ⟨h.backed, h.items⟩

end Machine

namespace Exec

variable {α β : Type} {m m' : Machine}

theorem bind_of_ok {x : Exec α} {k : α → Exec β} {a : α} (h : x m = .ok a m') :
    (x >>= k) m = k a m' := by
  show EStateM.bind x k m = _
  unfold EStateM.bind
  rw [h]

theorem bind_of_error {x : Exec α} {k : α → Exec β} {e : Stop} (h : x m = .error e m') :
    (x >>= k) m = .error e m' := by
  show EStateM.bind x k m = _
  unfold EStateM.bind
  rw [h]

theorem bind_congr {x x' : Exec α} (h : x m = x' m') (k : α → Exec β) :
    (x >>= k) m = (x' >>= k) m' := by
  show EStateM.bind x k m = EStateM.bind x' k m'
  unfold EStateM.bind
  rw [h]

/-- Both results are the same; or both stop alike, and only the stacks differ, where the first one
still ends with `rest`. -/
inductive Like (rest : List Value) :
    EStateM.Result Stop Machine α → EStateM.Result Stop Machine α → Prop
  | same (r : EStateM.Result Stop Machine α) : Like rest r r
  | stop {e : Stop} {m : Machine} {st : OperandStack} (hst : st.Backed) (hrest : rest <:+ st.items) :
    Like rest (.error e (m.withStack st)) (.error e m)

theorem Like.of_eq {rest : List Value} {r r' : EStateM.Result Stop Machine α} (h : r = r') :
    Like rest r r' := by
  rw [h]
  exact .same r'

theorem Like.bind {rest : List Value} {x x' : Exec α} (h : Like rest (x m) (x' m'))
    (k : α → Exec β) : Like rest ((x >>= k) m) ((x' >>= k) m') := by
  generalize hr : x m = r at h
  generalize hr' : x' m' = r' at h
  cases h with
  | same =>
    cases r with
    | ok a m₁ =>
      rw [bind_of_ok hr, bind_of_ok hr']
      exact .same _
    | error e m₁ =>
      rw [bind_of_error hr, bind_of_error hr']
      exact .same _
  | stop hst hrest =>
    rw [bind_of_error hr, bind_of_error hr']
    exact .stop hst hrest

/-!
# Popping
-/

variable {v : Value} {l rest : List Value}

theorem top_eq (h : m.Stacks (v :: rest)) : top m = .ok v m := by
  unfold top
  rw [OperandStack.top?_of_items h.backed h.items]

theorem pop_eq (h : m.Stacks (v :: rest)) : pop m = .ok v (m.leaving rest) := by
  have hheight := OperandStack.height_of_items h.backed h.items
  have hdrop : m.stack.drop = m.stack.cut rest.length := by
    rw [OperandStack.drop, OperandStack.cut, hheight, Nat.add_sub_cancel]
  unfold pop
  rw [OperandStack.top?_of_items h.backed h.items, hdrop]
  rfl

theorem copy_eq (m : Machine) (v : Value) :
    copy v m = .ok (m.world.store.copy v).1 (m.withStore (m.world.store.copy v).2) := by
  cases v <;> rfl

theorem popCount_eq {n : Nat} (hn : n ≤ Slot.limit)
    (h : m.Stacks (.number (Number.ofNat n) :: rest)) :
    popCount m = .ok (n : Int) (m.leaving rest) := by
  have hlimit : Slot.limit = 17592186044416 := rfl
  have hword : n < 2 ^ 53 := by omega
  unfold popCount
  rw [bind_of_ok (pop_eq h)]
  show (if Number.ofNat n < 0 then crash _ else pure (Number.toWord (Number.ofNat n))) _ = _
  rw [if_neg (Number.ofNat_not_negative hword), Number.toWord_ofNat hword]
  rfl

theorem checkCount_eq {n : Nat} (hn : n ≤ Slot.limit) (m : Machine) :
    checkCount (n : Int) m = .ok n m := by
  have hlimit : Slot.limit = 17592186044416 := rfl
  have hfine : ((n : Int) < 0 || 0x100000000000 < (n : Int)) = false := by
    simp only [Bool.or_eq_false_iff, decide_eq_false_iff_not]
    omega
  unfold checkCount
  rw [hfine]
  rfl

/-- Copies values in order; the copy made last comes first. -/
def copyArgs : List Value → List Value → Exec (List Value)
  | [], acc => pure acc
  | v :: rest, acc => do
    let v ← copy v
    copyArgs rest (v :: acc)

/-- Copies values in order. -/
def copyItems : List Value → Array Value → Exec (Array Value)
  | [], acc => pure acc
  | v :: rest, acc => do
    let v ← copy v
    copyItems rest (acc.push v)

/-- Copies the values of pairs of key and value in order. -/
def copyEntries : List (Value × Value) → Table Value → Exec (Table Value)
  | [], acc => pure acc
  | (key, v) :: rest, acc => do
    let v ← copy v
    match key with
    | .text k => copyEntries rest (acc.insert k v)
    | _ => raise .typeMismatch "dict keys must be String"

/-- Parameters from their names and what was given for their guards. -/
def guardAll : List (Text × Value) → List Parameter → Exec (List Parameter)
  | [], acc => pure acc.reverse
  | (name, g) :: rest, acc => do
    let guard ← guardOf name g
    guardAll rest (⟨name, guard⟩ :: acc)

theorem popCopies_eq {acc : List Value} (h : m.Stacks (l ++ rest)) :
    popCopies l.length acc m = copyArgs l acc (m.leaving rest) := by
  induction l generalizing m acc with
  | nil =>
    have h : m.Stacks rest := h
    rw [h.leaving_self]
    rfl
  | cons v l ih =>
    have hrest : (m.leaving (l ++ rest)).Stacks (l ++ rest) := Machine.Stacks.leaving (l := [v]) h
    show (pop >>= fun v => copy v >>= fun v => popCopies l.length (v :: acc)) m =
      (copy v >>= fun v => copyArgs l (v :: acc)) (m.leaving rest)
    rw [bind_of_ok (pop_eq h), bind_of_ok (copy_eq _ v), bind_of_ok (copy_eq _ v)]
    exact ih (hrest.withStore _)

theorem popItems_eq {acc : Array Value} (h : m.Stacks (l ++ rest)) :
    popItems l.length acc m = copyItems l acc (m.leaving rest) := by
  induction l generalizing m acc with
  | nil =>
    have h : m.Stacks rest := h
    rw [h.leaving_self]
    rfl
  | cons v l ih =>
    have hrest : (m.leaving (l ++ rest)).Stacks (l ++ rest) := Machine.Stacks.leaving (l := [v]) h
    show (pop >>= fun v => copy v >>= fun v => popItems l.length (acc.push v)) m =
      (copy v >>= fun v => copyItems l (acc.push v)) (m.leaving rest)
    rw [bind_of_ok (pop_eq h), bind_of_ok (copy_eq _ v), bind_of_ok (copy_eq _ v)]
    exact ih (hrest.withStore _)

theorem popFields_eq {names acc : List Text} (h : m.Stacks (names.map Value.text ++ rest)) :
    popFields names.length acc m = .ok (acc.reverse ++ names) (m.leaving rest) := by
  induction names generalizing m acc with
  | nil =>
    have h : m.Stacks rest := h
    rw [h.leaving_self, List.append_nil]
    rfl
  | cons name names ih =>
    have hrest := Machine.Stacks.leaving (l := [Value.text name]) h
    have hnames := @ih _ (name :: acc) hrest
    rw [List.reverse_cons, List.append_assoc] at hnames
    show (pop >>= _) m = _
    rw [bind_of_ok (pop_eq h)]
    exact hnames

theorem guardOf_state {name : Text} {g : Value} {guard : Option TypeInfo}
    (h : guardOf name g m = .ok guard m') : m' = m := by
  cases g <;> cases h <;> rfl

theorem guardAll_state {params : List (Text × Value)} {acc ps : List Parameter}
    (h : guardAll params acc m = .ok ps m') : m' = m := by
  induction params generalizing m acc with
  | nil =>
    cases h
    rfl
  | cons param params ih =>
    obtain ⟨name, g⟩ := param
    have h : (guardOf name g >>= fun guard => guardAll params (⟨name, guard⟩ :: acc)) m = _ := h
    cases hguard : guardOf name g m with
    | ok guard m₁ =>
      rw [bind_of_ok hguard] at h
      rw [ih h, guardOf_state hguard]
    | error e m₁ =>
      rw [bind_of_error hguard] at h
      cases h

/-- The values of pairs as they stand on the stack. -/
def flatten : List (Value × Value) → List Value
  | [] => []
  | (key, v) :: rest => key :: v :: flatten rest

/-- A stop with some of the operands still on the stack. -/
theorem Like.stopped {e : Stop} {left : List Value} (h : m.Stacks (left ++ rest)) :
    Like rest (.error e m : EStateM.Result Stop Machine α) (.error e (m.leaving rest)) := by
  have hstop := @Like.stop α rest e (m.leaving rest) m.stack h.backed
    ⟨left, by rw [h.items]⟩
  exact hstop

theorem popEntries_like {pairs : List (Value × Value)} {acc : Table Value}
    (h : m.Stacks (flatten pairs ++ rest)) :
    Like rest (popEntries pairs.length acc m) (copyEntries pairs acc (m.leaving rest)) := by
  induction pairs generalizing m acc with
  | nil =>
    have h : m.Stacks rest := h
    rw [h.leaving_self]
    exact .same _
  | cons pair pairs ih =>
    obtain ⟨key, v⟩ := pair
    have h : m.Stacks (key :: v :: (flatten pairs ++ rest)) := h
    have hvalue : (m.leaving (v :: (flatten pairs ++ rest))).Stacks (v :: (flatten pairs ++ rest)) :=
      Machine.Stacks.leaving (l := [key]) h
    have hrest := (Machine.Stacks.leaving (l := [v]) hvalue).withStore (m.world.store.copy v).2
    show Like rest ((pop >>= fun key => pop >>= fun v => copy v >>= _) m)
      ((copy v >>= _) (m.leaving rest))
    rw [bind_of_ok (pop_eq h), bind_of_ok (pop_eq hvalue), bind_of_ok (copy_eq _ v),
      bind_of_ok (copy_eq _ v)]
    cases key with
    | text k => exact ih hrest
    | _ => exact Like.stopped hrest

theorem popParams_like {params : List (Text × Value)} {acc : List Parameter}
    (h : m.Stacks (flatten (params.map fun p => (.text p.1, p.2)) ++ rest)) :
    Like rest (popParams params.length acc m) (guardAll params acc (m.leaving rest)) := by
  induction params generalizing m acc with
  | nil =>
    have h : m.Stacks rest := h
    rw [h.leaving_self]
    exact .same _
  | cons param params ih =>
    obtain ⟨name, g⟩ := param
    obtain ⟨below, hbelow⟩ : ∃ below, below =
      flatten (params.map fun p => (Value.text p.1, p.2)) := ⟨_, rfl⟩
    have h : m.Stacks (.text name :: g :: (below ++ rest)) := by
      rw [hbelow]
      exact h
    have hguard : (m.leaving (g :: (below ++ rest))).Stacks (g :: (below ++ rest)) :=
      Machine.Stacks.leaving (l := [.text name]) h
    have hrest : (m.leaving (below ++ rest)).Stacks (below ++ rest) :=
      Machine.Stacks.leaving (l := [.text name, g]) h
    show Like rest ((pop >>= _) m) ((guardOf name g >>= _) (m.leaving rest))
    rw [bind_of_ok (pop_eq h)]
    show Like rest ((pop >>= fun g => guardOf name g >>= _) _) _
    rw [bind_of_ok (pop_eq hguard)]
    show Like rest ((guardOf name g >>= _) (m.leaving (below ++ rest))) _
    have hstart : ∀ guard, Like rest
        (popParams params.length (⟨name, guard⟩ :: acc) (m.leaving (below ++ rest)))
        (guardAll params (⟨name, guard⟩ :: acc) (m.leaving rest)) := by
      intro guard
      have hrest := hrest
      rw [hbelow] at hrest ⊢
      exact ih hrest
    cases g with
    | null => exact hstart none
    | type t => exact hstart (some t)
    | _ => exact Like.stopped hrest

/-!
# The work of operations

What is left of each operation when its operands are known.
-/

/-- Pushes a result and goes on. -/
def result (x : Exec Value) : Exec Next := do
  let v ← x
  push v
  pure .next

/-- A new list of copies. -/
def listOf (items : List Value) : Exec Value := do
  let items ← copyItems items #[]
  onStore fun s =>
    let (id, s) := s.newList items
    (.list id, s)

/-- A new dict of copies. -/
def dictOf (pairs : List (Value × Value)) : Exec Value := do
  let entries ← copyEntries pairs Table.empty
  onStore fun s =>
    let (id, s) := s.newDict entries
    (.dict id, s)

/-- A new closure whose body begins at `entry`. -/
def closureOf (params : List (Text × Value)) (entry : Int) : Exec Value := do
  let params ← guardAll params []
  let frame ← reads (·.frame)
  onStore fun s =>
    let (id, s) := s.newClosure ⟨entry, frame, params, Text.empty, none⟩
    (.closure id, s)

/-- Applies an operator to copied operands. -/
def applyOperator (op : Text) (args : List Value) : Exec Next := do
  match args with
  | [] => crash "DISPATCH without operands"
  | first :: rest =>
    match ← operator op first with
    | some callee => callValue callee args
    | none => do
      let t ← typeName first
      match rest with
      | [second] => do
        let u ← typeName second
        raise .typeMismatch ("cannot apply " ++ op ++ " to " ++ t ++ " and " ++ u)
      | _ => raise .typeMismatch ("cannot apply " ++ op ++ " to " ++ t)

/-- The value of a variable. -/
def valueOf (name : Text) : Exec Value := do
  match ← reads fun m => m.resolve name with
  | some v => pure v
  | none => raise .unbound (unbound name)

/-- Writes a copy of a value to a target, and gives back the copy. -/
def place (scope : Scope) (name target value : Value) : Exec Value := do
  let value ← copy value
  match target with
  | .empty =>
    match name with
    | .text key =>
      nameClosure value key
      bindName scope key value
      pure value
    | _ => crash "assignment name is not a String"
  | target =>
    setMember target name value
    pure value

def negated (v : Value) : Exec Value :=
  match v with
  | .number x => pure (.number (-x))
  | v => do
    let t ← typeName v
    raise .invalidOperand ("cannot negate " ++ t)

def inverted (v : Value) : Exec Value := do
  let b ← condition v
  pure (.boolean (!b))

/-- Returns a value to the caller. -/
def giveBack (v : Value) : Exec Next := do
  match ← reads fun m => m.calls.back? with
  | none => pure (.done v)
  | some record => do
    let boundary ← reads fun m =>
      (m.world.store.boundary m.frame).bind fun b => m.world.store.frame? b
    modify fun m => { m with calls := m.calls.pop }
    match boundary with
    | none => crash absent
    | some b => do
      tell fun _ => "return from " ++ b.name
      modify fun m =>
        { m with
          frame := b.caller
          captured := m.captured.pop
          stack := m.stack.cut record.depth }
      if record.reentry then pure (.done v)
      else
        push v
        modify fun m => { m with ip := record.callIp }
        pure .next

theorem bind_assoc {γ : Type} (x : Exec α) (f : α → Exec β) (g : β → Exec γ) :
    x >>= f >>= g = x >>= fun a => f a >>= g := by
  funext m
  cases h : x m with
  | ok a m₁ =>
    rw [bind_of_ok h]
    cases h' : f a m₁ with
    | ok b m₂ => rw [bind_of_ok h', bind_of_ok (by rw [bind_of_ok h, h'])]
    | error e m₂ => rw [bind_of_error h', bind_of_error (by rw [bind_of_ok h, h'])]
  | error e m₁ => rw [bind_of_error h, bind_of_error (by rw [bind_of_error h])]

theorem popArgs_eq {n : Nat} (hn : n ≤ Slot.limit) (hl : l.length = n)
    (h : m.Stacks (.number (Number.ofNat n) :: (l ++ rest))) :
    popArgs m = copyArgs l [] (m.leaving rest) := by
  have hrest : (m.leaving (l ++ rest)).Stacks (l ++ rest) := Machine.Stacks.leaving (l := [_]) h
  unfold popArgs
  rw [bind_of_ok (popCount_eq hn h), bind_of_ok (checkCount_eq hn _), ← hl]
  exact popCopies_eq hrest

theorem step_buildList {n : Nat} (hn : n ≤ Slot.limit) (hl : l.length = n)
    (h : m.Stacks (.number (Number.ofNat n) :: (l ++ rest))) :
    step .buildList m = result (listOf l) (m.leaving rest) := by
  have hrest : (m.leaving (l ++ rest)).Stacks (l ++ rest) := Machine.Stacks.leaving (l := [_]) h
  show (popCount >>= fun n => checkCount n >>= fun n => popItems n #[] >>= _) m = _
  rw [bind_of_ok (popCount_eq hn h), bind_of_ok (checkCount_eq hn _), ← hl]
  unfold result listOf
  rw [bind_assoc]
  exact bind_congr (popItems_eq hrest) _

theorem step_buildDict {n : Nat} {pairs : List (Value × Value)} (hn : n ≤ Slot.limit)
    (hl : pairs.length = n) (h : m.Stacks (.number (Number.ofNat n) :: (flatten pairs ++ rest))) :
    Like rest (step .buildDict m) (result (dictOf pairs) (m.leaving rest)) := by
  have hrest : (m.leaving (flatten pairs ++ rest)).Stacks (flatten pairs ++ rest) :=
    Machine.Stacks.leaving (l := [_]) h
  show Like rest ((popCount >>= fun n => popEntries n.toNat Table.empty >>= _) m) _
  rw [bind_of_ok (popCount_eq hn h), ← hl]
  unfold result dictOf
  rw [bind_assoc]
  exact (popEntries_like hrest).bind _

theorem step_buildType {n : Nat} {name : Text} {names : List Text} (hn : n ≤ Slot.limit)
    (hl : names.length = n)
    (h : m.Stacks (.number (Number.ofNat n) :: (names.map Value.text ++ rest))) :
    step (.buildType name) m =
      result (pure (.type (TypeInfo.ofFields name names))) (m.leaving rest) := by
  have hrest : (m.leaving (names.map Value.text ++ rest)).Stacks (names.map Value.text ++ rest) :=
    Machine.Stacks.leaving (l := [_]) h
  show (popCount >>= fun n => checkCount n >>= fun n => popFields n [] >>= _) m = _
  rw [bind_of_ok (popCount_eq hn h), bind_of_ok (checkCount_eq hn _), ← hl,
    bind_of_ok (popFields_eq hrest)]
  rfl

theorem step_buildFunc {n : Nat} {d : Int} {params : List (Text × Value)} (hn : n ≤ Slot.limit)
    (hl : params.length = n)
    (h : m.Stacks (.number (Number.ofNat n) ::
      (flatten (params.map fun p => (.text p.1, p.2)) ++ rest))) :
    Like rest (step (.buildFunc d) m)
      ((closureOf params (m.ip + 1) >>= fun v => push v >>= fun _ => pure (.skip d))
        (m.leaving rest)) := by
  have hrest := Machine.Stacks.leaving (l := [_]) h
  show Like rest (((popCount >>= fun n => checkCount n >>= fun n => popParams n [] >>= _) >>= _) m) _
  refine Like.bind ?_ _
  rw [bind_of_ok (popCount_eq hn h), bind_of_ok (checkCount_eq hn _), ← hl]
  have hpops : Like rest (popParams params.length [] _) (guardAll params [] _) :=
    popParams_like hrest
  have hparams := hpops.bind fun params => do
    let ip ← reads (·.ip)
    let frame ← reads (·.frame)
    onStore fun s =>
      let (id, s) := s.newClosure ⟨ip + 1, frame, params, Text.empty, none⟩
      (Value.closure id, s)
  have hwork : (guardAll params [] >>= fun params => do
      let ip ← reads (·.ip)
      let frame ← reads (·.frame)
      onStore fun s =>
        let (id, s) := s.newClosure ⟨ip + 1, frame, params, Text.empty, none⟩
        (Value.closure id, s)) (m.leaving rest) = closureOf params (m.ip + 1) (m.leaving rest) := by
    unfold closureOf
    cases hguards : guardAll params [] (m.leaving rest) with
    | ok ps m' =>
      have hsame := guardAll_state hguards
      subst hsame
      rw [bind_of_ok hguards, bind_of_ok hguards]
      rfl
    | error e m' => rw [bind_of_error hguards, bind_of_error hguards]
  rw [← hwork]
  exact hparams

theorem step_jumpPeek {expected : Bool} {d : Int} (h : m.Stacks (v :: rest)) :
    step (.jumpPeek expected d) m =
      (condition v >>= fun b => pure (if b == expected then .skip d else .next)) m := by
  show (top >>= _) m = _
  rw [bind_of_ok (top_eq h)]

theorem step_jumpIfFalse {d : Int} (h : m.Stacks (v :: rest)) :
    step (.jumpIfFalse d) m =
      (condition v >>= fun b => pure (if b then .next else .skip d)) (m.leaving rest) := by
  show (pop >>= _) m = _
  rw [bind_of_ok (pop_eq h)]

theorem step_call {callee : Value} {n : Nat} (hn : n ≤ Slot.limit) (hl : l.length = n)
    (h : m.Stacks (callee :: .number (Number.ofNat n) :: (l ++ rest))) :
    step .call m = (copyArgs l [] >>= callValue callee) (m.leaving rest) := by
  have hrest : (m.leaving (.number (Number.ofNat n) :: (l ++ rest))).Stacks
    (.number (Number.ofNat n) :: (l ++ rest)) := Machine.Stacks.leaving (l := [_]) h
  show (pop >>= fun callee => popArgs >>= callValue callee) m = _
  rw [bind_of_ok (pop_eq h)]
  exact bind_congr (popArgs_eq hn hl hrest) _

theorem step_dispatch {op : Text} {n : Nat} (hn : n ≤ Slot.limit) (hl : l.length = n)
    (h : m.Stacks (.number (Number.ofNat n) :: (l ++ rest))) :
    step (.dispatch op) m = (copyArgs l [] >>= applyOperator op) (m.leaving rest) := by
  show (popArgs >>= applyOperator op) m = _
  exact bind_congr (popArgs_eq hn hl h) _

theorem step_ret (h : m.Stacks (v :: rest)) : step .ret m = giveBack v (m.leaving rest) := by
  show (pop >>= giveBack) m = _
  rw [bind_of_ok (pop_eq h)]

theorem step_getVar (name : Text) (m : Machine) :
    step (.getVar name) m = result (valueOf name) m := by
  unfold result valueOf
  rw [bind_assoc]
  show (reads (fun m => m.resolve name) >>= _) m = _
  rw [bind_of_ok (show reads (fun m => m.resolve name) m = .ok (m.resolve name) m from rfl),
    bind_of_ok (show reads (fun m => m.resolve name) m = .ok (m.resolve name) m from rfl)]
  cases m.resolve name <;> rfl

theorem step_getMember {key object : Value} (h : m.Stacks (key :: object :: rest)) :
    step .getMember m = result (member object key) (m.leaving rest) := by
  have hobject : (m.leaving (object :: rest)).Stacks (object :: rest) :=
    Machine.Stacks.leaving (l := [key]) h
  show (pop >>= fun key => pop >>= fun object => member object key >>= _) m = _
  rw [bind_of_ok (pop_eq h), bind_of_ok (pop_eq hobject)]
  rfl

theorem step_assign {scope : Scope} {name target value : Value}
    (h : m.Stacks (name :: target :: value :: rest)) :
    step (.assign scope) m = result (place scope name target value) (m.leaving rest) := by
  have htarget : (m.leaving (target :: value :: rest)).Stacks (target :: value :: rest) :=
    Machine.Stacks.leaving (l := [name]) h
  have hvalue : ((m.leaving (target :: value :: rest)).leaving (value :: rest)).Stacks
    (value :: rest) := Machine.Stacks.leaving (l := [target]) htarget
  show (assign scope >>= fun _ => pure Next.next) m = _
  unfold assign result place
  rw [bind_assoc, bind_of_ok (pop_eq h), bind_assoc, bind_of_ok (pop_eq htarget), bind_assoc,
    bind_of_ok (pop_eq hvalue), bind_assoc, bind_assoc, bind_of_ok (copy_eq _ _),
    bind_of_ok (copy_eq _ _)]
  cases target with
  | empty =>
    cases name with
    | text key =>
      simp only [bind_assoc]
      rfl
    | _ => rfl
  | _ =>
    simp only [bind_assoc]
    rfl

theorem step_negate (h : m.Stacks (v :: rest)) :
    step .negate m = result (negated v) (m.leaving rest) := by
  show (pop >>= _) m = _
  rw [bind_of_ok (pop_eq h)]
  cases v <;> rfl

theorem step_not (h : m.Stacks (v :: rest)) :
    step .not m = result (inverted v) (m.leaving rest) := by
  show (pop >>= fun v => condition v >>= _) m = _
  rw [bind_of_ok (pop_eq h)]
  unfold result inverted
  rw [bind_assoc]
  rfl

theorem step_pop (h : m.Stacks (v :: rest)) : step .pop m = .ok .next (m.leaving rest) := by
  show (pop >>= _) m = _
  rw [bind_of_ok (pop_eq h)]
  rfl

/-!
# Entering closures

A closure is entered in two parts: checks, which may refuse the call, and the move into its body.
-/

/-- The checks before a closure is entered. -/
def checkCall (c : Closure) (args : List Value) : Exec Unit := do
  let name := Store.closureName c
  let all := withReceiver c.receiver args
  let expected : Int := c.params.length - (if c.receiver.isSome then 1 else 0)
  if all.length != c.params.length then raise .arity (wrongArity name expected args.length)
  checkGuards name c.params all
  let limit ← reads (·.options.maxDepth)
  if limit ≤ (← reads (·.calls.size)) then
    raise .callDepth ("call depth exceeds " ++ Text.ofNat limit ++ " in " ++ name)

end Exec

/-- The boundary frame of a call. -/
def Machine.callFrame (m : Machine) (c : Closure) (args : List Value) (native : Text) : Frame :=
  ⟨Table.ofList (List.zip (c.params.map (·.name)) (Exec.withReceiver c.receiver args)), c.frame,
    .boundary (Store.closureName c) (m.spanAt m.ip) m.frame native⟩

/-- The engine inside a closure that was admitted. -/
def Machine.entered (m : Machine) (c : Closure) (args : List Value) (reentry : Bool)
    (native : Text) : Machine :=
  let (frame, store) := m.world.store.newFrame (m.callFrame c args native)
  let m' := { m.withStore store with
    calls := m.calls.push ⟨m.ip, m.stack.height, reentry⟩
    captured := m.captured.push c.frame
    frame := some frame
    ip := c.entry }
  m'.tell .debug fun m =>
    "call " ++ Store.closureName c ++ " (depth " ++ Text.ofNat m.calls.size ++ ")"

namespace Exec

/-- Moves into a closure that was admitted. -/
def enter (c : Closure) (args : List Value) (reentry : Bool) (native : Text) : Exec Unit :=
  fun m => .ok () (m.entered c args reentry native)

theorem enterClosure_eq (c : Closure) (args : List Value) (reentry : Bool) (native : Text)
    (m : Machine) :
    enterClosure c args reentry native m =
      (checkCall c args >>= fun _ => enter c args reentry native) m := by
  unfold enterClosure checkCall
  dsimp only
  by_cases harity : ((withReceiver c.receiver args).length != c.params.length) = true
  · rw [if_pos harity, if_pos harity]
    rfl
  · rw [if_neg harity, if_neg harity, bind_assoc]
    cases hguards : checkGuards (Store.closureName c) c.params (withReceiver c.receiver args) m with
    | error e m' => rw [bind_of_error hguards, bind_of_error hguards]
    | ok u m' =>
      rw [bind_of_ok hguards, bind_of_ok hguards]
      show (if m'.options.maxDepth ≤ m'.calls.size then (_ : Exec Unit) else (_ : Exec Unit)) m' =
        ((if m'.options.maxDepth ≤ m'.calls.size then (_ : Exec Unit) else (_ : Exec Unit)) >>=
          fun _ => enter c args reentry native) m'
      by_cases hdepth : m'.options.maxDepth ≤ m'.calls.size
      · rw [if_pos hdepth, if_pos hdepth]
        rfl
      · rw [if_neg hdepth, if_neg hdepth]
        rfl

end Exec
end ScriptEngine
