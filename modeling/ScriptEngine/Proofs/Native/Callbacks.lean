import ScriptEngine.Proofs.Execution.Equality

/-!
# Methods of lists that call back

The methods read the row of cells that the list had when they began, and as many cells as the list had
elements then: each callback gets what its cell holds when it is called. So callbacks that leave these
cells alone see the list as it was, and others may see what they or earlier ones moved there.
-/

namespace ScriptEngine

/-- A call that was answered with a value: what it was given, and the store in front of it and behind
it. -/
structure Exchange where
  args : List Value
  before : Store
  result : Value
  after : Store

/-- The second state comes after the first one, and nothing was handed to the work on top of the first
one in between. -/
inductive State.Beneath (s : State) : State → Prop
  | asked {t : State} (hnext : s.advance = .next t) : Beneath s t
  | deeper {t u : State} (h : Beneath s t) (hdeep : s.pending.length < t.pending.length)
    (hnext : t.advance = .next u) : Beneath s u

/-- From the first state on, the work on top has the engine call `f` time and again, each time with a
value for an answer; in the second state the last answer was taken up. -/
inductive State.Exchanges (f : Value) : State → List Exchange → State → Prop
  | nil {s : State} : Exchanges f s [] s
  | cons {s t u v : State} {args : List Value} {result : Value} {xs : List Exchange}
    (hasked : s.mode = .invoking f args) (hbeneath : s.Beneath t) (hpending : t.pending = s.pending)
    (hanswer : t.mode = .delivering (.ok result)) (hnext : t.advance = .next u)
    (hrest : Exchanges f u xs v) :
    Exchanges f s (⟨args, s.machine.world.store, result, t.machine.world.store⟩ :: xs) v

/-- Between the calls the store stays as it is. -/
def Exchange.Linked : Store → List Exchange → Store → Prop
  | s, [], s' => s' = s
  | s, x :: xs, s' => x.before = s ∧ Linked x.after xs s'

namespace Native

/-- The methods that call back. -/
inductive Walker where
  | map
  | filter
  | each
  deriving DecidableEq

namespace Walker

def name : Walker → String
  | map => "map"
  | filter => "filter"
  | each => "each"

def collect : Walker → Collector
  | map => keepResult
  | filter => keepIf
  | each => keepNothing

def finish : Walker → Nat → List Value → World → Action
  | map | filter => finishList
  | each => fun _ _ w => .done (some .null) w

def primitive (k : Walker) : Primitive :=
  callbackMethod k.name k.collect k.finish

/-- The answers that the method can do something with. -/
def Accepts : Walker → Value → Prop
  | filter, v => ∃ b, v = .boolean b
  | _, _ => True

/-- What the method keeps of the arguments and answers. -/
def kept : Walker → List Exchange → List Value
  | map, xs => xs.map (·.result)
  | filter, xs => (xs.filter fun x => x.result matches .boolean true).flatMap (·.args)
  | each, _ => []

/-- The value that the method ends with, and the store that it leaves: a new list of what it kept, or
null. -/
def Gives (k : Walker) (items : List Value) (before after : Store) (v : Value) : Prop :=
  match k with
  | each => v = .null ∧ after = before
  | _ => ∃ capacity, (v, after) = (before.newListIn items.toArray capacity).map Value.list id

theorem primitive_mem (k : Walker) : k.primitive ∈ listPrimitives := by
  cases k <;> simp [primitive, listPrimitives, name, collect, finish]

variable {k : Walker} {x : Exchange} {xs : List Exchange} {v a : Value} {s : Store}

theorem kept_nil : k.kept [] = [] := by
  cases k <;> rfl

theorem kept_cons : k.kept (x :: xs) = k.kept [x] ++ k.kept xs := by
  cases k with
  | map => rfl
  | filter =>
    unfold kept
    rw [← List.flatMap_append, ← List.filter_append, List.singleton_append]
  | each => rfl

/-- An answer that is accepted adds what the method keeps of this one call. -/
theorem collect_accepted (h : k.Accepts v) (before after : Store) :
    k.collect s a v = .ok (k.kept [⟨[a], before, v, after⟩]) := by
  cases k with
  | map => rfl
  | filter =>
    obtain ⟨b, rfl⟩ := h
    cases b <;> rfl
  | each => rfl

theorem collect_refused (h : ¬ k.Accepts v) : ∃ e, k.collect s a v = .error e := by
  cases k with
  | filter =>
    cases v with
    | boolean b => exact (h ⟨b, rfl⟩).elim
    | _ => exact ⟨_, rfl⟩
  | _ => exact (h trivial).elim

/-- Of one call the method keeps one value or nothing. -/
theorem reverse_kept_one (h : k.Accepts v) (before after : Store) :
    (k.kept [⟨[a], before, v, after⟩]).reverse = k.kept [⟨[a], before, v, after⟩] := by
  cases k with
  | map => rfl
  | filter =>
    obtain ⟨b, rfl⟩ := h
    cases b <;> rfl
  | each => rfl

/-- Ending the method gives its value. -/
theorem follow_finish (m : Machine) (pending : List Pending) (n : NativeInfo) (snapshot : Snapshot)
    (capacity : Nat) (items : List Value) (w : World) :
    ∃ m' v, State.follow m pending n snapshot (k.finish capacity items w) =
        .next ⟨m', pending, .delivering (.ok v)⟩ ∧
      k.Gives items w.store m'.world.store v := by
  cases k with
  | map => exact ⟨_, _, rfl, capacity, rfl⟩
  | filter => exact ⟨_, _, rfl, capacity, rfl⟩
  | each => exact ⟨_, _, rfl, rfl, rfl⟩

end Walker
end Native

open Native

/-- The calls that a method makes from position `i` of a row on, with `n` cells left and some values
kept before: each is given what the next cell holds by then; after fewer than `n` answers the next call
is asked for, and after `n` of them the method has ended. -/
structure State.WalksRow (k : Walker) (f : Value) (row i n : Nat) (kept : List Value)
    (pending : List Pending) (before : Store) (xs : List Exchange) (s : State) : Prop where
  bounded : xs.length ≤ n
  args : ∀ (j : Nat) (x : Exchange), xs[j]? = some x → x.args = [x.before.rowGet row (i + j)]
  onward : ∃ after, Exchange.Linked before xs after ∧ ((∀ x ∈ xs, k.Accepts x.result) →
    (xs.length < n → s.mode = .invoking f [after.rowGet row (i + xs.length)] ∧
      s.machine.world.store = after) ∧
    (xs.length = n → ∃ v, s.mode = .delivering (.ok v) ∧ s.pending = pending ∧
      k.Gives (kept ++ k.kept xs) after s.machine.world.store v))

section
variable {k : Walker} {f : Value} {row i n capacity : Nat} {kept : List Value}
  {pending : List Pending} {m : Machine} {nat : NativeInfo} {snapshot : Snapshot} {w : World}
  {s s' u t : State} {xs : List Exchange} {x : Exchange}

namespace State

theorem failNative_mode {e : Fault} (h : failNative m pending nat snapshot e = .next u) :
    ∃ m' e', u = ⟨m', pending, .delivering (.error e')⟩ := by
  unfold failNative at h
  dsimp only at h
  split at h
  · cases h
    exact ⟨_, _, rfl⟩
  · cases h

theorem follow_callback (m : Machine) (pending : List Pending) (nat : NativeInfo)
    (snapshot : Snapshot) (row n capacity : Nat) (kept : List Value) (w : World) :
    ∃ u, follow m pending nat snapshot (callback f row k.collect (k.finish capacity) n i kept w) =
      .next u := by
  cases n with
  | zero =>
    obtain ⟨m', v, hfollow, -⟩ := k.follow_finish m pending nat snapshot capacity kept.reverse w
    exact ⟨_, hfollow⟩
  | succ n => exact ⟨_, rfl⟩

/-- A method that is to go on at a cell has `f` called on it, or has ended. -/
theorem walksRow_nil (hnext : follow m pending nat snapshot
      (callback f row k.collect (k.finish capacity) n i kept.reverse w) = .next u) :
    WalksRow k f row i n kept pending w.store [] u := by
  refine ⟨Nat.zero_le n, fun j x hx => by simp at hx, w.store, rfl, fun _ => ⟨fun hn => ?_, ?_⟩⟩
  · obtain ⟨n, rfl⟩ := Nat.exists_eq_succ_of_ne_zero (Nat.ne_of_gt hn)
    cases hnext
    exact ⟨rfl, rfl⟩
  · rintro rfl
    obtain ⟨m', v, hfollow, hgives⟩ :=
      k.follow_finish m pending nat snapshot capacity (kept.reverse.reverse) w
    unfold callback at hnext
    cases hfollow.symm.trans hnext
    rw [List.reverse_reverse] at hgives
    refine ⟨v, rfl, rfl, ?_⟩
    rw [Walker.kept_nil, List.append_nil]
    exact hgives

/-- One call on the next cell in front of the others. -/
theorem WalksRow.cons (hargs : x.args = [x.before.rowGet row i])
    (h : WalksRow k f row (i + 1) n (kept ++ k.kept [x]) pending x.after xs s) :
    WalksRow k f row i (n + 1) kept pending x.before (x :: xs) s := by
  obtain ⟨after, hlinked, honward⟩ := h.onward
  refine ⟨Nat.succ_le_succ h.bounded, fun j y hy => ?_, after, ⟨rfl, hlinked⟩, fun hall => ?_⟩
  · cases j with
    | zero =>
      cases hy
      exact hargs
    | succ j => rw [h.args j y hy, Nat.add_right_comm, Nat.add_assoc]
  · obtain ⟨hasks, hends⟩ := honward fun y hy => hall y (List.mem_cons_of_mem _ hy)
    refine ⟨fun hn => ?_, fun hn => ?_⟩
    · obtain ⟨hmode, hstore⟩ := hasks (Nat.lt_of_succ_lt_succ hn)
      refine ⟨?_, hstore⟩
      rw [hmode, List.length_cons, Nat.add_right_comm, Nat.add_assoc]
    · obtain ⟨v, hmode, hp, hgives⟩ := hends (Nat.succ.inj hn)
      refine ⟨v, hmode, hp, ?_⟩
      rw [Walker.kept_cons, ← List.append_assoc]
      exact hgives

/-- One call whose answer the method refuses. -/
theorem WalksRow.refused (hargs : x.args = [x.before.rowGet row i])
    (h : ¬ k.Accepts x.result) : WalksRow k f row i (n + 1) kept pending x.before [x] s := by
  refine ⟨Nat.succ_le_succ (Nat.zero_le n), fun j y hy => ?_, x.after, ⟨rfl, rfl⟩, fun hall =>
    (h (hall x (List.mem_singleton_self x))).elim⟩
  cases j with
  | zero =>
    cases hy
    exact hargs
  | succ j => cases hy

/-- A method that goes on at a cell makes its calls in turn. The induction is on the calls. -/
theorem walksRow_callback (hnext : follow m pending nat snapshot
      (callback f row k.collect (k.finish capacity) n i kept.reverse w) = .next u)
    (h : u.Exchanges f xs t) : WalksRow k f row i n kept pending w.store xs t := by
  induction xs generalizing m n i kept w u with
  | nil =>
    cases h
    exact walksRow_nil hnext
  | cons x xs ih =>
    cases h with
    | @cons _ s' u' _ args result _ hasked hbeneath hpending hanswer hlast hrest =>
      cases n with
      | zero =>
        obtain ⟨m', v, hfollow, -⟩ :=
          k.follow_finish m pending nat snapshot capacity (kept.reverse.reverse) w
        unfold callback at hnext
        cases hfollow.symm.trans hnext
        cases hasked
      | succ n =>
        cases hnext
        cases hasked
        obtain ⟨m', pending', mode'⟩ := s'
        cases hpending
        cases hanswer
        by_cases haccepts : k.Accepts result
        · refine WalksRow.cons (x := ⟨_, w.store, result, m'.world.store⟩) rfl
            (ih (m := { m' with world := default }) ?_ hrest)
          rw [← hlast, List.reverse_append, Walker.reverse_kept_one haccepts]
          show _ = follow _ _ _ _ _
          dsimp only
          rw [Walker.collect_accepted haccepts w.store m'.world.store]
        · obtain ⟨e, hcollect⟩ := Walker.collect_refused (s := m'.world.store)
            (a := w.store.rowGet row i) haccepts
          have hfails : failNative m' pending nat snapshot e = .next u' := by
            rw [← hlast]
            show _ = follow _ _ _ _ _
            dsimp only
            rw [hcollect]
            rfl
          cases hrest with
          | nil => exact WalksRow.refused (x := ⟨_, w.store, result, m'.world.store⟩) rfl haccepts
          | cons hasked =>
            obtain ⟨m₂, e', rfl⟩ := failNative_mode hfails
            cases hasked

end State

/-- Where no call changes the first cells of a row, each finds what they held in the beginning. -/
theorem Exchange.Linked.rowGet_eq {st st' : Store} {size : Nat} (h : Exchange.Linked st xs st')
    (hleft : ∀ x ∈ xs, ∀ i < size, x.after.rowGet row i = x.before.rowGet row i) {j : Nat}
    (hj : xs[j]? = some x) (hi : i < size) : x.before.rowGet row i = st.rowGet row i := by
  induction xs generalizing st j with
  | nil => cases hj
  | cons y ys ih =>
    obtain ⟨rfl, hrest⟩ := h
    cases j with
    | zero =>
      cases hj
      rfl
    | succ j =>
      rw [ih hrest (fun z hz => hleft z (List.mem_cons_of_mem _ hz)) hj]
      exact hleft y List.mem_cons_self i hi

theorem Store.items_getElem? {st : Store} {l : ListId} (hi : i < st.listSize l) :
    (st.items l)[i]?.getD .null = st.rowGet (st.window l).row i := by
  unfold Store.items Store.rowGet
  dsimp only
  split
  · rfl
  · rw [Array.getElem?_extract, Nat.zero_add]
    split
    · rfl
    · rename_i hout
      rw [Array.getElem?_eq_none (by unfold listSize at hi; omega)]

/-- The methods `map`, `filter` and `each` of a list read its row cell by cell. The calls of `f` are at
most as many as the list had elements when the method began, and while none fails just as many: the
call at position `i` is given what cell `i` of the row that the list had then holds by now, which is the
element the list had then if no call changed these cells. When all calls were answered, `map` gives the
answers in order, `filter` the arguments whose answer was true, and `each` null. -/
theorem callbacks_read_row (k : Walker) (m : Machine) (pending : List Pending) (method : NativeInfo)
    (l : ListId) (f : Value) (hnatives : m.natives.size < nativeLimit)
    (harity : method.arity = k.primitive.arity)
    (hbehaviour : m.library.behaviour method = k.primitive.behaviour) :
    ∃ u, State.advance ⟨m, pending, .invoking (.bound method (.list l)) [f]⟩ = .next u ∧
      ∀ xs t, u.Exchanges f xs t →
        State.WalksRow k f (m.world.store.window l).row 0 (m.world.store.listSize l) [] pending
          m.world.store xs t ∧
        ((∀ x ∈ xs, ∀ i < m.world.store.listSize l,
            x.after.rowGet (m.world.store.window l).row i =
              x.before.rowGet (m.world.store.window l).row i) →
          ∀ (i : Nat) (x : Exchange), xs[i]? = some x →
            x.args = [(m.world.store.items l)[i]?.getD .null]) := by
  obtain ⟨m', hm'⟩ : ∃ m' : Machine,
      m' = { m with world := default, natives := m.natives.push method.name } := ⟨_, rfl⟩
  have hadvance : State.advance ⟨m, pending, .invoking (.bound method (.list l)) [f]⟩ =
      State.follow m' pending method m.snapshot (callback f (m.world.store.window l).row k.collect
        (k.finish (m.world.store.listSize l)) (m.world.store.listSize l) 0
        ([] : List Value).reverse m.world) := by
    subst hm'
    show State.startNative m pending method (some (.list l)) [f] = _
    unfold State.startNative State.enterNative State.handOver
    simp only [harity, Exec.withReceiver, List.length_cons, List.length_nil, hbehaviour,
      Nat.not_le_of_lt hnatives, if_false]
    rfl
  obtain ⟨u, hu⟩ := State.follow_callback (k := k) (f := f) (i := 0) m' pending method m.snapshot
    (m.world.store.window l).row (m.world.store.listSize l) (m.world.store.listSize l) [] m.world
  refine ⟨u, hadvance.trans hu, fun xs t ht => ?_⟩
  have hwalks : State.WalksRow k f (m.world.store.window l).row 0 (m.world.store.listSize l) [] pending
      m.world.store xs t := State.walksRow_callback hu ht
  refine ⟨hwalks, fun hleft i x hx => ?_⟩
  obtain ⟨after, hlinked, -⟩ := hwalks.onward
  have hi : i < m.world.store.listSize l :=
    Nat.lt_of_lt_of_le (List.getElem?_eq_some_iff.mp hx).1 hwalks.bounded
  rw [hwalks.args i x hx, Nat.zero_add, hlinked.rowGet_eq hleft hx hi, Store.items_getElem? hi]

end

/-- An engine with a list of one truth value. -/
def mappingEngine : Machine :=
  standardEngine.withStore (Store.empty.newList #[.boolean true]).2

/-- Mapping the copies of the elements of a list to a new list. -/
theorem callbacks_read_row_clone :
    ∃ u x t, State.advance ⟨mappingEngine, [], .invoking
        (.bound ⟨Key.join "map" "List", some 2, 49⟩ (.list 0)) [.native ⟨"clone", some 1, 8⟩]⟩ =
        .next u ∧
      u.Exchanges (.native ⟨"clone", some 1, 8⟩) [x] t ∧ x.args = [.boolean true] ∧
      ∃ v after, t.mode = .delivering (.ok v) ∧
        Walker.map.Gives [.boolean true] after t.machine.world.store v := by
  obtain ⟨u, hu, hwalks⟩ := callbacks_read_row .map mappingEngine []
    ⟨Key.join "map" "List", some 2, 49⟩ 0 (.native ⟨"clone", some 1, 8⟩) (by decide) rfl rfl
  obtain ⟨u', t₁, t, hu', hasked, hnext, hpending, hanswer, hlast⟩ :
      ∃ u' t₁ t, State.advance ⟨mappingEngine, [], .invoking
          (.bound ⟨Key.join "map" "List", some 2, 49⟩ (.list 0)) [.native ⟨"clone", some 1, 8⟩]⟩ =
          .next u' ∧
        u'.mode = .invoking (.native ⟨"clone", some 1, 8⟩) [.boolean true] ∧
        u'.advance = .next t₁ ∧ t₁.pending = u'.pending ∧
        t₁.mode = .delivering (.ok (.boolean true)) ∧ t₁.advance = .next t :=
    ⟨_, _, _, rfl, rfl, rfl, rfl, rfl, rfl⟩
  cases hu.symm.trans hu'
  have hexchanges := State.Exchanges.cons hasked (.asked hnext) hpending hanswer hlast .nil
  refine ⟨u, _, t, hu, hexchanges, rfl, ?_⟩
  obtain ⟨hrow, -⟩ := hwalks _ _ hexchanges
  obtain ⟨after, -, honward⟩ := hrow.onward
  obtain ⟨v, hmode, -, hgives⟩ := (honward fun _ _ => trivial).2 rfl
  exact ⟨v, after, hmode, hgives⟩

/-!
# A callback that removes elements
-/

/-- The program `l = [1, 2, 3]; return l.map(func(x) { l.remove(1); return x })`. -/
def removingCallback : List Stmt :=
  [.expr .zero (.assign .zero (.var .zero "l")
      (.list .zero [.number .zero 1, .number .zero 2, .number .zero 3]) .nearest),
    .ret .zero (some (.call .zero (.member .zero (.var .zero "l") "map")
      [.func .zero Text.empty [⟨"x", none⟩] (.mk .zero
        [.expr .zero (.call .zero (.member .zero (.var .zero "l") "remove") [.number .zero 1]),
          .ret .zero (some (.var .zero "x"))])]))]

theorem removing_callback_misses_element :
    ∃ c, (Compiler.compile .absent false removingCallback).result = .ok c ∧
      ((standardEngine.execute 100 c.program).map fun e => match e.1 with
        | .value v => e.2.world.store.display v
        | .failed _ _ => Text.empty) = some ("[1, 3, 3]" : Text) :=
  ⟨_, rfl, by decide +kernel⟩

end ScriptEngine
