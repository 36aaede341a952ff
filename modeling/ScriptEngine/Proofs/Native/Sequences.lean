import ScriptEngine.Proofs.Execution.Equality
import ScriptEngine.Proofs.Machine.Executions
import ScriptEngine.Proofs.Machine.Operands
import ScriptEngine.Proofs.Native.Endings
import ScriptEngine.Proofs.Number.Values
import ScriptEngine.Proofs.Store.Sequences

/-!
# Lists are sequences

What programs do to a list they do to a sequence of values, whose positions count from one. Elements are
read, changed, put in and taken out by methods; they are also read and changed by instructions. A key
that is no position of the sequence is refused, and the sequence is as it was.
-/

namespace ScriptEngine

/-!
# Positions

Programs count from one. A value denotes a position among `n` elements if it is a number that is one
of the integers from 1 to `n`; a number that is not finite or has a fraction denotes none.
-/

namespace Value

variable {x : Float} {k : Value} {n i : Nat}

/-- The value denotes position `i`, counted from zero, among `n` elements. -/
def Denotes (k : Value) (n i : Nat) : Prop :=
  i < n ∧ ∃ x, k = .number x ∧ Number.value? x = some ((i + 1 : Nat) : ℚ)

theorem Denotes.unique {j : Nat} (h : k.Denotes n i) (h' : k.Denotes n j) : i = j := by
  obtain ⟨-, x, rfl, hi⟩ := h
  obtain ⟨-, y, hxy, hj⟩ := h'
  cases hxy
  have hcast : ((i + 1 : Nat) : ℚ) = ((j + 1 : Nat) : ℚ) := Option.some.inj (hi.symm.trans hj)
  have hcast : i + 1 = j + 1 := by exact_mod_cast hcast
  omega

/-- The test that a double must pass to be an index. -/
theorem index?_number (x : Float) (n : Nat) :
    (number x).index? n = some i ↔
      ((x == Number.trunc x) = true ∧ ¬ x < 1 ∧ ¬ Number.ofNat n < x) ∧ (Number.toWord x).toNat - 1 = i := by
  unfold index?
  dsimp only
  split
  · rename_i htest
    simp only [Bool.and_eq_true, Bool.not_eq_true', decide_eq_false_iff_not, and_assoc] at htest
    rw [Option.some_inj]
    exact ⟨fun h => ⟨htest, h⟩, fun h => h.2⟩
  · rename_i htest
    simp only [Bool.and_eq_true, Bool.not_eq_true', decide_eq_false_iff_not, and_assoc] at htest
    exact ⟨fun h => (by cases h), fun h => (htest h.1).elim⟩

/-- What is not finite fails the test. -/
theorem index?_of_none (h : Number.value? x = none) (hn : n < 2 ^ 53) : (number x).index? n ≠ some i := by
  rw [Ne, index?_number]
  rintro ⟨⟨heq, hlow, hhigh⟩, -⟩
  rcases Number.anatomy_of_value? h with ⟨negative, hx⟩ | hx
  · cases negative with
    | false => exact hhigh (Number.le_infinite hx (Number.value?_ofNat hn)).1
    | true =>
      apply hlow
      rw [Number.lt_iff_compare, (Number.compare_infinite true hx Number.value?_one).1]
      rfl
  · rw [Number.trunc_of_none h, Number.beq_undefined hx] at heq
    cases heq

/-- The bounds are compared with exactly, so an index is what it should be. -/
theorem index?_eq_some (hn : n < 2 ^ 53) : k.index? n = some i ↔ k.Denotes n i := by
  cases k with
  | number x =>
    cases hv : Number.value? x with
    | none =>
      refine ⟨fun h => (index?_of_none hv hn h).elim, ?_⟩
      rintro ⟨-, y, hxy, hy⟩
      cases hxy
      rw [hv] at hy
      cases hy
    | some q =>
      have hdenotes : (number x).Denotes n i ↔ i < n ∧ q = ((i + 1 : Nat) : ℚ) := by
        refine and_congr_right fun _ => ⟨?_, fun h => ⟨x, rfl, by rw [hv, h]⟩⟩
        rintro ⟨y, hxy, hy⟩
        cases hxy
        exact Option.some.inj (hv.symm.trans hy)
      rw [index?_number, hdenotes, Number.lt_iff hv Number.value?_one,
        Number.lt_iff (Number.value?_ofNat hn) hv]
      constructor
      · rintro ⟨⟨heq, hlow, hhigh⟩, hword⟩
        have hpos : 0 < q := lt_of_lt_of_le one_pos (not_lt.mp hlow)
        have hwhole : q = (⌊q⌋ : ℚ) := (Number.beq_iff hv (Number.value?_trunc hv hpos)).mp heq
        obtain ⟨j, hj⟩ := Int.eq_ofNat_of_zero_le (Int.floor_nonneg.mpr hpos.le)
        have hq : q = (j : ℚ) := by rw [hwhole, hj, Int.cast_natCast]
        subst hq
        have hone : 1 ≤ j := by exact_mod_cast not_lt.mp hlow
        have hle : j ≤ n := by exact_mod_cast not_lt.mp hhigh
        rw [Number.toNat_toWord hv (by omega)] at hword
        obtain rfl : j = i + 1 := by omega
        exact ⟨hle, rfl⟩
      · rintro ⟨hi, rfl⟩
        have hpos : (0 : ℚ) < (i + 1 : Nat) := by exact_mod_cast Nat.succ_pos i
        have htrunc := Number.value?_trunc hv hpos
        rw [Int.floor_natCast, Int.cast_natCast] at htrunc
        refine ⟨⟨(Number.beq_iff hv htrunc).mpr rfl, not_lt.mpr ?_, not_lt.mpr ?_⟩, ?_⟩
        · exact_mod_cast Nat.succ_pos i
        · exact_mod_cast hi
        · rw [Number.toNat_toWord hv (by omega), Nat.add_sub_cancel]
  | _ => exact ⟨fun h => (by cases h), fun ⟨_, _, h, _⟩ => (by cases h)⟩

theorem index?_eq_none (hn : n < 2 ^ 53) : k.index? n = none ↔ ∀ i, ¬ k.Denotes n i := by
  rw [Option.eq_none_iff_forall_ne_some]
  exact forall_congr' fun i => not_congr (index?_eq_some hn)

end Value

/-!
# Work on lists
-/

/-- What the methods of a list do to it, with their arguments. -/
inductive ListWork where
  | get (key : Value)
  | set (key v : Value)
  | insert (key v : Value)
  | remove (key : Value)
  | push (v : Value)
  | pop

namespace ListWork

/-- The method. -/
def name : ListWork → Text
  | get _ => Key.join "get" "List"
  | set .. => Key.join "set" "List"
  | insert .. => Key.join "insert" "List"
  | remove _ => Key.join "remove" "List"
  | push _ => Key.join "push" "List"
  | pop => Key.join "pop" "List"

def args : ListWork → List Value
  | get key | remove key => [key]
  | set key v | insert key v => [key, v]
  | push v => [v]
  | pop => []

def key? : ListWork → Option Value
  | get key | remove key | set key _ | insert key _ => some key
  | push _ | pop => none

/-- How many positions there are in a sequence of `n` elements. -/
def positions (n : Nat) : ListWork → Nat
  | insert .. => n + 1
  | _ => n

/-- What the work on a sequence gives, and the sequence afterwards. -/
inductive Gives (l : ListId) (vs : List Value) : ListWork → Except Failure Value → List Value → Prop
  | get {key v : Value} {i : Nat} (hkey : key.Denotes vs.length i) (hv : vs[i]? = some v) :
    Gives l vs (.get key) (.ok v) vs
  | set {key : Value} {i : Nat} (v : Value) (hkey : key.Denotes vs.length i) :
    Gives l vs (.set key v) (.ok v) (vs.set i v)
  | insert {key : Value} {i : Nat} (v : Value) (hkey : key.Denotes (vs.length + 1) i) :
    Gives l vs (.insert key v) (.ok (.list l)) (vs.insertIdx i v)
  | remove {key v : Value} {i : Nat} (hkey : key.Denotes vs.length i) (hv : vs[i]? = some v) :
    Gives l vs (.remove key) (.ok v) (vs.eraseIdx i)
  | push (v : Value) : Gives l vs (.push v) (.ok (.list l)) (vs ++ [v])
  | pop {v : Value} (hv : vs.getLast? = some v) : Gives l vs .pop (.ok v) vs.dropLast
  | outOfRange {work : ListWork} {x : Float} (hkey : work.key? = some (.number x))
    (h : ∀ i, ¬ (Value.number x).Denotes (work.positions vs.length) i) :
    Gives l vs work (.error .outOfRange) vs
  | mismatch {work : ListWork} {key : Value} (hkey : work.key? = some key)
    (h : ∀ x, key ≠ .number x) : Gives l vs work (.error .typeMismatch) vs
  | empty (h : vs = []) : Gives l vs .pop (.error .outOfRange) vs

end ListWork

namespace Native

section
variable {l : ListId} {key : Value} {n i : Nat} {w : World}

theorem listIndex_position (hn : n < 2 ^ 53) (h : key.Denotes n i) : listIndex l key n w = .ok i w := by
  have hindex := (Value.index?_eq_some hn).mpr h
  obtain ⟨-, x, rfl, -⟩ := h
  unfold listIndex
  dsimp only
  rw [hindex]
  rfl

theorem listIndex_outOfRange {x : Float} (hn : n < 2 ^ 53) (h : ∀ i, ¬ (Value.number x).Denotes n i) :
    ∃ message, listIndex l (.number x) n w = .error (.fault (.raised .outOfRange message)) w := by
  have hindex := (Value.index?_eq_none hn).mpr h
  unfold listIndex
  dsimp only
  rw [hindex]
  exact ⟨_, rfl⟩

theorem listIndex_mismatch (h : ∀ x, key ≠ .number x) :
    ∃ message, listIndex l key n w = .error (.fault (.raised .typeMismatch message)) w := by
  cases key with
  | number x => exact (h x rfl).elim
  | _ => exact ⟨_, rfl⟩

end

/-!
# The methods
-/

/-- What a method does to a list, and to no other list. -/
def Performs (work : ListWork) (l : ListId) (vs : List Value) (w : World) (a : Action) : Prop :=
  (∃ r s' vs', a = .done (some r) { w with store := s' } ∧ work.Gives l vs (.ok r) vs' ∧
    w.store.WorksOn l s' ∧ s'.Sequence l vs') ∨
  ∃ f message, a = .fail (.raised f message) w ∧ work.Gives l vs (.error f) vs

section
variable {work : ListWork} {l : ListId} {vs vs' : List Value} {w : World} {key r : Value} {s' : Store}

theorem performs_done {e : Effect Value} (h : e w = .ok r { w with store := s' })
    (hgives : work.Gives l vs (.ok r) vs') (hwork : w.store.WorksOn l s') (hlists : s'.Sequence l vs') :
    Performs work l vs w (Action.ofEffect (e >>= fun v => pure (some v)) w) :=
  .inl ⟨r, s', vs', Action.ofEffect_ok h, hgives, hwork, hlists⟩

theorem performs_refused {e : Effect Value} {f : Failure}
    (h : ∃ message, e w = .error (.fault (.raised f message)) w) (hgives : work.Gives l vs (.error f) vs) :
    Performs work l vs w (Action.ofEffect (e >>= fun v => pure (some v)) w) := by
  obtain ⟨message, h⟩ := h
  exact .inr ⟨f, message, Action.ofEffect_fault h, hgives⟩

/-- Most methods first look how long the list is. -/
theorem performs_sized (work : ListWork) (hlists : w.store.Sequence l vs) {k : Nat → Effect Value}
    (h : Performs work l vs w (Action.ofEffect (k vs.length >>= fun v => pure (some v)) w)) :
    Performs work l vs w
      (Action.ofEffect ((Effect.reads (fun s => s.listSize l) >>= k) >>= fun v => pure (some v)) w) := by
  rw [← hlists.size] at h
  exact h

/-- A method that is given a key first looks for the position that it denotes. -/
theorem performs_keyed (work : ListWork) (hkey : work.key? = some key) (hlists : w.store.Sequence l vs)
    (hn : work.positions vs.length < 2 ^ 53) {k : Nat → Effect Value}
    (hk : ∀ i, key.Denotes (work.positions vs.length) i → ∃ r s' vs', k i w = .ok r { w with store := s' } ∧
      work.Gives l vs (.ok r) vs' ∧ w.store.WorksOn l s' ∧ s'.Sequence l vs') :
    Performs work l vs w (Action.ofEffect ((Effect.reads (fun s => s.listSize l) >>= fun size =>
      listIndex l key (work.positions size) >>= k) >>= fun v => pure (some v)) w) := by
  refine performs_sized work hlists ?_
  by_cases hposition : ∃ i, key.Denotes (work.positions vs.length) i
  · obtain ⟨i, hi⟩ := hposition
    obtain ⟨r, s', vs', hr, hgives, hwork, hlists'⟩ := hk i hi
    refine performs_done ?_ hgives hwork hlists'
    rw [Effect.bind_of_ok (listIndex_position hn hi), hr]
  · have hnone : ∀ i, ¬ key.Denotes (work.positions vs.length) i := fun i hi => hposition ⟨i, hi⟩
    by_cases hnumber : ∃ x, key = .number x
    · obtain ⟨x, rfl⟩ := hnumber
      obtain ⟨message, h⟩ := listIndex_outOfRange hn hnone
      exact performs_refused ⟨message, Effect.bind_of_error h⟩ (.outOfRange hkey hnone)
    · have hmismatch : ∀ x, key ≠ .number x := fun x hx => hnumber ⟨x, hx⟩
      obtain ⟨message, h⟩ := listIndex_mismatch hmismatch
      exact performs_refused ⟨message, Effect.bind_of_error h⟩ (.mismatch hkey hmismatch)

theorem performs_pop (hlists : w.store.Sequence l vs) :
    Performs .pop l vs w (Library.standard.behaviour ⟨Key.join "pop" "List", some 1, 41⟩ [.list l] w) := by
  refine performs_sized .pop hlists ?_
  cases hlast : vs.getLast? with
  | none =>
    obtain rfl := List.getLast?_eq_none_iff.mp hlast
    exact performs_refused ⟨_, rfl⟩ (.empty rfl)
  | some v =>
    have hpos : 0 < vs.length := List.length_pos_iff.mpr fun h => by
      rw [h] at hlast
      cases hlast
    have hget : w.store.listGet l (vs.length - 1) = v := by
      rw [List.getLast?_eq_getElem?, hlists.get (Nat.sub_lt hpos Nat.one_pos)] at hlast
      exact Option.some.inj hlast
    have hlong : ¬ (vs.length == 0) = true := fun h => Nat.ne_of_gt hpos (eq_of_beq h)
    rw [if_neg hlong]
    refine performs_done ?_ (.pop hlast) (.of_alters (.pop l) hlists.lt) hlists.pop
    rw [← hget]
    rfl

/-- The native that a method is, and what it does to a list. -/
theorem performs_work {n : NativeInfo} (h : Library.standard.resolve work.name = some (.native n))
    (hlists : w.store.Sequence l vs) (hn : vs.length + 1 < 2 ^ 53) :
    n.arity = some (work.args.length + 1) ∧
      Performs work l vs w (Library.standard.behaviour n (.list l :: work.args) w) := by
  have hless : vs.length < 2 ^ 53 := Nat.lt_of_succ_lt hn
  cases work with
  | get key =>
    have hstandard : Library.standard.resolve (Key.join "get" "List") =
        some (.native ⟨Key.join "get" "List", some 2, 43⟩) := Library.standard_native rfl
    cases hstandard.symm.trans h
    refine ⟨rfl, ?_⟩
    refine performs_keyed (.get key) rfl hlists hless fun i hi => ?_
    exact ⟨_, _, _, rfl, .get hi (hlists.get hi.1), .refl _ _, hlists⟩
  | set key v =>
    have hstandard : Library.standard.resolve (Key.join "set" "List") =
        some (.native ⟨Key.join "set" "List", some 3, 44⟩) := Library.standard_native rfl
    cases hstandard.symm.trans h
    refine ⟨rfl, ?_⟩
    refine performs_keyed (.set key v) rfl hlists hless fun i hi => ?_
    exact ⟨_, _, _, rfl, .set v hi, .of_alters (.set l i v) hlists.lt, hlists.set hi.1 v⟩
  | insert key v =>
    have hstandard : Library.standard.resolve (Key.join "insert" "List") =
        some (.native ⟨Key.join "insert" "List", some 3, 45⟩) := Library.standard_native rfl
    cases hstandard.symm.trans h
    refine ⟨rfl, ?_⟩
    refine performs_keyed (.insert key v) rfl hlists hn fun i hi => ?_
    exact ⟨_, _, _, rfl, .insert v hi, .of_alters (.insert l i v) hlists.lt,
      hlists.insert (Nat.le_of_lt_succ hi.1) v⟩
  | remove key =>
    have hstandard : Library.standard.resolve (Key.join "remove" "List") =
        some (.native ⟨Key.join "remove" "List", some 2, 46⟩) := Library.standard_native rfl
    cases hstandard.symm.trans h
    refine ⟨rfl, ?_⟩
    refine performs_keyed (.remove key) rfl hlists hless fun i hi => ?_
    exact ⟨_, _, _, rfl, .remove hi (hlists.get hi.1), .of_alters (.remove l i) hlists.lt,
      hlists.remove hi.1⟩
  | push v =>
    have hstandard : Library.standard.resolve (Key.join "push" "List") =
        some (.native ⟨Key.join "push" "List", some 2, 40⟩) := Library.standard_native rfl
    cases hstandard.symm.trans h
    refine ⟨rfl, ?_⟩
    exact .inl ⟨_, _, _, rfl, .push v, .of_alters (.push l v) hlists.lt, hlists.push v⟩
  | pop =>
    have hstandard : Library.standard.resolve (Key.join "pop" "List") =
        some (.native ⟨Key.join "pop" "List", some 1, 41⟩) := Library.standard_native rfl
    cases hstandard.symm.trans h
    refine ⟨rfl, ?_⟩
    exact performs_pop hlists

end
end Native

/-!
# The instructions
-/

namespace Exec

/-- What is said about a key that is no position of a list. -/
def outsideList (key : Text) (n : Nat) : Fault :=
  .raised .outOfRange ("index " ++ key ++ " out of range for List of length " ++ Text.ofNat n)

section
variable {m : Machine} {l : ListId} {vs rest : List Value} {key v : Value} {i : Nat}

theorem reads_size {α : Type} (hlists : m.world.store.Sequence l vs) (k : Nat → Exec α) :
    (reads (fun m => m.world.store.listSize l) >>= k) m = k vs.length m := by
  rw [← hlists.size]
  rfl

theorem ownMember_list (hlists : m.world.store.Sequence l vs) (x : Float) :
    ownMember (.list l) (.number x) m = match (Value.number x).index? vs.length with
      | some i => .ok (some (m.world.store.listGet l i)) m
      | none => .error (.fault (outsideList (Number.display x) vs.length)) m := by
  refine (reads_size hlists _).trans ?_
  cases (Value.number x).index? vs.length <;> rfl

theorem setMember_list (hlists : m.world.store.Sequence l vs) (key v : Value) :
    setMember (.list l) key v m = match key.index? vs.length with
      | some i => .ok () (m.withStore (m.world.store.listSet l i v))
      | none => .error (.fault (outsideList (m.world.store.repr key) vs.length)) m := by
  refine (reads_size hlists _).trans ?_
  cases key.index? vs.length <;> rfl

theorem member_position (hlists : m.world.store.Sequence l vs) (hn : vs.length < 2 ^ 53)
    (h : key.Denotes vs.length i) : member (.list l) key m = .ok (m.world.store.listGet l i) m := by
  have hindex := (Value.index?_eq_some hn).mpr h
  obtain ⟨-, x, rfl, -⟩ := h
  have hown := ownMember_list hlists x
  rw [hindex] at hown
  unfold member
  rw [bind_of_ok hown]
  rfl

theorem member_outside {x : Float} (hlists : m.world.store.Sequence l vs) (hn : vs.length < 2 ^ 53)
    (h : ∀ i, ¬ (Value.number x).Denotes vs.length i) :
    member (.list l) (.number x) m = .error (.fault (outsideList (Number.display x) vs.length)) m := by
  have hown := ownMember_list hlists x
  rw [(Value.index?_eq_none hn).mpr h] at hown
  exact bind_of_error hown

/-- The element at a position is read, and pushed. -/
theorem step_getMember_position (h : m.Stacks (key :: .list l :: rest)) (hlists : m.world.store.Sequence l vs)
    (hn : vs.length < 2 ^ 53) (hkey : key.Denotes vs.length i) :
    ∃ m' v, vs[i]? = some v ∧ step .getMember m = .ok .next m' ∧ m'.Stacks (v :: rest) ∧
      m'.world = m.world := by
  have hrest : (m.leaving rest).Stacks rest := Machine.Stacks.leaving (l := [key, .list l]) h
  have hmember : member (.list l) key (m.leaving rest) = .ok (m.world.store.listGet l i) (m.leaving rest) :=
    member_position hlists hn hkey
  refine ⟨_, _, hlists.get hkey.1, ?_, hrest.push _, rfl⟩
  rw [step_getMember h]
  unfold result
  rw [bind_of_ok hmember]
  rfl

theorem step_getMember_outside {x : Float} (h : m.Stacks (.number x :: .list l :: rest))
    (hlists : m.world.store.Sequence l vs) (hn : vs.length < 2 ^ 53)
    (hkey : ∀ i, ¬ (Value.number x).Denotes vs.length i) :
    ∃ m', step .getMember m = .error (.fault (outsideList (Number.display x) vs.length)) m' ∧
      m'.world = m.world := by
  have hmember : member (.list l) (.number x) (m.leaving rest) =
      .error (.fault (outsideList (Number.display x) vs.length)) (m.leaving rest) :=
    member_outside hlists hn hkey
  refine ⟨m.leaving rest, ?_, rfl⟩
  rw [step_getMember h]
  exact bind_of_error hmember

/-- Writing to a list goes on with the copy of the value. -/
theorem place_list (scope : Scope) (hlists : m.world.store.Sequence l vs) (key v : Value) :
    place scope key (.list l) v m = match key.index? vs.length with
      | some i => .ok (m.world.store.copy v).1
          (m.withStore ((m.world.store.copy v).2.listSet l i (m.world.store.copy v).1))
      | none => .error (.fault (outsideList ((m.world.store.copy v).2.repr key) vs.length))
          (m.withStore (m.world.store.copy v).2) := by
  obtain ⟨copied, hcopied⟩ : ∃ copied, copied = m.withStore (m.world.store.copy v).2 := ⟨_, rfl⟩
  have hcopy : copied.world.store.Sequence l vs := hcopied ▸ hlists.copy v
  have hset := setMember_list hcopy key (m.world.store.copy v).1
  unfold place
  rw [bind_of_ok (copy_eq m v), ← hcopied]
  show (setMember (.list l) key (m.world.store.copy v).1 >>= fun _ => pure (m.world.store.copy v).1) copied = _
  cases hindex : key.index? vs.length with
  | some i =>
    rw [hindex] at hset
    rw [bind_of_ok hset, hcopied]
    rfl
  | none =>
    rw [hindex] at hset
    rw [bind_of_error hset, hcopied]
    rfl

/-- A copy of a value is written at a position, and pushed. -/
theorem step_assign_position {scope : Scope} (h : m.Stacks (key :: .list l :: v :: rest))
    (hs : m.world.store.Listed) (hlists : m.world.store.Sequence l vs)
    (hn : vs.length < 2 ^ 53) (hkey : key.Denotes vs.length i) :
    ∃ m', step (.assign scope) m = .ok .next m' ∧ m'.Stacks ((m.world.store.copy v).1 :: rest) ∧
      m.world.store.Reworked l m'.world.store (vs.set i (m.world.store.copy v).1) := by
  have hrest : (m.leaving rest).Stacks rest := Machine.Stacks.leaving (l := [key, .list l, v]) h
  have hplace := place_list (m := m.leaving rest) scope hlists key v
  rw [(Value.index?_eq_some hn).mpr hkey] at hplace
  have hcopy := hlists.copy v
  have hset := hcopy.set hkey.1 (m.world.store.copy v).1
  refine ⟨_, ?_, (hrest.withStore ((m.world.store.copy v).2.listSet l i (m.world.store.copy v).1)).push _, ?_⟩
  · rw [step_assign h]
    unfold result
    rw [bind_of_ok hplace]
    rfl
  · exact .of_copy ((hs.copy v).reworked (.of_alters (.set l i _) hcopy.lt) hcopy.lt hset)

theorem step_assign_outside {scope : Scope} (h : m.Stacks (key :: .list l :: v :: rest))
    (hs : m.world.store.Listed) (hlists : m.world.store.Sequence l vs)
    (hn : vs.length < 2 ^ 53) (hkey : ∀ i, ¬ key.Denotes vs.length i) :
    ∃ m', step (.assign scope) m =
        .error (.fault (outsideList (m'.world.store.repr key) vs.length)) m' ∧
      m.world.store.Reworked l m'.world.store vs := by
  have hplace := place_list (m := m.leaving rest) scope hlists key v
  rw [(Value.index?_eq_none hn).mpr hkey] at hplace
  refine ⟨(m.leaving rest).withStore (m.world.store.copy v).2, ?_, ?_⟩
  · rw [step_assign h]
    exact bind_of_error hplace
  · exact .of_copy ((hs.copy v).unchanged (hlists.copy v))

end
end Exec
/-!
# Sequences
-/

namespace ListWork

section
variable {work : ListWork} {l : ListId} {vs us us' : List Value} {key v r : Value}
  {outcome outcome' : Except Failure Value}

/-- Work at a position is done just if the key denotes one. -/
theorem Gives.ok_iff (h : work.Gives l vs outcome us) (hkey : work.key? = some key) :
    (∃ r, outcome = .ok r) ↔ ∃ i, key.Denotes (work.positions vs.length) i := by
  cases h with
  | get hi | set _ hi | insert _ hi | remove hi =>
    cases hkey
    exact ⟨fun _ => ⟨_, hi⟩, fun _ => ⟨_, rfl⟩⟩
  | outOfRange hk hnone =>
    cases hk.symm.trans hkey
    exact ⟨fun ⟨_, h⟩ => (by cases h), fun ⟨i, hi⟩ => (hnone i hi).elim⟩
  | mismatch hk hne =>
    cases hk.symm.trans hkey
    exact ⟨fun ⟨_, h⟩ => (by cases h), fun ⟨i, _, x, hx, _⟩ => (hne x hx).elim⟩
  | push | pop | empty => cases hkey

/-- What work on a sequence gives is determined. -/
theorem Gives.unique (h : work.Gives l vs outcome us) (h' : work.Gives l vs outcome' us') :
    outcome = outcome' ∧ us = us' := by
  cases h with
  | get hi hv =>
    obtain ⟨r, rfl⟩ := (h'.ok_iff rfl).mpr ⟨_, hi⟩
    cases h' with
    | get hi' hv' =>
      cases hi.unique hi'
      cases hv.symm.trans hv'
      exact ⟨rfl, rfl⟩
  | set v hi =>
    obtain ⟨r, rfl⟩ := (h'.ok_iff rfl).mpr ⟨_, hi⟩
    cases h' with
    | set _ hi' =>
      cases hi.unique hi'
      exact ⟨rfl, rfl⟩
  | insert v hi =>
    obtain ⟨r, rfl⟩ := (h'.ok_iff rfl).mpr ⟨_, hi⟩
    cases h' with
    | insert _ hi' =>
      cases hi.unique hi'
      exact ⟨rfl, rfl⟩
  | remove hi hv =>
    obtain ⟨r, rfl⟩ := (h'.ok_iff rfl).mpr ⟨_, hi⟩
    cases h' with
    | remove hi' hv' =>
      cases hi.unique hi'
      cases hv.symm.trans hv'
      exact ⟨rfl, rfl⟩
  | push v =>
    cases h' with
    | push => exact ⟨rfl, rfl⟩
    | outOfRange hk | mismatch hk => cases hk
  | pop hv =>
    cases h' with
    | pop hv' =>
      cases hv.symm.trans hv'
      exact ⟨rfl, rfl⟩
    | empty h =>
      rw [h] at hv
      cases hv
    | outOfRange hk | mismatch hk => cases hk
  | empty h =>
    cases h' with
    | pop hv =>
      rw [h] at hv
      cases hv
    | empty => exact ⟨rfl, rfl⟩
    | outOfRange hk | mismatch hk => cases hk
  | outOfRange hk hnone =>
    cases h' with
    | get hi | set _ hi | insert _ hi | remove hi =>
      cases hk
      exact (hnone _ hi).elim
    | push | pop | empty => cases hk
    | outOfRange => exact ⟨rfl, rfl⟩
    | mismatch hk' hne =>
      cases hk.symm.trans hk'
      exact (hne _ rfl).elim
  | mismatch hk hne =>
    cases h' with
    | get hi | set _ hi | insert _ hi | remove hi =>
      cases hk
      obtain ⟨-, x, hx, -⟩ := hi
      exact (hne x hx).elim
    | push | pop | empty => cases hk
    | outOfRange hk' =>
      cases hk.symm.trans hk'
      exact (hne _ rfl).elim
    | mismatch => exact ⟨rfl, rfl⟩

/-- What was put in is what is taken out, and leaves no trace. -/
theorem Gives.remove_insert (h : (ListWork.insert key v).Gives l vs (.ok r) us) :
    (ListWork.remove key).Gives l us (.ok v) vs := by
  cases h with
  | @insert _ i _ hkey =>
    have hle : i ≤ vs.length := Nat.le_of_lt_succ hkey.1
    have hlength : (vs.insertIdx i v).length = vs.length + 1 := by
      rw [List.length_insertIdx, if_pos hle]
    have hremove := Gives.remove (l := l) (hlength ▸ hkey) (List.getElem?_insertIdx_self.trans (if_pos hle))
    rw [List.eraseIdx_insertIdx_self] at hremove
    exact hremove

theorem Gives.pop_push (h : (ListWork.push v).Gives l vs (.ok r) us) :
    ListWork.pop.Gives l us (.ok v) vs := by
  cases h with
  | push =>
    have hpop := Gives.pop (l := l) (List.getLast?_concat (l := vs) (a := v))
    rw [List.dropLast_concat] at hpop
    exact hpop

end
end ListWork

/-!
# Lists in the life of an engine
-/

/-- What a native may make of a store, and the host between two runs: values stay in scope, nothing is
bound, and every list has its cells to itself. -/
structure Store.Tidies (s s' : Store) : Prop where
  tends : s.Tends s'
  listed : s.Listed → s'.Listed

/-- What is known of an engine whose natives see to the lists. -/
def Life.tidiedBy {library : Library} (hheeds : library.Heeds Store.Tidies) : Law where
  library := library
  native := Store.Tidies
  tends _ _ h := h.tends
  heeds := hheeds
  lent _ _ _ := True
  past := ⟨.empty, #[], Text.empty, #[], 0⟩
  twin := ¬ True
  inert h := absurd trivial h
  stateless h := absurd trivial h

/-- Every list has its cells to itself as long as an engine lives. -/
theorem Life.Leads.listed {library : Library} {w : World} {options : Options} {y : Life}
    (hheeds : library.Heeds Store.Tidies) (hstore : w.store.Scoped) (hlisted : w.store.Listed)
    (hbindings : library.bindings.Every w.store.Has)
    (h : Life.Leads Store.Tidies (.resting (.new w library options)) y) : y.store.Listed := by
  have hnew : Life.Sound (tidiedBy hheeds) (.resting (.new w library options)) :=
    .new hstore hbindings options
  have hall : y.Sound (tidiedBy hheeds) ∧ y.store.Listed := by
    induction h with
    | refl => exact ⟨hnew, hlisted⟩
    | tail _ hstep ih =>
      obtain ⟨hsound, hlisted⟩ := ih
      obtain ⟨hsound', hchanges⟩ := hsound.step hstep (not_not_intro trivial) fun _ _ _ _ => trivial
      exact ⟨hsound', hchanges.listed (fun _ _ h => h.listed) hlisted⟩
  exact hall.2

/-- Whatever a program does to a list by its methods, by indexing it and by assigning to an element, it
does to a sequence of values whose positions are the integers from 1 to its length, and one more for
insertion. Keys that are none of them are refused, and then the sequence is as it was. Other lists have
the elements that they had. -/
theorem lists_are_sequences {m : Machine} {l : ListId} {vs : List Value}
    (hs : m.world.store.Listed) (hlists : m.world.store.Sequence l vs) (hn : vs.length + 1 < 2 ^ 53) :
    (∀ (work : ListWork) (n : NativeInfo) (receiver : Option Value) (args : List Value) (pending : List Pending),
      Library.standard.resolve work.name = some (.native n) →
      m.library.behaviour n = Library.standard.behaviour n →
      Exec.withReceiver receiver args = .list l :: work.args →
      (nativeLimit ≤ m.natives.size → ∃ message,
        State.advance ⟨m, pending, .invoking (Value.callable n receiver) args⟩ =
          .next ⟨m, pending, .delivering (.error (.raised .callDepth message))⟩) ∧
      (m.natives.size < nativeLimit → ∃ m' outcome vs',
        State.advance ⟨m, pending, .invoking (Value.callable n receiver) args⟩ =
          .next ⟨m', pending, .delivering outcome⟩ ∧
        work.Gives l vs (outcome.mapError Fault.failure) vs' ∧
        (∀ key, work.key? = some key →
          ((∃ r, outcome = .ok r) ↔ ∃ i, key.Denotes (work.positions vs.length) i)) ∧
        m.world.store.Reworked l m'.world.store vs')) ∧
    (∀ (x : Float) (rest : List Value), m.Stacks (.number x :: .list l :: rest) →
      (∀ i, (Value.number x).Denotes vs.length i → ∃ m' v, vs[i]? = some v ∧
        Exec.step .getMember m = .ok .next m' ∧ m'.Stacks (v :: rest) ∧ m'.world = m.world) ∧
      ((∀ i, ¬ (Value.number x).Denotes vs.length i) → ∃ m',
        Exec.step .getMember m =
          .error (.fault (Exec.outsideList (Number.display x) vs.length)) m' ∧ m'.world = m.world)) ∧
    (∀ (scope : Scope) (key v : Value) (rest : List Value), m.Stacks (key :: .list l :: v :: rest) →
      (∀ i, key.Denotes vs.length i → ∃ m', Exec.step (.assign scope) m = .ok .next m' ∧
        m'.Stacks ((m.world.store.copy v).1 :: rest) ∧
        m.world.store.Reworked l m'.world.store (vs.set i (m.world.store.copy v).1)) ∧
      ((∀ i, ¬ key.Denotes vs.length i) → ∃ m', Exec.step (.assign scope) m =
          .error (.fault (Exec.outsideList (m'.world.store.repr key) vs.length)) m' ∧
        m.world.store.Reworked l m'.world.store vs)) ∧
    ∀ (key v r : Value) (us vs' : List Value) (outcome : Except Failure Value),
      ((ListWork.insert key v).Gives l vs (.ok r) us → (ListWork.remove key).Gives l us outcome vs' →
        outcome = .ok v ∧ vs' = vs) ∧
      ((ListWork.push v).Gives l vs (.ok r) us → ListWork.pop.Gives l us outcome vs' →
        outcome = .ok v ∧ vs' = vs) := by
  have hless : vs.length < 2 ^ 53 := Nat.lt_of_succ_lt hn
  refine ⟨?methods, fun x rest h => ⟨fun i => ?read, ?unread⟩, fun scope key v rest h => ⟨fun i => ?write, ?unwritten⟩,
    fun key v r us vs' outcome => ⟨fun h h' => h'.unique h.remove_insert, fun h h' => h'.unique h.pop_push⟩⟩
  case methods =>
    intro work n receiver args pending hresolve hbehaviour hargs
    obtain ⟨harity, hperforms⟩ := Native.performs_work (w := m.world) hresolve hlists hn
    have htakes : State.Takes n (Exec.withReceiver receiver args) := by
      intro arity hsome
      rw [harity] at hsome
      cases hsome
      rw [hargs]
      rfl
    rw [State.advance_callable, State.startNative_takes htakes, hargs]
    rw [← hbehaviour] at hperforms
    refine ⟨fun hfull => State.enterNative_full _ hfull, fun hroom => ?_⟩
    rcases hperforms with ⟨r, s', vs', hdone, hgives, hwork, hlists'⟩ | ⟨f, message, hfail, hgives⟩
    · refine ⟨_, .ok r, vs', State.enterNative_done hroom hdone, hgives, fun key hkey => ?_,
        hs.reworked hwork hlists.lt hlists'⟩
      rw [← hgives.ok_iff hkey]
      exact ⟨fun _ => ⟨r, rfl⟩, fun _ => ⟨r, rfl⟩⟩
    · obtain ⟨m', hended, hstore⟩ := State.enterNative_fail pending hroom hfail
      refine ⟨m', _, vs, hended, hgives, fun key hkey => ?_, ?_⟩
      · rw [← hgives.ok_iff hkey]
        exact ⟨fun ⟨_, h⟩ => (by cases h), fun ⟨_, h⟩ => (by cases h)⟩
      · rw [hstore]
        exact hs.unchanged hlists
  case read => exact Exec.step_getMember_position h hlists hless
  case unread => exact Exec.step_getMember_outside h hlists hless
  case write => exact Exec.step_assign_position h hs hlists hless
  case unwritten => exact Exec.step_assign_outside h hs hlists hless

/-- An engine with a list of two truth values. -/
def listingEngine : Machine :=
  standardEngine.withStore (Store.empty.newList #[.boolean true, .boolean false]).2

/-- Position 3 is one too many for an element, but not for a new one. -/
theorem lists_are_sequences_third :
    ∃ m', State.advance ⟨listingEngine, [],
        .invoking (.bound ⟨Key.join "insert" "List", some 3, 45⟩ (.list 0))
          [.number (Number.ofNat 3), .null]⟩ = .next ⟨m', [], .delivering (.ok (.list 0))⟩ ∧
      m'.world.store.Sequence 0 [.boolean true, .boolean false, .null] := by
  have hlists : listingEngine.world.store.Sequence 0 [.boolean true, .boolean false] :=
    Store.lists_newListIn .empty #[.boolean true, .boolean false] 2
  obtain ⟨hmethods, -⟩ := lists_are_sequences (Store.listed_empty.newListIn _ 2) hlists (by decide)
  obtain ⟨-, hroom⟩ := hmethods (.insert (.number (Number.ofNat 3)) .null)
    ⟨Key.join "insert" "List", some 3, 45⟩ (some (.list 0)) [.number (Number.ofNat 3), .null] []
    (Library.standard_native rfl) rfl rfl
  obtain ⟨m', outcome, vs', hadvance, hgives, -, hreworked⟩ := hroom (by decide)
  have hthird : (Value.number (Number.ofNat 3)).Denotes 3 2 :=
    ⟨by decide, _, rfl, Number.value?_ofNat (by decide)⟩
  obtain ⟨houtcome, rfl⟩ := hgives.unique (.insert .null hthird)
  cases outcome with
  | ok r =>
    cases houtcome
    exact ⟨m', hadvance, hreworked.list⟩
  | error f => cases houtcome

end ScriptEngine
