import ScriptEngine.Proofs.Program.Decoding

/-!
# Stack layouts

A layout says what the operand stack of one activation looks like in front of an instruction, slot
by slot, and how many scopes are open. An operation leads from one layout to others; code fits an
assignment of layouts to its positions if every instruction leads to the layouts of the positions
where it hands over control.
-/

namespace ScriptEngine

/-- A value that refers to nothing. -/
def Value.Plain : Value → Prop
  | .null | .number _ | .text _ | .boolean _ | .type _ => True
  | _ => False

/-- What a slot of the operand stack is known to hold. -/
inductive Slot where
  /-- Any value. -/
  | value
  /-- A text that names something. -/
  | name
  /-- The number of slots below that belong together. -/
  | count (n : Nat)
  /-- The marker in the place of an assignment's target. -/
  | marker
  deriving DecidableEq

/-- What is known in front of an instruction: the slots of the activation, the top first, how many
scopes are open in it, whether it is a call, and whether control can get there at all. -/
structure Layout where
  slots : List Slot
  scopes : Nat
  inCall : Bool
  live : Bool
  deriving DecidableEq

namespace Slot

/-- The most slots that one count can stand for. -/
def limit : Nat :=
  0x100000000000

/-- Whether an instruction that pushes a constant may fill a slot with it. -/
def Admits : Slot → Value → Prop
  | value, v => v.Plain
  | name, v => ∃ t, v = .text t
  | count n, v => v = .number (Number.ofNat n) ∧ n ≤ limit
  | marker, v => v = .empty

end Slot

namespace Layout

/-- The start of a program. -/
def top : Layout :=
  ⟨[], 0, false, true⟩

/-- The start of a function's body. -/
def entry : Layout :=
  ⟨[], 0, true, true⟩

def push (a : Layout) (s : Slot) : Layout :=
  { a with slots := s :: a.slots }

/-- The layout with more slots on top. -/
def pushAll (a : Layout) (l : List Slot) : Layout :=
  { a with slots := l ++ a.slots }

/-- The layout inside one more scope. -/
def enter (a : Layout) : Layout :=
  { a with scopes := a.scopes + 1 }

/-- The slots of names and guards of `n` parameters. -/
def params (n : Nat) : List Slot :=
  (List.replicate n [Slot.name, Slot.value]).flatten

/-- One value more, and the same scopes. -/
def Gains (a b : Layout) : Prop :=
  b.slots = .value :: a.slots ∧ b.scopes = a.scopes

theorem pushAll_append (a : Layout) (l l' : List Slot) :
    a.pushAll (l ++ l') = (a.pushAll l').pushAll l := by
  simp only [pushAll, List.append_assoc]

theorem gains_push (a : Layout) : a.Gains (a.push .value) :=
  ⟨rfl, rfl⟩

theorem push_ne (a : Layout) (s : Slot) : a.push s ≠ a := by
  intro h
  have hlen := congrArg (fun b : Layout => b.slots.length) h
  simp [push] at hlen

end Layout

/-- Where an operation hands over control, and the layouts it promises there. -/
inductive Onward where
  /-- To the next instruction. -/
  | next (b : Layout)
  /-- To the instruction at a distance. -/
  | skip (d : Int) (b : Layout)
  /-- To the next instruction or to the one at a distance. -/
  | either (b : Layout) (d : Int) (c : Layout)
  /-- To the instruction at a distance, with a function's body in between. -/
  | build (d : Int) (b : Layout)
  /-- Nowhere inside the activation. -/
  | stop

namespace Onward

/-- The position at a distance from the one behind `i` lies within `m` and has the layout. -/
def At (ty : Nat → Layout) (m i : Nat) (d : Int) (b : Layout) : Prop :=
  ∃ t : Nat, (t : Int) = i + 1 + d ∧ t ≤ m ∧ ty t = b

/-- An instruction at position `i` of `m` keeps its promises. -/
def Lands (ty : Nat → Layout) (m i : Nat) : Onward → Prop
  | next b => ty (i + 1) = b
  | skip d b => At ty m i d b
  | either b d c => ty (i + 1) = b ∧ At ty m i d c
  | build d b => ty (i + 1) = .entry ∧ At ty m i d b
  | stop => True

theorem At.shift {ty ty' : Nat → Layout} {n m k i : Nat} {d : Int} {b : Layout}
    (h : At ty' n i d b) (hty : ∀ j ≤ n, ty (k + j) = ty' j) (hm : k + n ≤ m) :
    At ty m (k + i) d b := by
  obtain ⟨t, ht, hle, hb⟩ := h
  refine ⟨k + t, by omega, by omega, ?_⟩
  rw [hty t hle, hb]

theorem Lands.shift {ty ty' : Nat → Layout} {n m k i : Nat} {o : Onward}
    (h : o.Lands ty' n i) (hi : i < n) (hty : ∀ j ≤ n, ty (k + j) = ty' j) (hm : k + n ≤ m) :
    o.Lands ty m (k + i) := by
  have hnext : ty (k + i + 1) = ty' (i + 1) := hty (i + 1) hi
  cases o with
  | next b =>
    rw [Lands, hnext]
    exact h
  | skip d b => exact At.shift h hty hm
  | either b d c =>
    rw [Lands, hnext]
    exact ⟨h.1, At.shift h.2 hty hm⟩
  | build d b =>
    rw [Lands, hnext]
    exact ⟨h.1, At.shift h.2 hty hm⟩
  | stop => trivial

end Onward

namespace Op

/-- How an operation leads from a layout to others. -/
inductive Flow : Op → Layout → Onward → Prop
  | push {a : Layout} {s : Slot} {v : Value} (h : s.Admits v) : Flow (.push v) a (.next (a.push s))
  | buildList {a : Layout} (n : Nat) :
    Flow .buildList ((a.pushAll (.replicate n .value)).push (.count n)) (.next (a.push .value))
  | buildDict {a : Layout} (n : Nat) :
    Flow .buildDict ((a.pushAll (.replicate (2 * n) .value)).push (.count n))
      (.next (a.push .value))
  | buildType {a : Layout} {name : Text} (n : Nat) :
    Flow (.buildType name) ((a.pushAll (.replicate n .name)).push (.count n))
      (.next (a.push .value))
  | buildFunc {a : Layout} {d : Int} (n : Nat) :
    Flow (.buildFunc d) ((a.pushAll (Layout.params n)).push (.count n))
      (.build d (a.push .value))
  | jump {a : Layout} {d : Int} : Flow (.jump d) a (.skip d a)
  | jumpPeek {a : Layout} {b : Bool} {d : Int} :
    Flow (.jumpPeek b d) (a.push .value) (.either (a.push .value) d (a.push .value))
  | jumpIfFalse {a : Layout} {d : Int} :
    Flow (.jumpIfFalse d) (a.push .value) (.either a d a)
  | call {a : Layout} (n : Nat) :
    Flow .call (((a.pushAll (.replicate n .value)).push (.count n)).push .value)
      (.next (a.push .value))
  | dispatch {a : Layout} {op : Text} (n : Nat) :
    Flow (.dispatch op) ((a.pushAll (.replicate (n + 1) .value)).push (.count (n + 1)))
      (.next (a.push .value))
  | ret {a : Layout} (h : a.slots = []) : Flow .ret (a.push .value) .stop
  | getVar {a : Layout} {name : Text} : Flow (.getVar name) a (.next (a.push .value))
  | getMember {a : Layout} :
    Flow .getMember ((a.push .value).push .value) (.next (a.push .value))
  | assignName {a : Layout} {scope : Scope} :
    Flow (.assign scope) (((a.push .value).push .marker).push .name) (.next (a.push .value))
  | assignMember {a : Layout} {scope : Scope} :
    Flow (.assign scope) (((a.push .value).push .value).push .value) (.next (a.push .value))
  | bump {a : Layout} {name : Text} {up : Bool} : Flow (.bump name up) a (.next a)
  | negate {a : Layout} : Flow .negate (a.push .value) (.next (a.push .value))
  | not {a : Layout} : Flow .not (a.push .value) (.next (a.push .value))
  | stray {a : Layout} {again : Bool} : Flow (.stray again) a .stop
  | scopeEnter {a : Layout} : Flow .scopeEnter a (.next a.enter)
  | scopeExit {a : Layout} : Flow .scopeExit a.enter (.next a)
  | pop {a : Layout} : Flow .pop (a.push .value) (.next a)

theorem Flow.value {a : Layout} {v : Value} (h : v.Plain) :
    Flow (.push v) a (.next (a.push .value)) :=
  push h

theorem Flow.name {a : Layout} (t : Text) : Flow (.push (.text t)) a (.next (a.push .name)) :=
  push ⟨t, rfl⟩

theorem Flow.count {a : Layout} {n : Nat} (h : n ≤ Slot.limit) :
    Flow (.push (.number (Number.ofNat n))) a (.next (a.push (.count n))) :=
  push ⟨rfl, h⟩

theorem Flow.marker {a : Layout} : Flow (.push .empty) a (.next (a.push .marker)) :=
  push rfl

end Op

/-- Layouts before and behind position `n`. -/
def glue (n : Nat) (first second : Nat → Layout) : Nat → Layout :=
  fun i => if i < n then first i else second (i - n)

theorem glue_right (n : Nat) (first second : Nat → Layout) (j : Nat) :
    glue n first second (n + j) = second j := by
  unfold glue
  rw [if_neg (by omega), Nat.add_sub_cancel_left]

theorem glue_left {n : Nat} {first second : Nat → Layout} (h : first n = second 0) {i : Nat}
    (hi : i ≤ n) : glue n first second i = first i := by
  by_cases hn : i = n
  · subst hn
    rw [h]
    exact glue_right i first second 0
  · exact if_pos (by omega)

namespace Instruction

/-- The instruction at position `i` of `m` agrees with the layouts, or control never gets there. -/
def Fits (ins : Instruction) (ty : Nat → Layout) (m i : Nat) : Prop :=
  ∃ op, ins.Stands op ∧
    ((ty i).live = false ∧ op.reach = 0 ∨ ∃ o, op.Flow (ty i) o ∧ o.Lands ty m i)

theorem Stands.fits {ins : Instruction} {op : Op} {o : Onward} {ty : Nat → Layout} {m i : Nat}
    {a : Layout} (h : ins.Stands op) (ha : ty i = a) (hflow : op.Flow a o)
    (hlands : o.Lands ty m i) : ins.Fits ty m i := by
  subst ha
  exact ⟨op, h, Or.inr ⟨o, hflow, hlands⟩⟩

theorem Fits.shift {ins : Instruction} {ty ty' : Nat → Layout} {n m k i : Nat}
    (h : ins.Fits ty' n i) (hi : i < n) (hty : ∀ j ≤ n, ty (k + j) = ty' j) (hm : k + n ≤ m) :
    ins.Fits ty m (k + i) := by
  have hthis : ty (k + i) = ty' i := hty i (by omega)
  obtain ⟨op, hstands, hdead | ⟨o, hflow, hlands⟩⟩ := h
  · refine ⟨op, hstands, Or.inl ?_⟩
    rw [hthis]
    exact hdead
  · exact hstands.fits hthis hflow (hlands.shift hi hty hm)

end Instruction

/-!
# Decoded programs

A program that agrees with layouts and that a memory could hold is decoded without a flaw, and its
operations agree with the same layouts.
-/

namespace Op

/-- The operations agree with the layouts wherever control gets. -/
structure Fit (ops : Array Op) (ty : Nat → Layout) : Prop where
  start : ty 0 = .top
  stop : ty ops.size = .top
  flows : ∀ (i : Nat) op, ops[i]? = some op → (ty i).live = true →
    ∃ o, op.Flow (ty i) o ∧ o.Lands ty ops.size i

theorem fitsWord_of_natAbs {d : Int} (h : d.natAbs ≤ 2 * Slot.limit) :
    Number.fitsWord d = true := by
  have hlimit : Slot.limit = 17592186044416 := rfl
  have hleast : Number.leastWord = -9223372036854775808 := by decide
  simp only [Number.fitsWord, hleast, Bool.and_eq_true, decide_eq_true_eq]
  omega

theorem Flow.reach_le {op : Op} {a : Layout} {o : Onward} {ty : Nat → Layout} {m i : Nat}
    (h : op.Flow a o) (hlands : o.Lands ty m i) (hi : i < m) : op.reach.natAbs ≤ 2 * m := by
  cases h with
  | buildFunc n =>
    obtain ⟨t, ht, hle, -⟩ := hlands.2
    simp only [reach]
    omega
  | jump =>
    obtain ⟨t, ht, hle, -⟩ := hlands
    simp only [reach]
    omega
  | jumpPeek =>
    obtain ⟨t, ht, hle, -⟩ := hlands.2
    simp only [reach]
    omega
  | jumpIfFalse =>
    obtain ⟨t, ht, hle, -⟩ := hlands.2
    simp only [reach]
    omega
  | _ => exact Nat.zero_le _

theorem fit_of_fits {p : Program} {ty : Nat → Layout} (hstart : ty 0 = .top)
    (hstop : ty p.size = .top) (hsize : p.size ≤ Slot.limit)
    (h : ∀ (i : Nat) ins, p.code[i]? = some ins → ins.Fits ty p.size i) :
    ∃ ops : Array Op, ofProgram p = ⟨ops, none⟩ ∧ ops.size = p.size ∧ Fit ops ty := by
  have hread : ∀ (i : Nat) ins, p.code[i]? = some ins →
      ∃ op, (Operand.read? ins).map (ofOperand ins) = some op ∧
        ((ty i).live = true → ∃ o, op.Flow (ty i) o ∧ o.Lands ty p.size i) := by
    intro i ins hins
    have hi : i < p.size := (Array.getElem?_eq_some_iff.mp hins).1
    obtain ⟨op, hstands, ⟨hdead, hreach⟩ | ⟨o, hflow, hlands⟩⟩ := h i ins hins
    · refine ⟨op, hstands (by rw [hreach]; decide), fun hlive => ?_⟩
      rw [hdead] at hlive
      cases hlive
    · have hreach := hflow.reach_le hlands hi
      exact ⟨op, hstands (fitsWord_of_natAbs (by omega)), fun _ => ⟨o, hflow, hlands⟩⟩
  obtain ⟨ops, hops⟩ : ∃ ops : List Op,
      ops = p.code.toList.map fun ins => ((Operand.read? ins).map (ofOperand ins)).getD default :=
    ⟨_, rfl⟩
  have hlen : p.code.toList.length = ops.length := by
    rw [hops, List.length_map]
  have hget : ∀ (i : Nat) op, ops[i]? = some op → ∃ ins, p.code[i]? = some ins ∧
      (Operand.read? ins).map (ofOperand ins) = some op := by
    intro i op hop
    rw [hops, List.getElem?_map] at hop
    obtain ⟨ins, hins, hop⟩ := Option.map_eq_some_iff.mp hop
    rw [Array.getElem?_toList] at hins
    obtain ⟨op', hop', -⟩ := hread i ins hins
    rw [hop', Option.getD_some] at hop
    exact ⟨ins, hins, by rw [hop', hop]⟩
  refine ⟨ops.toArray, ?_, ?_, hstart, ?_, ?_⟩
  · unfold ofProgram
    rw [decodeAll_eq hlen, Array.empty_append]
    intro k ins op hins hop
    obtain ⟨ins', hins', hread⟩ := hget k op hop
    rw [Array.getElem?_toList, hins'] at hins
    rw [← Option.some.inj hins]
    exact hread
  · rw [List.size_toArray, ← hlen, Array.length_toList]
    rfl
  · rw [List.size_toArray, ← hlen, Array.length_toList]
    exact hstop
  · intro i op hop hlive
    rw [List.getElem?_toArray] at hop
    obtain ⟨ins, hins, hop'⟩ := hget i op hop
    obtain ⟨op'', hop'', hflow⟩ := hread i ins hins
    rw [hop'] at hop''
    rw [Option.some.inj hop'', List.size_toArray, ← hlen, Array.length_toList]
    exact hflow hlive

/-!
# Operations one behind the other
-/

/-- The operations stand in the program from a position on. -/
def Spelled (ops : Array Op) (i : Nat) (l : List Op) : Prop :=
  ∀ (k : Nat) op, l[k]? = some op → ops[i + k]? = some op

theorem Spelled.cons {ops : Array Op} {i : Nat} {op : Op} {l : List Op}
    (h : Spelled ops i (op :: l)) : ops[i]? = some op ∧ Spelled ops (i + 1) l := by
  refine ⟨h 0 op rfl, fun k op' hk => ?_⟩
  rw [Nat.add_assoc, Nat.add_comm 1 k]
  exact h (k + 1) op' hk

theorem Spelled.append {ops : Array Op} {i : Nat} {l l' : List Op} (h : Spelled ops i (l ++ l')) :
    Spelled ops i l ∧ Spelled ops (i + l.length) l' := by
  refine ⟨fun k op hk => h k op ?_, fun k op hk => ?_⟩
  · rw [List.getElem?_append_left (List.getElem?_eq_some_iff.mp hk).1]
    exact hk
  · rw [Nat.add_assoc]
    refine h _ op ?_
    rw [List.getElem?_append_right (Nat.le_add_right _ _), Nat.add_sub_cancel_left]
    exact hk

theorem Spelled.join {ops : Array Op} {i : Nat} {l l' : List Op} (h : Spelled ops i l)
    (h' : Spelled ops (i + l.length) l') : Spelled ops i (l ++ l') := by
  intro k op hk
  rcases Nat.lt_or_ge k l.length with hlt | hle
  · rw [List.getElem?_append_left hlt] at hk
    exact h k op hk
  · rw [List.getElem?_append_right hle] at hk
    have hop := h' (k - l.length) op hk
    rwa [Nat.add_assoc, Nat.add_sub_cancel' hle] at hop

/-- A single operation. -/
theorem Spelled.single {ops : Array Op} {i : Nat} {op : Op} (h : ops[i]? = some op) : Spelled ops i [op] := by
  intro k op' hk
  cases k with
  | zero => exact h.trans hk
  | succ k => cases hk

end Op
end ScriptEngine
