import ScriptEngine.Machine.Execute
import ScriptEngine.Proofs.Machine.Operands
import ScriptEngine.Proofs.Store.Shift

/-!
# An engine that has run before

Everything that earlier runs may leave in an engine: objects, slots of the operand stack, output and
messages. A new engine put behind all this does what it did, with shifted objects.
-/

namespace ScriptEngine

/-- What earlier runs have left. -/
structure Past where
  store : Store
  slots : Array Value
  output : Text
  messages : Array Message
  total : Nat

/-- The journal behind earlier messages, as long as there is room. -/
def Journal.shift (past : Past) (j : Journal) : Journal where
  recording := j.recording
  messages := past.messages ++ j.messages.extract 0 (Journal.limit - past.messages.size)
  total := past.total + j.total

def World.shift (past : Past) (w : World) : World where
  store := past.store.shift w.store
  host := { w.host with output := past.output ++ w.host.output }
  journal := w.journal.shift past

/-- The stack in slots that were used before. -/
def OperandStack.shift (past : Past) (st : OperandStack) : OperandStack where
  slots := st.slots.map (Value.shift past.store) ++ past.slots.extract st.slots.size past.slots.size
  height := st.height

def Snapshot.shift (past : Past) (sn : Snapshot) : Snapshot :=
  { sn with frame := shiftFrame past.store sn.frame }

def Machine.shift (past : Past) (m : Machine) : Machine :=
  { m with
    world := m.world.shift past
    stack := m.stack.shift past
    frame := shiftFrame past.store m.frame
    root := shiftFrame past.store m.root
    captured := m.captured.map (shiftFrame past.store) }

/-!
# Messages
-/

theorem extract_push_of_le {α : Type} {a : Array α} {x : α} {n : Nat} (h : n ≤ a.size) :
    (a.push x).extract 0 n = a.extract 0 n := by
  refine Array.ext_getElem? fun i => ?_
  rw [Array.getElem?_extract, Array.getElem?_extract, Array.size_push, Nat.min_eq_left h,
    Nat.min_eq_left (Nat.le_succ_of_le h), Array.getElem?_push]
  split
  · rw [if_neg (by omega)]
  · rfl

theorem Journal.add_shift (past : Past) (j : Journal) (message : Message) :
    (j.shift past).add message = (j.add message).shift past := by
  obtain ⟨recording, messages, total⟩ := j
  cases recording with
  | false => rfl
  | true =>
    have hmessages : (if (past.messages ++ messages.extract 0 (limit - past.messages.size)).size < limit
        then (past.messages ++ messages.extract 0 (limit - past.messages.size)).push message
        else past.messages ++ messages.extract 0 (limit - past.messages.size)) =
        past.messages ++ (if messages.size < limit then messages.push message
          else messages).extract 0 (limit - past.messages.size) := by
      have hsize : (past.messages ++ messages.extract 0 (limit - past.messages.size)).size =
          past.messages.size + min (limit - past.messages.size) messages.size := by
        rw [Array.size_append, Array.size_extract, Nat.sub_zero]
      by_cases hroom : messages.size < limit - past.messages.size
      · rw [if_pos (by omega), if_pos (by omega), ← Array.append_push,
          Array.extract_eq_self_of_le (by omega),
          Array.extract_eq_self_of_le (by rw [Array.size_push]; omega)]
      · rw [if_neg (by omega)]
        split
        · rw [extract_push_of_le (Nat.le_of_not_lt hroom)]
        · rfl
    exact congrArg₂ (Journal.mk true) hmessages (Nat.add_assoc past.total total 1)

/-!
# The operand stack
-/

section
variable {α : Type} {a b : Array α} {x : α}

theorem set_behind (h : a.size < b.size) :
    (a ++ b.extract a.size b.size).setIfInBounds a.size x =
      a.push x ++ b.extract (a.size + 1) b.size := by
  refine Array.ext_getElem? fun i => ?_
  rw [Array.getElem?_setIfInBounds, Array.size_append, Array.size_extract]
  by_cases hi : a.size = i
  · rw [if_pos hi, if_pos (by omega), Array.getElem?_append_left (by rw [Array.size_push]; omega), ← hi,
      Array.getElem?_push_size]
  · rw [if_neg hi]
    by_cases hlt : i < a.size
    · rw [Array.getElem?_append_left hlt, Array.getElem?_append_left (by rw [Array.size_push]; omega),
        Array.getElem?_push_lt hlt, Array.getElem?_eq_getElem hlt]
    · rw [Array.getElem?_append_right (by omega), Array.getElem?_append_right
        (by rw [Array.size_push]; omega), Array.getElem?_extract, Array.getElem?_extract,
        Array.size_push, Nat.min_self, show a.size + (i - a.size) = i by omega,
        show a.size + 1 + (i - (a.size + 1)) = i by omega]
      congr 1
      exact propext ⟨fun _ => by omega, fun _ => by omega⟩

end

namespace OperandStack

variable {past : Past} {st : OperandStack}

theorem top?_shift (h : st.Backed) : (st.shift past).top? = st.top?.map (Value.shift past.store) := by
  have hle : st.height ≤ st.slots.size := h
  have hheight : (st.shift past).height = st.height := rfl
  unfold top?
  rw [hheight]
  by_cases hzero : (st.height == 0) = true
  · rw [if_pos hzero, if_pos hzero]
    rfl
  · rw [if_neg hzero, if_neg hzero]
    have hne : st.height ≠ 0 := fun heq => hzero (beq_iff_eq.mpr heq)
    have hlt : st.height - 1 < (st.slots.map (Value.shift past.store)).size := by
      rw [Array.size_map]
      omega
    rw [shift, Array.getElem?_append_left hlt, Array.getElem?_map]

theorem push_shift (h : st.Backed) (v : Value) :
    (st.shift past).push (v.shift past.store) = (st.push v).shift past := by
  obtain ⟨slots, height⟩ := st
  have hle : height ≤ slots.size := h
  have hsize : (slots.map (Value.shift past.store) ++ past.slots.extract slots.size past.slots.size).size =
      slots.size + (past.slots.size - slots.size) := by
    rw [Array.size_append, Array.size_map, Array.size_extract, Nat.min_self]
  unfold shift push
  dsimp only
  by_cases hslot : height < slots.size
  · -- the slot was written in this run
    rw [if_pos hslot, if_pos (by omega)]
    dsimp only
    rw [Array.size_setIfInBounds, Array.setIfInBounds_append_left (by rw [Array.size_map]; exact hslot),
      Array.map_setIfInBounds]
  · obtain rfl : height = slots.size := Nat.le_antisymm hle (Nat.le_of_not_lt hslot)
    rw [if_neg hslot]
    dsimp only
    rw [Array.map_push, Array.size_push]
    by_cases hold : slots.size < past.slots.size
    · -- the slot is left from earlier runs
      rw [if_pos (by omega)]
      have hset := set_behind (a := slots.map (Value.shift past.store)) (b := past.slots)
        (x := v.shift past.store) (by rw [Array.size_map]; exact hold)
      rw [Array.size_map] at hset
      rw [hset]
    · have hnone : ∀ n, past.slots.size ≤ n → past.slots.extract n past.slots.size = #[] :=
        fun n hn => Array.extract_empty_of_size_le_start hn
      rw [if_neg (by omega), hnone _ (by omega), hnone _ (by omega), Array.append_empty,
        Array.append_empty]

end OperandStack

/-!
# The engine
-/

namespace Machine

variable {past : Past} {m : Machine}

theorem snapshot_shift (m : Machine) : (m.shift past).snapshot = m.snapshot.shift past := by
  unfold snapshot Snapshot.shift
  dsimp only [shift]
  rw [Array.size_map]
  rfl

theorem covers_shift (m : Machine) (sn : Snapshot) :
    (m.shift past).covers (sn.shift past) = m.covers sn := by
  have hcaptured : (m.shift past).captured.size = m.captured.size := Array.size_map
  unfold covers
  rw [hcaptured]
  rfl

theorem shrink_map {α : Type} (a : Array α) (f : α → α) (n : Nat) :
    (a.map f).shrink n = (a.shrink n).map f := by
  rw [Array.shrink_eq_take, Array.shrink_eq_take, Array.map_extract]

theorem restore_shift (m : Machine) (sn : Snapshot) :
    (m.shift past).restore (sn.shift past) = (m.restore sn).shift past := by
  unfold restore
  dsimp only [shift, Snapshot.shift]
  rw [shrink_map]
  rfl

theorem traceAt_shift (hs : m.world.store.Scoped) (hframe : m.world.store.HasFrame m.frame) (ip : Int) :
    (m.shift past).traceAt ip = m.traceAt ip := by
  have hboundary : Store.walkFuel (m.world.store.boundary m.frame) ≤ m.world.store.frames.size + 1 := by
    cases hb : m.world.store.boundary m.frame with
    | none => exact Nat.zero_le _
    | some b =>
      cases hf : m.frame with
      | none =>
        rw [hf] at hb
        cases hb
      | some f =>
        rw [hf] at hb
        have hle := hs.boundary_le hb
        have hlt := hframe f hf
        exact Nat.succ_le_succ (Nat.le_of_lt (Nat.lt_of_le_of_lt hle hlt))
  unfold traceAt
  show traceFrom (past.store.shift m.world.store) ((past.store.shift m.world.store).frames.size + 1)
    ((past.store.shift m.world.store).boundary (shiftFrame past.store m.frame)) (m.spanAt ip) #[] = _
  rw [Store.boundary_shift hs]
  refine Store.traceFrom_shift hs _ _ _ hboundary (Nat.le_trans hboundary ?_)
  show m.world.store.frames.size + 1 ≤ (onto past.store.frames _ m.world.store.frames).size + 1
  rw [size_onto]
  omega

theorem locate_shift (hs : m.world.store.Scoped) (hframe : m.world.store.HasFrame m.frame) (f : Fault) :
    (m.shift past).locate f = m.locate f := by
  have htrace : (m.shift past).traceAt (m.shift past).ip = m.traceAt m.ip := traceAt_shift hs hframe m.ip
  cases f with
  | located => rfl
  | raised failure message =>
    unfold locate
    rw [htrace]
    rfl
  | foreign message =>
    unfold locate
    rw [htrace]
    rfl

theorem tell_shift {text : Machine → Text} (level : Level) (htext : text (m.shift past) = text m) :
    (m.shift past).tell level text = (m.tell level text).shift past := by
  unfold tell
  show (if m.world.journal.recording then _ else _) = _
  rw [htext]
  split
  · have hadd := Journal.add_shift past m.world.journal ⟨level, .engine, text m⟩
    exact congrArg (fun j => ({ m.shift past with world := { m.world.shift past with journal := j } } :
      Machine)) hadd
  · rfl

theorem resolve_shift (hs : m.world.store.Scoped) (hinert : m.library.bindings.Every Value.Inert)
    (name : Text) : (m.shift past).resolve name = (m.resolve name).map (Value.shift past.store) := by
  unfold resolve
  rw [show (m.shift past).world.store.lookup (m.shift past).frame name false = _ from
    Store.lookup_shift hs m.frame name false]
  cases m.world.store.lookup m.frame name false with
  | some found => rfl
  | none =>
    show m.library.bindings.get? name = (m.library.bindings.get? name).map (Value.shift past.store)
    cases hv : m.library.bindings.get? name with
    | none => rfl
    | some v => exact congrArg some (Value.shift_inert (hinert.get? hv) past.store).symm

end Machine
end ScriptEngine
