import ScriptEngine.Machine.Op
import ScriptEngine.Proofs.Number.Integers
import ScriptEngine.Proofs.Number.Decimals

/-!
# What instructions stand for

Instructions are written as text and read back before a run. An instruction stands for an operation
if reading gives that operation whenever its distance fits a machine word. Every instruction that a
layout writes stands for the operation one expects, and a program all of whose instructions stand
for operations with such distances is decoded without a flaw.
-/

namespace ScriptEngine

namespace Op

/-- The distance of an operation that may jump, zero for the others. -/
def reach : Op → Int
  | buildFunc d | jump d | jumpPeek _ d | jumpIfFalse d => d
  | _ => 0

end Op

namespace Instruction

/-- Reading the instruction gives the operation, if the distance in it fits a machine word. -/
def Stands (i : Instruction) (op : Op) : Prop :=
  Number.fitsWord op.reach = true → (Op.Operand.read? i).map (Op.ofOperand i) = some op

/-- Reading the instruction gives the operation. -/
def Reads (i : Instruction) (op : Op) : Prop :=
  (Op.Operand.read? i).map (Op.ofOperand i) = some op

theorem Reads.eq_of_stands {i : Instruction} {op op' : Op} (h : i.Reads op') (hi : i.Stands op)
    (hfits : Number.fitsWord op.reach = true) : op' = op :=
  Option.some.inj (h.symm.trans (hi hfits))

theorem stands_number (x : Float) : (number x).Stands (.push (.number x)) := by
  intro _
  show ((Number.read? (Number.operand x)).map fun x => Op.Operand.ofConstant (.number x)).map _ = _
  rw [Number.read?_operand]
  rfl

theorem stands_count (n : Nat) : (count n).Stands (.push (.number (Number.ofNat n))) :=
  stands_number _

theorem stands_string (s : Text) : (string s).Stands (.push (.text s)) :=
  fun _ => rfl

theorem stands_boolean (b : Bool) :
    (withText .pushBoolean (if b then "true" else "false")).Stands (.push (.boolean b)) := by
  intro _
  have hread : Number.readBool?
      (withText .pushBoolean (if b then "true" else "false")).operandText = some b := by
    cases b <;> decide
  show ((Number.readBool? _).map fun b => Op.Operand.ofConstant (.boolean b)).map _ = _
  rw [hread]
  rfl

theorem stands_pushType (name : Text) :
    (withText .pushType name).Stands (.push (.type (TypeInfo.conversion name))) :=
  fun _ => rfl

theorem stands_buildType (name : Text) : (withText .buildType name).Stands (.buildType name) :=
  fun _ => rfl

theorem stands_dispatch (op : Text) : (withText .dispatch op).Stands (.dispatch op) :=
  fun _ => rfl

theorem stands_getVar (name : Text) : (withText .getVar name).Stands (.getVar name) :=
  fun _ => rfl

theorem stands_increment (name : Text) : (withText .increment name).Stands (.bump name true) :=
  fun _ => rfl

/-- Instructions whose operand is a distance read it back. -/
theorem read?_withDistance {op : Operation} {d : Int} (hop : op.operandKind = .jump)
    (hd : Number.fitsWord d = true) :
    Op.Operand.read? (withDistance op d) = some (Op.Operand.ofDistance d) := by
  have hkind : (withDistance op d).op.operandKind = .jump := by
    show Opcode.operandKind ⟨op.byte⟩ = _
    rw [Opcode.operandKind, Opcode.operation?, Operation.ofByte?_byte]
    exact hop
  have hread : (withDistance op d).distance? = some d := Number.readWord?_ofInt hd
  unfold Op.Operand.read?
  rw [hkind]
  show (withDistance op d).distance?.map Op.Operand.ofDistance = _
  rw [hread]
  rfl

theorem stands_withDistance {op : Operation} {d : Int} {o : Op} (hop : op.operandKind = .jump)
    (hreach : o.reach = d) (ho : Op.ofOperand (withDistance op d) (Op.Operand.ofDistance d) = o) :
    (withDistance op d).Stands o := by
  intro hd
  rw [hreach] at hd
  rw [read?_withDistance hop hd, Option.map_some, ho]

theorem stands_jump (d : Int) : (withDistance .jump d).Stands (.jump d) :=
  stands_withDistance rfl rfl rfl

theorem stands_jumpIfFalse (d : Int) : (withDistance .jumpIfFalse d).Stands (.jumpIfFalse d) :=
  stands_withDistance rfl rfl rfl

theorem stands_jumpIfFalsePeek (d : Int) :
    (withDistance .jumpIfFalsePeek d).Stands (.jumpPeek false d) :=
  stands_withDistance rfl rfl rfl

theorem stands_jumpIfTruePeek (d : Int) :
    (withDistance .jumpIfTruePeek d).Stands (.jumpPeek true d) :=
  stands_withDistance rfl rfl rfl

theorem stands_buildFunc (d : Int) : (withDistance .buildFunc d).Stands (.buildFunc d) :=
  stands_withDistance rfl rfl rfl

/-- What an instruction without an operand stands for. -/
def bareOp : Operation → Option Op
  | .pushNull => some (.push .null)
  | .pushEmpty => some (.push .empty)
  | .buildList => some .buildList
  | .buildDict => some .buildDict
  | .call => some .call
  | .ret => some .ret
  | .getMember => some .getMember
  | .assignLocal => some (.assign .inner)
  | .assignNearest => some (.assign .nearest)
  | .assignOuter => some (.assign .outer)
  | .negate => some .negate
  | .not => some .not
  | .leave => some (.stray false)
  | .again => some (.stray true)
  | .scopeEnter => some .scopeEnter
  | .scopeExit => some .scopeExit
  | .pop => some .pop
  | _ => none

theorem stands_bare {op : Operation} {o : Op} (h : bareOp op = some o) : (bare op).Stands o := by
  intro _
  cases op <;> simp only [bareOp, Option.some.injEq, reduceCtorEq] at h <;> subst h <;> rfl

end Instruction

namespace Op

theorem decodeAll_eq {code : List Instruction} {ops : List Op} {n : Nat} {acc : Array Op}
    (hlen : code.length = ops.length)
    (h : ∀ (k : Nat) i op, code[k]? = some i → ops[k]? = some op →
      (Operand.read? i).map (ofOperand i) = some op) :
    decodeAll code n acc = ⟨acc ++ ops.toArray, none⟩ := by
  induction code generalizing ops n acc with
  | nil =>
    cases ops with
    | nil => simp [decodeAll]
    | cons op rest => simp at hlen
  | cons i rest ih =>
    cases ops with
    | nil => simp at hlen
    | cons op others =>
      have hhead := h 0 i op rfl rfl
      obtain ⟨o, ho, hop⟩ := Option.map_eq_some_iff.mp hhead
      have htail := @ih others (n + 1) (acc.push op)
        (by simpa using hlen) (fun k => h (k + 1))
      rw [decodeAll, ho]
      show decodeAll rest (n + 1) (acc.push (ofOperand i o)) = _
      rw [hop, htail]
      simp

/-- A program that is decoded without a flaw was read instruction by instruction. -/
theorem decodeAll_reads {code : List Instruction} {n : Nat} {acc ops : Array Op}
    (h : decodeAll code n acc = ⟨ops, none⟩) :
    ops.size = acc.size + code.length ∧ (∀ i < acc.size, ops[i]? = acc[i]?) ∧
      ∀ (i : Nat) ins, code[i]? = some ins → ∃ op, ops[acc.size + i]? = some op ∧ ins.Reads op := by
  induction code generalizing n acc with
  | nil =>
    cases h
    exact ⟨rfl, fun _ _ => rfl, fun _ _ hi => by cases hi⟩
  | cons ins rest ih =>
    rw [decodeAll] at h
    cases hread : Operand.read? ins with
    | none =>
      rw [hread] at h
      cases h
    | some o =>
      rw [hread] at h
      obtain ⟨hsize, hbefore, hrest⟩ := ih h
      rw [Array.size_push] at hsize hbefore hrest
      refine ⟨by rw [hsize, List.length_cons]; omega, fun i hi => ?_, fun i ins' hi => ?_⟩
      · rw [hbefore i (Nat.lt_succ_of_lt hi), Array.getElem?_push_lt hi, Array.getElem?_eq_getElem hi]
      · cases i with
        | zero =>
          cases hi
          refine ⟨ofOperand ins o, ?_, ?_⟩
          · rw [Nat.add_zero, hbefore acc.size (Nat.lt_succ_self _), Array.getElem?_push_size]
          · unfold Instruction.Reads
            rw [hread]
            rfl
        | succ i =>
          obtain ⟨op, hop, hreads⟩ := hrest i ins' hi
          refine ⟨op, ?_, hreads⟩
          rw [← hop]
          congr 1
          omega

end Op
end ScriptEngine
