import ScriptEngine.Proofs.Compiler.Heights
import ScriptEngine.Proofs.Program.Iterations

/-!
# Code that uses names as agreed

Every counter is bound in the scope of its loop before the first round. A fragment secures its start if,
wherever it sits in a program, code that is safe behind it, and where its exits lead, makes it safe from
its start on. The counted loops in it are known by their entries in the debug table.
-/

namespace ScriptEngine
namespace Fragment

/-- The fragment was read into the operations from position `k` on, and its waiting exits have
become jumps, to `leave` or to `again`. -/
structure Sits (f : Fragment) (ops : Array Op) (k leave again : Nat) : Prop where
  inside : k + f.length ≤ ops.size
  reads : ∀ (i : Nat) ins, f.code[i]? = some ins → ∃ op, ops[k + i]? = some op ∧
    ((∀ e ∈ f.exits, e.index ≠ i) ∧ ins.Reads op ∨
      ∃ e ∈ f.exits, e.index = i ∧ ∃ d : Int, op = .jump d ∧
        ((if e.again then again else leave : Nat) : Int) = (k + i : Nat) + 1 + d)

/-- Waiting exits lie inside the fragment, and there are none without a loop around. -/
def Closed (f : Fragment) (x : Option Mark) : Prop :=
  ∀ e ∈ f.exits, e.index < f.length ∧ x ≠ none

/-- A loop of the kind takes the whole fragment. -/
def LoopAt (u : Usage) (kind : Text) (f : Fragment) : Prop :=
  ∀ {ops : Array Op} {k leave again : Nat}, ops.size ≤ Slot.limit → f.Sits ops k leave again →
    Op.Loops u ops f.debug k kind k (k + f.length)

/-- The entries of loops belong to loops, wherever the fragment sits with some room. -/
def Looped (u : Usage) (room : Nat) (f : Fragment) : Prop :=
  ∀ e ∈ f.debug, Compiler.ofLoop e.kind = true → ∃ start stop : Nat, e.stop = stop ∧
    e.length = (stop : Int) - start ∧
      ∀ {ops : Array Op} {k leave again : Nat}, ops.size ≤ Slot.limit → f.Sits ops k leave again →
        k + room ≤ ops.size → Op.Loops u ops f.debug k e.kind (k + start) (k + stop)

/-- Code that is safe behind the fragment and where its exits lead makes it safe from its start on. -/
structure Secures (u : Usage) (f : Fragment) (a b : Mark) (x : Option Mark) : Prop where
  exits : f.Closed x
  loops : f.Looped u f.length
  safe : ∀ {ops : Array Op} {stop : Nat → Prop} {k leave again : Nat}, ops.size ≤ Slot.limit →
    f.Sits ops k leave again → ∀ n, Op.Safe u ops stop n (k + f.length) b →
    (∀ y, x = some y → (leave ≤ ops.size ∧ Op.Safe u ops stop n leave y) ∧
      again ≤ ops.size ∧ Op.Safe u ops stop n again y) →
    Op.Safe u ops stop n k a

/-- The fragment leaves the scopes as they were. -/
def Steady (u : Usage) (f : Fragment) (l : List (List Text)) (x : Option Mark) : Prop :=
  f.Secures u (.still l) (.still l) x

section
variable {u : Usage} {f g : Fragment} {ops : Array Op} {stop : Nat → Prop} {k leave again n : Nat}
  {a b c : Mark} {x : Option Mark} {l : List (List Text)} {ins : Instruction} {op : Op}

/-!
# Fragments in a program
-/

namespace Sits

theorem left (h : (f ++ g).Sits ops k leave again) : f.Sits ops k leave again where
  inside := by
    have hle := h.inside
    rw [length_append] at hle
    omega
  reads i ins hi := by
    have hlt : i < f.length := (List.getElem?_eq_some_iff.mp hi).1
    obtain ⟨op, hop, hread⟩ := h.reads i ins (by
      rw [code_append, List.getElem?_append_left hlt]
      exact hi)
    refine ⟨op, hop, ?_⟩
    rcases hread with ⟨hexit, hread⟩ | ⟨e, he, hindex, hjump⟩
    · exact Or.inl ⟨fun e he => hexit e (List.mem_append_left _ he), hread⟩
    · rw [exits_append] at he
      rcases List.mem_append.mp he with he | he
      · exact Or.inr ⟨e, he, hindex, hjump⟩
      · obtain ⟨e', -, rfl⟩ := List.mem_map.mp he
        have hindex : e'.index + f.length = i := hindex
        omega

theorem right (h : (f ++ g).Sits ops k leave again) (hf : f.Closed x) :
    g.Sits ops (k + f.length) leave again where
  inside := by
    have hle := h.inside
    rw [length_append] at hle
    omega
  reads i ins hi := by
    obtain ⟨op, hop, hread⟩ := h.reads (f.length + i) ins (by
      have hle : f.code.length ≤ f.length + i := Nat.le_add_right _ _
      rw [code_append, List.getElem?_append_right hle]
      rw [show f.length + i - f.code.length = i from Nat.add_sub_cancel_left _ _]
      exact hi)
    rw [← Nat.add_assoc] at hop hread
    refine ⟨op, hop, ?_⟩
    rcases hread with ⟨hexit, hread⟩ | ⟨e, he, hindex, hjump⟩
    · refine Or.inl ⟨fun e he hindex => ?_, hread⟩
      refine hexit ⟨e.index + f.length, e.again⟩ ?_ (by show e.index + f.length = _; omega)
      exact List.mem_append_right _ (List.mem_map.mpr ⟨e, he, rfl⟩)
    · rw [exits_append] at he
      rcases List.mem_append.mp he with he | he
      · have hlt := (hf e he).1
        omega
      · obtain ⟨e', he', rfl⟩ := List.mem_map.mp he
        have hindex : e'.index + f.length = f.length + i := hindex
        exact Or.inr ⟨e', he', by omega, hjump⟩

/-- The operation of an instruction of the fragment. -/
theorem read {code : List Instruction} {i : Nat} (h : (ofCode code).Sits ops k leave again)
    (hi : code[i]? = some ins) (hins : ins.Stands op) (hfits : Number.fitsWord op.reach = true) :
    ops[k + i]? = some op := by
  obtain ⟨op', hop, hread⟩ := h.reads i ins hi
  rcases hread with ⟨-, hread⟩ | ⟨e, he, -⟩
  · rw [← hread.eq_of_stands hins hfits]
    exact hop
  · exact absurd he List.not_mem_nil

/-- The operation of a single instruction. -/
theorem single (h : (ofCode [ins]).Sits ops k leave again) (hins : ins.Stands op)
    (hfits : Number.fitsWord op.reach = true) : ops[k]? = some op :=
  h.read (i := 0) rfl hins hfits

theorem unmark {kind : String} {span : Span} (h : (f.mark kind span).Sits ops k leave again) :
    f.Sits ops k leave again where
  inside := by
    rw [← length_mark f kind span]
    exact h.inside
  reads := by
    rw [← mark_code f kind span, ← mark_exits f kind span]
    exact h.reads

/-- Resolved exits lead where they were resolved to. -/
theorem resolve {l m : Nat} (h : (f.resolve l m).Sits ops k leave again)
    (hsize : ops.size ≤ Slot.limit) (hl : k + l ≤ ops.size) (hm : k + m ≤ ops.size) :
    f.Sits ops k (k + l) (k + m) where
  inside := by
    rw [← length_resolve f l m]
    exact h.inside
  reads i ins hi := by
    have hlt : i < f.length := (List.getElem?_eq_some_iff.mp hi).1
    have hlt' : i < (f.resolve l m).code.length := by
      show i < (f.resolve l m).length
      rw [length_resolve]
      exact hlt
    have hpatched : (patched l m f.exits f.code)[i]? = some (f.resolve l m).code[i] :=
      List.getElem?_eq_getElem hlt'
    obtain ⟨op, hop, hread⟩ := h.reads i _ (List.getElem?_eq_getElem hlt')
    have hread : (f.resolve l m).code[i].Reads op := by
      rcases hread with ⟨-, hread⟩ | ⟨e, he, -⟩
      · exact hread
      · exact absurd he List.not_mem_nil
    refine ⟨op, hop, ?_⟩
    rcases getElem?_patched hpatched with ⟨hcode, hexit⟩ | ⟨e, he, hindex, hins⟩
    · rw [hi] at hcode
      rw [← Option.some.inj hcode] at hread
      exact Or.inl ⟨hexit, hread⟩
    · refine Or.inr ⟨e, he, hindex, ((if e.again then m else l : Nat) : Int) - (i + 1), ?_, ?_⟩
      · rw [hins] at hread
        refine hread.eq_of_stands (Instruction.stands_jump _) (Op.fitsWord_of_natAbs ?_)
        show (((if e.again then m else l : Nat) : Int) - (i + 1)).natAbs ≤ _
        have hinside := h.inside
        rw [length_resolve] at hinside
        split <;> omega
      · split <;> omega

end Sits

/-!
# Putting fragments together
-/

theorem closed_of_exits (h : f.exits = []) : f.Closed x := by
  intro e he
  rw [h] at he
  exact absurd he List.not_mem_nil

theorem closed_ofCode (code : List Instruction) : (ofCode code).Closed x :=
  closed_of_exits rfl

namespace Closed

theorem append (hf : f.Closed x) (hg : g.Closed x) : (f ++ g).Closed x := by
  intro e he
  rw [exits_append] at he
  rw [length_append]
  rcases List.mem_append.mp he with he | he
  · exact ⟨Nat.lt_add_right _ (hf e he).1, (hf e he).2⟩
  · obtain ⟨e', he', rfl⟩ := List.mem_map.mp he
    obtain ⟨hlt, hx⟩ := hg e' he'
    refine ⟨?_, hx⟩
    show e'.index + f.length < _
    omega

theorem inAnyLoop (h : f.Closed none) : f.Closed x :=
  fun e he => absurd rfl (h e he).2

end Closed

namespace Looped

variable {room room' total : Nat}

theorem of_debug_nil (h : f.debug = []) : f.Looped u room := by
  intro e he
  rw [h] at he
  exact absurd he List.not_mem_nil

theorem ofCode (code : List Instruction) : (ofCode code).Looped u room :=
  of_debug_nil rfl

theorem append (hf : f.Looped u room) (hclosed : f.Closed x) (hg : g.Looped u room')
    (hroom : room ≤ total) (hroom' : f.length + room' ≤ total) : (f ++ g).Looped u total := by
  intro e he hkind
  rw [debug_append] at he ⊢
  rcases List.mem_append.mp he with he | he
  · obtain ⟨start, stop, hstop, hlength, hloops⟩ := hf e he hkind
    exact ⟨start, stop, hstop, hlength, fun hsize hsits hinside =>
      (hloops hsize hsits.left (by omega)).among fun e he => List.mem_append_left _ he⟩
  · obtain ⟨e', he', rfl⟩ := List.mem_map.mp he
    obtain ⟨start, stop, hstop, hlength, hloops⟩ := hg e' he' hkind
    refine ⟨f.length + start, f.length + stop, ?_, ?_, fun hsize hsits hinside => ?_⟩
    · show e'.stop + (f.length : Int) = _
      omega
    · show e'.length = _
      omega
    · have hright := (hloops hsize (hsits.right hclosed) (by omega)).moved
      rw [Nat.add_assoc, Nat.add_assoc] at hright
      exact hright.among fun e he => List.mem_append_right _ he

theorem mark (h : f.Looped u room) {kind : String} (hkind : Compiler.ofLoop kind = false) (span : Span) :
    (f.mark kind span).Looped u room := by
  by_cases hcode : f.code = []
  · rw [mark_of_code_nil hcode]
    exact h
  intro e he hloop
  rw [mark_debug hcode] at he ⊢
  rcases List.mem_append.mp he with he | he
  · obtain ⟨start, stop, hstop, hlength, hloops⟩ := h e he hloop
    exact ⟨start, stop, hstop, hlength, fun hsize hsits hinside =>
      (hloops hsize hsits.unmark hinside).among fun e he => List.mem_append_left _ he⟩
  · rw [List.mem_singleton.mp he] at hloop
    exact absurd (hkind.symm.trans hloop) (by decide)

theorem markLoop {kind : String} (h : f.Looped u room) (hloop : f.LoopAt u kind) (span : Span) :
    (f.mark kind span).Looped u room := by
  by_cases hcode : f.code = []
  · rw [mark_of_code_nil hcode]
    exact h
  intro e he hkind
  rw [mark_debug hcode] at he ⊢
  rcases List.mem_append.mp he with he | he
  · obtain ⟨start, stop, hstop, hlength, hloops⟩ := h e he hkind
    exact ⟨start, stop, hstop, hlength, fun hsize hsits hinside =>
      (hloops hsize hsits.unmark hinside).among fun e he => List.mem_append_left _ he⟩
  · rw [List.mem_singleton.mp he]
    refine ⟨0, f.length, rfl, (Int.sub_zero _).symm, fun hsize hsits _ => ?_⟩
    exact (hloop hsize hsits.unmark).among fun e he => List.mem_append_left _ he

/-- Exits can be resolved where there is room for what they lead to. -/
theorem resolve {l m : Nat} (h : f.Looped u room) (hl : l ≤ total) (hm : m ≤ total)
    (hroom : room ≤ total) : (f.resolve l m).Looped u total := by
  intro e he hkind
  obtain ⟨start, stop, hstop, hlength, hloops⟩ := h e he hkind
  exact ⟨start, stop, hstop, hlength, fun hsize hsits hinside =>
    hloops hsize (hsits.resolve hsize (by omega) (by omega)) (by omega)⟩

end Looped

namespace Secures

theorem empty : Fragment.empty.Secures u a a x where
  exits := closed_ofCode []
  loops := .ofCode []
  safe _ _ _ h _ := h

theorem append (hf : f.Secures u a b x) (hg : g.Secures u b c x) : (f ++ g).Secures u a c x where
  exits := hf.exits.append hg.exits
  loops := hf.loops.append hf.exits hg.loops (by simp) (by simp)
  safe hsize hsits n hend hexits := by
    rw [length_append, ← Nat.add_assoc] at hend
    exact hf.safe hsize hsits.left n (hg.safe hsize (hsits.right hf.exits) n hend hexits) hexits

theorem unmarked (h : f.Secures u a b x) {kind : String} {span : Span}
    (hloops : (f.mark kind span).Looped u f.length) : (f.mark kind span).Secures u a b x where
  exits e he := by
    rw [mark_exits] at he
    rw [length_mark]
    exact h.exits e he
  loops := by
    rw [length_mark]
    exact hloops
  safe hsize hsits n hend hexits := by
    rw [length_mark] at hend
    exact h.safe hsize hsits.unmark n hend hexits

theorem mark (h : f.Secures u a b x) {kind : String} (hkind : Compiler.ofLoop kind = false) (span : Span) :
    (f.mark kind span).Secures u a b x :=
  h.unmarked (h.loops.mark hkind span)

theorem markLoop {kind : String} (h : f.Secures u a b x) (hloop : f.LoopAt u kind) (span : Span) :
    (f.mark kind span).Secures u a b x :=
  h.unmarked (h.loops.markLoop hloop span)

theorem emit {code : List Instruction} (hf : f.Secures u a b x) (hcode : (ofCode code).Secures u b c x) :
    (f.emit code).Secures u a c x := by
  rw [emit_eq]
  exact hf.append hcode

/-- Less may be claimed behind the fragment than what is known there. -/
theorem behind (h : f.Secures u a b x) (hcb : c.Weaker b) : f.Secures u a c x where
  exits := h.exits
  loops := h.loops
  safe hsize hsits n hend hexits := h.safe hsize hsits n (hend.weaker hcb) hexits

/-- Where there is no loop around, there may be any. -/
theorem inAnyLoop (h : f.Secures u a b none) : f.Secures u a b x where
  exits := h.exits.inAnyLoop
  loops := h.loops
  safe hsize hsits n hend _ := h.safe hsize hsits n hend fun _ hy => by cases hy

/-- A single instruction, by what it hands control to. -/
theorem one (hins : ins.Stands op) (hreach : op.reach = 0) (hallowed : op.Allowed u a)
    (hhands : ∀ (ops : Array Op) (stop : Nat → Prop) (i n : Nat), Op.Safe u ops stop n (i + 1) b →
      op.Hands ops i (fun j => Op.Safe u ops stop n j (op.after a))
        fun j => Op.Safe u ops stop n j .entry) :
    (ofCode [ins]).Secures u a b x where
  exits := closed_ofCode _
  loops := .ofCode _
  safe hsize hsits n hend _ := by
    have hfits : Number.fitsWord op.reach = true := by
      rw [hreach]
      decide
    cases n with
    | zero => trivial
    | succ n => exact Op.safe_succ (hsits.single hins hfits) hallowed (hhands _ _ _ n hend.pred)

/-- An instruction that does not go on, so that anything may stand behind it. -/
theorem halt (hins : ins.Stands op) (hop : op = .ret ∨ ∃ again, op = .stray again) :
    (ofCode [ins]).Secures u (.still l) b x := by
  rcases hop with rfl | ⟨again, rfl⟩
  · exact one hins rfl trivial fun _ _ _ _ _ => trivial
  · exact one hins rfl trivial fun _ _ _ _ _ => trivial

theorem enter : (ofCode [.bare .scopeEnter]).Secures u (.still l) (.still ([] :: l)) x := by
  have hins : (Instruction.bare .scopeEnter).Stands .scopeEnter := Instruction.stands_bare rfl
  exact one hins rfl trivial fun _ _ _ _ hnext => hnext

theorem close {names : List Text} :
    (ofCode [.bare .scopeExit]).Secures u (.still (names :: l)) (.still l) x := by
  have hins : (Instruction.bare .scopeExit).Stands .scopeExit := Instruction.stands_bare rfl
  exact one hins rfl (List.cons_ne_nil _ _) fun _ _ _ _ hnext => hnext

end Secures

end
end Fragment

/-!
# Straight code
-/

/-- The instruction stands for a plain operation that is allowed where some scopes are open. -/
def Instruction.Plain (u : Usage) (l : List (List Text)) (ins : Instruction) : Prop :=
  ∃ op, ins.Stands op ∧ op.plain = true ∧ op.Allowed u (.still l)

namespace Instruction

variable {u : Usage} {l : List (List Text)}

theorem plain_number (y : Float) : (number y).Plain u l :=
  ⟨_, stands_number y, rfl, trivial⟩

theorem plain_count (n : Nat) : (count n).Plain u l :=
  ⟨_, stands_count n, rfl, trivial⟩

theorem plain_string (s : Text) : (string s).Plain u l :=
  ⟨_, stands_string s, rfl, trivial⟩

theorem plain_boolean (b : Bool) :
    (withText .pushBoolean (if b then "true" else "false")).Plain u l :=
  ⟨_, stands_boolean b, rfl, trivial⟩

theorem plain_pushType (name : Text) : (withText .pushType name).Plain u l :=
  ⟨_, stands_pushType name, rfl, trivial⟩

theorem plain_buildType {name : Text} (h : u.Types name) : (withText .buildType name).Plain u l :=
  ⟨_, stands_buildType name, rfl, h⟩

theorem plain_dispatch (op : Text) : (withText .dispatch op).Plain u l :=
  ⟨_, stands_dispatch op, rfl, trivial⟩

theorem plain_getVar {name : Text} (h : u.Reads name l) : (withText .getVar name).Plain u l :=
  ⟨_, stands_getVar name, rfl, h⟩

theorem plain_bare {op : Operation} {o : Op} (h : bareOp op = some o) (ho : o.plain = true) :
    (bare op).Plain u l := by
  refine ⟨o, stands_bare h, ho, ?_⟩
  cases op <;> cases h <;> trivial

end Instruction

namespace Fragment

section
variable {u : Usage} {f g : Fragment} {ops : Array Op} {stop : Nat → Prop} {k leave again n : Nat}
  {a b c : Mark} {x : Option Mark} {l : List (List Text)} {ins : Instruction} {op : Op}

namespace Steady

open Instruction

theorem plain (h : ins.Plain u l) : (ofCode [ins]).Steady u l x := by
  obtain ⟨op, hins, hop, hallowed⟩ := h
  refine .one hins (Op.plain_reach hop) hallowed fun ops stop i n hnext => ?_
  rw [Op.plain_after hop]
  exact Op.plain_hands hop hnext

theorem nil : (ofCode []).Steady u l x :=
  .empty

/-- Plain instructions one after the other. -/
theorem cons {code : List Instruction} (hins : ins.Plain u l) (hcode : (ofCode code).Steady u l x) :
    (ofCode (ins :: code)).Steady u l x := by
  rw [ofCode_cons]
  exact (plain hins).append hcode

/-!
# Conditions, functions and exits
-/

theorem fits_of_le {d : Nat} (hsize : ops.size ≤ Slot.limit) (hd : d ≤ ops.size) :
    Number.fitsWord d = true :=
  Op.fitsWord_of_natAbs (by omega)

/-- A condition that skips a part. -/
theorem skip {skip : Operation} (hskip : ∀ d, ∃ op : Op, (withDistance skip d).Stands op ∧
      (op = .jumpIfFalse d ∨ ∃ expected, op = .jumpPeek expected d)) (hg : g.Steady u l x) :
    (ofCode [.withDistance skip g.length] ++ g).Steady u l x where
  exits := (closed_ofCode _).append hg.exits
  loops := (Looped.ofCode _).append (closed_ofCode (x := x) _) hg.loops (Nat.zero_le _) (by simp)
  safe {ops stop k leave again} hsize hsits n hend hexits := by
    have hinside := hsits.inside
    rw [length_append, length_ofCode, List.length_singleton, ← Nat.add_assoc] at hend hinside
    obtain ⟨op, hins, hop⟩ := hskip g.length
    cases n with
    | zero => trivial
    | succ n =>
      have hnext := (hg.safe hsize (hsits.right (x := x) (closed_ofCode _)) (n + 1) hend hexits).pred
      have hlands : Op.Lands ops k g.length fun j => Op.Safe u ops stop n j (.still l) :=
        ⟨k + 1 + g.length, by omega, hinside, hend.pred⟩
      have hfits := fits_of_le hsize (show g.length ≤ ops.size by omega)
      rcases hop with rfl | ⟨expected, rfl⟩
      · exact Op.safe_succ (hsits.left.single hins hfits) trivial ⟨hnext, hlands⟩
      · exact Op.safe_succ (hsits.left.single hins hfits) trivial ⟨hnext, hlands⟩

/-- A condition that chooses between two parts. -/
theorem choose (hf : f.Steady u l x) (hg : g.Steady u l x) :
    (ofCode [.withDistance .jumpIfFalse (f.length + 1)] ++ (f ++
      (ofCode [.withDistance .jump g.length] ++ g))).Steady u l x where
  exits := (closed_ofCode _).append (hf.exits.append ((closed_ofCode _).append hg.exits))
  loops := by
    have hsecond : (ofCode [.withDistance .jump g.length] ++ g).Looped u (1 + g.length) :=
      (Looped.ofCode _).append (closed_ofCode (x := x) _) hg.loops (Nat.zero_le _) (by simp)
    refine (Looped.ofCode _).append (closed_ofCode (x := x) _)
      (hf.loops.append hf.exits hsecond (Nat.le_add_right _ (1 + g.length)) (Nat.le_refl _))
      (Nat.zero_le _) (by simp)
  safe {ops stop k leave again} hsize hsits n hend hexits := by
    have hinside := hsits.inside
    have hrest := hsits.right (x := x) (closed_ofCode _)
    have hjump := hrest.right hf.exits
    simp only [length_append, length_ofCode, List.length_singleton] at hend hinside hrest hjump
    have hsecond : Op.Safe u ops stop n (k + 1 + f.length + 1) (.still l) := by
      refine hg.safe hsize (hjump.right (x := x) (closed_ofCode _)) n ?_ hexits
      have hpos : k + 1 + f.length + 1 + g.length = k + (1 + (f.length + (1 + g.length))) := by omega
      exact hpos ▸ hend
    cases n with
    | zero => trivial
    | succ n =>
      have hover : Op.Safe u ops stop (n + 1) (k + 1 + f.length) (.still l) := by
        refine Op.safe_succ (hjump.left.single (stands_jump _)
          (fits_of_le hsize (show g.length ≤ ops.size by omega))) trivial ?_
        exact ⟨k + (1 + (f.length + (1 + g.length))), by omega, hinside, hend.pred⟩
      have hfirst := (hf.safe hsize hrest.left (n + 1) hover hexits).pred
      refine Op.safe_succ (hsits.left.single (stands_jumpIfFalse _)
        (fits_of_le hsize (show f.length + 1 ≤ ops.size by omega))) trivial ?_
      exact ⟨hfirst, k + 1 + f.length + 1, by omega, by omega, hsecond.pred⟩

/-- The instruction that builds a closure, and the body it skips. -/
theorem build (hg : g.Secures u .entry (.still l) none) :
    (ofCode [.withDistance .buildFunc g.length] ++ g).Steady u l x where
  exits := (closed_ofCode _).append hg.exits.inAnyLoop
  loops := (Looped.ofCode _).append (closed_ofCode (x := x) _) hg.loops (Nat.zero_le _) (by simp)
  safe {ops stop k leave again} hsize hsits n hend _ := by
    have hinside := hsits.inside
    rw [length_append, length_ofCode, List.length_singleton, ← Nat.add_assoc] at hend hinside
    cases n with
    | zero => trivial
    | succ n =>
      have hbody := hg.safe hsize (hsits.right (x := x) (closed_ofCode _)) n hend.pred fun _ hy => by cases hy
      refine Op.safe_succ (hsits.left.single (stands_buildFunc _)
        (fits_of_le hsize (show g.length ≤ ops.size by omega))) trivial ?_
      exact ⟨hbody, k + 1 + g.length, by omega, hinside, hend.pred⟩

end Steady

/-- A loop exit closes the scopes inside the loop; behind it anything may stand. -/
theorem Secures.exit {again : Bool} {n : Nat} (hn : n ≤ l.length) :
    (Fragment.exit again (some n)).Secures u (.still l) b (some (.still (l.drop n))) := by
  induction n generalizing l with
  | zero =>
    refine ⟨fun e he => ?_, .of_debug_nil rfl, fun {ops stop k leave again'} hsize hsits n hend hexits => ?_⟩
    · rw [List.mem_singleton.mp he]
      exact ⟨Nat.zero_lt_one, Option.some_ne_none _⟩
    · obtain ⟨op, hop, hread⟩ := hsits.reads 0 _ rfl
      rcases hread with ⟨hexit, -⟩ | ⟨e, he, -, d, rfl, hd⟩
      · exact absurd rfl (hexit _ (List.mem_singleton.mpr rfl))
      · obtain ⟨⟨hleave, hsafe⟩, hagain, hsafe'⟩ := hexits _ rfl
        cases n with
        | zero => trivial
        | succ n =>
          refine Op.safe_succ hop trivial ⟨_, hd, ?_⟩
          split
          · exact ⟨hagain, hsafe'.pred⟩
          · exact ⟨hleave, hsafe.pred⟩
  | succ n ih =>
    cases l with
    | nil => exact absurd hn (Nat.not_succ_le_zero n)
    | cons names l =>
      exact Secures.close.append (ih (Nat.le_of_succ_le_succ hn))

/-!
# Loops
-/

theorem loop_eq (init : Fragment) (cond : Option Fragment) (body step : Fragment) :
    Fragment.loop init cond body step =
      ofCode [.bare .scopeEnter] ++ (init ++ (loopTest cond (body.length + step.length + 1) ++
        (body.resolve (body.length + step.length + 1) body.length ++ (step ++
          (ofCode [.withDistance .jump
            (-(((loopTest cond (body.length + step.length + 1)).length + body.length + step.length :
              Nat) + 1 : Int))] ++
            ofCode [.bare .scopeExit, .bare .pushNull]))))) := by
  have hround : (loopTest cond (body.length + step.length + 1) ++
      body.resolve (body.length + step.length + 1) body.length ++ step).length =
      (loopTest cond (body.length + step.length + 1)).length + body.length + step.length := by
    simp only [length_append, length_resolve]
  rw [← hround]
  show (ofCode [.bare .scopeEnter] ++ init ++ (loopTest cond (body.length + step.length + 1) ++
    body.resolve (body.length + step.length + 1) body.length ++ step)).emit
      [.withDistance .jump (-((loopTest cond (body.length + step.length + 1) ++
        body.resolve (body.length + step.length + 1) body.length ++ step).length + 1 : Int)),
        .bare .scopeExit, .bare .pushNull] = _
  simp only [emit_eq, append_assoc]
  rfl

/-- The test in front of a loop's body goes on or skips `rest` instructions. -/
theorem safe_loopTest {cond : Option Fragment} {rest : Nat} {w : List (List Text)}
    (hcond : ∀ c, cond = some c → c.Steady u w none) (hsize : ops.size ≤ Slot.limit)
    (hsits : (loopTest cond rest).Sits ops k leave again)
    (hinside : k + (loopTest cond rest).length + rest ≤ ops.size)
    (hnext : Op.Safe u ops stop n (k + (loopTest cond rest).length) (.still w))
    (hskip : Op.Safe u ops stop n (k + (loopTest cond rest).length + rest) (.still w)) :
    Op.Safe u ops stop n k (.still w) := by
  cases cond with
  | none => exact hnext
  | some c =>
    have htest : loopTest (some c) rest = c ++ ofCode [.withDistance .jumpIfFalse rest] :=
      emit_eq c _
    rw [htest] at hsits hinside hnext hskip
    rw [length_append, length_ofCode, List.length_singleton, ← Nat.add_assoc] at hinside hnext hskip
    refine (hcond c rfl).safe hsize hsits.left n ?_ fun _ hy => by cases hy
    cases n with
    | zero => trivial
    | succ n =>
      refine Op.safe_succ ((hsits.right (hcond c rfl).exits).single (Instruction.stands_jumpIfFalse _)
        (Steady.fits_of_le hsize (show rest ≤ ops.size by omega))) trivial ?_
      exact ⟨hnext.pred, k + c.length + 1 + rest, by omega, hinside, hskip.pred⟩

/-- A loop, whose scope binds the counter or does not when the first round begins. -/
theorem Steady.loop {init body step : Fragment} {cond : Option Fragment} {names : List Text}
    (hinit : init.Secures u (.still ([] :: l)) (.still (names :: l)) x)
    (hcond : ∀ c, cond = some c → c.Steady u (names :: l) none)
    (hbody : body.Steady u (names :: l) (some (.still (names :: l)))) (hstep : step.Steady u (names :: l) x) :
    (Fragment.loop init cond body step).Steady u l x := by
  rw [loop_eq]
  generalize htest : loopTest cond (body.length + step.length + 1) = test
  generalize hback : (-((test.length + body.length + step.length : Nat) + 1 : Int)) = back
  have htests : test.Closed x := by
    rw [← htest]
    cases cond with
    | none => exact closed_ofCode []
    | some c =>
      show (c.emit _).Closed x
      rw [emit_eq]
      exact (hcond c rfl).exits.inAnyLoop.append (closed_ofCode _)
  have hresolved : (body.resolve (body.length + step.length + 1) body.length).Closed x :=
    closed_of_exits rfl
  have hclose : (ofCode [.bare .scopeExit, .bare .pushNull]).Secures u (.still (names :: l)) (.still l) x := by
    rw [ofCode_cons]
    exact Secures.close.append (plain (Instruction.plain_bare rfl rfl))
  have hround : (body.resolve (body.length + step.length + 1) body.length).Looped u
      (body.length + step.length + 1) :=
    hbody.loops.resolve (Nat.le_refl _) (by omega) (by omega)
  have hlooped : test.Looped u test.length := by
    rw [← htest]
    cases cond with
    | none => exact .ofCode []
    | some c =>
      show (c.emit _).Looped u (c.emit _).length
      rw [emit_eq]
      exact (hcond c rfl).loops.append (hcond c rfl).exits (show (ofCode _).Looped u 0 from .ofCode _) (by simp) (by simp)
  refine Secures.enter.append (hinit.append ⟨?_, ?_, ?_⟩)
  · exact htests.append (hresolved.append (hstep.exits.append
      ((closed_ofCode _).append (closed_ofCode _))))
  · have hbehind : (ofCode [.withDistance .jump back] ++ ofCode [.bare .scopeExit, .bare .pushNull]).Looped
        u 0 := .of_debug_nil rfl
    have hsteps := hstep.loops.append hstep.exits hbehind (Nat.le_succ _) (Nat.le_succ _)
    have hrounds := hround.append hresolved hsteps (Nat.le_refl _) (by
      rw [length_resolve]
      exact Nat.le_refl _)
    refine hlooped.append htests hrounds (by simp) ?_
    simp only [length_append, length_resolve, length_ofCode, List.length_cons, List.length_nil]
    omega
  intro ops stop k leave again hsize hsits n hend hexits
  have hinside := hsits.inside
  have hsitsBody := hsits.right htests
  have hsitsStep := hsitsBody.right hresolved
  have hsitsBack := hsitsStep.right hstep.exits
  have hsitsClose := hsitsBack.right (x := x) (closed_ofCode _)
  simp only [length_append, length_resolve, length_ofCode, List.length_cons, List.length_nil]
    at hend hinside hsitsBody hsitsStep hsitsBack hsitsClose
  have hleft : Op.Safe u ops stop n (k + test.length + body.length + step.length + 1) (.still (names :: l)) := by
    refine hclose.safe hsize hsitsClose n ?_ hexits
    have hpos : k + test.length + body.length + step.length + 1 + 2 =
        k + (test.length + (body.length + (step.length + (1 + 2)))) := by omega
    exact hpos ▸ hend
  -- each round is one jump shorter than the one before it
  induction n with
  | zero => trivial
  | succ n ih =>
    have hexits' : ∀ y, x = some y → (leave ≤ ops.size ∧ Op.Safe u ops stop n leave y) ∧
        again ≤ ops.size ∧ Op.Safe u ops stop n again y := by
      intro y hy
      obtain ⟨⟨hle, h⟩, hle', h'⟩ := hexits y hy
      exact ⟨⟨hle, h.pred⟩, hle', h'.pred⟩
    have hagain := ih hexits' hend.pred hleft.pred
    have hjump : Op.Safe u ops stop (n + 1) (k + test.length + body.length + step.length)
        (.still (names :: l)) := by
      refine Op.safe_succ (hsitsBack.left.single (Instruction.stands_jump _)
        (Op.fitsWord_of_natAbs ?_)) trivial ⟨k, by omega, by omega, hagain⟩
      show back.natAbs ≤ _
      omega
    have hsteps := hstep.safe hsize hsitsStep.left (n + 1) hjump hexits
    have hround : Op.Safe u ops stop (n + 1) (k + test.length) (.still (names :: l)) := by
      refine hbody.safe hsize (hsitsBody.left.resolve hsize (by omega) (by omega)) (n + 1) hsteps ?_
      rintro y hy
      cases hy
      refine ⟨⟨by omega, ?_⟩, by omega, hsteps⟩
      have hpos : k + test.length + (body.length + step.length + 1) =
          k + test.length + body.length + step.length + 1 := by omega
      rw [hpos]
      exact hleft
    have hsitsTest := hsits.left
    rw [← htest] at hsitsTest hround hleft hinside
    refine safe_loopTest hcond hsize hsitsTest (by omega) hround ?_
    have hpos : k + (loopTest cond (body.length + step.length + 1)).length +
        (body.length + step.length + 1) =
        k + (loopTest cond (body.length + step.length + 1)).length + body.length + step.length + 1 := by
      omega
    rw [hpos]
    exact hleft

end
end Fragment
end ScriptEngine
