import ScriptEngine.Proofs.Machine.Blindness
import ScriptEngine.Proofs.Native.Conduct
import ScriptEngine.Proofs.Store.Guises

/-!
# Engines that look different

A guise of the engine shows its frames with their bindings and links, and may show other records of the
calls in progress, another debug table and another journal. Instructions do the same seen through a
guise: nothing that they do depends on what looks different.
-/

namespace ScriptEngine

/-- A way to show an engine. What it shows of a closure's boundary frame is the boundary frame of the
closure in the engine that it shows. -/
structure Guise where
  frame : Frame → Frame
  label : Text → Text
  program : Option Program → Option Program
  journal : Journal → Journal
  frames : Frame.Guise frame
  unlabelled : label Text.empty = Text.empty
  add : ∀ j message, journal (j.add message) = (journal j).add message
  call : ∀ (m : Machine) cl args native, frame (m.callFrame cl args native) =
    Machine.callFrame { m with program := program m.program } cl args (label native)

namespace Guise

/-- The store with its frames as the guise shows them. -/
def store (G : Guise) (s : Store) : Store :=
  s.guised G.frame

def world (G : Guise) (w : World) : World :=
  ⟨G.store w.store, w.host, G.journal w.journal⟩

/-- The engine as the guise shows it, its call records seen through `g`. -/
def machine (G : Guise) (g : Array CallRecord → Array CallRecord) (m : Machine) : Machine :=
  { m with world := G.world m.world, program := G.program m.program, calls := g m.calls }

variable (G : Guise)

/-- Work on values is blind to how frames and call records are shown. -/
theorem view (g : Array CallRecord → Array CallRecord) : Machine.View (G.machine g) G.store where
  typeName s := s.typeName_guised
  display s := s.display_guised
  repr s := s.repr_guised
  dict _ _ := rfl
  instance? _ _ := rfl
  window _ _ := rfl
  rowCells _ _ := rfl
  lookup s := s.lookup_guised G.frames
  copy s := s.copy_guised
  newListIn _ _ _ := rfl
  newDict _ _ := rfl
  attach s c r := by
    unfold Store.attach
    cases hc : s.closure? c with
    | none => simp only [show (G.store s).closure? c = none from hc]
    | some cl =>
      simp only [show (G.store s).closure? c = some cl from hc]
      rfl
  nameClosure _ _ _ := rfl
  modifyDict _ _ _ := rfl
  listSet _ _ _ _ := rfl
  setField _ _ _ _ := rfl
  define s := s.define_guised G.frames
  setNearest s := s.setNearest_guised G.frames
  setOuter s := s.setOuter_guised G.frames
  store _ := rfl
  withStore _ _ := rfl
  frame _ := rfl
  library _ := rfl

end Guise

namespace Exec

variable {m : Machine}

/-- Takes a call off: its record, its boundary, and the operands above the height at the call. -/
def unwind (height : Nat) : Exec Unit := do
  let boundary ← reads fun m =>
    (m.world.store.boundary m.frame).bind fun b => m.world.store.frame? b
  modify fun m => { m with calls := m.calls.pop }
  match boundary with
  | none => crash absent
  | some b => do
    tell fun _ => "return from " ++ b.name
    modify fun m =>
      { m with
        frame := b.caller
        captured := m.captured.pop
        stack := m.stack.cut height }

/-- What follows a return: a nested run is over, or the caller goes on. -/
def handBack (v : Value) (record : CallRecord) : Exec Next :=
  if record.reentry then pure (.done v)
  else do
    push v
    modify fun m => { m with ip := record.callIp }
    pure .next

theorem giveBack_eq_unwind {record : CallRecord} (h : m.calls.back? = some record) (v : Value) :
    giveBack v m = (unwind record.depth >>= fun _ => handBack v record) m := by
  unfold giveBack unwind handBack
  rw [bind_of_ok (show reads (fun m => m.calls.back?) m = .ok (some record) m by rw [← h]; rfl)]
  simp only [bind_assoc]
  rw [bind_of_ok (m := m) (x := reads fun m => (m.world.store.boundary m.frame).bind
      fun b => m.world.store.frame? b) rfl,
    bind_of_ok (m := m) (x := reads fun m => (m.world.store.boundary m.frame).bind
      fun b => m.world.store.frame? b) rfl]
  dsimp only
  cases (m.world.store.boundary m.frame).bind fun b => m.world.store.frame? b with
  | none => rfl
  | some b => cases record.reentry <;> rfl

end Exec

namespace Guise

open Exec

variable (G : Guise) {g : Array CallRecord → Array CallRecord} {m : Machine}

theorem blind_push (v : Value) : Blind (G.machine g) (push v) :=
  fun _ => rfl

theorem blind_top : Blind (G.machine g) top := by
  intro m
  unfold BlindAt top
  rw [show (G.machine g m).stack.top? = m.stack.top? from rfl]
  cases m.stack.top? <;> rfl

theorem blind_pop : Blind (G.machine g) pop := by
  intro m
  unfold BlindAt pop
  rw [show (G.machine g m).stack.top? = m.stack.top? from rfl]
  cases m.stack.top? <;> rfl

/-- The journal takes a message only if it is recording. -/
theorem tell_eq_add (m : Machine) (level : Level) (text : Machine → Text) :
    m.tell level text = m.withJournal (m.world.journal.add ⟨level, .engine, text m⟩) := by
  unfold Machine.tell Journal.add
  cases h : m.world.journal.recording with
  | true => rfl
  | false =>
    rw [if_neg Bool.false_ne_true]
    rfl

theorem told {text : Machine → Text} (level : Level) (htext : text (G.machine g m) = text m) :
    (G.machine g m).tell level text = G.machine g (m.tell level text) := by
  rw [tell_eq_add, tell_eq_add, htext]
  show (G.machine g m).withJournal ((G.journal m.world.journal).add _) = _
  rw [← G.add]
  rfl

/-!
# Work on operands
-/

theorem blind_popCount : Blind (G.machine g) popCount := by
  refine G.blind_pop.bind fun v => ?_
  cases v with
  | number x =>
    dsimp only
    split
    · exact blind_crash _
    · exact blind_pure _
  | _ => exact blind_crash _

theorem blind_checkCount (n : Int) : Blind (G.machine g) (checkCount n) := by
  unfold checkCount
  split
  · exact blind_crash _
  · exact blind_pure _

theorem blind_popCopies (n : Nat) (acc : List Value) : Blind (G.machine g) (popCopies n acc) := by
  induction n generalizing acc with
  | zero => exact blind_pure _
  | succ n ih => exact G.blind_pop.bind fun v => (blind_copy (G.view g) v).bind fun v => ih _

theorem blind_popArgs : Blind (G.machine g) popArgs :=
  G.blind_popCount.bind fun n => (G.blind_checkCount n).bind fun n => G.blind_popCopies n []

theorem blind_popItems (n : Nat) (acc : Array Value) : Blind (G.machine g) (popItems n acc) := by
  induction n generalizing acc with
  | zero => exact blind_pure _
  | succ n ih => exact G.blind_pop.bind fun v => (blind_copy (G.view g) v).bind fun v => ih _

theorem blind_popEntries (n : Nat) (acc : Table Value) : Blind (G.machine g) (popEntries n acc) := by
  induction n generalizing acc with
  | zero => exact blind_pure _
  | succ n ih =>
    refine G.blind_pop.bind fun key => G.blind_pop.bind fun v => (blind_copy (G.view g) v).bind fun v => ?_
    cases key with
    | text k => exact ih _
    | _ => exact blind_raise _ _

theorem blind_popFields (n : Nat) (acc : List Text) : Blind (G.machine g) (popFields n acc) := by
  induction n generalizing acc with
  | zero => exact blind_pure _
  | succ n ih =>
    refine G.blind_pop.bind fun v => ?_
    cases v with
    | text name => exact ih _
    | _ => exact blind_crash _

theorem blind_popParams (n : Nat) (acc : List Parameter) : Blind (G.machine g) (popParams n acc) := by
  induction n generalizing acc with
  | zero => exact blind_pure _
  | succ n ih =>
    refine G.blind_pop.bind fun v => ?_
    cases v with
    | text name => exact G.blind_pop.bind fun guard => (blind_guardOf (G.view g) name guard).bind fun _ => ih _
    | _ => exact blind_crash _

theorem blind_assign (scope : Scope) : Blind (G.machine g) (assign scope) := by
  refine G.blind_pop.bind fun name => G.blind_pop.bind fun target => G.blind_pop.bind fun value =>
    (blind_copy (G.view g) value).bind fun value => ?_
  have hmember : Blind (G.machine g) (setMember target name value >>= fun _ => push value) :=
    (blind_setMember (G.view g) target name value).bind fun _ => G.blind_push value
  cases target with
  | empty =>
    cases name with
    | text key =>
      exact (blind_nameClosure (G.view g) value key).bind fun _ => (blind_bindName (G.view g) scope key value).bind
        fun _ => G.blind_push value
    | _ => exact blind_crash _
  | _ => exact hmember

/-!
# Calls
-/

/-- A closure is entered in the same way, apart from how its boundary and its record are shown. -/
theorem entered {f : Array CallRecord → Array CallRecord} {reentry reentry' : Bool}
    (hsize : ∀ c, (g c).size = c.size)
    (hpush : g (m.calls.push ⟨m.ip, m.stack.height, reentry⟩) =
      (f m.calls).push ⟨m.ip, m.stack.height, reentry'⟩) (cl : Closure) (args : List Value)
    (native : Text) :
    G.machine g (m.entered cl args reentry native) =
      (G.machine f m).entered cl args reentry' (G.label native) := by
  have hcall : G.frame (m.callFrame cl args native) =
      (G.machine f m).callFrame cl args (G.label native) :=
    G.call m cl args native
  have hstore : G.store (m.world.store.newFrame (m.callFrame cl args native)).2 =
      ((G.store m.world.store).newFrame ((G.machine f m).callFrame cl args (G.label native))).2 := by
    rw [← hcall]
    exact Store.newFrame_guised ..
  have hframe : (m.world.store.newFrame (m.callFrame cl args native)).1 =
      ((G.store m.world.store).newFrame ((G.machine f m).callFrame cl args (G.label native))).1 :=
    (Store.size_frames_guised _).symm
  unfold Machine.entered
  dsimp only
  rw [← G.told .debug]
  · congr 1
    unfold machine world Machine.withStore at *
    dsimp only at *
    rw [hpush, hstore, hframe]
  · exact congrArg (fun n => "call " ++ Store.closureName cl ++ " (depth " ++ Text.ofNat n ++ ")")
      (hsize _)

theorem blindAt_enterClosure (hsize : ∀ c, (g c).size = c.size)
    (hpush : ∀ record, g (m.calls.push record) = (g m.calls).push record) (cl : Closure)
    (args : List Value) (reentry : Bool) :
    BlindAt (G.machine g) (enterClosure cl args reentry Text.empty) m := by
  unfold BlindAt
  rw [enterClosure_eq, enterClosure_eq]
  refine (blind_checkCall (G.view g) (fun _ => rfl) (fun m => hsize m.calls) cl args m).bind fun _ m' hrun => ?_
  rcases checkCall_spec cl args m with ⟨hok, -⟩ | ⟨f, hf⟩
  · rw [hok] at hrun
    cases hrun
    have hentered := G.entered hsize (hpush ⟨m.ip, m.stack.height, reentry⟩) cl args Text.empty
    rw [G.unlabelled] at hentered
    exact congrArg (EStateM.Result.ok ()) hentered.symm
  · rw [hf] at hrun
    cases hrun

theorem blindAt_callValue (hsize : ∀ c, (g c).size = c.size)
    (hpush : ∀ record, g (m.calls.push record) = (g m.calls).push record) (callee : Value)
    (args : List Value) : BlindAt (G.machine g) (callValue callee args) m := by
  cases callee with
  | closure c =>
    refine (blind_reads fun _ => rfl : Blind (G.machine g) _).before (quiet_reads _) fun found m' hcalls => ?_
    cases found with
    | none => exact blind_crash _ m'
    | some cl =>
      refine BlindAt.bind (G.blindAt_enterClosure hsize ?_ cl args false) fun _ m₁ _ => blind_pure _ m₁
      rw [hcalls]
      exact hpush
  | native | bound | type => exact blind_pure _ m
  | _ => exact blind_raise_typeName (G.view g) _ _ _ m

theorem blindAt_dispatch (hsize : ∀ c, (g c).size = c.size)
    (hpush : ∀ record, g (m.calls.push record) = (g m.calls).push record) (op : Text) :
    BlindAt (G.machine g) (dispatch op) m := by
  refine G.blind_popArgs.before quiet_popArgs fun args m₁ hcalls₁ => ?_
  cases args with
  | nil => exact blind_crash _ m₁
  | cons first rest =>
    refine (blind_operator (G.view g) op first).before (quiet_reads _) fun callee m₂ hcalls₂ => ?_
    cases callee with
    | some callee =>
      refine G.blindAt_callValue hsize ?_ callee (first :: rest)
      rw [hcalls₂, hcalls₁]
      exact hpush
    | none =>
      refine Blind.bind (blind_typeName (G.view g) first) (fun t => ?_) m₂
      split
      · exact blind_raise_typeName (G.view g) _ _ _
      · exact blind_raise _ _

/-!
# Instructions
-/

theorem blind_buildClosure : Blind (G.machine g) buildClosure :=
  G.blind_popCount.bind fun n => (G.blind_checkCount n).bind fun n =>
    (G.blind_popParams n []).bind fun _ => (blind_reads (v := G.machine g) fun _ => rfl).bind
      fun _ => (blind_reads (v := G.machine g) fun _ => rfl).bind fun _ =>
        blind_onStore (G.view g) fun _ => rfl

/-- The current frame, if there is one. -/
theorem currentFrame (m : Machine) :
    ((G.machine g m).frame.bind fun f => (G.machine g m).world.store.frame? f) =
      (m.frame.bind fun f => m.world.store.frame? f).map G.frame := by
  show (m.frame.bind fun f => (G.store m.world.store).frame? f) = _
  cases m.frame with
  | none => rfl
  | some f => exact Store.frame?_guised ..

theorem blindAt_scopeExit : BlindAt (G.machine g) (step .scopeExit) m := by
  refine blindAt_reads ?_
  rw [G.currentFrame]
  cases m.frame.bind fun f => m.world.store.frame? f with
  | none => rfl
  | some fr =>
    simp only [Option.map_some, G.frames.isBoundary, G.frames.outer]
    split <;> rfl

/-- Instructions other than a return do the same seen through the view. -/
theorem blindAt_step (hsize : ∀ c, (g c).size = c.size)
    (hpush : ∀ record, g (m.calls.push record) = (g m.calls).push record) {op : Op}
    (hret : op ≠ .ret) : BlindAt (G.machine g) (step op) m := by
  have hpushed : ∀ v, Blind (G.machine g) (push v >>= fun _ => pure Next.next) :=
    fun v => (G.blind_push v).bind fun _ => blind_pure _
  have hmoved : ∀ f, Blind (G.machine g) (modify fun m => { m with frame := f }) := fun _ _ => rfl
  cases op with
  | ret => exact absurd rfl hret
  | push v => exact hpushed v m
  | buildList =>
    refine Blind.bind G.blind_popCount (fun n => ?_) m
    refine (G.blind_checkCount n).bind fun n => (G.blind_popItems n #[]).bind fun items => ?_
    exact (blind_onStore (G.view g) fun _ => rfl).bind fun id => hpushed _
  | buildDict =>
    refine Blind.bind G.blind_popCount (fun n => ?_) m
    refine (G.blind_popEntries _ _).bind fun entries => ?_
    exact (blind_onStore (G.view g) fun _ => rfl).bind fun id => hpushed _
  | buildType name =>
    refine Blind.bind G.blind_popCount (fun n => ?_) m
    exact (G.blind_checkCount n).bind fun n => (G.blind_popFields n []).bind fun fields => hpushed _
  | buildFunc d =>
    exact Blind.bind G.blind_buildClosure (fun c => (G.blind_push c).bind fun _ => blind_pure _) m
  | jump d => exact blind_pure _ m
  | jumpPeek expected d =>
    exact Blind.bind G.blind_top (fun v => (blind_condition (G.view g) v).bind fun b => blind_pure _) m
  | jumpIfFalse d =>
    exact Blind.bind G.blind_pop (fun v => (blind_condition (G.view g) v).bind fun b => blind_pure _) m
  | call =>
    refine G.blind_pop.before quiet_pop fun callee m₁ hcalls₁ => ?_
    refine G.blind_popArgs.before quiet_popArgs fun args m₂ hcalls₂ => ?_
    refine G.blindAt_callValue hsize ?_ callee args
    rw [hcalls₂, hcalls₁]
    exact hpush
  | dispatch op => exact G.blindAt_dispatch hsize hpush op
  | getVar name =>
    refine Blind.bind (blind_reads fun m => (G.view g).resolve m name) (fun found => ?_) m
    cases found with
    | some v => exact hpushed v
    | none => exact blind_raise _ _
  | getMember =>
    refine Blind.bind G.blind_pop (fun key => ?_) m
    exact G.blind_pop.bind fun object => (blind_member (G.view g) object key).bind fun v => hpushed v
  | assign scope => exact Blind.bind (G.blind_assign scope) (fun _ => blind_pure _) m
  | bump name up => exact Blind.bind (blind_bump (G.view g) name up) (fun _ => blind_pure _) m
  | negate =>
    refine Blind.bind G.blind_pop (fun v => ?_) m
    cases v with
    | number x => exact hpushed _
    | _ => exact blind_raise_typeName (G.view g) _ _ _
  | not =>
    exact Blind.bind G.blind_pop (fun v => (blind_condition (G.view g) v).bind fun b => hpushed _) m
  | stray again => exact blind_raise _ _ m
  | scopeEnter =>
    refine Blind.bind (v := G.machine g) (blind_reads fun _ => rfl) (fun frame => ?_) m
    refine (blind_onStore (G.view g) fun s => ?_).bind fun id => ?_
    · have hblock := s.newFrame_guised (g := G.frame) ⟨Table.empty, frame, .block⟩
      rw [G.frames.block] at hblock
      exact congrArg₂ Prod.mk s.size_frames_guised hblock.symm
    · exact (hmoved (some id)).bind fun _ => blind_pure _
  | scopeExit => exact G.blindAt_scopeExit
  | pop => exact Blind.bind G.blind_pop (fun _ => blind_pure _) m
  | unknown b => exact blind_crash _ m

/-!
# Returns
-/

theorem blind_unwind (hpop : ∀ c, g c.pop = (g c).pop) (height : Nat) : Blind (G.machine g) (unwind height) := by
  intro m
  have hboundary : ((G.machine g m).world.store.boundary (G.machine g m).frame).bind
      (fun b => (G.machine g m).world.store.frame? b) =
        ((m.world.store.boundary m.frame).bind fun b => m.world.store.frame? b).map
          G.frame := by
    show ((G.store m.world.store).boundary m.frame).bind
      (fun b => (G.store m.world.store).frame? b) = _
    rw [show (G.store m.world.store).boundary m.frame = m.world.store.boundary m.frame from
      Store.boundary_guised _ G.frames _]
    cases m.world.store.boundary m.frame with
    | none => rfl
    | some b => exact Store.frame?_guised ..
  have hpopped : Blind (G.machine g) (modify fun m => { m with calls := m.calls.pop }) := by
    refine blind_modify fun m => ?_
    unfold machine
    dsimp only
    rw [hpop]
  refine blindAt_reads ?_
  rw [hboundary]
  cases (m.world.store.boundary m.frame).bind fun b => m.world.store.frame? b with
  | none => exact Blind.bind hpopped (fun _ => blind_crash _) m
  | some fr =>
    have htell : Blind (G.machine g) (Exec.tell fun _ => "return from " ++ fr.name) :=
      fun m => congrArg (EStateM.Result.ok ()) (G.told .debug rfl)
    have hleave : Blind (G.machine g) (modify fun m => { m with
        frame := fr.caller, captured := m.captured.pop, stack := m.stack.cut height }) :=
      fun _ => rfl
    simp only [Option.map_some, G.frames.name, G.frames.caller]
    exact Blind.bind hpopped (fun _ => htell.bind fun _ => hleave) m

theorem blind_handBack (v : Value) (record : CallRecord) : Blind (G.machine g) (handBack v record) := by
  unfold handBack
  split
  · exact blind_pure _
  · exact (G.blind_push v).bind fun _ => Blind.bind (fun _ => rfl) fun _ => blind_pure _

/-- A return does the same seen through the view, if the view shows its record as it is. -/
theorem blindAt_ret (hpop : ∀ c, g c.pop = (g c).pop) (hback : (g m.calls).back? = m.calls.back?) :
    BlindAt (G.machine g) (step .ret) m := by
  show BlindAt (G.machine g) (pop >>= giveBack) m
  refine G.blind_pop.before quiet_pop fun v m' hcalls => ?_
  have hback' : (G.machine g m').calls.back? = m'.calls.back? := by
    show (g m'.calls).back? = _
    rw [hcalls]
    exact hback
  unfold BlindAt
  cases hrecord : m'.calls.back? with
  | none =>
    rw [hrecord] at hback'
    unfold giveBack
    rw [bind_of_ok (show reads (fun m => m.calls.back?) m' = .ok none m' by rw [← hrecord]; rfl),
      bind_of_ok (show reads (fun m => m.calls.back?) (G.machine g m') = .ok none (G.machine g m') by
        rw [← hback']; rfl)]
    rfl
  | some record =>
    rw [hrecord] at hback'
    rw [giveBack_eq_unwind hrecord, giveBack_eq_unwind hback']
    exact Blind.bind (G.blind_unwind hpop record.depth) (fun _ => G.blind_handBack v record) m'

end Guise

/-!
# The engine without what only traces show

A view of the engine leaves out the labels of natives and may show the records of the calls in
progress in another way. Instructions do the same seen through a view: nothing that they do depends
on what it leaves out.
-/

/-- The engine without labels of natives, its call records seen through `g`. -/
def Machine.view (g : Array CallRecord → Array CallRecord) (m : Machine) : Machine :=
  { m with world := m.world.untraced, calls := g m.calls }

/-- Engines without labels of natives. -/
def Guise.traceless : Guise where
  frame := Frame.untraced
  label _ := Text.empty
  program := id
  journal := id
  frames := Frame.guise_untraced
  unlabelled := rfl
  add _ _ := rfl
  call _ _ _ _ := rfl

/-- Work on values is blind to labels and to how call records are shown. -/
theorem Machine.view_labels (g : Array CallRecord → Array CallRecord) :
    Machine.View (Machine.view g) Store.untraced :=
  Guise.traceless.view g

namespace Exec

section
variable {g : Array CallRecord → Array CallRecord} {m : Machine}

theorem blind_pop : Blind (Machine.view g) pop :=
  Guise.traceless.blind_pop (g := g)

theorem tell_view {text : Machine → Text} (level : Level) (htext : text (m.view g) = text m) :
    (m.view g).tell level text = (m.tell level text).view g :=
  Guise.traceless.told (g := g) level htext

/-- A closure is entered in the same way, apart from the label of its boundary and from how its
record is shown. -/
theorem entered_view {f : Array CallRecord → Array CallRecord} {reentry reentry' : Bool}
    (hsize : ∀ c, (g c).size = c.size)
    (hpush : g (m.calls.push ⟨m.ip, m.stack.height, reentry⟩) =
      (f m.calls).push ⟨m.ip, m.stack.height, reentry'⟩) (cl : Closure) (args : List Value)
    (native : Text) :
    (m.entered cl args reentry native).view g =
      (m.view f).entered cl args reentry' Text.empty :=
  Guise.traceless.entered hsize hpush cl args native

/-- Instructions other than a return do the same seen through the view. -/
theorem blindAt_step (hsize : ∀ c, (g c).size = c.size)
    (hpush : ∀ record, g (m.calls.push record) = (g m.calls).push record) {op : Op}
    (hret : op ≠ .ret) : BlindAt (Machine.view g) (step op) m :=
  Guise.traceless.blindAt_step hsize hpush hret

theorem blind_unwind (hpop : ∀ c, g c.pop = (g c).pop) (height : Nat) :
    Blind (Machine.view g) (unwind height) :=
  Guise.traceless.blind_unwind hpop height

/-- A return does the same seen through the view, if the view shows its record as it is. -/
theorem blindAt_ret (hpop : ∀ c, g c.pop = (g c).pop) (hback : (g m.calls).back? = m.calls.back?) :
    BlindAt (Machine.view g) (step .ret) m :=
  Guise.traceless.blindAt_ret hpop hback

end
end Exec

/-!
# Natives that look at no traces

The history of a fault and the labels that it is made from are for people. A native is oblivious if
it does the same whatever they say.
-/

/-- The actions are the same, begun in worlds and resumed with outcomes that differ at most in what
only traces show. -/
inductive Action.Alike : Action → Action → Prop
  | done {r : Option Value} {w w' : World} (h : w.untraced = w'.untraced) :
    Alike (.done r w) (.done r w')
  | fail {f f' : Fault} {w w' : World} (hf : f.untraced = f'.untraced)
    (h : w.untraced = w'.untraced) : Alike (.fail f w) (.fail f' w')
  | crash {message : Text} {w w' : World} : Alike (.crash message w) (.crash message w')
  | invoke {callee : Value} {args : List Value} {w w' : World}
    {resume resume' : Except Fault Value → World → Action} (h : w.untraced = w'.untraced)
    (hresume : ∀ o o' v v', untracedOutcome o = untracedOutcome o' → v.untraced = v'.untraced →
      Alike (resume o v) (resume' o' v')) :
    Alike (.invoke callee args w resume) (.invoke callee args w' resume')

namespace Library

/-- No native of the library looks at what only traces show. -/
def Oblivious (l : Library) : Prop :=
  ∀ info args w w', w.untraced = w'.untraced →
    (l.behaviour info args w).Alike (l.behaviour info args w')

end Library

end ScriptEngine
