import ScriptEngine.Report

/-!
# Programs without places

A place in the source text is carried along for people. Programs whose debug tables differ in places
only, with the same ranges and kinds in the same order, have the same listing and the same digest, and
they tie the same kind of node to every instruction.
-/

namespace ScriptEngine

/-- The problem at no particular place. -/
def Problem.unplaced (p : Problem) : Problem :=
  { p with span := p.span.map fun _ => Span.zero }

/-- The call at no particular place. -/
def TraceFrame.unplaced (f : TraceFrame) : TraceFrame :=
  { f with span := f.span.map fun _ => Span.zero }

section
variable {α β : Type} {unplace : α → α} {f : α → β}

/-- What can be seen without places is the same in lists that are the same without places. -/
theorem map_eq_of_unplaced {l l' : List α} (h : l.map unplace = l'.map unplace)
    (hf : ∀ x, f (unplace x) = f x) : l.map f = l'.map f := by
  have hmap : ∀ l : List α, l.map f = (l.map unplace).map f := by
    intro l
    rw [List.map_map]
    exact (List.map_congr_left fun x _ => hf x).symm
  rw [hmap, h, ← hmap]

end

namespace DebugEntry

/-- The entry for a node at no particular place. -/
def unplaced (e : DebugEntry) : DebugEntry :=
  { e with span := Span.zero }

@[simp] theorem length_unplaced (e : DebugEntry) : e.unplaced.length = e.length := rfl

@[simp] theorem kind_unplaced (e : DebugEntry) : e.unplaced.kind = e.kind := rfl

@[simp] theorem covers_unplaced (e : DebugEntry) (ip : Int) : e.unplaced.covers ip = e.covers ip := rfl

end DebugEntry

namespace DebugTable

/-- What places the entries have makes no difference to which of them is found. -/
theorem lookup_unplaced (t : DebugTable) (ip : Int) :
    lookup (t.map DebugEntry.unplaced) ip = (t.lookup ip).map DebugEntry.unplaced := by
  have hbetter : ∀ (best : Option DebugEntry) (e : DebugEntry),
      better ip (best.map DebugEntry.unplaced) e.unplaced =
        (better ip best e).map DebugEntry.unplaced := by
    intro best e
    unfold better
    rw [DebugEntry.covers_unplaced]
    by_cases hcovers : e.covers ip = true
    · rw [if_pos hcovers, if_pos hcovers]
      cases best with
      | none => rfl
      | some b =>
        dsimp only [Option.map_some]
        rw [DebugEntry.length_unplaced, DebugEntry.length_unplaced,
          apply_ite (Option.map DebugEntry.unplaced)]
        rfl
    · rw [if_neg hcovers, if_neg hcovers]
  have hfold : ∀ best : Option DebugEntry,
      (t.map DebugEntry.unplaced).foldl (better ip) (best.map DebugEntry.unplaced) =
        (t.foldl (better ip) best).map DebugEntry.unplaced := by
    induction t with
    | nil => exact fun _ => rfl
    | cons e rest ih =>
      intro best
      rw [List.map_cons, List.foldl_cons, List.foldl_cons, hbetter, ih]
  exact hfold none

end DebugTable

namespace Program

/-- The program with its nodes at no particular places. -/
def unplaced (p : Program) : Program :=
  { p with debug := p.debug.map DebugEntry.unplaced }

variable {p q : Program}

theorem startingAt_unplaced (p : Program) (ip : Int) :
    p.unplaced.startingAt ip = (p.startingAt ip).map DebugEntry.unplaced := by
  unfold startingAt unplaced
  dsimp only
  rw [List.filter_map]
  exact (List.map_mergeSort (f := DebugEntry.unplaced) fun _ _ _ _ => rfl).symm

theorem annotation_unplaced (p : Program) (ip : Nat) : p.unplaced.annotation ip = p.annotation ip := by
  unfold annotation
  rw [startingAt_unplaced, List.map_map]
  rfl

theorem listing_unplaced (p : Program) : p.unplaced.listing = p.listing := by
  unfold listing
  rw [show p.unplaced.annotation = p.annotation from funext p.annotation_unplaced]
  rfl

theorem programHash_unplaced (p : Program) :
    Report.programHash (some p.unplaced) = Report.programHash (some p) :=
  congrArg Digest.sha256 p.listing_unplaced

/-- Programs that differ in places only are the same to everyone who does not look at places. -/
theorem same_of_unplaced (h : p.unplaced = q.unplaced) :
    p.code = q.code ∧
      p.debug.map (fun e => (e.stop, e.length, e.kind)) =
        q.debug.map (fun e => (e.stop, e.length, e.kind)) ∧
      p.listing = q.listing ∧
      Report.programHash (some p) = Report.programHash (some q) := by
  refine ⟨(Program.mk.inj h).1, map_eq_of_unplaced (Program.mk.inj h).2 fun _ => rfl, ?_, ?_⟩
  · rw [← p.listing_unplaced, h, q.listing_unplaced]
  · rw [← p.programHash_unplaced, h, q.programHash_unplaced]

end Program
end ScriptEngine
