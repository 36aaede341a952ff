import ScriptEngine.Compiler.Generate
import ScriptEngine.Proofs.Number.Values
import ScriptEngine.Proofs.Program.Layout

/-!
# What code does with names

Instructions bind names in scopes of an activation, or look them up through the boundary of its function.
A mark says which names the open scopes of an activation bind for sure, and how far an assignment to a
name has got. Code is safe with a mark if whatever control does from there, names are used as agreed:
source names are assigned to the scopes that are allowed, a counter is counted in the innermost scope,
which binds it, and the names that loops keep for themselves are bound in that scope only. Where iterators
are kept apart, a loop reads its own only.
-/

namespace ScriptEngine

/-- The names that loops keep for themselves. -/
def Compiler.loopNames : List Text :=
  [hiddenCount, hiddenIndex, hiddenIter, hiddenStep]

/-- What a tree may do with names: assign to which scopes, and bind which names. Its own scopes are open
to it, and the names under which exports are collected and cases are tried are bound by code that stands
for statements. If iterators are kept apart, only the loop that an iterator belongs to reads it, and record
types have names, so that no member is looked up under the name of an iterator. -/
structure Usage where
  scope : Scope → Bool
  name : Text → Bool
  apart : Bool
  inner : scope .inner = true
  nearest : scope .nearest = true
  exports : name Key.exports = true
  subjects : name Compiler.hiddenMatch = true

/-- Every name may be assigned, but not beyond the current function. -/
def Usage.inward : Usage where
  scope scope := scope != .outer
  name _ := true
  apart := false
  inner := rfl
  nearest := rfl
  exports := rfl
  subjects := rfl

/-- How much of an assignment to a name stands on top of the operand stack. -/
inductive Mark.Stage where
  | idle
  /-- The marker in the place of an assignment's target. -/
  | marker
  /-- A name above that marker. -/
  | named (t : Text)
  deriving DecidableEq

/-- What is known in front of an instruction: names that the open scopes bind, the innermost first, and
how far the next assignment to a name has got. -/
structure Mark where
  scopes : List (List Text)
  stage : Mark.Stage

namespace Mark

/-- Nothing is being bound. -/
def still (l : List (List Text)) : Mark :=
  ⟨l, .idle⟩

/-- The start of a program or function. -/
def entry : Mark :=
  still []

/-- The first mark claims no more than the second one. -/
structure Weaker (a b : Mark) : Prop where
  scopes : List.Forall₂ (fun x y => x ⊆ y) a.scopes b.scopes
  stage : a.stage = b.stage

theorem Weaker.refl (a : Mark) : a.Weaker a :=
  ⟨List.forall₂_same.mpr fun _ _ => List.Subset.refl _, rfl⟩

end Mark

/-- The stage behind a value that was pushed. -/
def Mark.Stage.push : Mark.Stage → Value → Mark.Stage
  | _, .empty => .marker
  | .marker, .text t => .named t
  | _, _ => .idle

/-- A name may be assigned to a scope where some scopes are open: it is one for trees, or one that loops
keep for themselves and the innermost scope takes it. -/
def Usage.Binds (u : Usage) (scope : Scope) (t : Text) (scopes : List (List Text)) : Prop :=
  u.scope scope = true ∧ (u.name t = true ∨ t ∈ Compiler.loopNames ∧
    ∃ names l, scopes = names :: l ∧ (scope = .inner ∨ scope = .nearest ∧ t ∈ names))

theorem Usage.Binds.scope {u : Usage} {scope : Scope} {t : Text} {l : List (List Text)}
    (h : u.Binds scope t l) : u.scope scope = true :=
  h.1

theorem Usage.Binds.of_name {u : Usage} {scope : Scope} {t : Text} (hscope : u.scope scope = true)
    (ht : u.name t = true) (scopes : List (List Text)) : u.Binds scope t scopes :=
  ⟨hscope, Or.inl ht⟩

theorem Usage.Binds.inner {u : Usage} {t : Text} (ht : t ∈ Compiler.loopNames) (names : List Text)
    (l : List (List Text)) : u.Binds .inner t (names :: l) :=
  ⟨u.inner, Or.inr ⟨ht, names, l, rfl, Or.inl rfl⟩⟩

theorem Usage.Binds.nearest {u : Usage} {t : Text} {names : List Text} (ht : t ∈ Compiler.loopNames)
    (hmem : t ∈ names) (l : List (List Text)) : u.Binds .nearest t (names :: l) :=
  ⟨u.nearest, Or.inr ⟨ht, names, l, rfl, Or.inr ⟨rfl, hmem⟩⟩⟩

theorem Usage.Binds.weaker {u : Usage} {scope : Scope} {t : Text} {l l' : List (List Text)}
    (h : u.Binds scope t l) (hl : List.Forall₂ (fun x y => x ⊆ y) l l') : u.Binds scope t l' := by
  obtain ⟨hscope, hname | ⟨ht, names, rest, rfl, hin⟩⟩ := h
  · exact .of_name hscope hname l'
  · cases hl with
    | cons hhead =>
      exact ⟨hscope, Or.inr ⟨ht, _, _, rfl, hin.imp_right fun ⟨h, hmem⟩ => ⟨h, hhead hmem⟩⟩⟩

/-- A name may be read where some scopes are open: it is no iterator that is kept apart, or the innermost
scope binds it. -/
def Usage.Reads (u : Usage) (t : Text) (scopes : List (List Text)) : Prop :=
  u.apart = true → t = Compiler.hiddenIter → ∃ names l, scopes = names :: l ∧ t ∈ names

theorem Usage.Reads.of_ne {u : Usage} {t : Text} (ht : t ≠ Compiler.hiddenIter) (scopes : List (List Text)) :
    u.Reads t scopes :=
  fun _ h => absurd h ht

theorem Usage.Reads.inner {u : Usage} {t : Text} {names : List Text} (ht : t ∈ names) (l : List (List Text)) :
    u.Reads t (names :: l) :=
  fun _ _ => ⟨names, l, rfl, ht⟩

theorem Usage.Reads.weaker {u : Usage} {t : Text} {l l' : List (List Text)} (h : u.Reads t l)
    (hl : List.Forall₂ (fun x y => x ⊆ y) l l') : u.Reads t l' := by
  intro hapart hiter
  obtain ⟨names, rest, rfl, hmem⟩ := h hapart hiter
  cases hl with
  | cons hhead => exact ⟨_, _, rfl, hhead hmem⟩

/-- A record type may have the name. -/
def Usage.Types (u : Usage) (name : Text) : Prop :=
  u.apart = true → name.isEmpty = false

namespace Op

/-- The mark behind an operation that goes on in the same function. -/
def after (op : Op) (a : Mark) : Mark :=
  match op with
  | .push v => ⟨a.scopes, a.stage.push v⟩
  | .assign .inner =>
    match a.stage, a.scopes with
    | .named t, names :: l => .still ((t :: names) :: l)
    | _, l => .still l
  | .scopeEnter => .still ([] :: a.scopes)
  | .scopeExit => .still a.scopes.tail
  | _ => .still a.scopes

/-- The operation uses names as agreed. A marker stands in front of the name that is assigned next. -/
def Allowed (u : Usage) (op : Op) (a : Mark) : Prop :=
  match a.stage, op with
  | .marker, .push (.text _) => True
  | .named t, .assign scope => u.Binds scope t a.scopes
  | .marker, _ | .named _, _ => False
  | .idle, .assign scope => u.scope scope = true
  | .idle, .getVar name => u.Reads name a.scopes
  | .idle, .buildType name => u.Types name
  | .idle, .bump name _ => ∃ names l, a.scopes = names :: l ∧ name ∈ names
  | .idle, .scopeExit => a.scopes ≠ []
  | .idle, _ => True

/-- The position at a distance from the one behind `i` lies within the operations and has the
property. -/
def Lands (ops : Array Op) (i : Nat) (d : Int) (P : Nat → Prop) : Prop :=
  ∃ j : Nat, (j : Int) = i + 1 + d ∧ j ≤ ops.size ∧ P j

/-- The positions where the operation at `i` hands over control have the property, and so has the
start of a function's body in its way. -/
def Hands (ops : Array Op) (op : Op) (i : Nat) (P body : Nat → Prop) : Prop :=
  match op with
  | .ret | .stray _ | .unknown _ => True
  | .jump d => Lands ops i d P
  | .jumpPeek _ d | .jumpIfFalse d => P (i + 1) ∧ Lands ops i d P
  | .buildFunc d => body (i + 1) ∧ Lands ops i d P
  | _ => P (i + 1)

/-- The operation goes on to the next one, opens and closes no scope, and assigns to no name. -/
def plain : Op → Bool
  | .push .empty => false
  | .push _ | .buildList | .buildDict | .buildType _ | .call | .dispatch _ | .getVar _ | .getMember
  | .negate | .not | .pop => true
  | _ => false

/-- From position `i` on, as far as `n` operations lead and up to where nothing more is asked, names are
used as agreed, given what the mark says. -/
def Safe (u : Usage) (ops : Array Op) (stop : Nat → Prop) : Nat → Nat → Mark → Prop
  | 0, _, _ => True
  | n + 1, i, a => stop i ∨ ∀ op, ops[i]? = some op → op.Allowed u a ∧
    op.Hands ops i (fun j => Safe u ops stop n j (op.after a)) fun j => Safe u ops stop n j .entry

section
variable {u : Usage} {ops : Array Op} {stop : Nat → Prop} {op : Op} {i n : Nat} {a : Mark}

theorem Lands.mono {d : Int} {P Q : Nat → Prop} (h : Lands ops i d P) (hPQ : ∀ j, P j → Q j) :
    Lands ops i d Q := by
  obtain ⟨j, hj, hle, hP⟩ := h
  exact ⟨j, hj, hle, hPQ j hP⟩

theorem Hands.mono {P Q P' Q' : Nat → Prop} (h : op.Hands ops i P Q) (hP : ∀ j, P j → P' j)
    (hQ : ∀ j, Q j → Q' j) : op.Hands ops i P' Q' := by
  cases op with
  | ret | stray | unknown => trivial
  | jump d => exact Lands.mono h hP
  | jumpPeek | jumpIfFalse => exact ⟨hP _ h.1, Lands.mono h.2 hP⟩
  | buildFunc d => exact ⟨hQ _ h.1, Lands.mono h.2 hP⟩
  | _ => exact hP _ h

theorem safe_succ (hop : ops[i]? = some op) (hallowed : op.Allowed u a)
    (hhands : op.Hands ops i (fun j => Safe u ops stop n j (op.after a))
      fun j => Safe u ops stop n j .entry) :
    Safe u ops stop (n + 1) i a := by
  refine Or.inr fun op' hop' => ?_
  rw [hop] at hop'
  cases hop'
  exact ⟨hallowed, hhands⟩

theorem Safe.pred (h : Safe u ops stop (n + 1) i a) : Safe u ops stop n i a := by
  induction n generalizing i a with
  | zero => trivial
  | succ n ih =>
    refine Or.imp_right (fun h op hop => ?_) h
    obtain ⟨hallowed, hhands⟩ := h op hop
    exact ⟨hallowed, hhands.mono (fun _ hj => ih hj) fun _ hj => ih hj⟩

/-!
# Stronger marks
-/

theorem after_weaker {b : Mark} (h : a.Weaker b) (op : Op) : (op.after a).Weaker (op.after b) := by
  obtain ⟨l, s⟩ := a
  obtain ⟨l', s'⟩ := b
  obtain ⟨hl, hs⟩ := h
  obtain rfl : s = s' := hs
  dsimp only at hl
  cases op with
  | push v => exact ⟨hl, rfl⟩
  | scopeEnter => exact ⟨.cons (List.Subset.refl _) hl, rfl⟩
  | scopeExit => exact ⟨by cases hl <;> [exact .nil; assumption], rfl⟩
  | assign scope =>
    cases scope with
    | nearest | outer => exact ⟨hl, rfl⟩
    | inner =>
      cases s with
      | idle | marker => exact ⟨hl, rfl⟩
      | named t =>
        cases hl with
        | nil => exact ⟨.nil, rfl⟩
        | cons hhead htail => exact ⟨.cons (List.cons_subset_cons t hhead) htail, rfl⟩
  | _ => exact ⟨hl, rfl⟩

theorem Allowed.weaker {b : Mark} (h : op.Allowed u a) (hab : a.Weaker b) : op.Allowed u b := by
  obtain ⟨l, s⟩ := a
  obtain ⟨l', s'⟩ := b
  obtain ⟨hl, hs⟩ := hab
  obtain rfl : s = s' := hs
  dsimp only at hl
  cases s with
  | marker =>
    cases op with
    | push v => cases v <;> exact h
    | _ => exact h
  | named t =>
    cases op with
    | assign scope => exact Usage.Binds.weaker h hl
    | _ => exact h
  | idle =>
    cases op with
    | bump name up =>
      obtain ⟨names, rest, heq, hmem⟩ := h
      obtain rfl : l = names :: rest := heq
      cases hl with
      | cons hhead => exact ⟨_, _, rfl, hhead hmem⟩
    | getVar name => exact Usage.Reads.weaker h hl
    | scopeExit =>
      cases hl with
      | nil => exact absurd rfl h
      | cons => exact List.cons_ne_nil _ _
    | _ => exact h

theorem Safe.weaker {b : Mark} (h : Safe u ops stop n i a) (hab : a.Weaker b) :
    Safe u ops stop n i b := by
  induction n generalizing i a b with
  | zero => trivial
  | succ n ih =>
    refine Or.imp_right (fun h op hop => ?_) h
    obtain ⟨hallowed, hhands⟩ := h op hop
    exact ⟨hallowed.weaker hab, hhands.mono (fun _ hj => ih hj (after_weaker hab op)) fun _ hj => hj⟩

/-!
# Everything that follows
-/

/-- From position `i` on names are used as agreed, up to where nothing more is asked. -/
def Secure (u : Usage) (ops : Array Op) (stop : Nat → Prop) (i : Nat) (a : Mark) : Prop :=
  ∀ n, Safe u ops stop n i a

/-- An operation hands over control to the next position, or at a distance. -/
theorem Hands.of_reach {t : Nat} {P Q : Nat → Prop} (ht : (t : Int) = i + 1 + op.reach) (hle : t ≤ ops.size)
    (hnext : P (i + 1)) (hP : P t) (hQ : Q (i + 1)) : op.Hands ops i P Q := by
  cases op with
  | ret | stray | unknown => trivial
  | jump => exact ⟨t, ht, hle, hP⟩
  | jumpPeek | jumpIfFalse => exact ⟨hnext, t, ht, hle, hP⟩
  | buildFunc => exact ⟨hQ, t, ht, hle, hP⟩
  | _ => exact hnext

theorem Hands.all {P Q : Nat → Nat → Prop} (h : ∀ n, op.Hands ops i (P n) (Q n)) :
    op.Hands ops i (fun j => ∀ n, P n j) fun j => ∀ n, Q n j := by
  have hlands : ∀ {d : Int}, (∀ n, Lands ops i d (P n)) → Lands ops i d fun j => ∀ n, P n j := by
    intro d hd
    obtain ⟨j, hj, hle, -⟩ := hd 0
    refine ⟨j, hj, hle, fun n => ?_⟩
    obtain ⟨j', hj', -, hP⟩ := hd n
    have heq : j' = j := by omega
    exact heq ▸ hP
  cases op with
  | ret | stray | unknown => trivial
  | jump d => exact hlands h
  | jumpPeek | jumpIfFalse => exact ⟨fun n => (h n).1, hlands fun n => (h n).2⟩
  | buildFunc d => exact ⟨fun n => (h n).1, hlands fun n => (h n).2⟩
  | _ => exact h

/-- What is secure goes on so. -/
theorem Secure.step (h : Secure u ops stop i a) (hstop : ¬ stop i) (hop : ops[i]? = some op) :
    op.Allowed u a ∧ op.Hands ops i (fun j => Secure u ops stop j (op.after a))
      fun j => Secure u ops stop j .entry :=
  ⟨(((h 1).resolve_left hstop) op hop).1, .all fun n => (((h (n + 1)).resolve_left hstop) op hop).2⟩

theorem after_stage (hop : ∀ v, op ≠ .push v) (a : Mark) : (op.after a).stage = .idle := by
  cases op with
  | push v => exact absurd rfl (hop v)
  | assign scope =>
    obtain ⟨l, s⟩ := a
    cases scope <;> cases s <;> cases l <;> rfl
  | _ => rfl

/-- A plain operation leaves everything as it is. -/
theorem plain_after (h : op.plain = true) (l : List (List Text)) : op.after (.still l) = .still l := by
  cases op with
  | push v =>
    cases v with
    | empty => cases h
    | _ => rfl
  | assign | scopeEnter | scopeExit => cases h
  | _ => rfl

theorem plain_reach (h : op.plain = true) : op.reach = 0 := by
  cases op with
  | buildFunc | jump | jumpPeek | jumpIfFalse => cases h
  | _ => rfl

theorem plain_hands (h : op.plain = true) {P body : Nat → Prop} (hnext : P (i + 1)) :
    op.Hands ops i P body := by
  cases op with
  | buildFunc | jump | jumpPeek | jumpIfFalse | ret | stray | unknown => cases h
  | _ => exact hnext

end
end Op

/-!
# Marks and layouts
-/

/-- The layout shows how far an assignment to a name has got: there is no other marker. -/
def Mark.Stage.Agrees (l : List Slot) : Mark.Stage → Prop
  | idle => Slot.marker ∉ l
  | marker => ∃ rest, l = .marker :: rest ∧ Slot.marker ∉ rest
  | named _ => ∃ x rest, l = x :: .marker :: rest ∧ Slot.marker ∉ rest

/-- The layouts that are promised have the property, apart from that of a function's body. -/
def Onward.All (P : Layout → Prop) : Onward → Prop
  | .next b | .skip _ b | .build _ b => P b
  | .either b _ c => P b ∧ P c
  | .stop => True

namespace Op

/-- Names are used as agreed from position `i` on, where control may be and the layout agrees with the
mark. -/
structure Follows (u : Usage) (ty : Nat → Layout) (ops : Array Op) (stop : Nat → Prop) (i : Nat)
    (a : Mark) : Prop where
  secure : Secure u ops stop i a
  live : (ty i).live = true
  agrees : a.stage.Agrees (ty i).slots

section
variable {u : Usage} {ty : Nat → Layout} {ops : Array Op} {stop : Nat → Prop} {op : Op} {i : Nat} {a : Mark}

theorem Allowed.idle_of (h : op.Allowed u a) (hpush : ∀ v, op ≠ .push v) (hassign : ∀ scope, op ≠ .assign scope) :
    a.stage = .idle := by
  obtain ⟨l, s⟩ := a
  cases s with
  | idle => rfl
  | marker | named =>
    cases op with
    | push v => exact absurd rfl (hpush v)
    | assign scope => exact absurd rfl (hassign scope)
    | _ => exact absurd h id

/-- What the layout shows behind a constant that was pushed. -/
theorem agrees_push {s : Slot} {v : Value} {l : List Slot} (hv : s.Admits v)
    (hallowed : (Op.push v).Allowed u a) (h : a.stage.Agrees l) : (a.stage.push v).Agrees (s :: l) := by
  obtain ⟨scopes, stage⟩ := a
  cases stage with
  | idle =>
    have hplain : s ≠ .marker → Slot.marker ∉ s :: l := fun hs hmem =>
      (List.mem_cons.mp hmem).elim (fun h => hs h.symm) h
    cases v with
    | empty =>
      cases s with
      | marker => exact ⟨l, rfl, h⟩
      | value => exact absurd hv id
      | name => cases hv.choose_spec
      | count => cases hv.1
    | _ => exact hplain (by rintro rfl; cases hv)
  | marker =>
    cases v with
    | text t =>
      obtain ⟨rest, rfl, hrest⟩ := h
      exact ⟨s, rest, rfl, hrest⟩
    | _ => exact absurd hallowed id
  | named t => exact absurd hallowed id

theorem agrees_flow {b : Layout} {o : Onward} (hflow : op.Flow b o) (hallowed : op.Allowed u a)
    (hlive : b.live = true) (h : a.stage.Agrees b.slots) :
    o.All fun c => c.live = true ∧ (op.after a).stage.Agrees c.slots := by
  have hidle : ∀ {op : Op} {c : Layout}, (∀ v, op ≠ .push v) → c.live = true → Slot.marker ∉ c.slots →
      c.live = true ∧ (op.after a).stage.Agrees c.slots := by
    intro op c hpush hc hslots
    rw [after_stage hpush]
    exact ⟨hc, hslots⟩
  have hgain : ∀ {l : List Slot}, Slot.marker ∉ l → Slot.marker ∉ Slot.value :: l := fun hl hmem =>
    (List.mem_cons.mp hmem).elim (fun h => by cases h) hl
  have hstage : (∀ v, op ≠ .push v) → (∀ scope, op ≠ .assign scope) → Slot.marker ∉ b.slots := by
    intro hpush hassign
    rw [hallowed.idle_of hpush hassign] at h
    exact h
  cases hflow with
  | push hv => exact ⟨hlive, agrees_push hv hallowed h⟩
  | @assignName c scope =>
    refine hidle (fun _ h => by cases h) hlive (hgain fun hmem => ?_)
    obtain ⟨scopes, stage⟩ := a
    cases stage with
    | idle => exact h (List.mem_cons_of_mem _ List.mem_cons_self)
    | marker => exact hallowed
    | named t =>
      obtain ⟨x, rest, heq, hrest⟩ := h
      cases heq
      exact hrest (List.mem_cons_of_mem _ hmem)
  | @assignMember c scope =>
    refine hidle (fun _ h => by cases h) hlive (hgain fun hmem => ?_)
    obtain ⟨scopes, stage⟩ := a
    cases stage with
    | idle => exact h (List.mem_cons_of_mem _ (List.mem_cons_of_mem _ (List.mem_cons_of_mem _ hmem)))
    | marker => exact hallowed
    | named t =>
      obtain ⟨x, rest, heq, -⟩ := h
      cases heq
  | ret | stray => trivial
  | jump | bump | scopeEnter | scopeExit =>
    exact hidle (fun _ h => by cases h) hlive (hstage (fun _ h => by cases h) fun _ h => by cases h)
  | getVar =>
    exact hidle (fun _ h => by cases h) hlive (hgain (hstage (fun _ h => by cases h) fun _ h => by cases h))
  | jumpPeek =>
    have hslots := hstage (fun _ h => by cases h) fun _ h => by cases h
    exact ⟨hidle (fun _ h => by cases h) hlive hslots, hidle (fun _ h => by cases h) hlive hslots⟩
  | jumpIfFalse =>
    have hslots := fun h => hstage (fun _ h => by cases h) (fun _ h => by cases h) (List.mem_cons_of_mem _ h)
    exact ⟨hidle (fun _ h => by cases h) hlive hslots, hidle (fun _ h => by cases h) hlive hslots⟩
  | pop =>
    exact hidle (fun _ h => by cases h) hlive fun h =>
      hstage (fun _ h => by cases h) (fun _ h => by cases h) (List.mem_cons_of_mem _ h)
  | _ =>
    have hslots := hstage (fun _ h => by cases h) fun _ h => by cases h
    refine hidle (fun _ h => by cases h) hlive (hgain fun hmem => hslots ?_)
    simp only [Layout.push, Layout.pushAll, List.mem_cons, List.mem_append] at hmem ⊢
    tauto

theorem hands_of_lands {b : Layout} {o : Onward} {P Q : Nat → Prop} {R : Layout → Prop}
    (hflow : op.Flow b o) (hlands : o.Lands ty ops.size i) (hR : o.All R) (h : op.Hands ops i P Q) :
    op.Hands ops i (fun j => P j ∧ R (ty j)) fun j => Q j ∧ ty j = .entry := by
  have hat : ∀ {d : Int} {c : Layout}, Onward.At ty ops.size i d c → R c → Lands ops i d P →
      Lands ops i d fun j => P j ∧ R (ty j) := by
    rintro d c ⟨t, ht, -, rfl⟩ hc ⟨j, hj, hle, hP⟩
    obtain rfl : j = t := by omega
    exact ⟨j, hj, hle, hP, hc⟩
  cases hflow with
  | ret | stray => trivial
  | jump => exact hat hlands hR h
  | jumpPeek | jumpIfFalse =>
    obtain ⟨hnext, hlands⟩ := hlands
    exact ⟨⟨h.1, by rw [hnext]; exact hR.1⟩, hat hlands hR.2 h.2⟩
  | buildFunc =>
    obtain ⟨hbody, hlands⟩ := hlands
    exact ⟨⟨h.1, hbody⟩, hat hlands hR h.2⟩
  | _ =>
    have hnext : ty (i + 1) = _ := hlands
    exact ⟨h, by rw [hnext]; exact hR⟩

/-- What is followed goes on so. -/
theorem Follows.step (hfit : Fit ops ty) (h : Follows u ty ops stop i a) (hstop : ¬ stop i)
    (hop : ops[i]? = some op) : op.Allowed u a ∧
      op.Hands ops i (fun j => Follows u ty ops stop j (op.after a))
        fun j => Follows u ty ops stop j .entry := by
  obtain ⟨hallowed, hhands⟩ := h.secure.step hstop hop
  obtain ⟨o, hflow, hlands⟩ := hfit.flows i op hop h.live
  have hall := agrees_flow hflow hallowed h.live h.agrees
  refine ⟨hallowed, (hands_of_lands hflow hlands hall hhands).mono ?_ ?_⟩
  · exact fun j hj => ⟨hj.1, hj.2.1, hj.2.2⟩
  · exact fun j hj => ⟨hj.1, by rw [hj.2]; rfl, by rw [hj.2]; exact List.not_mem_nil⟩

end
end Op

/-!
# Counted loops in code

Where the parts of a counted loop stand among the operations of a program: its scope, the expression
that counts, the hidden bindings, the test in front of every round, the body, and the step.
-/

/-- The places of a counted loop: of the instruction that opens its scope, behind the expression that
counts, and of the step behind its body. -/
structure LoopSite where
  start : Nat
  counted : Nat
  again : Nat

namespace LoopSite

/-- The test in front of a round. -/
def first (site : LoopSite) : Nat :=
  site.counted + 9

/-- The body. -/
def round (site : LoopSite) : Nat :=
  site.counted + 14

/-- The end of the loop's scope. -/
def leave (site : LoopSite) : Nat :=
  site.again + 2

/-- What stands behind the loop. -/
def stop (site : LoopSite) : Nat :=
  site.again + 4

/-- Number and limit of the rounds are bound, and compared for the first time. -/
def opening : List Op :=
  [.push .empty, .push (.text Compiler.hiddenCount), .assign .inner, .pop,
    .push (.number (Number.ofNat 0)), .push .empty, .push (.text Compiler.hiddenIndex), .assign .inner,
    .pop, .getVar Compiler.hiddenIndex, .getVar Compiler.hiddenCount, .push (.number (Number.ofNat 2)),
    .dispatch "<"]

/-- The operations of the loop, apart from those of the expression that counts and of the body, which has
a scope of its own. -/
structure Written (site : LoopSite) (ops : Array Op) : Prop where
  counts : site.start < site.counted
  inside : site.round ≤ site.again
  size : site.stop ≤ ops.size
  enter : ops[site.start]? = some .scopeEnter
  opening : ∀ (k : Nat) op, opening[k]? = some op → ops[site.counted + k]? = some op
  test : ops[site.counted + 13]? = some (.jumpIfFalse ((site.leave : Int) - site.round))
  scope : ops[site.round]? = some .scopeEnter
  step : ops[site.again]? = some (.bump Compiler.hiddenIndex true)
  back : ops[site.again + 1]? = some (.jump ((site.first : Int) - site.leave))
  exit : ops[site.leave]? = some .scopeExit
  last : ops[site.again + 3]? = some (.push .null)

/-- The loop stands in the operations; neither the expression that counts nor the body touches what the
loop keeps in its scope. -/
structure Stands (u : Usage) (site : LoopSite) (ops : Array Op) : Prop extends site.Written ops where
  count : Op.Secure u ops (· = site.counted) (site.start + 1) (.still [])
  body : Op.Secure u ops (fun i => i = site.again ∨ i = site.leave) site.round (.still [])

end LoopSite

/-!
# Layouts of counted loops

The layouts in a counted loop follow from the one in front of it: the loop opens one scope, the expression
that counts leaves a number, and every round begins and ends with the operands and scopes that the first
one found.
-/

theorem Number.ofNat_injective {n k : Nat} (hn : n < 2 ^ 53) (hk : k < 2 ^ 53)
    (h : ofNat n = ofNat k) : n = k :=
  Option.some.inj ((whole?_ofNat hn).symm.trans ((congrArg whole? h).trans (whole?_ofNat hk)))

theorem Layout.push_inj {a b : Layout} {s s' : Slot} (h : a.push s = b.push s') : s = s' ∧ a = b := by
  obtain ⟨slots, scopes, inCall, live⟩ := a
  cases h
  exact ⟨rfl, rfl⟩

namespace Op.Fit

variable {ops : Array Op} {ty : Nat → Layout} {i : Nat} {a : Layout} {name op : Text}

section
variable (h : Fit ops ty) (hlive : (ty i).live = true)
include h hlive

theorem push {v : Value} (hop : ops[i]? = some (.push v)) :
    ∃ s : Slot, s.Admits v ∧ ty (i + 1) = (ty i).push s := by
  obtain ⟨o, hflow, hlands⟩ := h.flows i _ hop hlive
  cases hflow with
  | push hs => exact ⟨_, hs, hlands⟩

theorem marker (hop : ops[i]? = some (.push .empty)) : ty (i + 1) = (ty i).push .marker := by
  obtain ⟨s, hs, hnext⟩ := h.push hlive hop
  cases s with
  | marker => exact hnext
  | value => exact absurd hs id
  | name => cases hs.choose_spec
  | count n => cases hs.1

theorem null (hop : ops[i]? = some (.push .null)) : ty (i + 1) = (ty i).push .value := by
  obtain ⟨s, hs, hnext⟩ := h.push hlive hop
  cases s with
  | marker => cases hs
  | value => exact hnext
  | name => cases hs.choose_spec
  | count n => cases hs.1

theorem pop (hop : ops[i]? = some .pop) : ty i = (ty (i + 1)).push .value := by
  obtain ⟨o, hflow, hlands⟩ := h.flows i _ hop hlive
  generalize hb : ty i = b at hflow
  cases hflow with
  | pop =>
    have hnext : ty (i + 1) = _ := hlands
    rw [hnext]

theorem getVar (hop : ops[i]? = some (.getVar name)) : ty (i + 1) = (ty i).push .value := by
  obtain ⟨o, hflow, hlands⟩ := h.flows i _ hop hlive
  cases hflow with
  | getVar => exact hlands

theorem bump {up : Bool} (hop : ops[i]? = some (.bump name up)) : ty (i + 1) = ty i := by
  obtain ⟨o, hflow, hlands⟩ := h.flows i _ hop hlive
  cases hflow with
  | bump => exact hlands

theorem scopeEnter (hop : ops[i]? = some .scopeEnter) : ty (i + 1) = (ty i).enter := by
  obtain ⟨o, hflow, hlands⟩ := h.flows i _ hop hlive
  cases hflow with
  | scopeEnter => exact hlands

theorem scopeExit (hop : ops[i]? = some .scopeExit) : ty i = (ty (i + 1)).enter := by
  obtain ⟨o, hflow, hlands⟩ := h.flows i _ hop hlive
  generalize hb : ty i = b at hflow
  cases hflow with
  | scopeExit =>
    have hnext : ty (i + 1) = _ := hlands
    rw [hnext]

theorem jump {j : Nat} {d : Int} (hop : ops[i]? = some (.jump d)) (hj : (j : Int) = i + 1 + d) :
    ty j = ty i := by
  obtain ⟨o, hflow, hlands⟩ := h.flows i _ hop hlive
  cases hflow with
  | jump =>
    obtain ⟨t, ht, -, hty⟩ := hlands
    obtain rfl : t = j := by omega
    exact hty

theorem jumpIfFalse {j : Nat} {d : Int} (hop : ops[i]? = some (.jumpIfFalse d))
    (hj : (j : Int) = i + 1 + d) : ty i = (ty (i + 1)).push .value ∧ ty j = ty (i + 1) := by
  obtain ⟨o, hflow, hlands⟩ := h.flows i _ hop hlive
  generalize hb : ty i = b at hflow
  cases hflow with
  | jumpIfFalse =>
    obtain ⟨hnext, t, ht, -, hty⟩ := hlands
    obtain rfl : t = j := by omega
    exact ⟨by rw [hnext], hty.trans hnext.symm⟩

/-- The top of the stack is bound to a name, and taken off. -/
theorem bindTop {scope : Scope} (hmarker : ops[i]? = some (.push .empty))
    (hname : ops[i + 1]? = some (.push (.text name))) (hassign : ops[i + 2]? = some (.assign scope))
    (hpop : ops[i + 3]? = some .pop) : ty i = (ty (i + 4)).push .value := by
  have hty := h.marker hlive hmarker
  have hlive₁ : (ty (i + 1)).live = true := by
    rw [hty]
    exact hlive
  obtain ⟨s, -, hty₁⟩ := h.push hlive₁ hname
  have hlive₂ : (ty (i + 2)).live = true := by
    rw [hty₁]
    exact hlive₁
  rw [hty] at hty₁
  obtain ⟨o, hflow, hlands⟩ := h.flows (i + 2) _ hassign hlive₂
  rw [hty₁] at hflow
  generalize hb : ((ty i).push .marker).push s = b at hflow
  cases hflow with
  | assignName =>
    have hthis : ty i = ty (i + 3) := (Layout.push_inj (Layout.push_inj hb).2).2.trans hlands.symm
    rw [hthis]
    exact h.pop (hthis ▸ hlive) hpop
  | assignMember => cases (Layout.push_inj (Layout.push_inj hb).2).1

/-- An operator is applied to two operands. -/
theorem dispatch {c : Layout} (hcount : ty i = (c.push .value).push .value)
    (hpush : ops[i]? = some (.push (.number (Number.ofNat 2)))) (hop : ops[i + 1]? = some (.dispatch op)) :
    ty (i + 2) = c.push .value := by
  obtain ⟨s, hs, hty⟩ := h.push hlive hpush
  have hlive₁ : (ty (i + 1)).live = true := by
    rw [hty]
    exact hlive
  obtain ⟨o, hflow, hlands⟩ := h.flows (i + 1) _ hop hlive₁
  rw [hty, hcount] at hflow
  generalize hb : ((c.push .value).push .value).push s = b at hflow
  cases hflow with
  | @dispatch b op n =>
    obtain ⟨rfl, hoperands⟩ := Layout.push_inj hb
    have hlimit : n + 1 < 2 ^ 53 := Nat.lt_of_le_of_lt hs.2 (by decide)
    obtain rfl : 1 = n := Nat.succ.inj (Number.ofNat_injective (by decide) hlimit (Value.number.inj hs.1))
    have hsame : c = b := (Layout.push_inj (Layout.push_inj (b := b.push .value) hoperands).2).2
    have hnext : ty (i + 2) = b.push .value := hlands
    rw [hnext, hsame]

end
end Op.Fit

/-- The layouts inside a counted loop that begins without operands: its own scope is open, and there are
no operands where a round begins or ends. -/
structure LoopSite.Laid (site : LoopSite) (ty : Nat → Layout) : Prop where
  enter : (ty (site.start + 1)).slots = []
  counted : (ty site.counted).live = true → (ty site.counted).slots = [.value]
  countedScopes : (ty site.counted).live = true → (ty site.counted).scopes = (ty (site.start + 1)).scopes
  round : (ty site.counted).live = true → (ty site.round).slots = []
  again : (ty site.counted).live = true → (ty site.again).live = true → (ty site.again).slots = []
  againScopes : (ty site.again).live = true → (ty site.counted).live = true →
    (ty site.again).scopes = (ty site.round).scopes

namespace LoopSite

variable {u : Usage} {site : LoopSite} {ops : Array Op} {ty : Nat → Layout}

theorem Written.op (h : site.Written ops) (k : Nat) {op : Op} (hop : LoopSite.opening[k]? = some op) :
    ops[site.counted + k]? = some op :=
  h.opening k op hop

/-- The layouts around the test of a round. -/
theorem Written.test_layouts (h : site.Written ops) (hfit : Op.Fit ops ty)
    (hlive : (ty site.counted).live = true) :
    ty site.counted = (ty site.first).push .value ∧ ty site.round = ty site.first ∧
      ty site.leave = ty site.first := by
  have hcount := hfit.bindTop hlive (h.op 0 rfl) (h.op 1 rfl) (h.op 2 rfl) (h.op 3 rfl)
  have hlive₄ : (ty (site.counted + 4)).live = true := by
    rw [hcount] at hlive
    exact hlive
  obtain ⟨s, -, hzero⟩ := hfit.push hlive₄ (h.op 4 rfl)
  have hlive₅ : (ty (site.counted + 5)).live = true := by
    rw [hzero]
    exact hlive₄
  have hindex := hfit.bindTop hlive₅ (h.op 5 rfl) (h.op 6 rfl) (h.op 7 rfl) (h.op 8 rfl)
  have hfirst : ty (site.counted + 4) = ty site.first := (Layout.push_inj (hzero.symm.trans hindex)).2
  have hlive₉ : (ty site.first).live = true := hfirst ▸ hlive₄
  have hleft : ty (site.counted + 10) = (ty site.first).push .value := hfit.getVar hlive₉ (h.op 9 rfl)
  have hright := hfit.getVar (i := site.counted + 10) (by rw [hleft]; exact hlive₉) (h.op 10 rfl)
  rw [hleft] at hright
  have htest := hfit.dispatch (by rw [hright]; exact hlive₉) hright (h.op 11 rfl) (h.op 12 rfl)
  obtain ⟨hnext, hskip⟩ := hfit.jumpIfFalse (j := site.leave) (by rw [htest]; exact hlive₉) h.test
    (by unfold round; omega)
  have hround : ty site.round = ty site.first := (Layout.push_inj (hnext.symm.trans htest)).2
  exact ⟨hfirst ▸ hcount, hround, hskip.trans hround⟩

theorem Written.laid (h : site.Written ops) (hfit : Op.Fit ops ty) (hlive : (ty site.start).live = true)
    (hbare : (ty site.start).slots = []) (hgains : (ty site.start).Gains (ty site.stop)) :
    site.Laid ty := by
  have henter := hfit.scopeEnter hlive h.enter
  -- the layout behind the loop tells the one in front of its last instructions
  have hfirst : (ty site.counted).live = true →
      (ty site.first).slots = [] ∧ (ty site.first).scopes = (ty (site.start + 1)).scopes := by
    intro hcounted
    obtain ⟨hcount, -, hleave⟩ := h.test_layouts hfit hcounted
    have hlive₉ : (ty site.leave).live = true := by
      rw [hcount] at hcounted
      exact hleave ▸ hcounted
    have hexit := hfit.scopeExit hlive₉ h.exit
    have hlast : ty site.stop = (ty (site.leave + 1)).push .value :=
      hfit.null (by rw [hexit] at hlive₉; exact hlive₉) h.last
    rw [hlast] at hgains
    rw [← hleave, hexit, henter]
    exact ⟨(List.cons.inj hgains.1).2.trans hbare, congrArg (· + 1) hgains.2⟩
  have hagain : (ty site.again).live = true → ty site.again = ty site.first := by
    intro hagain
    have hstep := hfit.bump hagain h.step
    have hback := hfit.jump (j := site.first) (by rw [hstep]; exact hagain) h.back (by unfold leave; omega)
    exact (hback.trans hstep).symm
  refine ⟨?_, fun hcounted => ?_, fun hcounted => ?_, fun hcounted => ?_, fun hcounted hagain' => ?_,
    fun hagain' hcounted => ?_⟩
  · rw [henter]
    exact hbare
  · rw [(h.test_layouts hfit hcounted).1]
    exact congrArg _ (hfirst hcounted).1
  · rw [(h.test_layouts hfit hcounted).1]
    exact (hfirst hcounted).2
  · rw [(h.test_layouts hfit hcounted).2.1]
    exact (hfirst hcounted).1
  · rw [hagain hagain']
    exact (hfirst hcounted).1
  · rw [hagain hagain', (h.test_layouts hfit hcounted).2.1]

end LoopSite
end ScriptEngine
