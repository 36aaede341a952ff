import ScriptEngine.Proofs.Native.Standard

/-!
# Rules that standard natives keep to

Rules for work on a store say which values it may come across and which changes it may make with them. A
standard native keeps to all such rules: what it puts into the store or ends with was handed to it, was
read off an object that was, or is new. If it fails, it does so with a fault of the engine. So it keeps the
store neat, and it does not come across what is hidden from it.
-/

namespace ScriptEngine

theorem Table.Every.erase {α : Type} {P : α → Prop} {t : Table α} (h : t.Every P) (key : Text) :
    (t.erase key).Every P :=
  fun e he => h e (List.mem_of_mem_filter he)

theorem Fault.raisable_of_known {f : Fault} (h : f.Known) : f.Raisable := by
  cases f with
  | raised | located => exact h
  | foreign => trivial

/-- A value that refers to nothing. -/
def Value.Simple : Value → Prop
  | .null | .number _ | .text _ | .boolean _ => True
  | _ => False

namespace Store

/-- Rules for work on a store: the values that it may come across, and the changes that it may make with
them. A store is fit for the work if it may stay as it is. -/
structure Rules where
  Allows : Store → Store → Prop
  Admits : Store → Value → Prop
  trans : ∀ {s s' s'' : Store}, Allows s s' → Allows s' s'' → Allows s s''
  fit : ∀ {s s' : Store}, Allows s s' → Allows s' s'
  mono : ∀ {s s' : Store} {v : Value}, Allows s s' → Admits s v → Admits s' v
  simple : ∀ (s : Store) {v : Value}, v.Simple → Admits s v
  type : ∀ {s : Store} {v : Value}, Allows s s → Admits s v → Admits s (.type (s.typeOf v))
  cells : ∀ {s : Store}, Allows s s → ∀ (r : Nat), ∀ v ∈ s.rowCells r, Admits s v
  entries : ∀ {s : Store} {d : DictId}, Allows s s → Admits s (.dict d) → (s.dict d).Every (Admits s)
  fields : ∀ {s : Store} {i : InstanceId} {inst : Instance}, Allows s s → Admits s (.inst i) →
    s.instance? i = some inst → inst.fields.Every (Admits s)
  newList : ∀ {s : Store} {items : Array Value}, Allows s s → (∀ v ∈ items, Admits s v) → ∀ capacity,
    Allows s (s.newListIn items capacity).2 ∧
      Admits (s.newListIn items capacity).2 (.list (s.newListIn items capacity).1)
  newDict : ∀ {s : Store}, Allows s s → Allows s (s.newDict Table.empty).2 ∧
    Admits (s.newDict Table.empty).2 (.dict (s.newDict Table.empty).1)
  newInstance : ∀ {s : Store} {inst : Instance}, Allows s s → inst.fields.Every (Admits s) →
    (inst.type = TypeInfo.iterator ∨ ∃ i inst', s.instance? i = some inst' ∧ inst'.type = inst.type) →
    Allows s { s with instances := s.instances.push inst } ∧
      Admits { s with instances := s.instances.push inst } (.inst s.instances.size)
  copy : ∀ {s : Store} {c : ClosureId}, Allows s s → Admits s (.closure c) →
    Allows s (s.copy (.closure c)).2 ∧ Admits (s.copy (.closure c)).2 (s.copy (.closure c)).1
  works : ∀ {s s' : Store} {l : ListId}, Allows s s → Admits s (.list l) →
    (l < s.lists.size → s.WorksOn l s') → (s'.dicts = s.dicts ∧ s'.instances = s.instances ∧
      s'.closures = s.closures ∧ s'.frames = s.frames) → s.PutsIn s' (Admits s) → Allows s s'
  modifyDict : ∀ {s : Store} {d : DictId} {f : Table Value → Table Value}, Allows s s → Admits s (.dict d) →
    (∀ t : Table Value, t.Every (Admits s) → (f t).Every (Admits s)) →
    (s.Distinct → ∀ t : Table Value, t.keys.Nodup → (f t).keys.Nodup) → Allows s (s.modifyDict d f)
  modifyInstance : ∀ {s : Store} {i : InstanceId} {f : Instance → Instance}, Allows s s → Admits s (.inst i) →
    (∀ inst : Instance, inst.fields.Every (Admits s) → (f inst).fields.Every (Admits s)) →
    (∀ inst, (f inst).type = inst.type) → Allows s { s with instances := s.instances.modify i f }

namespace Rules

variable {r : Rules} {s s' : Store} {l : ListId} {v : Value}

/-- Work may be done on the store. -/
def Fit (r : Rules) (s : Store) : Prop :=
  r.Allows s s

theorem items (h : r.Fit s) (l : ListId) : ∀ v ∈ s.items l, r.Admits s v := by
  intro v hv
  unfold Store.items at hv
  dsimp only at hv
  split at hv
  · exact r.cells h _ v hv
  · exact r.cells h _ v (Row.mem_extract hv)

theorem rowGet (h : r.Fit s) (row i : Nat) : r.Admits s (s.rowGet row i) := by
  unfold Store.rowGet
  cases hv : (s.rowCells row)[i]? with
  | none => exact r.simple s trivial
  | some v => exact r.cells h row v (Array.mem_of_getElem? hv)

theorem listGet (h : r.Fit s) (l : ListId) (i : Nat) : r.Admits s (s.listGet l i) :=
  rowGet h _ i

theorem setField {i : InstanceId} (h : r.Fit s) (hi : r.Admits s (.inst i)) (name : Text) (hv : r.Admits s v) :
    r.Allows s (s.setField i name v) :=
  r.modifyInstance h hi (fun _ hfields => hfields.insert name hv) fun _ => rfl

end Rules

/-!
# Clones
-/

section
variable {r : Rules} {v w : Value}

/-- The store of a clone is fit, and the copies that were made are admitted. -/
structure Cloning.Fit (r : Rules) (c : Cloning) : Prop where
  store : r.Fit c.store
  made : ∀ e ∈ c.made, r.Admits c.store e.2

/-- From one clone comes another one by allowed changes. -/
structure Cloning.Grows (r : Rules) (c c' : Cloning) : Prop where
  fit : c'.Fit r
  allows : r.Allows c.store c'.store

theorem Cloning.Grows.trans {c c' c'' : Cloning} (h : c.Grows r c') (h' : c'.Grows r c'') : c.Grows r c'' :=
  ⟨h'.fit, r.trans h.allows h'.allows⟩

theorem Cloning.Fit.find? {c : Cloning} (h : c.Fit r) {k : Container} (hv : c.find? k = some v) :
    r.Admits c.store v := by
  obtain ⟨e, he, rfl⟩ := Option.map_eq_some_iff.mp hv
  exact h.made e (List.mem_of_find?_eq_some he)

/-- A copy of a container is remembered. -/
theorem Cloning.Fit.record {c : Cloning} {s : Store} (h : c.Fit r) (hs : r.Allows c.store s) (k : Container)
    (hv : r.Admits s v) : c.Grows r (Cloning.record { c with store := s } k v) := by
  refine ⟨⟨r.fit hs, fun e he => ?_⟩, hs⟩
  rcases List.mem_cons.mp he with rfl | he
  · exact hv
  · exact r.mono hs (h.made e he)

/-- The container that a copy was made for is filled. -/
theorem Cloning.Fit.filled {c : Cloning} {s : Store} (h : c.Fit r) (hs : r.Allows c.store s) :
    c.Grows r { c with store := s } :=
  ⟨⟨r.fit hs, fun e he => r.mono hs (h.made e he)⟩, hs⟩

section
variable {clone : Cloning → Value → Value × Cloning}
  (hclone : ∀ (c : Cloning) v, c.Fit r → r.Admits c.store v →
    c.Grows r (clone c v).2 ∧ r.Admits (clone c v).2.store (clone c v).1)
include hclone

theorem grows_cloneAll (vs : List Value) : ∀ (c : Cloning) (acc : Array Value), c.Fit r →
    (∀ v ∈ vs, r.Admits c.store v) → (∀ v ∈ acc, r.Admits c.store v) →
    c.Grows r (cloneAll clone c vs acc).2 ∧
      ∀ v ∈ (cloneAll clone c vs acc).1, r.Admits (cloneAll clone c vs acc).2.store v := by
  induction vs with
  | nil => exact fun c acc hc _ hacc => ⟨⟨hc, hc.store⟩, hacc⟩
  | cons v rest ih =>
    intro c acc hc hvs hacc
    obtain ⟨hgrows, hv⟩ := hclone c v hc (hvs v List.mem_cons_self)
    obtain ⟨hgrows', hall⟩ := ih (clone c v).2 (acc.push (clone c v).1) hgrows.fit
      (fun w hw => r.mono hgrows.allows (hvs w (List.mem_cons_of_mem v hw))) fun w hw => by
        rcases Array.mem_push.mp hw with hw | rfl
        · exact r.mono hgrows.allows (hacc w hw)
        · exact hv
    exact ⟨hgrows.trans hgrows', hall⟩

theorem grows_cloneEntries (entries : List (Text × Value)) : ∀ (c : Cloning) (acc : List (Text × Value)),
    c.Fit r → (∀ e ∈ entries, r.Admits c.store e.2) → (∀ e ∈ acc, r.Admits c.store e.2) →
    c.Grows r (cloneEntries clone c entries acc).2 ∧
      ∀ e ∈ (cloneEntries clone c entries acc).1,
        r.Admits (cloneEntries clone c entries acc).2.store e.2 := by
  induction entries with
  | nil => exact fun c acc hc _ hacc => ⟨⟨hc, hc.store⟩, fun e he => hacc e (List.mem_reverse.mp he)⟩
  | cons e rest ih =>
    intro c acc hc hentries hacc
    obtain ⟨hgrows, hv⟩ := hclone c e.2 hc (hentries e List.mem_cons_self)
    obtain ⟨hgrows', hall⟩ := ih (clone c e.2).2 ((e.1, (clone c e.2).1) :: acc) hgrows.fit
      (fun e' he' => r.mono hgrows.allows (hentries e' (List.mem_cons_of_mem e he'))) fun e' he' => by
        rcases List.mem_cons.mp he' with rfl | he'
        · exact hv
        · exact r.mono hgrows.allows (hacc e' he')
    exact ⟨hgrows.trans hgrows', hall⟩

end

theorem grows_cloneWithin (fuel : Nat) : ∀ (c : Cloning) (v : Value), c.Fit r → r.Admits c.store v →
    c.Grows r (cloneWithin fuel c v).2 ∧ r.Admits (cloneWithin fuel c v).2.store (cloneWithin fuel c v).1 := by
  induction fuel with
  | zero => exact fun c v hc hv => ⟨⟨hc, hc.store⟩, hv⟩
  | succ fuel ih =>
    intro c v hc hv
    have hsame : c.Grows r c := ⟨hc, hc.store⟩
    unfold cloneWithin
    cases v with
    | closure id =>
      obtain ⟨hcopies, hcopy⟩ := r.copy hc.store hv
      exact ⟨hc.filled hcopies, hcopy⟩
    | list l =>
      dsimp only
      split
      · rename_i v' hv'
        exact ⟨hsame, hc.find? hv'⟩
      · obtain ⟨hnew, hid⟩ := @Store.Rules.newList r c.store (Array.replicate (c.store.items l).size .null) hc.store
          (fun v hv => (Array.mem_replicate.mp hv).2 ▸ r.simple _ trivial) _
        obtain ⟨c₁, hc₁⟩ : ∃ c₁, c₁ = Cloning.record
            { c with store := (c.store.newList (Array.replicate (c.store.items l).size .null)).2 } (.list l)
            (.list (c.store.newList (Array.replicate (c.store.items l).size .null)).1) := ⟨_, rfl⟩
        have hid : r.Admits c₁.store (.list (c.store.newList (Array.replicate (c.store.items l).size .null)).1) := by
          rw [hc₁]
          exact hid
        have hgrows : c.Grows r c₁ := by
          rw [hc₁] at hid ⊢
          exact hc.record hnew _ hid
        rw [← hc₁]
        obtain ⟨hgrows', hall⟩ := grows_cloneAll ih (c.store.items l).toList c₁ #[] hgrows.fit
          (fun v hv => r.mono hgrows.allows (Rules.items hc.store l v (Array.mem_toList_iff.mp hv)))
          fun v hv => absurd hv (Array.not_mem_empty v)
        have hid' := r.mono hgrows'.allows hid
        have hfilled := hgrows'.fit.filled (r.works hgrows'.fit.store hid'
          (fun _ => (WorksOn.refl _ _).modify fun row =>
            { row with cells := (cloneAll (cloneWithin fuel) c₁ (c.store.items l).toList #[]).1 })
          ⟨rfl, rfl, rfl, rfl⟩ (putsIn_modify (putsIn_refl _ _) _ _ fun _ w hw => Or.inr (hall w hw)))
        exact ⟨hgrows.trans (hgrows'.trans hfilled), r.mono hfilled.allows hid'⟩
    | dict d =>
      dsimp only
      split
      · rename_i v' hv'
        exact ⟨hsame, hc.find? hv'⟩
      · obtain ⟨hnew, hid⟩ := r.newDict hc.store
        obtain ⟨c₁, hc₁⟩ : ∃ c₁, c₁ = Cloning.record { c with store := (c.store.newDict Table.empty).2 } (.dict d)
            (.dict (c.store.newDict Table.empty).1) := ⟨_, rfl⟩
        have hid : r.Admits c₁.store (.dict (c.store.newDict Table.empty).1) := by
          rw [hc₁]
          exact hid
        have hgrows : c.Grows r c₁ := by
          rw [hc₁] at hid ⊢
          exact hc.record hnew _ hid
        rw [← hc₁]
        obtain ⟨hgrows', hall⟩ := grows_cloneEntries ih (c.store.dict d).entries c₁ [] hgrows.fit
          (fun e he => r.mono hgrows.allows (r.entries hc.store hv e he))
          fun e he => absurd he List.not_mem_nil
        have hid' := r.mono hgrows'.allows hid
        have hkeys : (cloneEntries (cloneWithin fuel) c₁ (c.store.dict d).entries []).2.store.Distinct →
            ((cloneEntries (cloneWithin fuel) c₁ (c.store.dict d).entries []).1.map (·.1)).Nodup := fun hs => by
          rw [hc₁] at hs
          rw [keys_cloneEntries]
          exact (adds_cloneDict (adds_cloneWithin fuel) c d _).1.nodup hs d
        have hfilled := hgrows'.fit.filled (r.modifyDict
          (f := fun _ => ⟨(cloneEntries (cloneWithin fuel) c₁ (c.store.dict d).entries []).1⟩)
          hgrows'.fit.store hid' (fun _ _ => hall) fun hs _ _ => hkeys hs)
        exact ⟨hgrows.trans (hgrows'.trans hfilled), r.mono hfilled.allows hid'⟩
    | inst i =>
      dsimp only
      split
      · rename_i v' hv'
        exact ⟨hsame, hc.find? hv'⟩
      · split
        · exact ⟨hsame, hv⟩
        · rename_i inst hinst
          obtain ⟨hnew, hid⟩ := @Store.Rules.newInstance r c.store { inst with fields := .empty } hc.store .empty
            (Or.inr ⟨i, inst, hinst, rfl⟩)
          obtain ⟨c₁, hc₁⟩ : ∃ c₁, c₁ = Cloning.record
              { c with store := { c.store with instances := c.store.instances.push { inst with fields := .empty } } }
              (.inst i) (.inst c.store.instances.size) := ⟨_, rfl⟩
          have hid : r.Admits c₁.store (.inst c.store.instances.size) := by
            rw [hc₁]
            exact hid
          have hgrows : c.Grows r c₁ := by
            rw [hc₁] at hid ⊢
            exact hc.record hnew _ hid
          rw [← hc₁]
          obtain ⟨hgrows', hall⟩ := grows_cloneEntries ih inst.fields.entries c₁ [] hgrows.fit
            (fun e he => r.mono hgrows.allows (r.fields hc.store hv hinst e he))
            fun e he => absurd he List.not_mem_nil
          have hid' := r.mono hgrows'.allows hid
          have hfilled := hgrows'.fit.filled
            (r.modifyInstance (f := fun x => { x with fields := ⟨(cloneEntries (cloneWithin fuel) c₁ inst.fields.entries []).1⟩ })
              hgrows'.fit.store hid' (fun _ _ => hall) fun _ => rfl)
          exact ⟨hgrows.trans (hgrows'.trans hfilled), r.mono hfilled.allows hid'⟩
    | _ => exact ⟨hsame, hv⟩

/-- A clone of an admitted value is admitted. -/
theorem Rules.clone {s : Store} (h : r.Fit s) (hv : r.Admits s v) :
    r.Allows s (s.clone v).2 ∧ r.Admits (s.clone v).2 (s.clone v).1 := by
  obtain ⟨hgrows, hclone⟩ := grows_cloneWithin (s.containers + 1) ⟨s, []⟩ v
    ⟨h, fun e he => absurd he List.not_mem_nil⟩ hv
  exact ⟨hgrows.allows, hclone⟩

end
end Store

/-!
# Effects
-/

/-- The action, begun in a store, keeps to the rules, and passes on the fault of a call that fails. -/
inductive Action.Keeps (r : Store.Rules) : Store → Action → Prop
  | done {s : Store} {o : Option Value} {w : World} (h : r.Allows s w.store)
    (ho : ∀ v, o = some v → r.Admits w.store v) : Keeps r s (.done o w)
  | fail {s : Store} {f : Fault} {w : World} (h : r.Allows s w.store) (hf : f.Raisable) : Keeps r s (.fail f w)
  | crash {s : Store} {message : Text} {w : World} : Keeps r s (.crash message w)
  | invoke {s : Store} {callee : Value} {args : List Value} {w : World}
    {resume : Except Fault Value → World → Action} (h : r.Allows s w.store) (hcallee : r.Admits w.store callee)
    (hargs : ∀ v ∈ args, r.Admits w.store v)
    (hok : ∀ v w', r.Allows w.store w'.store → r.Admits w'.store v → Keeps r w'.store (resume (.ok v) w'))
    (herror : ∀ f w', resume (.error f) w' = .fail f w') : Keeps r s (.invoke callee args w resume)

namespace Effect

variable {α β : Type} {r : Store.Rules} {w : World} {P : α → Store → Prop} {Q : β → Store → Prop}

/-- The effect keeps to the rules; what it gives has the property. -/
def Keeps (r : Store.Rules) (e : Effect α) (w : World) (P : α → Store → Prop) : Prop :=
  match e w with
  | .ok a w' => r.Allows w.store w'.store ∧ P a w'.store
  | .error (.fault f) w' => r.Allows w.store w'.store ∧ f.Raisable
  | .error (.crash _) _ => True

/-- An admitted value. -/
abbrev Admitted (r : Store.Rules) (v : Value) (s : Store) : Prop :=
  r.Admits s v

/-- Anything. -/
abbrev Any (_ : α) (_ : Store) : Prop :=
  True

namespace Keeps

theorem crash {message : Text} : Keeps r (Effect.crash message : Effect α) w P :=
  trivial

theorem bind {e : Effect α} {k : α → Effect β} (he : Keeps r e w P)
    (hk : ∀ a w', r.Allows w.store w'.store → r.Fit w'.store → P a w'.store → Keeps r (k a) w' Q) :
    Keeps r (e >>= k) w Q := by
  unfold Keeps at he ⊢
  show match EStateM.bind e k w with | .ok a w' => _ | .error (.fault f) w' => _ | .error (.crash _) _ => True
  unfold EStateM.bind
  cases hrun : e w with
  | ok a w' =>
    rw [hrun] at he
    obtain ⟨hle, ha⟩ := he
    have hnext := hk a w' hle (r.fit hle) ha
    unfold Keeps at hnext
    dsimp only
    cases hrun' : k a w' with
    | ok b w'' =>
      rw [hrun'] at hnext
      exact ⟨r.trans hle hnext.1, hnext.2⟩
    | error stop w'' =>
      rw [hrun'] at hnext
      cases stop with
      | fault f => exact ⟨r.trans hle hnext.1, hnext.2⟩
      | crash => trivial
  | error stop w' =>
    rw [hrun] at he
    cases stop with
    | fault f => exact he
    | crash => trivial

theorem change {f : Store → Store} (h : r.Allows w.store (f w.store)) : Keeps r (Effect.change f) w Any :=
  ⟨h, trivial⟩

theorem changeGet {f : Store → α × Store} (h : r.Allows w.store (f w.store).2)
    (hP : P (f w.store).1 (f w.store).2) : Keeps r (Effect.changeGet f) w P :=
  ⟨h, hP⟩

section
variable (hw : r.Fit w.store)
include hw

theorem pure {a : α} (h : P a w.store) : Keeps r (Pure.pure a) w P :=
  ⟨hw, h⟩

theorem simple {v : Value} (h : v.Simple) : Keeps r (Pure.pure v) w (Admitted r) :=
  pure hw (r.simple _ h)

theorem raise {f : Failure} {message : Text} (hf : f.Known) : Keeps r (Effect.raise f message : Effect α) w P :=
  ⟨hw, hf⟩

theorem reads {f : Store → α} (h : P (f w.store) w.store) : Keeps r (Effect.reads f) w P :=
  ⟨hw, h⟩

theorem onHost {f : Host → α × Host} : Keeps r (Effect.onHost f) w Any :=
  ⟨hw, trivial⟩

theorem newList {items : Array Value} (hitems : ∀ v ∈ items, r.Admits w.store v) :
    Keeps r (Effect.newList items) w (Admitted r) :=
  changeGet (r.newList hw hitems _).1 (r.newList hw hitems _).2

theorem typeName (v : Value) : Keeps r (Effect.typeName v) w Any :=
  reads hw trivial

theorem display (v : Value) : Keeps r (Effect.display v) w Any :=
  reads hw trivial

theorem mismatch {f : Failure} (hf : f.Known) (name expected : String) (v : Value) :
    Keeps r (Effect.mismatch f name expected v : Effect α) w P :=
  (typeName hw v).bind fun _ _ _ hw _ => raise hw hf

theorem numberArg (name : String) (v : Value) : Keeps r (Effect.numberArg name v) w Any := by
  unfold Effect.numberArg
  split
  · exact pure hw trivial
  · exact mismatch hw (by simp [Failure.Known]) name _ v

theorem textArg (name : String) (v : Value) : Keeps r (Effect.textArg name v) w Any := by
  unfold Effect.textArg
  split
  · exact pure hw trivial
  · exact mismatch hw (by simp [Failure.Known]) name _ v

theorem dictArg (name : String) (v : Value) : Keeps r (Effect.dictArg name v) w Any := by
  unfold Effect.dictArg
  split
  · exact pure hw trivial
  · exact mismatch hw (by simp [Failure.Known]) name _ v

theorem booleanArg (name : String) (v : Value) : Keeps r (Effect.booleanArg name v) w Any := by
  unfold Effect.booleanArg
  split
  · exact pure hw trivial
  · exact mismatch hw (by simp [Failure.Known]) name _ v

theorem cannotApply (op left : String) (right : Value) :
    Keeps r (Effect.cannotApply op left right : Effect α) w P :=
  (typeName hw right).bind fun _ _ _ hw _ => raise hw (by simp [Failure.Known])

end

/-- What the effect does to a native. -/
theorem action {e : Effect Value} (he : Keeps r e w (Admitted r)) :
    (Action.ofEffect (do let v ← e; Pure.pure (some v)) w).Keeps r w.store := by
  have hsome : Keeps r (do let v ← e; Pure.pure (some v)) w fun o s => ∀ v, o = some v → r.Admits s v :=
    he.bind fun v w' _ hw' hv => pure hw' fun v' hv' => by
      cases hv'
      exact hv
  unfold Keeps at hsome
  unfold Action.ofEffect
  generalize (do let v ← e; Pure.pure (some v) : Effect (Option Value)) w = result at hsome
  cases result with
  | ok v w' => exact .done hsome.1 hsome.2
  | error stop w' =>
    cases stop with
    | fault f => exact .fail hsome.1 hsome.2
    | crash => exact .crash

end Keeps
end Effect

/-!
# Primitives
-/

/-- The primitive keeps to the rules, once it is a native. -/
def Primitive.Keeps (r : Store.Rules) (p : Primitive) : Prop :=
  ∀ args w, r.Fit w.store → (∀ v ∈ args, r.Admits w.store v) → (p.behaviour args w).Keeps r w.store

namespace Primitive

variable {r : Store.Rules}

/-- A method refuses receivers of other types. -/
theorem keeps_methodWith {type name : String} {arity : Nat} {b : Behaviour}
    (hb : ∀ args w, r.Fit w.store → (∀ v ∈ args, r.Admits w.store v) → (b args w).Keeps r w.store) :
    (methodWith type name arity b).Keeps r := by
  intro args w hw hargs
  show (guarded _ _ b args w).Keeps r w.store
  unfold guarded
  split
  · exact hb _ w hw hargs
  · split
    · exact hb _ w hw hargs
    · exact .fail hw (by simp [Fault.Raisable, Fault.Known, Failure.Known])

theorem keeps_method {type name : String} {arity : Nat} {f : List Value → Effect Value}
    (hf : ∀ args w, r.Fit w.store → (∀ v ∈ args, r.Admits w.store v) →
      (f args).Keeps r w (Effect.Admitted r)) : (method type name arity f).Keeps r :=
  keeps_methodWith fun args w hw hargs => (hf args w hw hargs).action

end Primitive

namespace Native

open Primitive

variable {r : Store.Rules} {w : World}

theorem keeps_charList (hw : r.Fit w.store) (t : Text) : (charList t).Keeps r w (Effect.Admitted r) := by
  unfold charList
  have hnew := @Store.Rules.newList r w.store (t.chars.map fun c => Value.text (Text.ofChar c)).toArray hw
    (fun v hv => by
      rw [List.mem_toArray, List.mem_map] at hv
      obtain ⟨c, -, rfl⟩ := hv
      exact r.simple _ trivial) t.size
  exact .changeGet hnew.1 hnew.2

end Native

/-!
# The library
-/

namespace Store.Neat

variable {n : NativeInfo → Prop} {s : Store}

theorem modifyDict (h : s.Neat True n) (d : DictId) {f : Table Value → Table Value}
    (hf : ∀ t : Table Value, t.Every (s.Admits n) → (f t).Every (s.Admits n)) :
    (s.modifyDict d f).Neat True n := by
  have hevery : ∀ t ∈ s.dicts.modify d f, t.Every (s.Admits n) := by
    intro t ht
    rcases mem_modify ht with ht | ⟨t', ht', rfl⟩
    · exact h.entries trivial t ht
    · exact hf t' (h.entries trivial t' ht')
  exact ⟨⟨h.cells, fun t ht _ _ hk => (hevery t ht).get? hk, h.instances, h.receivers, h.frames⟩,
    fun _ => hevery, h.fields⟩

theorem modifyInstance (h : s.Neat True n) (i : InstanceId) {f : Instance → Instance}
    (hf : ∀ inst : Instance, inst.fields.Every (s.Admits n) → (f inst).fields.Every (s.Admits n)) :
    Neat True n { s with instances := s.instances.modify i f } := by
  have hevery : ∀ inst ∈ s.instances.modify i f, inst.fields.Every (s.Admits n) := by
    intro inst hinst
    rcases mem_modify hinst with hinst | ⟨inst', hinst', rfl⟩
    · exact h.fields trivial inst hinst
    · exact hf inst' (h.fields trivial inst' hinst')
  exact ⟨⟨h.cells, h.dicts, fun inst hinst _ _ hk => (hevery inst hinst).get? hk, h.receivers, h.frames⟩,
    h.entries, fun _ => hevery⟩

/-- The cells of lists may be filled with clean values. -/
theorem works {s' : Store} (h : s.Neat True n) (hdicts : s'.dicts = s.dicts) (hinstances : s'.instances = s.instances)
    (hclosures : s'.closures = s.closures) (hframes : s'.frames = s.frames) (hfills : s.PutsIn s' (s.Admits n)) :
    s'.Neat True n := by
  have hle : s.closures.size ≤ s'.closures.size := Nat.le_of_eq (by rw [hclosures])
  refine h.of_same ⟨fun row hrow w hw => ?_, fun t ht => ?_, fun i hi => ?_, fun c hc v hv => ?_, fun f hf => ?_⟩
    hdicts hinstances hle
  · rcases hfills row hrow w hw with ⟨row', hrow', hw⟩ | hw
    · exact (h.cells row' hrow' w hw).mono hle
    · exact hw.mono hle
  · exact (h.dicts t (hdicts ▸ ht)).imp fun _ hv => hv.mono hle
  · exact (h.instances i (hinstances ▸ hi)).imp fun _ hv => hv.mono hle
  · exact (h.receivers c (hclosures ▸ hc) v hv).mono hle
  · exact (h.frames f (hframes ▸ hf)).imp fun _ hv => hv.mono hle

end Store.Neat

/-- The store stays neat, and no closure is lost. -/
def Store.Rules.neat (n : NativeInfo → Prop) : Rules where
  Allows s s' := s.closures.size ≤ s'.closures.size ∧ s'.Neat True n
  Admits s v := s.Admits n v
  trans h h' := ⟨Nat.le_trans h.1 h'.1, h'.2⟩
  fit h := ⟨Nat.le_refl _, h.2⟩
  mono h hv := hv.mono h.1
  simple s v hv := by
    cases v <;> trivial
  type _ _ := trivial
  cells h r := h.2.rowCells r
  entries {_ d} h _ := (h.2.table d).every trivial
  fields h _ hinst := h.2.fields trivial _ (Array.mem_of_getElem? hinst)
  newList h hitems _ := ⟨⟨Nat.le_refl _, h.2.newListIn hitems _⟩, trivial⟩
  newDict h := ⟨⟨Nat.le_refl _, h.2.newDict (.of_every .empty)⟩, trivial⟩
  newInstance h hfields _ := ⟨⟨Nat.le_refl _, h.2.pushInstance (.of_every hfields)⟩, trivial⟩
  copy {s c} h hc := by
    obtain ⟨hneat, hcopy⟩ := h.2.copy hc
    exact ⟨⟨(Store.Grows.copy s (.closure c)).toExtends.size_closures, hneat⟩, hcopy⟩
  works h _ _ hrest hfills := by
    obtain ⟨hdicts, hinstances, hclosures, hframes⟩ := hrest
    exact ⟨Nat.le_of_eq (by rw [hclosures]), h.2.works hdicts hinstances hclosures hframes hfills⟩
  modifyDict {_ d f} h _ hf _ := ⟨Nat.le_refl _, h.2.modifyDict d hf⟩
  modifyInstance {_ i f} h _ hf _ := ⟨Nat.le_refl _, h.2.modifyInstance i hf⟩

theorem Action.Keeps.tidy {n : NativeInfo → Prop} {s : Store} {a : Action} (h : a.Keeps (.neat n) s) :
    a.Tidy False True n := by
  induction h with
  | done h ho => exact .done h.2 ho
  | fail h hf => exact .fail h.2 hf
  | crash => exact .crash id
  | invoke h hcallee hargs _ herror ih =>
    refine .invoke h.2 hcallee hargs fun o w' hle hw' ho => ?_
    cases o with
    | ok v => exact ih v w' ⟨hle, hw'⟩ ho
    | error f =>
      rw [herror]
      exact .fail hw' (Fault.raisable_of_known ho)

namespace Library

end Library

/-!
# Discreet natives
-/

/-- Nothing hidden is met with. -/
def Store.Rules.veiled (V : Veil) : Rules where
  Allows s s' := s.Spares V s'
  Admits s v := s.Shows V v
  trans h h' := h.trans h'
  fit h := h.veiled.refl
  mono h hv := h.shows hv
  simple s v hv := by
    cases v <;> first | exact ⟨trivial, trivial⟩ | exact hv.elim
  type {s v} h hv := by
    refine ⟨trivial, ?_⟩
    cases v with
    | inst i => exact fun _ => h.veiled.instanceType hv.has
    | _ => exact fun h => by cases h
  cells h r := h.veiled.rowCells r
  entries h hd := h.veiled.dict hd.shown
  fields h hi hinst := h.veiled.fields hi.shown hinst
  newList h hitems _ := ⟨h.veiled.newListIn hitems _, Store.size_lt_push _ _, h.veiled.not_hidden (Nat.lt_irrefl _)⟩
  newDict h := ⟨h.veiled.newDict .empty fun _ => List.nodup_nil, Store.size_lt_push _ _, h.veiled.not_hidden (Nat.lt_irrefl _)⟩
  newInstance {s inst} h hfields htype := by
    refine ⟨h.veiled.pushInstance hfields ?_, Store.size_lt_push _ _, h.veiled.not_hidden (Nat.lt_irrefl _)⟩
    rcases htype with htype | ⟨i, inst', hinst', htype⟩
    · rw [htype]
      decide +kernel
    · rw [← htype]
      exact h.veiled.typed _ (Array.mem_of_getElem? hinst')
  copy h hc := h.veiled.copy hc
  works h hl hwork hrest hfills := h.veiled.works hl (hwork hl.has) hrest hfills
  modifyDict h hd hf hkeys := h.veiled.modifyDict hd hf hkeys
  modifyInstance h hi hf htype := h.veiled.modifyInstance hi hf htype

theorem Action.Keeps.discreet {V : Veil} {s : Store} {a : Action} (h : a.Keeps (.veiled V) s) :
    a.Discreet V s := by
  induction h with
  | done h ho => exact .done h ho
  | fail h _ => exact .fail h
  | crash => exact .crash
  | invoke h hcallee hargs _ herror ih =>
    refine .invoke h hcallee hargs fun o w' hle ho => ?_
    cases o with
    | ok v => exact ih v w' hle (ho v rfl)
    | error f =>
      rw [herror]
      exact .fail hle.veiled.refl

end ScriptEngine
