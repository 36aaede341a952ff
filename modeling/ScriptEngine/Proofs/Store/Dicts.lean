import ScriptEngine.Proofs.Store.Cloning
import ScriptEngine.Proofs.Store.Histories

/-!
# What happens to the dicts of a store

A dict begins empty, or as a copy of another one, and then changes one key at a time. So the dicts of
a store are known once it is known which dicts were made, in which order, and how each was edited;
a copy has the history of the copied dict until they part. Copies, clones and dicts that are made from
pairs are told in these events. Main statement: the dicts after some events are those that the
histories after these events lead to.
-/

namespace ScriptEngine
namespace Store

/-- What happens to dicts. -/
inductive Event where
  /-- A new dict, without bindings. -/
  | create
  /-- A new dict with the bindings of another one. -/
  | copy (d : DictId)
  | edit (d : DictId) (e : Edit Value)

namespace Event

/-- The dicts after an event. -/
def act (dicts : Array (Table Value)) : Event → Array (Table Value)
  | create => dicts.push .empty
  | copy d => dicts.push (dicts[d]?.getD .empty)
  | edit d e => dicts.modify d e.apply

/-- The histories of the dicts after an event. -/
def note (histories : Array (List (Edit Value))) : Event → Array (List (Edit Value))
  | create => histories.push []
  | copy d => histories.push (histories[d]?.getD [])
  | edit d e => histories.modify d (· ++ [e])

/-- The event changes no dict with this number. -/
def Spares (d : DictId) (ev : Event) : Prop :=
  ∀ e, ev ≠ edit d e

/-- A new dict, the one with number `d`, into which pairs are set one after the other. -/
def made (d : DictId) (pairs : List (Text × Value)) : List Event :=
  create :: pairs.map fun p => edit d (.set p.1 p.2)

/-- New dicts with the bindings of tables, numbered from `d`. -/
def madeAll : DictId → List (Table Value) → List Event
  | _, [] => []
  | d, t :: rest => made d t.entries ++ madeAll (d + 1) rest

end Event

/-- What copying a value does to dicts. -/
def copied : Value → List Event
  | .dict d => [.copy d]
  | _ => []

/-- What cloning a value does to dicts: into each new one the bindings that it then has are set, in
their order. -/
def cloned (s : Store) (v : Value) : List Event :=
  Event.madeAll s.dicts.size ((s.clone v).2.dicts.toList.drop s.dicts.size)

variable {s s' s'' : Store} {dicts : Array (Table Value)} {d : DictId} {ev : Event}
  {evs : List Event}

/-!
# Events and histories
-/

theorem modify_push_last {α : Type} (a : Array α) (x : α) (f : α → α) :
    (a.push x).modify a.size f = a.push (f x) := by
  refine Array.ext_getElem? fun i => ?_
  rw [Array.getElem?_modify, Array.getElem?_push, Array.getElem?_push]
  by_cases hi : a.size = i
  · rw [if_pos hi, if_pos hi.symm, if_pos hi.symm]
    rfl
  · rw [if_neg hi, if_neg (Ne.symm hi), if_neg (Ne.symm hi)]

theorem map_modify {α β : Type} (a : Array α) (f : α → α) (g : β → β) (h : α → β)
    (hfg : ∀ x, h (f x) = g (h x)) (i : Nat) : (a.modify i f).map h = (a.map h).modify i g := by
  refine Array.ext_getElem? fun j => ?_
  rw [Array.getElem?_map, Array.getElem?_modify, Array.getElem?_modify, Array.getElem?_map]
  split
  · rw [Option.map_map, Option.map_map]
    exact congrArg (fun k => Option.map k a[j]?) (funext hfg)
  · rfl

/-- What an event does to the dicts that some histories lead to is told by the histories after it. -/
theorem act_map_after (histories : Array (List (Edit Value))) (ev : Event) :
    ev.act (histories.map Table.after) = (ev.note histories).map Table.after := by
  cases ev with
  | create =>
    show (histories.map Table.after).push _ = (histories.push _).map Table.after
    rw [Array.map_push]
    rfl
  | copy d =>
    show (histories.map Table.after).push _ = (histories.push _).map Table.after
    rw [Array.map_push, Array.getElem?_map]
    cases histories[d]? <;> rfl
  | edit d e =>
    exact (map_modify histories _ _ _ (fun history => Table.after_concat history e) d).symm

theorem acts_map_after (histories : Array (List (Edit Value))) (evs : List Event) :
    evs.foldl Event.act (histories.map Table.after) =
      (evs.foldl Event.note histories).map Table.after := by
  induction evs generalizing histories with
  | nil => rfl
  | cons ev rest ih =>
    rw [List.foldl_cons, act_map_after, ih]
    rfl

/-- An event that spares a dict leaves it as it is. -/
theorem Event.Spares.getElem? (h : ev.Spares d) (hd : d < dicts.size) :
    (ev.act dicts)[d]? = dicts[d]? ∧ d < (ev.act dicts).size := by
  cases ev with
  | create => exact ⟨getElem?_push_old hd, Nat.lt_of_lt_of_le hd (size_le_push _ _)⟩
  | copy d' => exact ⟨getElem?_push_old hd, Nat.lt_of_lt_of_le hd (size_le_push _ _)⟩
  | edit d' e =>
    have hne : d' ≠ d := by
      rintro rfl
      exact h e rfl
    exact ⟨getElem?_modify_ne hne, Nat.lt_of_lt_of_eq hd Array.size_modify.symm⟩

theorem getElem?_of_spares (h : ∀ ev ∈ evs, ev.Spares d) (hd : d < dicts.size) :
    (evs.foldl Event.act dicts)[d]? = dicts[d]? ∧ d < (evs.foldl Event.act dicts).size := by
  induction evs generalizing dicts with
  | nil => exact ⟨rfl, hd⟩
  | cons ev rest ih =>
    obtain ⟨hsame, hlt⟩ := (h ev List.mem_cons_self).getElem? hd
    obtain ⟨hrest, hlt'⟩ := ih (fun ev' hev' => h ev' (List.mem_cons_of_mem ev hev')) hlt
    exact ⟨hrest.trans hsame, hlt'⟩

/-!
# New dicts
-/

/-- Pairs set into the newest dict. -/
theorem acts_fill (pairs : List (Text × Value)) (t : Table Value) :
    (pairs.map fun p => Event.edit dicts.size (.set p.1 p.2)).foldl Event.act (dicts.push t) =
      dicts.push (t.insertAll pairs) := by
  induction pairs generalizing t with
  | nil => rfl
  | cons pair rest ih =>
    rw [List.map_cons, List.foldl_cons]
    show List.foldl Event.act ((dicts.push t).modify dicts.size _) _ = _
    rw [modify_push_last]
    exact ih _

theorem acts_made (pairs : List (Text × Value)) :
    (Event.made dicts.size pairs).foldl Event.act dicts = dicts.push (Table.ofList pairs) :=
  acts_fill pairs .empty

theorem acts_madeAll {tables : List (Table Value)} (h : ∀ t ∈ tables, t.keys.Nodup) :
    (Event.madeAll dicts.size tables).foldl Event.act dicts = dicts ++ tables.toArray := by
  induction tables generalizing dicts with
  | nil => exact Array.append_empty.symm
  | cons t rest ih =>
    unfold Event.madeAll
    have hpush : dicts.push t ++ rest.toArray = dicts ++ (t :: rest).toArray := by
      rw [← Array.toList_inj]
      simp
    rw [List.foldl_append, acts_made, Table.ofList_entries (h t List.mem_cons_self), ← hpush,
      ← ih fun t' ht' => h t' (List.mem_cons_of_mem t ht'), Array.size_push]

theorem spares_made {pairs : List (Text × Value)} {n : Nat} (h : d < n) :
    ∀ ev ∈ Event.made n pairs, ev.Spares d := by
  intro ev hev e heq
  subst heq
  rcases List.mem_cons.mp hev with heq | hev
  · cases heq
  · obtain ⟨p, -, heq⟩ := List.mem_map.mp hev
    cases heq
    exact Nat.lt_irrefl d h

theorem spares_madeAll {tables : List (Table Value)} {n : Nat} (h : d < n) :
    ∀ ev ∈ Event.madeAll n tables, ev.Spares d := by
  induction tables generalizing n with
  | nil => exact fun ev hev => absurd hev List.not_mem_nil
  | cons t rest ih =>
    intro ev hev
    rcases List.mem_append.mp hev with hev | hev
    · exact spares_made h ev hev
    · exact ih (Nat.lt_succ_of_lt h) ev hev

/-!
# Copies
-/

theorem dicts_copy (s : Store) (v : Value) :
    (s.copy v).2.dicts = (copied v).foldl Event.act s.dicts := by
  cases v with
  | closure c =>
    unfold Store.copy
    cases hc : s.closure? c <;> simp only [hc] <;> rfl
  | inst i =>
    unfold Store.copy
    cases hi : s.instance? i <;> simp only [hi] <;> rfl
  | _ => rfl

theorem spares_copied (v : Value) : ∀ ev ∈ copied v, ev.Spares d := by
  intro ev hev e heq
  subst heq
  cases v with
  | dict d' =>
    cases List.mem_singleton.mp hev
  | _ => cases hev

/-- The dict after its copy was made. -/
theorem dict_copy_new (s : Store) (d : DictId) :
    (s.copy (.dict d)).2.dict s.dicts.size = s.dict d := by
  show ((s.dicts.push (s.dict d))[s.dicts.size]?).getD .empty = s.dict d
  rw [Array.getElem?_push_size]
  rfl

/-!
# Clones

A clone makes dicts and fills those that it made. A new dict gets the keys of an older one, so where
no dict has a key twice, the new ones have none either.
-/

/-- No dict has a key twice. -/
def Distinct (s : Store) : Prop :=
  ∀ t ∈ s.dicts, t.keys.Nodup

theorem Distinct.dict (h : s.Distinct) (d : DictId) : (s.dict d).keys.Nodup := by
  unfold Store.dict
  cases hd : s.dicts[d]? with
  | none => exact List.nodup_nil
  | some t => exact h t (Array.mem_of_getElem? hd)

theorem Distinct.of_same (h : s.Distinct) (hdicts : s'.dicts = s.dicts) : s'.Distinct := by
  unfold Distinct
  rw [hdicts]
  exact h

theorem Distinct.modifyDict (h : s.Distinct) (d : DictId) {f : Table Value → Table Value}
    (hf : ∀ t : Table Value, t.keys.Nodup → (f t).keys.Nodup) : (s.modifyDict d f).Distinct := by
  intro t ht
  have ht : t ∈ s.dicts.modify d f := ht
  rcases mem_modify ht with hold | ⟨t', hold, rfl⟩
  · exact h t hold
  · exact hf t' (h t' hold)

/-- The dicts that were there are as they were, and the new ones have no key twice either. -/
structure Adds (s s' : Store) : Prop where
  size : s.dicts.size ≤ s'.dicts.size
  old : ∀ d, d < s.dicts.size → s'.dicts[d]? = s.dicts[d]?
  distinct : s.Distinct → s'.Distinct

theorem Adds.refl (s : Store) : s.Adds s :=
  ⟨Nat.le_refl _, fun _ _ => rfl, id⟩

theorem Adds.of_same (h : s'.dicts = s.dicts) : s.Adds s' := by
  refine ⟨Nat.le_of_eq (congrArg Array.size h.symm), fun d _ => by rw [h], fun hs t ht => hs t ?_⟩
  rw [← h]
  exact ht

theorem Adds.trans (h : s.Adds s') (h' : s'.Adds s'') : s.Adds s'' :=
  ⟨Nat.le_trans h.size h'.size,
    fun d hd => (h'.old d (Nat.lt_of_lt_of_le hd h.size)).trans (h.old d hd),
    fun hs => h'.distinct (h.distinct hs)⟩

/-- Where no dict has a key twice any more, none had one before. -/
theorem Adds.nodup (h : s.Adds s') (hs' : s'.Distinct) (d : DictId) : (s.dict d).keys.Nodup := by
  unfold Store.dict
  cases hd : s.dicts[d]? with
  | none => exact List.nodup_nil
  | some t =>
    have hold := h.old d (Array.getElem?_eq_some_iff.mp hd).1
    exact hs' t (Array.mem_of_getElem? (hold.trans hd))

theorem Adds.newDict (s : Store) {t : Table Value} (ht : t.keys.Nodup) :
    s.Adds (s.newDict t).2 := by
  refine ⟨size_le_push _ _, fun d hd => getElem?_push_old hd, fun hs u hu => ?_⟩
  rcases Array.mem_push.mp hu with hu | rfl
  · exact hs u hu
  · exact ht

/-- A dict that was not there may be filled. -/
theorem Adds.fill (h : s.Adds s') (hd : s.dicts.size ≤ d) {held : List (Text × Value)}
    (hheld : s.Distinct → (held.map (·.1)).Nodup) :
    s.Adds (s'.modifyDict d fun _ => ⟨held⟩) := by
  refine ⟨Nat.le_trans h.size (Nat.le_of_eq Array.size_modify.symm), fun d' hd' => ?_,
    fun hs t ht => ?_⟩
  · exact (getElem?_modify_ne (Nat.ne_of_gt (Nat.lt_of_lt_of_le hd' hd))).trans (h.old d' hd')
  · obtain ⟨i, hi, rfl⟩ := Array.mem_iff_getElem.mp ht
    have hget : (s'.dicts.modify d fun _ => ⟨held⟩)[i]? = some (s'.modifyDict d fun _ => ⟨held⟩).dicts[i] :=
      Array.getElem?_eq_getElem hi
    rw [Array.getElem?_modify] at hget
    split at hget
    · obtain ⟨old, -, heq⟩ := Option.map_eq_some_iff.mp hget
      rw [← heq]
      exact hheld hs
    · exact h.distinct hs _ (Array.mem_of_getElem? hget)

section
variable {clone : Cloning → Value → Value × Cloning}

/-- Cloning bindings leaves the keys. -/
theorem keys_cloneEntries (clone : Cloning → Value → Value × Cloning)
    (entries : List (Text × Value)) (C : Cloning) :
    (cloneEntries clone C entries []).1.map (·.1) = entries.map (·.1) := by
  induction entries generalizing C with
  | nil => rfl
  | cons entry rest ih =>
    obtain ⟨key, v⟩ := entry
    rw [cloneEntries_cons, cloneEntries_acc]
    simp only [List.reverse_cons, List.reverse_nil, List.nil_append, List.map_cons, List.cons_append,
      ih]

theorem adds_cloneEntries (hclone : ∀ (C : Cloning) v, C.store.Adds (clone C v).2.store)
    (entries : List (Text × Value)) : ∀ (C : Cloning) (acc : List (Text × Value)),
    C.store.Adds (cloneEntries clone C entries acc).2.store := by
  induction entries with
  | nil => exact fun C _ => .refl C.store
  | cons entry rest ih => exact fun C acc => (hclone C entry.2).trans (ih _ _)

theorem adds_cloneAll (hclone : ∀ (C : Cloning) v, C.store.Adds (clone C v).2.store)
    (values : List Value) : ∀ (C : Cloning) (acc : Array Value),
    C.store.Adds (cloneAll clone C values acc).2.store := by
  induction values with
  | nil => exact fun C _ => .refl C.store
  | cons v rest ih => exact fun C acc => (hclone C v).trans (ih _ _)

end

/-- The empty dict that a clone begins with, and what happens until it is filled. -/
theorem adds_cloneDict {clone : Cloning → Value → Value × Cloning}
    (hclone : ∀ (C : Cloning) v, C.store.Adds (clone C v).2.store) (C : Cloning) (d : DictId)
    (made : List (Container × Value)) :
    C.store.Adds (cloneEntries clone ⟨(C.store.newDict .empty).2, made⟩ (C.store.dict d).entries []).2.store ∧
      C.store.dicts.size <
        (cloneEntries clone ⟨(C.store.newDict .empty).2, made⟩
          (C.store.dict d).entries []).2.store.dicts.size := by
  have hnew : C.store.Adds (C.store.newDict .empty).2 := .newDict _ List.nodup_nil
  have hrest := adds_cloneEntries hclone (C.store.dict d).entries
    ⟨(C.store.newDict .empty).2, made⟩ []
  exact ⟨hnew.trans hrest, Nat.lt_of_lt_of_le (size_lt_push C.store.dicts .empty) hrest.size⟩

theorem adds_cloneWithin (fuel : Nat) : ∀ (C : Cloning) (v : Value),
    C.store.Adds (cloneWithin fuel C v).2.store := by
  induction fuel with
  | zero => exact fun C _ => .refl C.store
  | succ fuel ih =>
    intro C v
    unfold cloneWithin
    cases v with
    | closure c => exact .of_same (dicts_copy C.store (.closure c))
    | list l =>
      dsimp only
      split
      · exact .refl C.store
      · refine Adds.trans ?_ (.trans (adds_cloneAll ih _ _ #[]) (.of_same rfl))
        exact .of_same rfl
    | dict d =>
      dsimp only
      split
      · exact .refl C.store
      · refine (adds_cloneDict ih C d _).1.fill (Nat.le_refl _) fun hs => ?_
        rw [keys_cloneEntries]
        exact hs.dict d
    | inst i =>
      dsimp only
      split
      · exact .refl C.store
      · split
        · exact .refl C.store
        · refine Adds.trans ?_ (.trans (adds_cloneEntries ih _ _ []) (.of_same rfl))
          exact .of_same rfl
    | _ => exact .refl C.store

theorem adds_clone (s : Store) (v : Value) : s.Adds (s.clone v).2 :=
  adds_cloneWithin (s.containers + 1) ⟨s, []⟩ v

theorem dicts_clone (hs : s.Distinct) (v : Value) :
    (s.clone v).2.dicts = (s.cloned v).foldl Event.act s.dicts := by
  have hadds := adds_clone s v
  have hprefix : s.dicts.toList <+: (s.clone v).2.dicts.toList := by
    refine List.prefix_iff_getElem?.mpr fun d hd => ?_
    rw [Array.getElem?_toList, hadds.old d hd]
    exact Array.getElem?_eq_getElem hd
  have hnew : ∀ t ∈ (s.clone v).2.dicts.toList.drop s.dicts.size, t.keys.Nodup :=
    fun t ht => hadds.distinct hs t (Array.mem_toList_iff.mp (List.mem_of_mem_drop ht))
  unfold cloned
  rw [acts_madeAll hnew, ← Array.toList_inj, Array.toList_append]
  exact (List.prefix_iff_eq_append.mp hprefix).symm

/-- The clone of a dict is a new dict with the same keys in the same order. -/
theorem clone_dict (s : Store) (d : DictId) :
    (s.clone (.dict d)).1 = .dict s.dicts.size ∧ s.dicts.size < (s.clone (.dict d)).2.dicts.size ∧
      ((s.clone (.dict d)).2.dict s.dicts.size).keys = (s.dict d).keys := by
  obtain ⟨C, hC⟩ : ∃ C, C = cloneEntries (cloneWithin s.containers)
    ⟨(s.newDict .empty).2, [(.dict d, .dict s.dicts.size)]⟩ (s.dict d).entries [] := ⟨_, rfl⟩
  have hclone : s.clone (.dict d) =
      (.dict s.dicts.size, C.2.store.modifyDict s.dicts.size fun _ => ⟨C.1⟩) := by
    rw [hC]
    rfl
  have hsize : s.dicts.size < C.2.store.dicts.size := by
    rw [hC]
    exact (adds_cloneDict (adds_cloneWithin s.containers) ⟨s, []⟩ d _).2
  have hdict : (C.2.store.modifyDict s.dicts.size fun _ => ⟨C.1⟩).dict s.dicts.size = ⟨C.1⟩ := by
    show ((C.2.store.dicts.modify s.dicts.size _)[s.dicts.size]?).getD .empty = _
    rw [Array.getElem?_modify, if_pos rfl, Array.getElem?_eq_getElem hsize]
    rfl
  rw [hclone]
  refine ⟨rfl, Nat.lt_of_lt_of_eq hsize Array.size_modify.symm, ?_⟩
  show ((C.2.store.modifyDict s.dicts.size _).dict s.dicts.size).keys = _
  rw [hdict, hC]
  exact keys_cloneEntries _ _ _

end Store
end ScriptEngine
