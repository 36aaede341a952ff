import Mathlib.Data.List.Induction
import ScriptEngine.Table

/-!
# Tables by their histories

A table is the outcome of its history, the edits that were made to it since it was empty. The history
says what the table must hold, without building it: the value of a key is what the last edit of that
key left, and a key stands where it was first set since it was last deleted. Main statement: the
table holds what its history says, in the order of these places, and no key twice.
-/

namespace ScriptEngine

/-- A change of a table at one key. -/
inductive Edit (α : Type) where
  | set (key : Text) (value : α)
  | delete (key : Text)
  deriving Inhabited

namespace Edit

variable {α : Type}

def key : Edit α → Text
  | set key _ => key
  | delete key => key

/-- The value that its key is left with. -/
def value? : Edit α → Option α
  | set _ value => some value
  | delete _ => none

def apply : Edit α → Table α → Table α
  | set key value, t => t.insert key value
  | delete key, t => t.erase key

/-- The value that was last set for a key, if it was not deleted since. -/
def standing (history : List (Edit α)) (key : Text) : Option α :=
  (history.filter fun e => e.key = key).getLast?.bind value?

/-- The edit at place `i` is the first that set the key since it was last deleted, and the key was
not deleted after it. -/
structure Opens (history : List (Edit α)) (key : Text) (i : Nat) : Prop where
  sets : ∃ value, history[i]? = some (set key value)
  first : ∀ j value, j < i → history[j]? = some (set key value) →
    ∃ l, j < l ∧ l < i ∧ history[l]? = some (delete key)
  stays : ∀ l, i < l → history[l]? ≠ some (delete key)

variable {history : List (Edit α)} {key : Text} {i j : Nat} {e : Edit α} {value : α}

theorem standing_concat (history : List (Edit α)) (e : Edit α) (key : Text) :
    standing (history ++ [e]) key = if e.key = key then e.value? else standing history key := by
  unfold standing
  rw [List.filter_append]
  by_cases h : e.key = key
  · rw [List.filter_cons_of_pos (by simpa using h), List.filter_nil, List.getLast?_concat, if_pos h]
    rfl
  · rw [List.filter_cons_of_neg (by simpa using h), List.filter_nil, List.append_nil, if_neg h]

theorem Opens.lt (h : Opens history key i) : i < history.length := by
  obtain ⟨value, hset⟩ := h.sets
  exact (List.getElem?_eq_some_iff.mp hset).1

/-- There is at most one such place. -/
theorem Opens.unique (h : Opens history key i) (h' : Opens history key j) : i = j := by
  have hle : ∀ i j : Nat, Opens history key i → Opens history key j → ¬ i < j := by
    intro i j h h' hlt
    obtain ⟨value, hset⟩ := h.sets
    obtain ⟨l, hl, -, hdelete⟩ := h'.first i value hlt hset
    exact h.stays l hl hdelete
  have := hle i j h h'
  have := hle j i h' h
  omega

/-- An edit behind the others is at the last place. -/
theorem getElem?_concat {e' : Edit α} (h : (history ++ [e])[i]? = some e') :
    history[i]? = some e' ∨ i = history.length ∧ e' = e := by
  rw [List.getElem?_append] at h
  split at h
  · exact Or.inl h
  · rename_i hle
    obtain ⟨hlt, heq⟩ := List.getElem?_eq_some_iff.mp h
    have hlt : i - history.length < 1 := hlt
    have hi : i = history.length := by omega
    subst hi
    simp only [Nat.sub_self, List.getElem_cons_zero] at heq
    exact Or.inr ⟨rfl, heq.symm⟩

/-- Only deletion takes the place from a key. -/
theorem Opens.concat (h : Opens history key i) (he : e ≠ delete key) :
    Opens (history ++ [e]) key i where
  sets := by
    rw [List.getElem?_append_left h.lt]
    exact h.sets
  first j value hj hset := by
    rw [List.getElem?_append_left (Nat.lt_trans hj h.lt)] at hset
    obtain ⟨l, hjl, hli, hdelete⟩ := h.first j value hj hset
    exact ⟨l, hjl, hli, by rw [List.getElem?_append_left (Nat.lt_trans hli h.lt), hdelete]⟩
  stays l hl hdelete := by
    rcases getElem?_concat hdelete with hold | ⟨-, hnew⟩
    · exact h.stays l hl hold
    · exact he hnew.symm

/-- A key all of whose settings were undone gets the last place when it is set again. -/
theorem Opens.last (hundone : ∀ (j : Nat) value, history[j]? = some (set key value) →
    ∃ l, j < l ∧ history[l]? = some (delete key)) :
    Opens (history ++ [set key value]) key history.length where
  sets := ⟨value, by rw [List.getElem?_concat_length]⟩
  first j value' hj hset := by
    rw [List.getElem?_append_left hj] at hset
    obtain ⟨l, hjl, hdelete⟩ := hundone j value' hset
    have hl : l < history.length := (List.getElem?_eq_some_iff.mp hdelete).1
    exact ⟨l, hjl, hl, by rw [List.getElem?_append_left hl, hdelete]⟩
  stays l hl hdelete := by
    obtain ⟨hlt, -⟩ := List.getElem?_eq_some_iff.mp hdelete
    rw [List.length_append, List.length_singleton] at hlt
    omega

end Edit

namespace Table

variable {α : Type} {t : Table α} {key k : Text} {value : α}

/-!
# Keys and values
-/

theorem mem_keys_iff (t : Table α) (k : Text) : k ∈ t.keys ↔ (t.get? k).isSome := by
  unfold keys get?
  induction t.entries with
  | nil => simp [lookup]
  | cons entry rest ih =>
    obtain ⟨k', v⟩ := entry
    by_cases h : k' = k
    · simp [lookup, h]
    · simp [lookup, h, Ne.symm h, ← ih]

theorem get?_erase (t : Table α) (key k : Text) :
    (t.erase key).get? k = if key = k then none else t.get? k := by
  show lookup k (t.entries.filter fun e => e.1 ≠ key) = if key = k then none else lookup k t.entries
  induction t.entries with
  | nil => simp [lookup]
  | cons entry rest ih =>
    obtain ⟨k', v⟩ := entry
    by_cases hkey : k' = key
    · subst hkey
      rw [List.filter_cons_of_neg (by simp), ih]
      by_cases hk : k' = k <;> simp [lookup, hk]
    · rw [List.filter_cons_of_pos (by simpa using hkey)]
      by_cases hk : k' = k
      · subst hk
        simp [lookup, Ne.symm hkey]
      · simp only [lookup, if_neg hk, ih]

theorem keys_erase (t : Table α) (key : Text) :
    (t.erase key).keys = t.keys.filter fun k => k ≠ key := by
  show (t.entries.filter _).map (·.1) = (t.entries.map (·.1)).filter _
  rw [List.filter_map]
  rfl

theorem nodup_erase (h : t.keys.Nodup) (key : Text) : (t.erase key).keys.Nodup := by
  rw [keys_erase]
  exact h.sublist List.filter_sublist

theorem nodup_insert (h : t.keys.Nodup) (key : Text) (value : α) : (t.insert key value).keys.Nodup := by
  rw [keys_insert]
  split
  · exact h
  · rename_i hmem
    refine List.nodup_append.mpr ⟨h, List.pairwise_singleton _ key, fun k hk k' hk' => ?_⟩
    rw [List.mem_singleton.mp hk']
    exact fun heq => hmem (heq ▸ hk)

theorem nodup_insertAll (h : t.keys.Nodup) (pairs : List (Text × α)) : (t.insertAll pairs).keys.Nodup := by
  unfold insertAll
  induction pairs generalizing t with
  | nil => exact h
  | cons pair rest ih => exact ih (nodup_insert h pair.1 pair.2)

/-- With no key twice, removing a key is removing it where it is first found. -/
theorem keys_erase_of_nodup (h : t.keys.Nodup) (key : Text) :
    (t.erase key).keys = t.keys.erase key := by
  rw [keys_erase, h.erase_eq_filter]
  congr 1
  funext k
  by_cases hk : k = key <;> simp [hk]

theorem erase_eq_self (h : t.get? key = none) : t.erase key = t := by
  have hmem : key ∉ t.keys := by
    rw [mem_keys_iff, h]
    exact Bool.false_ne_true
  refine congrArg Table.mk (List.filter_eq_self.mpr fun entry hentry => decide_eq_true ?_)
  rintro rfl
  exact hmem (List.mem_map_of_mem hentry)

/-- What stands in the list is found, if no key is there twice. -/
theorem get?_of_mem (h : t.keys.Nodup) (hmem : (k, value) ∈ t.entries) :
    t.get? k = some value := by
  unfold keys at h
  unfold get?
  induction hentries : t.entries generalizing t with
  | nil =>
    rw [hentries] at hmem
    cases hmem
  | cons entry rest ih =>
    obtain ⟨k', v⟩ := entry
    rw [hentries] at h hmem
    obtain ⟨hnew, hrest⟩ := List.nodup_cons.mp h
    rcases List.mem_cons.mp hmem with heq | hmem
    · cases heq
      exact if_pos rfl
    · have hne : k' ≠ k := by
        rintro rfl
        exact hnew (List.mem_map.mpr ⟨_, hmem, rfl⟩)
      show (if k' = k then some v else lookup k rest) = some value
      rw [if_neg hne]
      exact @ih ⟨rest⟩ hrest hmem rfl

/-- The bindings are the keys with what they are bound to. -/
theorem map_entries {β : Type} (h : t.keys.Nodup) (f : Text → Option α → β) :
    t.entries.map (fun e => f e.1 (some e.2)) = t.keys.map fun k => f k (t.get? k) := by
  unfold keys
  rw [List.map_map]
  refine List.map_congr_left fun entry hentry => ?_
  show f entry.1 (some entry.2) = f entry.1 (t.get? entry.1)
  rw [get?_of_mem h hentry]

/-- Binding a new key puts it behind the others. -/
theorem insert_new (h : key ∉ t.keys) (value : α) :
    t.insert key value = ⟨t.entries ++ [(key, value)]⟩ := by
  refine congrArg Table.mk ?_
  have h : key ∉ t.entries.map (·.1) := h
  revert h
  induction t.entries with
  | nil => exact fun _ => rfl
  | cons entry rest ih =>
    intro h
    obtain ⟨k', v⟩ := entry
    have hne : k' ≠ key := fun heq => h (heq ▸ List.mem_cons_self)
    have hrest : key ∉ rest.map (·.1) := fun hmem => h (List.mem_cons_of_mem _ hmem)
    show (if k' = key then _ else _) = _
    rw [if_neg hne, ih hrest]
    rfl

theorem insertAll_new {pairs : List (Text × α)} (h : (t.keys ++ pairs.map (·.1)).Nodup) :
    t.insertAll pairs = ⟨t.entries ++ pairs⟩ := by
  induction pairs generalizing t with
  | nil => exact congrArg Table.mk (List.append_nil _).symm
  | cons pair rest ih =>
    obtain ⟨key, value⟩ := pair
    have hnew : key ∉ t.keys := fun hmem =>
      (List.nodup_append.mp h).2.2 key hmem key List.mem_cons_self rfl
    have hkeys : (t.insert key value).keys = t.keys ++ [key] := by
      rw [keys_insert, if_neg hnew]
    have hrest : ((t.insert key value).keys ++ rest.map (·.1)).Nodup := by
      rw [hkeys, List.append_assoc]
      exact h
    show (t.insert key value).insertAll rest = _
    rw [ih hrest, insert_new hnew, List.append_assoc]
    rfl

/-- Binding the pairs of a table one after the other builds the table. -/
theorem ofList_entries (h : t.keys.Nodup) : ofList t.entries = t := by
  show empty.insertAll t.entries = t
  exact (@insertAll_new α empty t.entries h).trans rfl

/-!
# Histories
-/

/-- The table that a history leads to. -/
def after (history : List (Edit α)) : Table α :=
  history.foldl (fun t e => e.apply t) empty

theorem after_concat (history : List (Edit α)) (e : Edit α) :
    after (history ++ [e]) = e.apply (after history) := by
  unfold after
  rw [List.foldl_append]
  rfl

/-- The table holds what the history says, in the order in which the keys that are there were first
set. -/
structure Follows (t : Table α) (history : List (Edit α)) : Prop where
  nodup : t.keys.Nodup
  value : ∀ k, t.get? k = Edit.standing history k
  opened : ∀ k ∈ t.keys, ∃ i, Edit.Opens history k i
  order : t.keys.Pairwise fun k k' => ∃ i j, Edit.Opens history k i ∧ Edit.Opens history k' j ∧ i < j

variable {history : List (Edit α)}

/-- Whatever set a key that is not there was undone. -/
theorem undone_of_notMem (h : k ∉ (after history).keys) {j : Nat}
    (hset : history[j]? = some (.set k value)) :
    ∃ l, j < l ∧ history[l]? = some (.delete k) := by
  induction history using List.reverseRecOn generalizing j value with
  | nil => cases hset
  | append_singleton history e ih =>
    rw [after_concat] at h
    -- Unless the key is deleted here, it was not there before, and was deleted earlier.
    have hearlier : k ∉ (after history).keys → history[j]? = some (.set k value) →
        ∃ l, j < l ∧ (history ++ [e])[l]? = some (.delete k) := by
      intro hnot hold
      obtain ⟨l, hjl, hdelete⟩ := ih hnot hold
      have hl : l < history.length := (List.getElem?_eq_some_iff.mp hdelete).1
      exact ⟨l, hjl, by rw [List.getElem?_append_left hl, hdelete]⟩
    cases e with
    | set key value' =>
      have h : k ∉ ((after history).insert key value').keys := h
      rw [mem_keys_iff, get?_insert] at h
      by_cases hkey : key = k
      · rw [if_pos hkey] at h
        exact absurd rfl h
      · rw [if_neg hkey, ← mem_keys_iff] at h
        rcases Edit.getElem?_concat hset with hold | ⟨-, hnew⟩
        · exact hearlier h hold
        · cases hnew
          exact absurd rfl hkey
    | delete key =>
      have hold : history[j]? = some (.set k value) := by
        rcases Edit.getElem?_concat hset with hold | ⟨-, hnew⟩
        · exact hold
        · cases hnew
      by_cases hkey : key = k
      · subst hkey
        exact ⟨history.length, (List.getElem?_eq_some_iff.mp hold).1, by
          rw [List.getElem?_concat_length]⟩
      · have h : k ∉ ((after history).erase key).keys := h
        rw [mem_keys_iff, get?_erase, if_neg hkey, ← mem_keys_iff] at h
        exact hearlier h hold

theorem Follows.empty : (Table.empty : Table α).Follows [] where
  nodup := List.nodup_nil
  value _ := rfl
  opened _ hk := absurd hk List.not_mem_nil
  order := List.Pairwise.nil

/-- A table whose keys keep their places, because none of them is deleted by the edit. -/
theorem Follows.order_concat (h : t.Follows history) {e : Edit α} {keys : List Text}
    (hsub : keys.Sublist t.keys) (he : ∀ k ∈ keys, e ≠ .delete k) :
    (∀ k ∈ keys, ∃ i, Edit.Opens (history ++ [e]) k i) ∧
      keys.Pairwise fun k k' => ∃ i j, Edit.Opens (history ++ [e]) k i ∧
        Edit.Opens (history ++ [e]) k' j ∧ i < j := by
  refine ⟨fun k hk => ?_, ?_⟩
  · obtain ⟨i, hi⟩ := h.opened k (hsub.subset hk)
    exact ⟨i, hi.concat (he k hk)⟩
  · refine (h.order.sublist hsub).imp_of_mem fun {k k'} hk hk' hlt => ?_
    obtain ⟨i, j, hi, hj, hij⟩ := hlt
    exact ⟨i, j, hi.concat (he k hk), hj.concat (he k' hk'), hij⟩

theorem Follows.insert (h : (after history).Follows history) (key : Text) (value : α) :
    ((after history).insert key value).Follows (history ++ [Edit.set key value]) := by
  have hvalue : ∀ k, ((after history).insert key value).get? k =
      Edit.standing (history ++ [Edit.set key value]) k := by
    intro k
    rw [get?_insert, Edit.standing_concat, h.value k]
    rfl
  have hold := h.order_concat (List.Sublist.refl _) fun k _ (heq : Edit.set key value = .delete k) => by
    cases heq
  by_cases hmem : key ∈ (after history).keys
  · have hkeys : ((after history).insert key value).keys = (after history).keys := by
      rw [keys_insert, if_pos hmem]
    refine ⟨nodup_insert h.nodup key value, hvalue, ?_, ?_⟩
    · rw [hkeys]
      exact hold.1
    · rw [hkeys]
      exact hold.2
  · have hkeys : ((after history).insert key value).keys = (after history).keys ++ [key] := by
      rw [keys_insert, if_neg hmem]
    have hlast : Edit.Opens (history ++ [Edit.set key value]) key history.length :=
      .last fun j value' hset => undone_of_notMem hmem hset
    refine ⟨nodup_insert h.nodup key value, hvalue, ?_, ?_⟩
    · rw [hkeys]
      intro k hk
      rcases List.mem_append.mp hk with hk | hk
      · exact hold.1 k hk
      · rw [List.mem_singleton.mp hk]
        exact ⟨_, hlast⟩
    · rw [hkeys]
      refine List.pairwise_append.mpr ⟨hold.2, List.pairwise_singleton _ _, fun k hk k' hk' => ?_⟩
      rw [List.mem_singleton.mp hk']
      obtain ⟨i, hi⟩ := h.opened k hk
      exact ⟨i, _, hi.concat (fun heq => by cases heq), hlast, hi.lt⟩

theorem Follows.erase (h : (after history).Follows history) (key : Text) :
    ((after history).erase key).Follows (history ++ [Edit.delete key]) := by
  have hsub : ((after history).erase key).keys.Sublist (after history).keys := by
    rw [keys_erase]
    exact List.filter_sublist
  have hne : ∀ k ∈ ((after history).erase key).keys, Edit.delete key ≠ (.delete k : Edit α) := by
    intro k hk heq
    cases heq
    rw [mem_keys_iff, get?_erase, if_pos rfl] at hk
    cases hk
  have hold := h.order_concat hsub hne
  refine ⟨nodup_erase h.nodup key, fun k => ?_, hold.1, hold.2⟩
  rw [get?_erase, Edit.standing_concat, h.value k]
  rfl

/-- The table that a history leads to holds what the history says. -/
theorem after_follows (history : List (Edit α)) : (after history).Follows history := by
  induction history using List.reverseRecOn with
  | nil => exact .empty
  | append_singleton history e ih =>
    rw [after_concat]
    cases e with
    | set key value => exact ih.insert key value
    | delete key => exact ih.erase key

/-!
# A row of keys beside a map

The same table in two parts: the keys in their order, and a map from keys to values that knows no
order. Setting looks into the map to see whether the row must grow; deleting takes the key out of the
row at the place where it is first met and closes the gap.
-/

/-- A row of keys and a map. -/
structure Parts (α : Type) where
  row : List Text
  bound : Text → Option α

namespace Parts

def set (p : Parts α) (key : Text) (value : α) : Parts α :=
  ⟨if (p.bound key).isSome then p.row else p.row ++ [key],
    fun k => if key = k then some value else p.bound k⟩

def delete (p : Parts α) (key : Text) : Parts α :=
  if (p.bound key).isSome then
    ⟨p.row.erase key, fun k => if key = k then none else p.bound k⟩
  else p

def edit (p : Parts α) : Edit α → Parts α
  | .set key value => p.set key value
  | .delete key => p.delete key

/-- The two parts that a history leads to. -/
def after (history : List (Edit α)) : Parts α :=
  history.foldl edit ⟨[], fun _ => none⟩

end Parts

/-- The parts of a table. -/
def parts (t : Table α) : Parts α :=
  ⟨t.keys, t.get?⟩

theorem parts_insert (t : Table α) (key : Text) (value : α) :
    (t.insert key value).parts = t.parts.set key value := by
  unfold parts Parts.set
  simp only [keys_insert, mem_keys_iff]
  congr 1
  funext k
  exact get?_insert t key k value

theorem parts_erase (h : t.keys.Nodup) (key : Text) :
    (t.erase key).parts = t.parts.delete key := by
  unfold Parts.delete
  cases hkey : t.get? key with
  | none =>
    have hnot : (t.parts.bound key).isSome = false := congrArg Option.isSome hkey
    rw [erase_eq_self hkey, if_neg (by rw [hnot]; exact Bool.false_ne_true)]
  | some value =>
    have hthere : (t.parts.bound key).isSome = true := congrArg Option.isSome hkey
    rw [if_pos hthere]
    unfold parts
    rw [keys_erase_of_nodup h]
    congr 1
    funext k
    exact get?_erase t key k

/-- The two parts stay in step: they are always those of the table. -/
theorem parts_after (history : List (Edit α)) : (after history).parts = Parts.after history := by
  induction history using List.reverseRecOn with
  | nil => rfl
  | append_singleton history e ih =>
    unfold Parts.after at ih ⊢
    rw [after_concat, List.foldl_append, ← ih]
    cases e with
    | set key value => exact parts_insert _ key value
    | delete key => exact parts_erase (after_follows history).nodup key

end Table
end ScriptEngine
