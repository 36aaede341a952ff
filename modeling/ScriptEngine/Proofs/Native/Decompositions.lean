import ScriptEngine.Proofs.Native.Iteration
import ScriptEngine.Proofs.Native.Sequences
import ScriptEngine.Proofs.Text.Characters

/-!
# Taking strings apart

A string is taken apart by counting its characters, by listing them, by splitting it at the empty
string and by iterating over it. The four agree on how many characters there are, whatever the bytes
are. The split string is put together again by joining; the listed one only if it is well formed, since
a broken byte is listed as the replacement character.
-/

namespace ScriptEngine

/-- The characters of a text as values, broken bytes as replacement characters. -/
def Value.characters (t : Text) : List Value :=
  t.chars.map fun c => .text (Text.ofChar c)

/-- The pieces of a text as values, broken bytes as they are. -/
def Value.pieces (t : Text) : List Value :=
  t.explode.map .text

theorem Value.length_characters (t : Text) : (characters t).length = t.length := by
  rw [characters, List.length_map, Text.length_chars]

theorem Value.length_pieces (t : Text) : (pieces t).length = t.length := by
  rw [pieces, List.length_map, Text.length_explode]

/-!
# Calls that are answered at once
-/

/-- An engine in which the natives of the standard library do what they do there, with room for one more
native. -/
structure Machine.Ready (m : Machine) : Prop where
  behaves : ∀ name n, Library.standard.resolve name = some (.native n) →
    m.library.behaviour n = Library.standard.behaviour n
  room : m.natives.size < nativeLimit

/-- To call this with these arguments is to give all of the arguments to the standard native of that
name, one of them perhaps as a bound receiver. -/
def Library.Calls (name : Text) (all : List Value) (callee : Value) (args : List Value) : Prop :=
  ∃ n receiver, standard.resolve name = some (.native n) ∧ callee = Value.callable n receiver ∧
    Exec.withReceiver receiver args = all

/-- A call gives a value at once, and of the engine it changes the store only. -/
def Machine.Answers (m : Machine) (callee : Value) (args : List Value) (r : Value) (s : Store) :
    Prop :=
  ∀ pending, State.advance ⟨m, pending, .invoking callee args⟩ =
    .next ⟨m.withStore s, pending, .delivering (.ok r)⟩

section
variable {m : Machine} {name : Text} {all args : List Value} {callee r r' : Value} {s s' : Store}
  {n : NativeInfo}

theorem Machine.Ready.withStore (hm : m.Ready) (s : Store) : (m.withStore s).Ready :=
  ⟨hm.behaves, hm.room⟩

theorem Machine.Answers.unique (h : m.Answers callee args r s) (h' : m.Answers callee args r' s') :
    r = r' ∧ s = s' := by
  have heq := (h []).symm.trans (h' [])
  injection heq with hstate
  injection hstate with hmachine _ hmode
  injection hmode with houtcome
  injection houtcome with hvalue
  exact ⟨hvalue, congrArg (fun m : Machine => m.world.store) hmachine⟩

theorem Machine.Ready.answers (hm : m.Ready) (hcalls : Library.Calls name all callee args)
    (hstandard : Library.standard.resolve name = some (.native n))
    (harity : n.arity = some all.length)
    (haction : Library.standard.behaviour n all m.world =
      .done (some r) { m.world with store := s }) :
    m.Answers callee args r s := by
  obtain ⟨n', receiver, hresolve, rfl, rfl⟩ := hcalls
  cases hstandard.symm.trans hresolve
  intro pending
  have htakes : State.Takes n (Exec.withReceiver receiver args) := by
    intro arity hsome
    exact Option.some.inj (harity.symm.trans hsome)
  rw [← hm.behaves name n hstandard] at haction
  rw [State.advance_callable, State.startNative_takes htakes, State.enterNative_done hm.room haction]
  rfl

end

/-!
# Counting, listing, splitting and joining
-/

section
variable {m : Machine} {args : List Value} {callee : Value} {t : Text} {l : ListId}

/-- The length of a string is the number of its characters. -/
theorem answers_len (hm : m.Ready) (h : Library.Calls (Key.join "len" "String") [.text t] callee args) :
    m.Answers callee args (.number (Number.ofNat t.length)) m.world.store := by
  have hstandard : Library.standard.resolve (Key.join "len" "String") =
      some (.native ⟨Key.join "len" "String", some 1, 32⟩) := Library.standard_native rfl
  exact hm.answers h hstandard rfl rfl

theorem answers_split (hm : m.Ready)
    (h : Library.Calls (Key.join "split" "String") [.text t, .text Text.empty] callee args) :
    m.Answers callee args (.list m.world.store.lists.size)
      (m.world.store.newList (Value.pieces t).toArray).2 := by
  have hstandard : Library.standard.resolve (Key.join "split" "String") =
      some (.native ⟨Key.join "split" "String", some 2, 35⟩) := Library.standard_native rfl
  exact hm.answers h hstandard rfl rfl

/-- A conversion goes by the type of the string unless the program has a method for it. -/
theorem answers_list (hmethod : m.resolve (Key.join "toList" "String") = none) :
    m.Answers (.type (TypeInfo.conversion "List")) [.text t] (.list m.world.store.lists.size)
      (m.world.store.newListIn (Value.characters t).toArray t.size).2 := by
  intro pending
  have hconvert : State.advance ⟨m, pending, .invoking (.type (TypeInfo.conversion "List")) [.text t]⟩ =
      State.convertValue m pending (.text t) "List" := by
    show State.startConversion m pending (TypeInfo.conversion "List") [.text t] = _
    unfold State.startConversion
    dsimp only
    have hname : Text.ofString "to" ++ Text.ofString "List" = Text.ofString "toList" := by
      decide
    have hkey : Key.join ("to" ++ (TypeInfo.conversion "List").name)
        (m.world.store.typeName (.text t)) = Key.join "toList" "String" :=
      congrArg (Key.join · "String") hname
    rw [hkey, hmethod]
    rfl
  rw [hconvert]
  rfl

theorem join_texts (s : Store) (ts : List Text) (sep : Text) :
    Text.join sep ((ts.map Value.text).map s.display) = Text.join sep ts := by
  rw [List.map_map]
  congr 1
  refine (List.map_congr_left fun t _ => ?_).trans (List.map_id ts)
  exact s.display_eq (.text t)

theorem answers_join {ts : List Text} (hm : m.Ready)
    (hlist : m.world.store.Sequence l (ts.map .text))
    (h : Library.Calls (Key.join "join" "List") [.list l, .text Text.empty] callee args) :
    m.Answers callee args (.text (Text.concat ts)) m.world.store := by
  have hstandard : Library.standard.resolve (Key.join "join" "List") =
      some (.native ⟨Key.join "join" "List", some 2, 48⟩) := Library.standard_native rfl
  have hjoin : Text.join Text.empty ((m.world.store.items l).toList.map m.world.store.display) =
      Text.concat ts := by
    rw [hlist.items, join_texts, Text.join_empty]
  rw [← hjoin]
  exact hm.answers h hstandard rfl rfl

end

/-!
# Iterating
-/

/-- The iterator is before position `k` of a list with these elements. -/
structure Store.Iterates (s : Store) (it : InstanceId) (vs : List Value) (k : Nat) : Prop where
  builtin : s.isBuiltin (.inst it) iteratorName = true
  items : ∃ l, s.field? it "items" = some (.list l) ∧ s.Sequence l vs
  position : s.field? it "position" = some (.number (Number.ofNat k))

/-- The iterator is the same, and its list has the elements that it had. -/
structure Store.Undisturbed (it : InstanceId) (s s' : Store) : Prop where
  same : s'.instances[it]? = s.instances[it]?
  items : ∀ l vs, s.field? it "items" = some (.list l) → s.Sequence l vs → s'.Sequence l vs

namespace Store

variable {s s' : Store} {it : InstanceId} {vs : List Value} {v : Value} {k : Nat} {l : ListId}

theorem Undisturbed.refl (it : InstanceId) (s : Store) : s.Undisturbed it s :=
  ⟨rfl, fun _ _ _ h => h⟩

theorem Undisturbed.field? (h : s.Undisturbed it s') (name : Text) :
    s'.field? it name = s.field? it name := by
  unfold Store.field?
  rw [h.same]

theorem Undisturbed.isBuiltin (h : s.Undisturbed it s') (type : Text) :
    s'.isBuiltin (.inst it) type = s.isBuiltin (.inst it) type := by
  have htype : s'.instanceType it = s.instanceType it := by
    unfold instanceType
    rw [h.same]
  show ((s'.instanceType it).builtin && (s'.instanceType it).name == type) = _
  rw [htype]
  rfl

theorem Iterates.kept (h : s.Iterates it vs k) (hkept : s.Undisturbed it s') : s'.Iterates it vs k where
  builtin := (hkept.isBuiltin _).trans h.builtin
  items := by
    obtain ⟨l, hitems, hlist⟩ := h.items
    exact ⟨l, (hkept.field? _).trans hitems, hkept.items l vs hitems hlist⟩
  position := (hkept.field? _).trans h.position

theorem isBuiltin_setField (s : Store) (i j : InstanceId) (name type : Text) (v : Value) :
    (s.setField i name v).isBuiltin (.inst j) type = s.isBuiltin (.inst j) type := by
  have htype : (s.setField i name v).instanceType j = s.instanceType j := by
    unfold instanceType setField
    dsimp only
    rw [Array.getElem?_modify]
    by_cases hij : i = j
    · rw [if_pos hij]
      cases s.instances[j]? <;> rfl
    · rw [if_neg hij]
  show (((s.setField i name v).instanceType j).builtin &&
    ((s.setField i name v).instanceType j).name == type) = _
  rw [htype]
  rfl

theorem Sequence.setField (h : s.Sequence l vs) (i : InstanceId) (name : Text) (v : Value) :
    (s.setField i name v).Sequence l vs :=
  h.of_same rfl rfl

/-- A new iterator is before the first element. -/
theorem iterates_new (h : s.Sequence l vs) :
    (((s.newInstance TypeInfo.iterator).2.setField s.instances.size "items" (.list l)).setField
      s.instances.size "position" (.number 0)).Iterates s.instances.size vs 0 := by
  have hinstance : (s.newInstance TypeInfo.iterator).2.instances[s.instances.size]? =
      some ⟨TypeInfo.iterator, TypeInfo.iterator.fields.foldl (fun acc f => acc.insert f Value.null)
        Table.empty⟩ := Array.getElem?_push_size
  have hfield (name : Text) (hname : name ∈ TypeInfo.iterator.fields) :
      (s.newInstance TypeInfo.iterator).2.field? s.instances.size name = some .null := by
    unfold field?
    rw [hinstance]
    dsimp only [TypeInfo.iterator, List.foldl]
    rw [Table.get?_insert, Table.get?_insert]
    simp only [TypeInfo.iterator, List.mem_cons, List.not_mem_nil, or_false] at hname
    rcases hname with rfl | rfl
    · simp
    · simp
  have hitems (name : Text) : ((s.newInstance TypeInfo.iterator).2.setField s.instances.size "items"
      (.list l)).field? s.instances.size name = if Text.ofString "items" = name then some (.list l)
        else (s.newInstance TypeInfo.iterator).2.field? s.instances.size name :=
    field?_setField (hfield "items" (by decide)) _
  have hnames : Text.ofString "items" ≠ Text.ofString "position" := by decide
  have hposition := hitems "position"
  rw [if_neg hnames, hfield "position" (by decide)] at hposition
  refine ⟨?_, ⟨l, ?_, ?_⟩, ?_⟩
  · rw [isBuiltin_setField, isBuiltin_setField]
    show (((s.newInstance TypeInfo.iterator).2.instanceType s.instances.size).builtin &&
      ((s.newInstance TypeInfo.iterator).2.instanceType s.instances.size).name == iteratorName) = true
    unfold instanceType
    rw [hinstance]
    rfl
  · rw [field?_setField hposition, if_neg hnames.symm, hitems, if_pos rfl]
  · have hnew : (s.newInstance TypeInfo.iterator).2.Sequence l vs := h.of_same rfl rfl
    exact (hnew.setField _ _ _).setField _ _ _
  · rw [field?_setField hposition, if_pos rfl, Number.ofNat_zero]

/-- A step moves on by one. -/
theorem Iterates.advanced (h : s.Iterates it vs k) (hk : k + 1 < 2 ^ 53) (items : Array Value) :
    ((s.setField it "position" (.number (Number.ofNat k + 1))).newList items).2.Iterates it vs (k + 1) := by
  obtain ⟨l, hitems, hlist⟩ := h.items
  have hnames : Text.ofString "position" ≠ Text.ofString "items" := by decide
  refine ⟨?_, ⟨l, ?_, ?_⟩, ?_⟩
  · exact (isBuiltin_setField s it it _ _ _).trans h.builtin
  · rw [field?_newList, field?_setField h.position, if_neg hnames, hitems]
  · exact (hlist.setField _ _ _).newListIn _ _
  · rw [field?_newList, field?_setField h.position, if_pos rfl, Number.ofNat_succ hk]

theorem Sequence.unique {us : List Value} (h : s.Sequence l vs) (h' : s.Sequence l us) : vs = us :=
  h.items.symm.trans h'.items

end Store

section
variable {m m' : Machine} {it : InstanceId} {vs us : List Value} {v r : Value} {k : Nat}
  {args : List Value} {callee : Value} {s : Store} {t : Text}

theorem answers_next (hm : m.Ready) (hit : m.world.store.Iterates it vs k) (hk : vs[k]? = some v)
    (hless : k + 1 < 2 ^ 53)
    (h : Library.Calls (Key.join "next" iteratorName) [.inst it] callee args) :
    ∃ answer s, m.Answers callee args (.list answer) s ∧ s.Sequence answer [v, .boolean true] ∧
      s.Iterates it vs (k + 1) := by
  obtain ⟨hlt, -⟩ := List.getElem?_eq_some_iff.mp hk
  obtain ⟨l, hitems, hlist⟩ := hit.items
  have hget : v = m.world.store.listGet l k := Option.some.inj (hk.symm.trans (hlist.get hlt))
  have hnext := Native.next_item hitems hit.position (Number.whole?_ofNat (by omega))
    (show k < m.world.store.listSize l from hlist.size ▸ hlt)
  obtain ⟨-, haction⟩ := Library.standard_next (w := m.world) Library.resolve_next hit.builtin
  rw [Action.ofEffect_ok hnext, ← hget] at haction
  exact ⟨_, _, hm.answers h Library.resolve_next rfl haction, Store.lists_newListIn _ _ _,
    hit.advanced hless _⟩

theorem answers_past (hm : m.Ready) (hit : m.world.store.Iterates it vs k) (hk : vs.length ≤ k)
    (hless : k < 2 ^ 53)
    (h : Library.Calls (Key.join "next" iteratorName) [.inst it] callee args) :
    ∃ answer s, m.Answers callee args (.list answer) s ∧ s.Sequence answer [.null, .boolean false] := by
  obtain ⟨l, hitems, hlist⟩ := hit.items
  have hnext := Native.next_past hitems hit.position (Number.whole?_ofNat hless)
    (show m.world.store.listSize l ≤ k from hlist.size ▸ hk)
  obtain ⟨-, haction⟩ := Library.standard_next (w := m.world) Library.resolve_next hit.builtin
  rw [Action.ofEffect_ok hnext] at haction
  exact ⟨_, _, hm.answers h Library.resolve_next rfl haction, Store.lists_newListIn _ _ _⟩

/-- Asked again and again, the iterator gives these elements and then none. Between two answers the
engine may do anything that leaves the iterator and its list as they are, as the body of a loop may. -/
inductive Machine.Yields (it : InstanceId) : Machine → List Value → Prop
  | past {m : Machine} {callee : Value} {args : List Value} {answer : ListId} {s : Store}
    (hcalls : Library.Calls (Key.join "next" iteratorName) [.inst it] callee args)
    (hanswers : m.Answers callee args (.list answer) s)
    (hpast : s.Sequence answer [.null, .boolean false]) : Yields it m []
  | item {m m' : Machine} {callee v : Value} {args vs : List Value} {answer : ListId} {s : Store}
    (hcalls : Library.Calls (Key.join "next" iteratorName) [.inst it] callee args)
    (hanswers : m.Answers callee args (.list answer) s)
    (hitem : s.Sequence answer [v, .boolean true]) (hready : m'.Ready)
    (hkept : s.Undisturbed it m'.world.store) (hrest : Yields it m' vs) : Yields it m (v :: vs)

/-- What an iterator yields is what is left of its list. -/
theorem Machine.Yields.eq_drop (h : m.Yields it us) (hm : m.Ready)
    (hit : m.world.store.Iterates it vs k) (hvs : vs.length < 2 ^ 53) (hk : k ≤ vs.length) :
    us = vs.drop k := by
  induction h generalizing k with
  | past hcalls hanswers hpast =>
    cases hv : vs[k]? with
    | none => rw [List.drop_eq_nil_of_le (List.getElem?_eq_none_iff.mp hv)]
    | some v =>
      obtain ⟨hlt, -⟩ := List.getElem?_eq_some_iff.mp hv
      obtain ⟨answer, s, hitem, hlist, -⟩ := answers_next hm hit hv (by omega) hcalls
      obtain ⟨hsame, rfl⟩ := hanswers.unique hitem
      cases hsame
      cases hpast.unique hlist
  | item hcalls hanswers hitem hready hkept _ ih =>
    cases hv : vs[k]? with
    | none =>
      obtain ⟨answer, s, hpast, hlist⟩ :=
        answers_past hm hit (List.getElem?_eq_none_iff.mp hv) (by omega) hcalls
      obtain ⟨hsame, rfl⟩ := hanswers.unique hpast
      cases hsame
      cases hitem.unique hlist
    | some v =>
      obtain ⟨hlt, hget⟩ := List.getElem?_eq_some_iff.mp hv
      obtain ⟨answer, s, hnext, hlist, hit'⟩ := answers_next hm hit hv (by omega) hcalls
      obtain ⟨hsame, rfl⟩ := hanswers.unique hnext
      cases hsame
      cases hitem.unique hlist
      rw [ih hready (hit'.kept hkept) hlt, List.drop_eq_getElem_cons hlt, hget]

/-- Asking an iterator comes to an end. -/
theorem yields_drop (hm : m.Ready) (hit : m.world.store.Iterates it vs k) (hvs : vs.length < 2 ^ 53)
    (hk : k ≤ vs.length) : m.Yields it (vs.drop k) := by
  have hcalls : Library.Calls (Key.join "next" iteratorName) [.inst it]
      (Value.callable ⟨Key.join "next" iteratorName, some 1, 61⟩ (some (.inst it))) [] :=
    ⟨_, _, Library.resolve_next, rfl, rfl⟩
  obtain ⟨n, hn⟩ : ∃ n, vs.length - k = n := ⟨_, rfl⟩
  induction n generalizing m k with
  | zero =>
    obtain ⟨answer, s, hpast, hlist⟩ := answers_past hm hit (by omega) (by omega) hcalls
    rw [List.drop_eq_nil_of_le (by omega)]
    exact .past hcalls hpast hlist
  | succ n ih =>
    have hlt : k < vs.length := by omega
    obtain ⟨answer, s, hnext, hlist, hit'⟩ :=
      answers_next hm hit (List.getElem?_eq_getElem hlt) (by omega) hcalls
    rw [List.drop_eq_getElem_cons hlt]
    exact .item hcalls hnext hlist (hm.withStore s) (.refl it s)
      (ih (hm.withStore s) hit' hlt (by omega))

theorem answers_iter (hm : m.Ready)
    (h : Library.Calls (Key.join "iter" "String") [.text t] callee args) :
    ∃ it s, m.Answers callee args (.inst it) s ∧ s.Iterates it (Value.characters t) 0 := by
  have hstandard : Library.standard.resolve (Key.join "iter" "String") =
      some (.native ⟨Key.join "iter" "String", some 1, 38⟩) := Library.standard_native rfl
  have hlist : (m.world.store.newListIn (Value.characters t).toArray t.size).2.Sequence
      m.world.store.lists.size (Value.characters t) :=
    Store.lists_newListIn m.world.store (Value.characters t).toArray t.size
  exact ⟨_, _, hm.answers h hstandard rfl rfl, Store.iterates_new hlist⟩

/-- A string is taken apart alike by counting, listing, splitting and iterating, whatever its bytes are:
each comes to as many parts. The parts that it is split into at the empty string make it up again. Those
that it is listed as make it up just if it is well-formed UTF-8. -/
theorem decompositions_agree {m : Machine} (hm : m.Ready) (t : Text) :
    (∀ callee args, Library.Calls (Key.join "len" "String") [.text t] callee args →
      m.Answers callee args (.number (Number.ofNat t.length)) m.world.store) ∧
    (m.resolve (Key.join "toList" "String") = none → ∃ l s vs,
      m.Answers (.type (TypeInfo.conversion "List")) [.text t] (.list l) s ∧ s.Sequence l vs ∧
      vs.length = t.length ∧
      ∀ (m' : Machine) callee args, m'.Ready → m'.world.store.Sequence l vs →
        Library.Calls (Key.join "join" "List") [.list l, .text Text.empty] callee args →
        ∃ u, m'.Answers callee args (.text u) m'.world.store ∧ (u = t ↔ t.bytes.IsValidUTF8)) ∧
    (∀ callee args, Library.Calls (Key.join "split" "String") [.text t, .text Text.empty] callee args →
      ∃ l s vs, m.Answers callee args (.list l) s ∧ s.Sequence l vs ∧ vs.length = t.length ∧
      ∀ (m' : Machine) callee args, m'.Ready → m'.world.store.Sequence l vs →
        Library.Calls (Key.join "join" "List") [.list l, .text Text.empty] callee args →
        m'.Answers callee args (.text t) m'.world.store) ∧
    (t.length < 2 ^ 53 → ∀ callee args, Library.Calls (Key.join "iter" "String") [.text t] callee args →
      ∃ it s, m.Answers callee args (.inst it) s ∧
      ∀ m' : Machine, m'.Ready → s.Undisturbed it m'.world.store →
        (∃ vs, m'.Yields it vs) ∧ ∀ vs, m'.Yields it vs → vs.length = t.length) := by
  refine ⟨fun callee args h => answers_len hm h, fun hmethod => ?list, fun callee args h => ?split,
    fun hlength callee args h => ?iter⟩
  case list =>
    refine ⟨_, _, Value.characters t, answers_list hmethod,
      Store.lists_newListIn m.world.store (Value.characters t).toArray t.size,
      Value.length_characters t, fun m' callee args hm' hlist h => ?_⟩
    have htexts : Value.characters t = (t.chars.map Text.ofChar).map .text := by
      rw [List.map_map]
      rfl
    rw [htexts] at hlist
    exact ⟨_, answers_join hm' hlist h, Text.concat_chars_iff t⟩
  case split =>
    refine ⟨_, _, Value.pieces t, answers_split hm h,
      Store.lists_newListIn m.world.store (Value.pieces t).toArray _,
      Value.length_pieces t, fun m' callee args hm' hlist h => ?_⟩
    have hjoin := answers_join hm' hlist h
    rw [Text.concat_explode] at hjoin
    exact hjoin
  case iter =>
    obtain ⟨it, s, hanswers, hiterates⟩ := answers_iter hm h
    have hless : (Value.characters t).length < 2 ^ 53 := by
      rw [Value.length_characters]
      exact hlength
    refine ⟨it, s, hanswers, fun m' hm' hkept => ?_⟩
    have hstart := hiterates.kept hkept
    refine ⟨⟨_, yields_drop hm' hstart hless (Nat.zero_le _)⟩, fun vs hyields => ?_⟩
    rw [hyields.eq_drop hm' hstart hless (Nat.zero_le _), List.drop_zero, Value.length_characters]

end

/-- One letter and the first byte of an encoding of two. -/
def truncatedText : Text :=
  Text.ofList [0x61, 0xC3]

theorem decompositions_agree_truncated :
    ∃ it s, standardEngine.Answers (.bound ⟨Key.join "iter" "String", some 1, 38⟩ (.text truncatedText))
        [] (.inst it) s ∧
      ∃ vs, (standardEngine.withStore s).Yields it vs ∧ vs.length = 2 := by
  have hready : standardEngine.Ready := ⟨fun _ _ _ => rfl, by decide⟩
  have hlength : truncatedText.length = 2 := by decide +kernel
  obtain ⟨-, -, -, hiter⟩ := decompositions_agree hready truncatedText
  obtain ⟨it, s, hanswers, hwalks⟩ := hiter (by rw [hlength]; decide) _ _
    ⟨⟨Key.join "iter" "String", some 1, 38⟩, some (.text truncatedText), Library.standard_native rfl, rfl, rfl⟩
  obtain ⟨⟨vs, hyields⟩, hall⟩ := hwalks _ (hready.withStore s) (.refl it s)
  exact ⟨it, s, hanswers, vs, hyields, (hall vs hyields).trans hlength⟩

end ScriptEngine
