import ScriptEngine.Proofs.Execution.Compiled
import ScriptEngine.Proofs.Machine.Straight

/-!
# Importing names

Importing names from a module binds each of them to a copy of what the module has under it, one after
the other. As with every member of a dict, a method that dicts have takes the place of an entry that is
not there, so the import only stops at a name that is neither.
-/

namespace ScriptEngine

/-- What a dict gives for a name, and what getting it makes of the store: the entry, else the method
that dicts have under the name, attached to the dict. -/
def Store.offer (s : Store) (resolve : Text → Option Value) (d : DictId) (name : Text) :
    Option (Value × Store) :=
  match (s.dict d).get? name with
  | some v => some (v, s)
  | none => (resolve (Key.join name "Dict")).map fun method => s.attachTo method (.dict d)

/-- What an engine finds in a module under a name. -/
def Machine.offer (m : Machine) (d : DictId) (name : Text) : Option (Value × Store) :=
  m.world.store.offer m.library.resolve d name

/-- The operations that import one name. -/
def Compiler.importOps (path name : Text) : List Op :=
  [.getVar (Key.module path), .push (.text name), .getMember, .push .empty, .push (.text name),
    .assign .inner, .pop]

theorem Compiler.length_importOps (path : Text) (names : List Text) :
    (names.flatMap (importOps path)).length = 7 * names.length := by
  induction names with
  | nil => rfl
  | cons name rest ih =>
    rw [List.flatMap_cons, List.length_append, ih, List.length_cons]
    show 7 + 7 * rest.length = _
    omega

/-- The operations that import names, with the null that stands for the import. -/
def Compiler.importAllOps (path : Text) (names : List Text) : List Op :=
  names.flatMap (importOps path) ++ [.push .null, .pop]

/-!
# One name
-/

section
variable {m : Machine} {p : Program} {i : Nat} {g : FrameId} {path name : Text} {d : DictId}
  {l : List Value} {s s' : Store} {v : Value}

theorem Machine.passes_import (hp : m.program = some p) (hsize : i + 7 ≤ p.size)
    (hframe : m.frame = some g) (hspelled : Op.Spelled m.ops i (Compiler.importOps path name))
    (hmodule : (m.withStore s).resolve (Key.module path) = some (.dict d))
    (hoffer : s.offer (m.withStore s).resolve d name = some (v, s')) :
    m.Passes i l s (i + 7) l (s'.bindCopy g name v) := by
  obtain ⟨hmod, hspelled⟩ := hspelled.cons
  obtain ⟨hkey, hspelled⟩ := hspelled.cons
  obtain ⟨hget, hspelled⟩ := hspelled.cons
  obtain ⟨hempty, hspelled⟩ := hspelled.cons
  obtain ⟨hname, hspelled⟩ := hspelled.cons
  obtain ⟨hassign, hspelled⟩ := hspelled.cons
  obtain ⟨hpop, -⟩ := hspelled.cons
  have hmember : m.Passes (i + 2) (.text name :: .dict d :: l) s (i + 3) (v :: l) s' := by
    refine passes_getMember hp (by omega) hget ?_
    rintro m₁ rfl hresolve
    unfold Store.offer at hoffer
    cases hentry : (m₁.world.store.dict d).get? name with
    | some w =>
      rw [hentry] at hoffer
      cases hoffer
      exact Exec.member_entry hentry
    | none =>
      rw [hentry] at hoffer
      obtain ⟨method, hmethod, hattached⟩ := Option.map_eq_some_iff.mp hoffer
      rw [← hresolve] at hmethod
      have hown := Exec.ownMember_dict d name m₁
      rw [hentry] at hown
      rw [Exec.member_method hown hmethod, hattached]
  have hload := (passes_getVar hp (by omega) hmod hmodule).trans (l := l)
    (passes_push hp (by omega) hkey)
  have hstore := ((passes_push (l := v :: l) (s := s') hp (by omega) hempty).trans
    (passes_push hp (by omega) hname)).trans
      ((passes_assignInner hp (by omega) hassign hframe).trans (passes_pop hp (by omega) hpop))
  exact (hload.trans hmember).trans hstore

/-- A name that the module does not have. -/
theorem Machine.breaks_import (hp : m.program = some p) (hsize : i + 7 ≤ p.size)
    (hspelled : Op.Spelled m.ops i (Compiler.importOps path name))
    (hmodule : (m.withStore s).resolve (Key.module path) = some (.dict d))
    (hoffer : s.offer (m.withStore s).resolve d name = none) :
    m.Breaks i l s (Exec.noSuchKey name) (i + 2) s := by
  obtain ⟨hmod, hspelled⟩ := hspelled.cons
  obtain ⟨hkey, hspelled⟩ := hspelled.cons
  obtain ⟨hget, -⟩ := hspelled.cons
  have hmember : m.Breaks (i + 2) (.text name :: .dict d :: l) s (Exec.noSuchKey name) (i + 2) s := by
    refine breaks_getMember hp (by omega) hget ?_
    rintro m₁ rfl hresolve
    unfold Store.offer at hoffer
    cases hentry : (m₁.world.store.dict d).get? name with
    | some w =>
      rw [hentry] at hoffer
      cases hoffer
    | none =>
      rw [hentry] at hoffer
      have hmethod : m₁.resolve (Key.join name "Dict") = none := by
        rw [hresolve]
        exact Option.map_eq_none_iff.mp hoffer
      exact Exec.member_missing hentry hmethod
  have hload := (passes_getVar hp (by omega) hmod hmodule).trans (l := l)
    (passes_push hp (by omega) hkey)
  exact hload.breaks hmember

end

/-!
# What is bound
-/

/-- A name is bound to a copy of a value: a scalar is its own copy, and an object is new to the store
`old` and holds the same. A closure goes by the name. -/
structure Store.BoundCopy (old : Store) (name : Text) (s : Store) (v : Value) (s' : Store)
    (w : Value) : Prop where
  kind : w.isHandle = v.isHandle
  scalar : v.isHandle = false → w = v
  new : v.isHandle = true → ¬ old.Has w
  content : s'.content w = (s.content v).named name

/-- The names, and no others, are bound in the frame to copies of what the dict gives for them. Nothing
that was in the store `old` has changed. -/
structure Store.Imports (old : Store) (resolve : Text → Option Value) (d : DictId) (g : FrameId)
    (names : List Text) (s : Store) : Prop where
  inScope : s.Scoped
  intact : old.Intact s
  frame : ∃ fr, s.frame? g = some fr ∧ fr.outer = none ∧
    ∀ name v, fr.vars.get? name = some v → name ∈ names
  bound : ∀ name ∈ names, ∃ v s₁ w, old.offer resolve d name = some (v, s₁) ∧ s.Holds g name w ∧
    old.BoundCopy name s₁ v s w

namespace Store

variable {old s s' : Store} {resolve resolve' : Text → Option Value} {d : DictId} {g : FrameId}
  {name : Text} {names : List Text} {v method receiver : Value}

theorem dict_intact (h : s.Intact s') (hd : s.Has (.dict d)) : s'.dict d = s.dict d :=
  Content.entries.inj (h.content _ hd)

theorem closure_intact (h : s.Intact s') {c : ClosureId} (hc : s.Has (.closure c)) :
    s'.closure? c = s.closure? c :=
  Content.code.inj (h.content _ hc)

/-- Attaching a method leaves everything as it was, and gives a value of the same kind in every store
that goes on from one. -/
theorem attachTo_spec (hs : s.Scoped) (hmethod : s.Has method) (hreceiver : s.Has receiver) :
    s.Intact (s.attachTo method receiver).2 ∧ (s.attachTo method receiver).2.Scoped ∧
      (s.attachTo method receiver).2.Has (s.attachTo method receiver).1 := by
  cases method with
  | closure c =>
    have hc : s.closure? c = some s.closures[c] := Array.getElem?_eq_getElem hmethod
    unfold attachTo attach
    simp only [hc]
    refine ⟨.newClosure s _, hs.scopes (.newClosure s ?_ (hs.closure hc).2), size_lt_push _ _⟩
    intro r hr
    cases hr
    exact hreceiver
  | native n => exact ⟨.refl s, hs, hreceiver⟩
  | bound n r => exact ⟨.refl s, hs, hreceiver⟩
  | _ => exact ⟨.refl s, hs, hmethod⟩

theorem attachTo_intact (receiver : Value) (h : s.Intact s') (hmethod : s.Has method) :
    (s'.attachTo method receiver).1.isHandle = (s.attachTo method receiver).1.isHandle ∧
      ((s.attachTo method receiver).1.isHandle = false →
        (s'.attachTo method receiver).1 = (s.attachTo method receiver).1) ∧
      (s'.attachTo method receiver).2.content (s'.attachTo method receiver).1 =
        (s.attachTo method receiver).2.content (s.attachTo method receiver).1 := by
  cases method with
  | closure c =>
    have hc : s.closure? c = some s.closures[c] := Array.getElem?_eq_getElem hmethod
    have hc' : s'.closure? c = some s.closures[c] := (closure_intact h hmethod).trans hc
    unfold attachTo attach
    simp only [hc, hc']
    refine ⟨rfl, fun h => (by cases h), ?_⟩
    show Content.code ((s'.closures.push _)[s'.closures.size]?) =
      .code ((s.closures.push _)[s.closures.size]?)
    rw [Array.getElem?_push_size, Array.getElem?_push_size]
  | native n => exact ⟨rfl, fun _ => rfl, rfl⟩
  | bound n r => exact ⟨rfl, fun _ => rfl, rfl⟩
  | list l => exact ⟨rfl, fun _ => rfl, h.content _ hmethod⟩
  | dict d => exact ⟨rfl, fun _ => rfl, h.content _ hmethod⟩
  | inst i => exact ⟨rfl, fun _ => rfl, h.content _ hmethod⟩
  | _ => exact ⟨rfl, fun _ => rfl, rfl⟩

/-- A dict gives the same later on, as long as it is left alone. -/
theorem offer_intact (hold : old.Scoped) (h : old.Intact s) (hs : s.Scoped) (hd : old.Has (.dict d))
    (hmethods : ∀ f, resolve (Key.join name "Dict") = some f → old.Has f)
    (hresolve : resolve' (Key.join name "Dict") = resolve (Key.join name "Dict")) {s₁ : Store}
    (hoffer : old.offer resolve d name = some (v, s₁)) :
    ∃ v' s', s.offer resolve' d name = some (v', s') ∧ s.Intact s' ∧ s'.Scoped ∧ s'.Has v' ∧
      v'.isHandle = v.isHandle ∧ (v.isHandle = false → v' = v) ∧ s'.content v' = s₁.content v := by
  unfold offer at hoffer ⊢
  rw [dict_intact h hd, hresolve]
  cases hentry : (old.dict d).get? name with
  | some u =>
    rw [hentry] at hoffer
    cases hoffer
    have hv : old.Has v := (hold.dict d).get? hentry
    exact ⟨v, s, rfl, .refl s, hs, hv.mono h.le, rfl, fun _ => rfl, h.content v hv⟩
  | none =>
    rw [hentry] at hoffer
    obtain ⟨f, hf, hattached⟩ := Option.map_eq_some_iff.mp hoffer
    have hmethod := hmethods f hf
    obtain ⟨hintact, hscoped, hhas⟩ := attachTo_spec hs (hmethod.mono h.le) (hd.mono h.le)
    obtain ⟨hkind, hscalar, hcontent⟩ := attachTo_intact (.dict d) h hmethod
    rw [hattached] at hkind hscalar hcontent
    refine ⟨_, _, ?_, hintact, hscoped, hhas, hkind, hscalar, hcontent⟩
    rw [hf]
    rfl

theorem Imports.start (hold : old.Scoped) {kind : FrameKind} (hkind : Frame.caller ⟨.empty, none, kind⟩ = none) :
    old.Imports resolve d old.frames.size [] (old.newFrame ⟨.empty, none, kind⟩).2 where
  inScope := by
    refine hold.scopes (.newFrame old Table.Every.empty (hasFrame_none old) ?_)
    rw [hkind]
    exact hasFrame_none old
  intact := .newFrame old _
  frame := ⟨_, Array.getElem?_push_size, rfl, fun _ _ h => by cases h⟩
  bound _ h := absurd h List.not_mem_nil

/-- One more name. -/
theorem Imports.step (hold : old.Scoped) (hd : old.Has (.dict d))
    (hmethods : ∀ f, resolve (Key.join name "Dict") = some f → old.Has f)
    (hresolve : resolve' (Key.join name "Dict") = resolve (Key.join name "Dict"))
    (hg : old.frames.size ≤ g) (h : old.Imports resolve d g names s) {s₁ : Store}
    (hoffer : old.offer resolve d name = some (v, s₁)) :
    ∃ v' s', s.offer resolve' d name = some (v', s') ∧
      old.Imports resolve d g (names ++ [name]) (s'.bindCopy g name v') := by
  obtain ⟨v', s', hoffer', hintact, hs', hv', hkind, hscalar, hcontent⟩ :=
    offer_intact hold h.intact h.inScope hd hmethods hresolve hoffer
  obtain ⟨fr, hfr, houter, honly⟩ := h.frame
  have hfr' : s'.frame? g = some fr := hintact.frames g fr hfr
  have hbinding := frame?_bindCopy name v' hs'.windows hfr'
  refine ⟨v', s', hoffer', hs'.bindCopy hv' g name, ?_, ⟨_, hbinding, houter, ?_⟩, ?_⟩
  · have hkept := h.intact.trans hintact
    refine ⟨hkept.le.trans (bindCopy_le s' g name v'), fun u hu => ?_, fun f fr₀ hf => ?_⟩
    · rw [content_bindCopy hs'.windows hv' (hu.mono hkept.le)]
      exact hkept.content u hu
    · have hlt : f < old.frames.size := (Array.getElem?_eq_some_iff.mp hf).1
      exact frame?_bindCopy_ne hs'.windows (Nat.ne_of_lt (Nat.lt_of_lt_of_le hlt hg)) (hkept.frames f fr₀ hf)
  · intro k u hk
    rw [Table.get?_insert] at hk
    split at hk
    · rename_i hname
      rw [hname]
      exact List.mem_append_right _ List.mem_cons_self
    · exact List.mem_append_left _ (honly k u hk)
  · intro k hk
    by_cases hname : name = k
    · subst hname
      obtain ⟨-, hcopied, hnew, hself⟩ := copy_spec hv'
      refine ⟨v, s₁, (s'.copy v').1, hoffer, ⟨_, hbinding, ?_⟩, hcopied.trans hkind, ?_, ?_, ?_⟩
      · exact (Table.get?_insert _ name name _).trans (if_pos rfl)
      · intro hv
        rw [hself (hkind.trans hv)]
        exact hscalar hv
      · exact fun hv hhas => hnew (hkind.trans hv) (hhas.mono (h.intact.trans hintact).le)
      · rw [content_bindCopy_self, hcontent]
    · have hdone : k ∈ names := by
        rcases List.mem_append.mp hk with hk | hk
        · exact hk
        · exact absurd (List.mem_singleton.mp hk).symm hname
      obtain ⟨u, s₀, w, hoffered, ⟨fr₀, hfr₀, hw⟩, hcopy⟩ := h.bound k hdone
      cases hfr.symm.trans hfr₀
      have hhas : s.Has w := Holds.has ⟨fr, hfr, hw⟩ h.inScope
      refine ⟨u, s₀, w, hoffered, ⟨_, hbinding, ?_⟩, hcopy.kind, hcopy.scalar, hcopy.new, ?_⟩
      · exact (Table.get?_insert _ name k _).trans ((if_neg hname).trans hw)
      · rw [content_bindCopy hs'.windows hv' (hhas.mono hintact.le), hintact.content w hhas, hcopy.content]

end Store

/-!
# All names
-/

section
variable {m : Machine} {p : Program} {i : Nat} {g : FrameId} {path : Text} {d : DictId}
  {l : List Value} {old s : Store} {names done : List Text}

/-- A name that the outermost frame does not bind is one of the library. -/
theorem Machine.resolve_library {fr : Frame} {k : Text} (hframe : m.frame = some g)
    (hfr : m.world.store.frame? g = some fr) (houter : fr.outer = none)
    (hk : fr.vars.get? k = none) : m.resolve k = m.library.resolve k := by
  have hlookup : m.world.store.lookup m.frame k false = none := by
    rw [hframe]
    unfold Store.lookup Store.walkFuel Store.lookupFrom
    simp only [hfr, hk, houter, Bool.false_and, Bool.false_eq_true, if_false]
    cases g <;> rfl
  unfold Machine.resolve
  rw [hlookup]

/-- The names are not the key of the module, and none is the key of a method under which another one
is looked for. -/
def Compiler.PlainNames (path : Text) (names : List Text) : Prop :=
  ∀ name ∈ names, name ≠ Key.module path ∧ ∀ other ∈ names, name ≠ Key.join other "Dict"

theorem Store.Imports.resolve {resolve : Text → Option Value} (h : old.Imports resolve d g done s)
    (hframe : m.frame = some g) {k : Text} (hk : k ∉ done) :
    (m.withStore s).resolve k = m.library.resolve k := by
  obtain ⟨fr, hfr, houter, honly⟩ := h.frame
  refine Machine.resolve_library (m := m.withStore s) hframe hfr houter ?_
  cases hv : fr.vars.get? k with
  | none => rfl
  | some v => exact absurd (honly k v hv) hk

/-- The names that were bound leave the module and the methods of dicts as they are. -/
theorem Store.Imports.resolve_plain {resolve : Text → Option Value}
    (h : old.Imports resolve d g done s) (hframe : m.frame = some g)
    (hplain : Compiler.PlainNames path (done ++ names)) :
    (m.withStore s).resolve (Key.module path) = m.library.resolve (Key.module path) ∧
      ∀ name ∈ names, (m.withStore s).resolve (Key.join name "Dict") =
        m.library.resolve (Key.join name "Dict") := by
  refine ⟨h.resolve hframe fun hdone => ?_, fun name hname => h.resolve hframe fun hdone => ?_⟩
  · exact (hplain _ (List.mem_append_left _ hdone)).1 rfl
  · exact (hplain _ (List.mem_append_left _ hdone)).2 name (List.mem_append_right _ hname) rfl

section
variable (hold : old.Scoped) (hd : old.Has (.dict d)) (hg : old.frames.size ≤ g)
  (hlibrary : m.library.bindings.Every old.Has)
  (hmodule : m.library.resolve (Key.module path) = some (.dict d)) (hp : m.program = some p)
  (hframe : m.frame = some g)
include hold hd hg hlibrary hmodule hp hframe

theorem Machine.passes_imports (hplain : Compiler.PlainNames path (done ++ names))
    (hsize : i + 7 * names.length ≤ p.size)
    (hspelled : Op.Spelled m.ops i (names.flatMap (Compiler.importOps path)))
    (h : old.Imports m.library.resolve d g done s)
    (hoffers : ∀ name ∈ names, (old.offer m.library.resolve d name).isSome = true) :
    ∃ s', m.Passes i l s (i + 7 * names.length) l s' ∧
      old.Imports m.library.resolve d g (done ++ names) s' := by
  induction names generalizing i done s with
  | nil => exact ⟨s, .refl, (List.append_nil done).symm ▸ h⟩
  | cons name rest ih =>
    rw [List.length_cons] at hsize
    obtain ⟨hfirst, hothers⟩ := Op.Spelled.append (List.flatMap_cons ▸ hspelled)
    obtain ⟨⟨v, s₁⟩, hoffer⟩ := Option.isSome_iff_exists.mp (hoffers name List.mem_cons_self)
    obtain ⟨hsame, hmethods⟩ := h.resolve_plain hframe hplain
    obtain ⟨v', s', hoffer', hnext⟩ := h.step hold hd (fun f hf => hlibrary.get? hf)
      (hmethods name List.mem_cons_self) hg hoffer
    have hpass := passes_import (l := l) hp (by omega) hframe hfirst (hsame.trans hmodule) hoffer'
    rw [List.append_cons] at hplain ⊢
    obtain ⟨s'', hpasses, himports⟩ := ih (i := i + 7) hplain (by omega) hothers hnext
      fun k hk => hoffers k (List.mem_cons_of_mem _ hk)
    refine ⟨s'', ?_, himports⟩
    have hplace : i + 7 + 7 * rest.length = i + 7 * (name :: rest).length := by
      rw [List.length_cons]
      omega
    rw [hplace] at hpasses
    exact hpass.trans hpasses

/-- The names up to one that the module does not have. -/
theorem Machine.breaks_imports {before behind : List Text} {name : Text}
    (hplain : Compiler.PlainNames path (before ++ name :: behind))
    (hsize : 7 * (before ++ name :: behind).length ≤ p.size)
    (hspelled : Op.Spelled m.ops 0 ((before ++ name :: behind).flatMap (Compiler.importOps path)))
    (h : old.Imports m.library.resolve d g [] s)
    (hoffers : ∀ k ∈ before, (old.offer m.library.resolve d k).isSome = true)
    (hlacks : old.offer m.library.resolve d name = none) :
    ∃ i s', m.Breaks 0 l s (Exec.noSuchKey name) i s' ∧
      old.Imports m.library.resolve d g before s' := by
  rw [List.length_append, List.length_cons] at hsize
  rw [List.flatMap_append, List.flatMap_cons] at hspelled
  obtain ⟨hfirst, hlast⟩ := hspelled.append
  have hplain' : Compiler.PlainNames path ([] ++ before) := fun k hk =>
    ⟨(hplain k (List.mem_append_left _ hk)).1,
      fun k' hk' => (hplain k (List.mem_append_left _ hk)).2 k' (List.mem_append_left _ hk')⟩
  obtain ⟨s', hpasses, himports⟩ := passes_imports hold hd hg hlibrary hmodule hp hframe (l := l) hplain'
    (by omega) hfirst h hoffers
  refine ⟨0 + 7 * before.length + 2, s', hpasses.breaks ?_, himports⟩
  rw [Compiler.length_importOps] at hlast
  obtain ⟨hsame, hmethods⟩ := himports.resolve_plain hframe hplain
  refine breaks_import hp (by omega) (Op.Spelled.append hlast).1 (hsame.trans hmodule) ?_
  unfold Store.offer at hlacks ⊢
  rw [Store.dict_intact himports.intact hd, hmethods name List.mem_cons_self]
  revert hlacks
  cases (old.dict d).get? name with
  | some v => exact fun h => absurd h (by simp)
  | none =>
    intro h
    rw [Option.map_eq_none_iff.mp h]
    rfl

end
end

/-!
# The program
-/

section
variable {span : Span} {path : Text} {names : List Text}

theorem Op.ofProgram_of_reads {p : Program} {ops : List Op}
    (h : List.Forall₂ Instruction.Reads p.code.toList ops) : Op.ofProgram p = ⟨ops.toArray, none⟩ := by
  have hread : ∀ (k : Nat) ins op, p.code.toList[k]? = some ins → ops[k]? = some op →
      (Op.Operand.read? ins).map (Op.ofOperand ins) = some op := by
    intro k ins op hins hop
    obtain ⟨hlt, rfl⟩ := List.getElem?_eq_some_iff.mp hins
    obtain ⟨hlt', rfl⟩ := List.getElem?_eq_some_iff.mp hop
    exact h.get hlt hlt'
  have hdecoded : Op.decodeAll p.code.toList 0 #[] = ⟨#[] ++ ops.toArray, none⟩ :=
    Op.decodeAll_eq h.length_eq hread
  rw [Array.empty_append] at hdecoded
  exact hdecoded

namespace Compiler

theorem code_importCode (hnames : names ≠ []) :
    (importCode span path names).code = names.flatMap fun name =>
      (assignStmt span name (Fragment.member span (Fragment.var span (Key.module path)) name)
        .inner).code := by
  have hfold : ∀ (acc : Fragment) (k : Text → Fragment),
      (names.foldl (fun acc name => acc ++ k name) acc).code =
        acc.code ++ names.flatMap fun name => (k name).code := by
    intro acc k
    clear hnames
    induction names generalizing acc with
    | nil => exact (List.append_nil _).symm
    | cons name rest ih =>
      rw [List.foldl_cons, ih, Fragment.code_append, List.flatMap_cons, List.append_assoc]
  unfold importCode
  rw [if_neg (by simpa using hnames), hfold]
  rfl

/-- An import is compiled to the operations for its names. -/
theorem compile_imports (exporting : Bool) (span : Span) (path : Text) (hnames : names ≠ []) :
    ∃ c, (compile .modules exporting [.imports span path names]).result = .ok c ∧ c.problems = [] ∧
      c.program.size = 7 * names.length + 2 ∧
      Op.ofProgram c.program = ⟨(importAllOps path names).toArray, none⟩ := by
  refine ⟨_, rfl, rfl, ?_⟩
  have hreads : List.Forall₂ Instruction.Reads
      ((linked span "Import" (importCode span path names)).discard ++ Fragment.empty).code
      (importAllOps path names) := by
    show List.Forall₂ _ (((linked span "Import" (importCode span path names)).code ++ _) ++ []) _
    unfold linked
    rw [Fragment.mark_code, List.append_nil]
    show List.Forall₂ _ (((importCode span path names).code ++ _) ++ _) _
    rw [code_importCode hnames, List.append_assoc]
    refine List.rel_append ?_ (.cons rfl (.cons rfl .nil))
    refine List.rel_flatMap (R := Eq) (List.forall₂_refl names) ?_
    rintro name _ rfl
    exact .cons rfl (.cons rfl (.cons rfl (.cons rfl (.cons rfl (.cons rfl (.cons rfl .nil))))))
  refine ⟨?_, Op.ofProgram_of_reads hreads⟩
  have hlength := hreads.length_eq
  unfold importAllOps at hlength
  rw [List.length_append, length_importOps] at hlength
  exact hlength

end Compiler
end

/-- The engine after the names were imported from a module: they are bound at the top level, and
nothing else has changed. -/
structure Machine.Imported (m : Machine) (d : DictId) (names : List Text) (m' : Machine) : Prop where
  root : m'.root = some m.world.store.frames.size
  store : m.world.store.Imports m.library.resolve d m.world.store.frames.size names m'.world.store
  host : m'.world.host = m.world.host
  library : m'.library = m.library

section
variable {m : Machine} {p : Program} {path : Text} {names : List Text} {d : DictId}

theorem Machine.Leaves.imported {s : Store} {m' : Machine} (h : m.Leaves s m')
    (hs : m.world.store.Imports m.library.resolve d m.world.store.frames.size names s) :
    m.Imported d names m' :=
  ⟨h.root, h.store ▸ hs, h.host, h.library⟩

/-- The engine at the beginning of a program that imports names. -/
theorem Machine.loaded_importing (hscoped : m.world.store.Scoped)
    (hops : Op.ofProgram p = ⟨(Compiler.importAllOps path names).toArray, none⟩) :
    (m.loaded p).program = some p ∧ (m.loaded p).frame = some m.world.store.frames.size ∧
      (m.loaded p).library = m.library ∧
      Op.Spelled (m.loaded p).ops 0 (Compiler.importAllOps path names) ∧
      m.world.store.Imports m.library.resolve d m.world.store.frames.size []
        (m.loaded p).world.store := by
  obtain ⟨j, hj⟩ := m.loaded_eq p
  rw [hj, hops]
  refine ⟨rfl, rfl, rfl, fun k op hk => ?_, Store.Imports.start hscoped rfl⟩
  rw [Nat.zero_add]
  exact (List.getElem?_toArray).trans hk

section
variable (hscoped : m.world.store.Scoped) (hlibrary : m.library.bindings.Every m.world.store.Has)
  (hmodule : m.library.resolve (Key.module path) = some (.dict d))
  (hplain : Compiler.PlainNames path names) (hsize : p.size = 7 * names.length + 2)
  (hops : Op.ofProgram p = ⟨(Compiler.importAllOps path names).toArray, none⟩)
include hscoped hlibrary hmodule hplain hsize hops

/-- The module offers all names. -/
theorem Machine.ends_importing (hoffers : ∀ name ∈ names, (m.offer d name).isSome = true) :
    ∃ m', m.Ends p (.value .null) m' ∧ m.Imported d names m' := by
  obtain ⟨hp, hframe, hsame, hspelled, hstart⟩ := loaded_importing (d := d) hscoped hops
  obtain ⟨himports, hlast⟩ := hspelled.append
  rw [Compiler.length_importOps] at hlast
  obtain ⟨hnull, hlast⟩ := hlast.cons
  obtain ⟨hpop, -⟩ := hlast.cons
  rw [← hsame] at hlibrary hmodule hstart
  have hplain : Compiler.PlainNames path ([] ++ names) := hplain
  obtain ⟨s, hpasses, hs⟩ := passes_imports (l := []) hscoped (hlibrary.get? hmodule) (Nat.le_refl _)
    hlibrary hmodule hp hframe hplain (by omega) himports hstart (by rw [hsame]; exact hoffers)
  have hend := (hpasses.trans (passes_push hp (by omega) hnull)).trans (passes_pop hp (by omega) hpop)
  rw [show 0 + 7 * names.length + 1 + 1 = p.size by omega] at hend
  obtain ⟨m', hends, hleaves⟩ := hend.ends hops
  rw [hsame] at hs
  exact ⟨m', hends, hleaves.imported hs⟩

/-- A name comes up that the module does not offer. -/
theorem Machine.ends_lacking {before behind : List Text} {name : Text}
    (hnames : names = before ++ name :: behind)
    (hoffers : ∀ k ∈ before, (m.offer d k).isSome = true) (hlacks : m.offer d name = none) :
    ∃ problem trace m', m.Ends p (.failed #[problem] trace) m' ∧ problem.code = "RE0005" ∧
      problem.message = "key " ++ name.quoted ++ " not found in " ++ "Dict" ∧
      m.Imported d before m' := by
  subst hnames
  obtain ⟨hp, hframe, hsame, hspelled, hstart⟩ := loaded_importing (d := d) hscoped hops
  rw [← hsame] at hlibrary hmodule hstart
  obtain ⟨i, s, hbreaks, hs⟩ := breaks_imports (l := []) hscoped (hlibrary.get? hmodule)
    (Nat.le_refl _) hlibrary hmodule hp hframe hplain (by omega) hspelled.append.1 hstart
    (by rw [hsame]; exact hoffers) (by rw [hsame]; exact hlacks)
  obtain ⟨m', kind, span, trace, hends, hleaves⟩ := hbreaks.ends hops
  rw [hsame] at hs
  exact ⟨_, trace, m', hends, rfl, rfl, hleaves.imported hs⟩

end
end

/-- Names are all offered, or there is a first one that is not. -/
theorem Machine.offers_or_lacks (m : Machine) (d : DictId) (names : List Text) :
    (∀ name ∈ names, (m.offer d name).isSome = true) ∨
      ∃ before name behind, names = before ++ name :: behind ∧
        (∀ k ∈ before, (m.offer d k).isSome = true) ∧ m.offer d name = none := by
  induction names with
  | nil => exact Or.inl fun _ h => absurd h List.not_mem_nil
  | cons name rest ih =>
    cases hoffer : m.offer d name with
    | none => exact Or.inr ⟨[], name, rest, rfl, fun _ h => absurd h List.not_mem_nil, hoffer⟩
    | some _ =>
      have hname : (m.offer d name).isSome = true := by rw [hoffer]; rfl
      rcases ih with hall | ⟨before, k, behind, rfl, hbefore, hk⟩
      · exact Or.inl (List.forall_mem_cons.mpr ⟨hname, hall⟩)
      · exact Or.inr ⟨name :: before, k, behind, rfl, List.forall_mem_cons.mpr ⟨hname, hbefore⟩, hk⟩

/-- An import of names from a module ends well exactly if the module offers each of them, as an entry or
as a method that dicts have, and then has the names bound to copies. Otherwise it stops at the first name
that is not offered. -/
theorem import_takes_what_is_offered {m : Machine} {path : Text} {names : List Text} {d : DictId}
    (hscoped : m.world.store.Scoped) (hlibrary : m.library.bindings.Every m.world.store.Has)
    (hmodule : m.library.resolve (Key.module path) = some (.dict d)) (hnames : names ≠ [])
    (hplain : Compiler.PlainNames path names) (exporting : Bool) (span : Span) :
    ∃ c, (Compiler.compile .modules exporting [.imports span path names]).result = .ok c ∧
      c.problems = [] ∧
      ((∃ v m', m.Ends c.program (.value v) m') ↔ ∀ name ∈ names, (m.offer d name).isSome = true) ∧
      (∀ v m', m.Ends c.program (.value v) m' → v = .null ∧ m.Imported d names m') ∧
      ∀ before name behind, names = before ++ name :: behind →
        (∀ k ∈ before, (m.offer d k).isSome = true) → m.offer d name = none →
        ∃ problem trace m', m.Ends c.program (.failed #[problem] trace) m' ∧
          problem.code = "RE0005" ∧
          problem.message = "key " ++ name.quoted ++ " not found in " ++ "Dict" ∧
          m.Imported d before m' := by
  obtain ⟨c, hcompiled, hnone, hsize, hops⟩ := Compiler.compile_imports exporting span path hnames
  have hwell := Machine.ends_importing hscoped hlibrary hmodule hplain hsize hops
  have hfails : ∀ before name behind, names = before ++ name :: behind → _ → _ → _ :=
    fun _ _ _ => Machine.ends_lacking hscoped hlibrary hmodule hplain hsize hops
  have hoffers : ∀ {v m'}, m.Ends c.program (.value v) m' →
      ∀ name ∈ names, (m.offer d name).isSome = true := by
    intro v m' hends
    rcases m.offers_or_lacks d names with hall | ⟨before, name, behind, hsplit, hbefore, hname⟩
    · exact hall
    · obtain ⟨problem, trace, m'', hends', -⟩ := hfails before name behind hsplit hbefore hname
      cases (hends.unique hends').1
  refine ⟨c, hcompiled, hnone, ⟨fun ⟨v, m', hends⟩ => hoffers hends, fun hall => ?_⟩, ?_, hfails⟩
  · obtain ⟨m', hends, -⟩ := hwell hall
    exact ⟨.null, m', hends⟩
  · intro v m' hends
    obtain ⟨m'', hends', himported⟩ := hwell (hoffers hends)
    obtain ⟨hv, hm⟩ := hends.unique hends'
    cases hv
    rw [hm]
    exact ⟨rfl, himported⟩

/-!
# A module that lends a method
-/

theorem Library.every_registerAll {P : Value → Prop} {l : Library} (h : l.bindings.Every P)
    (hP : ∀ n, P (.native n)) (ps : List Primitive) : (l.registerAll ps).bindings.Every P := by
  induction ps generalizing l with
  | nil => exact h
  | cons p rest ih => exact ih (h.insert p.key (hP _))

theorem Library.every_standard {P : Value → Prop} (hnative : ∀ n, P (.native n))
    (htype : ∀ t, P (.type t)) : Library.standard.bindings.Every P := by
  have htypes : ∀ (names : List Text) {l : Library}, l.bindings.Every P →
      (names.foldl (fun l name => l.define name (.type (TypeInfo.conversion name))) l).bindings.Every
        P := by
    intro names
    induction names with
    | nil => exact fun h => h
    | cons name rest ih => exact fun h => ih (h.insert name (htype _))
  have hprimitives := every_registerAll (htypes Native.conversionTargets (l := .empty) .empty) hnative
    standardPrimitives
  exact hprimitives.insert (Text.ofString iteratorName) (htype TypeInfo.iterator)

/-- A new engine with an empty module `m`. -/
def emptyModuleEngine : Machine :=
  .new ⟨(Store.empty.newDict .empty).2, .new Text.empty, .new false⟩ (.defineModule .standard "m" 0)
    (.ofHost false false Text.empty 0)

theorem import_takes_what_is_offered_keys :
    ∃ c v m', (Compiler.compile .modules false [.imports .zero "m" ["keys"]]).result = .ok c ∧
      emptyModuleEngine.Ends c.program (.value v) m' ∧ emptyModuleEngine.Imported 0 ["keys"] m' := by
  have hscoped : emptyModuleEngine.world.store.Scoped :=
    Store.scoped_empty.scopes (.newDict Store.empty .empty)
  have hlibrary : emptyModuleEngine.library.bindings.Every emptyModuleEngine.world.store.Has :=
    (Library.every_standard (fun _ => trivial) fun _ => trivial).insert _ Nat.zero_lt_one
  have hmodule : emptyModuleEngine.library.resolve (Key.module "m") = some (.dict 0) := by
    decide
  have hplain : Compiler.PlainNames "m" ["keys"] := by
    unfold Compiler.PlainNames
    decide
  obtain ⟨c, hcompiled, -, hiff, himported, -⟩ := import_takes_what_is_offered hscoped hlibrary hmodule
    (List.cons_ne_nil _ _) hplain false .zero
  obtain ⟨v, m', hends⟩ := hiff.mpr (by decide +kernel)
  exact ⟨c, v, m', hcompiled, hends, (himported v m' hends).2⟩

/-- An import of `keys` from an empty module ends well and binds the name. -/
theorem import_takes_method_of_empty_module :
    ∃ c, (Compiler.compile .modules false [.imports .zero "m" ["keys"]]).result = .ok c ∧
      (emptyModuleEngine.world.store.dict 0).get? "keys" = none ∧
      (emptyModuleEngine.execute 20 c.program).any (fun r =>
        (match r.1 with | .value _ => true | .failed _ _ => false) && (r.2.global? "keys").isSome) =
          true :=
  ⟨_, rfl, by decide +kernel, by decide +kernel⟩

end ScriptEngine
