import ScriptEngine.Proofs.Compiler.Sections
import ScriptEngine.Proofs.Machine.VeiledRuns

/-!
# The dict of exports

What a program has exported so far is kept in a dict that is bound under the hidden name in the root
frame. It is hidden, and so are the copies in it: what is kept there can only be changed by the next
export.
-/

namespace ScriptEngine

/-- An export statement that is executed: its names, and the engine in front of it. -/
structure Exporting where
  names : List Text
  machine : Machine

/-- The exported names in the order in which they were exported first. -/
def exportedNames (done : List Exporting) : List Text :=
  (done.flatMap Exporting.names).eraseDups

/-- The engine in front of the last statement that exported the name. -/
def lastExport (done : List Exporting) (name : Text) : Option Machine :=
  (done.reverse.find? fun e => decide (name ∈ e.names)).map Exporting.machine

/-- The dict holds what was exported. -/
structure Store.Collects (V : Veil) (s : Store) (root : FrameId) (done : List Exporting) (d : DictId) :
    Prop where
  hidden : V.hidden (.dict d)
  bound : s.Holds root Key.exports (.dict d)
  keys : (s.dict d).keys = exportedNames done
  entries : ∀ name m, lastExport done name = some m → ∃ v e, m.resolve name = some v ∧
    (s.dict d).get? name = some e ∧ m.world.store.Copied s v e ∧ (e.isHandle = true → V.hidden e) ∧
      e ≠ .dict d

/-- The store of the engine after part of an export: all that was shown is as it was. -/
structure Machine.Aside (V V' : Veil) (m : Machine) (s : Store) : Prop where
  veiled : s.Veiled V'
  slot : V'.slot = V.slot
  le : m.world.store.Le s
  shows : ∀ v, m.world.store.Shows V v → s.Shows V' v ∧ s.content v = m.world.store.content v
  resolve : ∀ name, name ≠ Key.exports → (m.withStore s).resolve name = m.resolve name

section
variable {V V' : Veil} {m : Machine} {s s' : Store} {root : FrameId} {done : List Exporting} {d : DictId}
  {u v e : Value} {name : Text} {pre names : List Text}

/-!
# What was exported
-/

theorem flatMap_names (names : List Text) :
    (done ++ [Exporting.mk names m]).flatMap Exporting.names = done.flatMap Exporting.names ++ names := by
  rw [List.flatMap_append, List.flatMap_cons, List.flatMap_nil, List.append_nil]

theorem exportedNames_add : exportedNames (done ++ [⟨pre ++ [name], m⟩]) =
    if name ∈ exportedNames (done ++ [⟨pre, m⟩]) then exportedNames (done ++ [⟨pre, m⟩])
    else exportedNames (done ++ [⟨pre, m⟩]) ++ [name] := by
  unfold exportedNames
  rw [flatMap_names, flatMap_names, ← List.append_assoc, List.eraseDups_append]
  generalize done.flatMap Exporting.names ++ pre = l
  simp only [List.mem_eraseDups]
  by_cases h : name ∈ l
  · rw [if_pos h]
    simp [List.removeAll, h]
  · rw [if_neg h]
    simp [List.removeAll, h, List.eraseDups_cons]

theorem lastExport_add (names : List Text) :
    lastExport (done ++ [⟨names, m⟩]) name = if name ∈ names then some m else lastExport done name := by
  unfold lastExport
  rw [List.reverse_append, List.reverse_singleton, List.singleton_append, List.find?_cons]
  by_cases h : name ∈ names <;> simp [h]

namespace Store

/-!
# Copies
-/

theorem content_modifyDict (hne : u ≠ .dict d) (f : Table Value → Table Value) :
    (s.modifyDict d f).content u = s.content u := by
  refine content_congr (fun _ _ => rfl) ?_ (fun _ _ => rfl) (fun _ _ => rfl)
  rintro d' rfl
  exact getElem?_modify_ne fun h => hne (congrArg Value.dict h.symm)

theorem dict_modifyDict (hd : d < s.dicts.size) (f : Table Value → Table Value) :
    (s.modifyDict d f).dict d = f (s.dict d) := by
  show ((s.dicts.modify d f)[d]?).getD _ = f ((s.dicts[d]?).getD _)
  rw [Array.getElem?_modify, if_pos rfl, Array.getElem?_eq_getElem hd]
  rfl

/-- Binding a name is not seen where another one is looked up. -/
theorem lookup_define {key : Text} (hne : key ≠ name) (g : FrameId) (v : Value) (f : Option FrameId)
    (shallow : Bool) : (s.define g key v).lookup f name shallow = s.lookup f name shallow := by
  have hframe : ∀ f, (s.define g key v).frame? f =
      if g = f then (s.frame? f).map fun fr => { fr with vars := fr.vars.insert key v }
      else s.frame? f := fun f => Array.getElem?_modify ..
  have hwalk : ∀ (fuel : Nat) (f : Option FrameId),
      (s.define g key v).lookupFrom name shallow fuel f = s.lookupFrom name shallow fuel f := by
    intro fuel
    induction fuel with
    | zero => exact fun _ => rfl
    | succ fuel ih =>
      intro f
      cases f with
      | none => rfl
      | some f =>
        simp only [lookupFrom, hframe, ih]
        by_cases hgf : g = f
        · simp only [if_pos hgf]
          cases s.frame? f with
          | none => rfl
          | some fr =>
            simp only [Option.map_some, Table.get?_insert, if_neg hne]
            rfl
        · simp only [if_neg hgf]
  exact hwalk _ f

/-!
# Collecting
-/

namespace Collects

/-- Work that spares what is hidden leaves the exports. -/
theorem spares (h : s.Collects V root done d) (hs : s.Spares V s') (hroot : V.slot = some (root, Key.exports)) :
    s'.Collects V root done d := by
  have hdict : s'.dict d = s.dict d := Content.entries.inj (hs.content _ h.hidden)
  refine ⟨h.hidden, (hs.bound _ hroot _).mpr h.bound, hdict ▸ h.keys, fun name m hlast => ?_⟩
  obtain ⟨v, e, hv, he, hcopied, hhidden, hne⟩ := h.entries name m hlast
  exact ⟨v, e, hv, hdict ▸ he, hcopied.content fun he => hs.content e (hhidden he), hhidden, hne⟩

/-- A statement that has not exported anything yet. -/
theorem start (h : s.Collects V root done d) (m : Machine) :
    s.Collects V root (done ++ [⟨[], m⟩]) d := by
  refine ⟨h.hidden, h.bound, ?_, fun name m' hlast => ?_⟩
  · rw [h.keys]
    unfold exportedNames
    rw [flatMap_names, List.append_nil]
  · rw [lastExport_add, if_neg List.not_mem_nil] at hlast
    exact h.entries name m' hlast

/-- The value of a name is put into the dict. -/
theorem add (h : s.Collects V root (done ++ [⟨pre, m⟩]) d) (hs : s.Veiled V) (hle : m.world.store.Le s)
    (hshows : s.Shows V v) (hcontent : s.content v = m.world.store.content v)
    (hv : m.resolve name = some v) :
    ((s.copy v).2.modifyDict d (·.insert name (s.copy v).1)).Collects (V.hide (s.copy v).1) root
      (done ++ [⟨pre ++ [name], m⟩]) d := by
  obtain ⟨hhas, hhandle, hnew, hself⟩ := copy_spec hshows.has
  have hintact := Intact.copy hs.windows v
  have hd : s.Has (.dict d) := (hs.known _ h.hidden).2
  have hne : (s.copy v).1 ≠ .dict d := by
    intro heq
    cases hkind : v.isHandle with
    | true => exact hnew hkind (heq ▸ hd)
    | false =>
      rw [hself hkind] at heq
      subst heq
      cases hkind
  have hdict : (s.copy v).2.dict d = s.dict d := Content.entries.inj (hintact.content _ hd)
  have hinserted : ((s.copy v).2.modifyDict d (·.insert name (s.copy v).1)).dict d =
      (s.dict d).insert name (s.copy v).1 := by
    rw [dict_modifyDict (Nat.lt_of_lt_of_le hd hintact.le.dicts), hdict]
  refine ⟨Or.inl h.hidden, ?_, ?_, fun name' m' hlast => ?_⟩
  · obtain ⟨fr, hfr, hbound⟩ := h.bound
    exact ⟨fr, hintact.frames root fr hfr, hbound⟩
  · rw [hinserted, Table.keys_insert, h.keys, exportedNames_add]
  · rw [hinserted, Table.get?_insert]
    by_cases hname : name = name'
    · subst hname
      rw [lastExport_add, if_pos (by simp)] at hlast
      cases hlast
      rw [if_pos rfl]
      refine ⟨v, (s.copy v).1, hv, rfl, ⟨fun hkind => ?_, fun hkind => ⟨fun hold => ?_, ?_⟩⟩,
        fun he => Or.inr ⟨rfl, he⟩, hne⟩
      · rw [hself hkind]
      · exact hnew hkind (hold.mono hle)
      · rw [content_modifyDict hne, content_copy, hcontent]
    · rw [if_neg hname]
      have hlast' : lastExport (done ++ [⟨pre, m⟩]) name' = some m' := by
        rw [lastExport_add] at hlast ⊢
        simpa [Ne.symm hname] using hlast
      obtain ⟨w, e, hw, he, hcopied, hhidden, hne'⟩ := h.entries name' m' hlast'
      refine ⟨w, e, hw, he, hcopied.content fun hkind => ?_, fun hkind => Or.inl (hhidden hkind), hne'⟩
      rw [content_modifyDict hne']
      exact hintact.content e (hs.known e (hhidden hkind)).2

end Collects
end Store

namespace Machine

theorem resolve_of_lookup (h : s'.lookup m.frame name false = s.lookup m.frame name false) :
    (m.withStore s').resolve name = (m.withStore s).resolve name := by
  unfold Machine.resolve
  rw [show (m.withStore s').world.store.lookup (m.withStore s').frame name false =
    (m.withStore s).world.store.lookup (m.withStore s).frame name false from h]
  rfl

theorem Aside.refl (hs : m.world.store.Veiled V) : m.Aside V V m.world.store :=
  ⟨hs, rfl, .refl _, fun _ hv => ⟨hv, rfl⟩, fun _ _ => rfl⟩

/-- The engine that goes on after the export is veiled. -/
theorem Aside.veiled_at {i : Nat} {m' : Machine} (ha : m.Aside V V' s) (hm : m.Veiled V)
    (hat : m.At i [] s m') : m'.Veiled V' := by
  have hstacks := hat.operands
  refine ⟨hat.store.symm ▸ ha.veiled, ?_, hstacks.backed, fun v hv => ?_⟩
  · rw [hat.library, hat.store]
    exact hm.bindings.imp fun v hv => (ha.shows v hv).1
  · rw [hstacks.items] at hv
    exact absurd hv List.not_mem_nil

theorem Aside.copy (ha : m.Aside V V' s) (hhidden : V'.hidden (.dict d)) (hshows : s.Shows V' v) :
    m.Aside V (V'.hide (s.copy v).1) ((s.copy v).2.modifyDict d (·.insert name (s.copy v).1)) := by
  obtain ⟨-, hhandle, hnew, -⟩ := Store.copy_spec hshows.has
  have hintact := Store.Intact.copy ha.veiled.windows v
  have hle : s.Le ((s.copy v).2.modifyDict d (·.insert name (s.copy v).1)) :=
    hintact.le.trans ⟨Nat.le_refl _, Nat.le_refl _, Nat.le_of_eq Array.size_modify.symm, Nat.le_refl _,
      Nat.le_refl _, Nat.le_refl _⟩
  refine ⟨(ha.veiled.hideCopy hshows).modifyHidden (Or.inl hhidden) _, ha.slot, ha.le.trans hle, ?_, ?_⟩
  · intro w hw
    obtain ⟨hw, hsame⟩ := ha.shows w hw
    refine ⟨⟨hw.has.mono hle, hw.hide fun hu => hnew (hhandle ▸ hu)⟩, ?_⟩
    rw [Store.content_modifyDict ?_, hintact.content w hw.has, hsame]
    rintro rfl
    exact hw.shown hhidden
  · intro name' hname'
    rw [← ha.resolve name' hname']
    have hframes : ((s.copy v).2.modifyDict d (·.insert name (s.copy v).1)).frames = s.frames :=
      Exec.copy_frames s v
    exact resolve_of_lookup (Store.lookup_of_frames hframes ..)

/-- The dict of exports is opened: a new dict is bound in the root frame. -/
theorem Veiled.opening (hm : m.Veiled V) (hroot : V.slot = some (root, Key.exports)) :
    ∃ d, m.Aside V (V.hide (.dict d))
        ((m.world.store.newDict Table.empty).2.bindCopy root Key.exports
          (.dict (m.world.store.newDict Table.empty).1)) ∧
      Store.Collects (V.hide (.dict d))
        ((m.world.store.newDict Table.empty).2.bindCopy root Key.exports
          (.dict (m.world.store.newDict Table.empty).1)) root [⟨[], m⟩] d := by
  have hnew := @Store.Veiled.newDict V _ hm.store Table.empty .empty fun _ => List.nodup_nil
  have hnewIntact := Store.Intact.newDict m.world.store Table.empty
  have hnewFrames : (m.world.store.newDict Table.empty).2.frames = m.world.store.frames := rfl
  have hempty : (m.world.store.newDict Table.empty).2.content
      (.dict (m.world.store.newDict Table.empty).1) = .entries Table.empty := by
    show Content.entries (((m.world.store.dicts.push Table.empty)[m.world.store.dicts.size]?).getD _) = _
    rw [Array.getElem?_push_size]
    rfl
  have hshows : (m.world.store.newDict Table.empty).2.Shows V
      (.dict (m.world.store.newDict Table.empty).1) :=
    ⟨Store.size_lt_push _ _, hm.store.not_hidden (Nat.lt_irrefl _)⟩
  generalize (m.world.store.newDict Table.empty).2 = s at hnew hnewIntact hnewFrames hempty hshows ⊢
  generalize (m.world.store.newDict Table.empty).1 = d₀ at hempty hshows ⊢
  have hintact := Store.Intact.copy hnew.veiled.windows (.dict d₀)
  obtain ⟨hhas, -, hfresh, -⟩ := Store.copy_spec hshows.has
  have hveiled := hnew.veiled.hideCopy hshows
  have hcopied := Store.content_copy s (.dict d₀)
  have hframes := Exec.copy_frames s (.dict d₀)
  have hbind : s.bindCopy root Key.exports (.dict d₀) =
      (s.copy (.dict d₀)).2.define root Key.exports (s.copy (.dict d₀)).1 := rfl
  rw [hbind]
  obtain ⟨d, hd⟩ : ∃ d, (s.copy (.dict d₀)).1 = .dict d := ⟨_, rfl⟩
  rw [hd] at hhas hfresh hveiled hcopied ⊢
  generalize (s.copy (.dict d₀)).2 = s₁ at hintact hhas hveiled hcopied hframes ⊢
  have hlt : root < s₁.frames.size :=
    Nat.lt_of_lt_of_le (hm.store.slot _ hroot) (hnewIntact.le.trans hintact.le).frames
  have hle : s₁.Le (s₁.define root Key.exports (.dict d)) :=
    ⟨Nat.le_refl _, Nat.le_refl _, Nat.le_refl _, Nat.le_refl _, Nat.le_refl _,
      Nat.le_of_eq Array.size_modify.symm⟩
  have hcontent : ∀ w, m.world.store.Has w →
      (s₁.define root Key.exports (.dict d)).content w = m.world.store.content w := by
    intro w hw
    rw [Store.content_define, hintact.content w (hw.mono hnewIntact.le), hnewIntact.content w hw]
  have hentries : (s₁.define root Key.exports (.dict d)).dict d = Table.empty :=
    Content.entries.inj (((Store.content_define _ _ _ _).trans hcopied).trans hempty)
  refine ⟨d, ⟨hveiled.defineHidden hroot _, rfl, (hnewIntact.le.trans hintact.le).trans hle, ?_, ?_⟩,
    ⟨Or.inr ⟨rfl, rfl⟩, ?_, ?_, ?_⟩⟩
  · intro w hw
    have hfar : w.Shown (V.hide (.dict d)).hidden := (hnew.shows hw).hide fun _ => hfresh rfl
    exact ⟨⟨hw.has.mono ((hnewIntact.le.trans hintact.le).trans hle), hfar⟩, hcontent w hw.has⟩
  · intro name hname
    refine (resolve_of_lookup (s := m.world.store) ?_)
    rw [Store.lookup_define hname.symm, Store.lookup_of_frames (hframes.trans hnewFrames)]
  · refine ⟨{ s₁.frames[root] with vars := s₁.frames[root].vars.insert Key.exports (.dict d) }, ?_, ?_⟩
    · show (s₁.frames.modify root _)[root]? = _
      rw [Array.getElem?_modify, if_pos rfl, Array.getElem?_eq_getElem hlt]
      rfl
    · exact (Table.get?_insert ..).trans (if_pos rfl)
  · rw [hentries]
    rfl
  · intro name m' hlast
    rw [show [Exporting.mk [] m] = [] ++ [Exporting.mk [] m] from rfl, lastExport_add,
      if_neg List.not_mem_nil] at hlast
    cases hlast

/-!
# The code of an export
-/

section
variable {p : Program} {i : Nat} {l : List Value} (hp : m.program = some p)
include hp

theorem passes_export (hsize : i + 5 ≤ p.size) (hspelled : Op.Spelled m.ops i (Compiler.exportOps name))
    (hv : (m.withStore s).resolve name = some v)
    (hd : (m.withStore s).resolve Key.exports = some (.dict d)) :
    m.Passes i l s (i + 5) l ((s.copy v).2.modifyDict d (·.insert name (s.copy v).1)) := by
  obtain ⟨hget, hspelled⟩ := hspelled.cons
  obtain ⟨hdict, hspelled⟩ := hspelled.cons
  obtain ⟨hkey, hspelled⟩ := hspelled.cons
  obtain ⟨hassign, hspelled⟩ := hspelled.cons
  obtain ⟨hpop, -⟩ := hspelled.cons
  have hload := ((passes_getVar hp (by omega) hget hv).trans (l := l)
    (passes_getVar hp (by omega) hdict hd)).trans (passes_push hp (by omega) hkey)
  exact hload.trans ((passes_assignMember hp (by omega) hassign).trans
    (passes_pop hp (by omega) hpop))

/-- A name that is not bound. -/
theorem breaks_export (hsize : i + 5 ≤ p.size) (hspelled : Op.Spelled m.ops i (Compiler.exportOps name))
    (hv : (m.withStore s).resolve name = none) :
    m.Breaks i l s (.raised .unbound (Exec.unbound name)) i s :=
  breaks_getVar hp (by omega) hspelled.cons.1 hv

theorem passes_opening (hsize : i + 6 ≤ p.size) (hspelled : Op.Spelled m.ops i Compiler.openingOps)
    (hframe : m.frame = some root) :
    m.Passes i l s (i + 6) l
      ((s.newDict Table.empty).2.bindCopy root Key.exports (.dict (s.newDict Table.empty).1)) := by
  obtain ⟨hcount, hspelled⟩ := hspelled.cons
  obtain ⟨hbuild, hspelled⟩ := hspelled.cons
  obtain ⟨hmarker, hspelled⟩ := hspelled.cons
  obtain ⟨hname, hspelled⟩ := hspelled.cons
  obtain ⟨hassign, hspelled⟩ := hspelled.cons
  obtain ⟨hpop, -⟩ := hspelled.cons
  have hload := (((passes_push hp (by omega) hcount).trans (l := l) (s := s)
    (passes_buildDict hp (by omega) hbuild)).trans (passes_push hp (by omega) hmarker)).trans
      (passes_push hp (by omega) hname)
  exact hload.trans ((passes_assignInner hp (by omega) hassign hframe).trans
    (passes_pop hp (by omega) hpop))

variable (hm : m.Veiled V) (hframe : m.frame = some root) (hroot : V.slot = some (root, Key.exports))
include hm hframe hroot

/-- The names of an export are put into the dict, one after the other, unless one is not bound. -/
theorem exports_names (hsize : i + (names.flatMap Compiler.exportOps).length ≤ p.size)
    (hspelled : Op.Spelled m.ops i (names.flatMap Compiler.exportOps))
    (hnames : ∀ name ∈ names, name ≠ Key.exports) (ha : m.Aside V V' s)
    (hc : s.Collects V' root (done ++ [⟨pre, m⟩]) d) :
    (∃ s' V'', m.Passes i [] s (i + (names.flatMap Compiler.exportOps).length) [] s' ∧
      m.Aside V V'' s' ∧ s'.Collects V'' root (done ++ [⟨pre ++ names, m⟩]) d) ∨
    ∃ f j s', m.Breaks i [] s f j s' := by
  induction names generalizing i s V' pre with
  | nil =>
    refine Or.inl ⟨s, V', .refl, ha, ?_⟩
    rw [List.append_nil]
    exact hc
  | cons name names ih =>
    have hlen : ((name :: names).flatMap Compiler.exportOps).length =
        5 + (names.flatMap Compiler.exportOps).length := by
      rw [List.flatMap_cons, List.length_append]
      rfl
    rw [hlen] at hsize ⊢
    rw [List.flatMap_cons] at hspelled
    obtain ⟨hone, hrest⟩ := hspelled.append
    have hname := hnames name List.mem_cons_self
    have hsame := ha.resolve name hname
    cases hv : m.resolve name with
    | none => exact Or.inr ⟨_, i, s, breaks_export hp (by omega) hone (hsame.trans hv)⟩
    | some v =>
      have hdict : (m.withStore s).resolve Key.exports = some (.dict d) := by
        unfold Machine.resolve
        rw [show (m.withStore s).world.store.lookup (m.withStore s).frame Key.exports false =
          some (.dict d, root) from (congrArg (s.lookup · Key.exports false) hframe).trans
            (hc.bound.lookup false)]
      obtain ⟨hshows, hcontent⟩ := ha.shows v (hm.resolve (Veil.misses_of_ne (fun g hg => hname (by
          rw [hroot] at hg
          cases hg
          rfl)) _ _) hv)
      have hpasses := passes_export (l := []) hp (by omega) hone (hsame.trans hv) hdict
      have hadded := hc.add ha.veiled ha.le hshows hcontent hv
      have haside := @Aside.copy _ _ _ _ _ _ name ha hc.hidden hshows
      have hnext := ih (show i + 5 + _ ≤ p.size by omega) hrest
        (fun n hn => hnames n (List.mem_cons_of_mem _ hn)) haside hadded
      rw [List.append_assoc, List.singleton_append, Nat.add_assoc] at hnext
      rcases hnext with ⟨s', V'', hnext, hresult⟩ | ⟨f, j, s', hbreaks⟩
      · exact Or.inl ⟨s', V'', hpasses.trans hnext, hresult⟩
      · exact Or.inr ⟨f, j, s', hpasses.breaks hbreaks⟩

/-- An export adds to what was exported, or breaks. The first one opens the dict. -/
theorem exports_all {first : Bool}
    (hsize : i + (Compiler.exportAllOps first names).length ≤ p.size)
    (hspelled : Op.Spelled m.ops i (Compiler.exportAllOps first names))
    (hnames : ∀ name ∈ names, name ≠ Key.exports)
    (hfirst : if first then done = [] else ∃ d, m.world.store.Collects V root done d) :
    (∃ s' V' d, m.Passes i [] m.world.store (i + (Compiler.exportAllOps first names).length) [] s' ∧
      m.Aside V V' s' ∧ s'.Collects V' root (done ++ [⟨names, m⟩]) d) ∨
    ∃ f j s', m.Breaks i [] m.world.store f j s' := by
  unfold Compiler.exportAllOps at hsize hspelled ⊢
  obtain ⟨opens, hopens⟩ : ∃ opens, opens = if first then Compiler.openingOps else [] := ⟨_, rfl⟩
  rw [← hopens] at hsize hspelled ⊢
  obtain ⟨hcode, hend⟩ := hspelled.append
  obtain ⟨hopen, hcode⟩ := hcode.append
  obtain ⟨hnull, hend⟩ := hend.cons
  obtain ⟨hpop, -⟩ := hend.cons
  simp only [List.length_append, List.length_cons, List.length_nil] at hsize hnull hend hpop ⊢
  have hopened : ∃ s₁ V₁ d, m.Passes i [] m.world.store (i + opens.length) [] s₁ ∧ m.Aside V V₁ s₁ ∧
      s₁.Collects V₁ root (done ++ [⟨[], m⟩]) d := by
    cases first with
    | true =>
      obtain rfl : done = [] := hfirst
      obtain ⟨d, haside, hcollects⟩ := hm.opening hroot
      obtain rfl : opens = Compiler.openingOps := hopens
      have hlen : Compiler.openingOps.length = 6 := rfl
      exact ⟨_, _, d, passes_opening hp (by omega) hopen hframe, haside, hcollects⟩
    | false =>
      obtain ⟨d, hcollects⟩ : ∃ d, m.world.store.Collects V root done d := hfirst
      rw [hopens]
      exact ⟨_, V, d, .refl, .refl hm.store, hcollects.start m⟩
  obtain ⟨s₁, V₁, d, hpasses, haside, hcollects⟩ := hopened
  have hnext := exports_names hp hm hframe hroot (by omega) hcode hnames haside hcollects
  rcases hnext with ⟨s₂, V₂, hnext, haside', hcollects'⟩ | ⟨f, j, s', hbreaks⟩
  · refine Or.inl ⟨s₂, V₂, d, ?_, haside', hcollects'⟩
    have hlast := (passes_push (l := []) (s := s₂) hp (by omega) hnull).trans
      (passes_pop hp (by omega) hpop)
    simp only [Nat.add_assoc] at hpasses hnext hlast ⊢
    exact (hpasses.trans hnext).trans hlast
  · exact Or.inr ⟨f, j, s', hpasses.breaks hbreaks⟩

end
end Machine
end
end ScriptEngine
