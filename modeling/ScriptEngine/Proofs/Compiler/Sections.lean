import ScriptEngine.Proofs.Compiler.Naming
import ScriptEngine.Proofs.Machine.Straight

/-!
# The sections of a program

The code of the statements of a program stands in sections, one behind the other. Control enters a
section at its beginning and leaves it at its end; in between no values of other statements are on the
stack and no scopes are open. The section of an export is spelled out, every other one is tame.
-/

namespace ScriptEngine

/-- The statement exports names. -/
def Stmt.isExport : Stmt → Bool
  | exports .. => true
  | _ => false

/-- At the position a name other than the hidden one is bound. -/
def Op.BindsAt (ops : Array Op) (i : Nat) : Prop :=
  ops[i]? = some (.push .empty) ∧ ∃ name scope, name ≠ Key.exports ∧
    ops[i + 1]? = some (.push (.text name)) ∧ ops[i + 2]? = some (.assign scope)

namespace Fragment

variable {f : Fragment} {ty : Nat → Layout}

/-- The instructions lead to instructions of the fragment or to its end. -/
def Enclosed (f : Fragment) : Prop :=
  ∀ (i : Nat) ins, f.code[i]? = some ins → ∃ op, ins.Stands op ∧
    ∃ t : Nat, (t : Int) = i + 1 + op.reach ∧ t ≤ f.length

theorem Takes.enclosed {a b : Layout} (h : f.Takes a b none) : f.Enclosed := by
  obtain ⟨ty, -, -, hfits⟩ := h
  intro i ins hins
  have hi : i < f.length := (List.getElem?_eq_some_iff.mp hins).1
  have hnone : ∀ e ∈ f.exits, e.index ≠ i := fun e he => by cases (hfits.exits e he).2
  obtain ⟨op, hstands, ⟨-, hreach⟩ | ⟨o, hflow, hlands⟩⟩ := hfits.flows i ins hins hnone
  · exact ⟨op, hstands, i + 1, by rw [hreach]; omega, hi⟩
  · rw [Nat.zero_add] at hlands
    exact ⟨op, hstands, reach_within hi hflow hlands⟩

end Fragment

namespace Compiler

/-- Where the code of a statement begins: behind that of all before it. -/
def start (body : List Stmt) (k : Nat) : Nat :=
  match (compile .modules false (body.take k)).result with
  | .ok c => c.program.size
  | .error _ => 0

section
variable {body : List Stmt} {place : Place} {p p' : Progress} {f g : Fragment} {s : Stmt} {k : Nat}

theorem start_eq (h : stmts .modules Place.top (body.take k) ⟨#[], false⟩ = .ok f p) :
    start body k = f.length := by
  unfold start compile
  rw [show (stmts .modules Place.top (body.take k)).run ⟨#[], false⟩ = .ok f p from h]
  rfl

theorem stmts_cons {rest : List Stmt} (h : stmts .modules place (s :: rest) p = .ok f p') :
    ∃ g p₁ g', stmt .modules place s p = .ok g p₁ ∧ stmts .modules place rest p₁ = .ok g' p' ∧
      f = g.discard ++ g' := by
  rw [stmts] at h
  obtain ⟨g, p₁, hg, h⟩ := bind_ok h
  obtain ⟨g', p₂, hg', h⟩ := bind_ok h
  obtain ⟨rfl, rfl⟩ := pure_ok h
  exact ⟨g, p₁, g', hg, hg', rfl⟩

theorem stmts_cons_ok {rest : List Stmt} {g' : Fragment} {p₁ : Progress}
    (hg : stmt .modules place s p = .ok g p₁) (hg' : stmts .modules place rest p₁ = .ok g' p') :
    stmts .modules place (s :: rest) p = .ok (g.discard ++ g') p' := by
  rw [stmts]
  show EStateM.bind _ _ p = _
  unfold EStateM.bind
  rw [hg]
  show EStateM.bind _ _ p₁ = _
  unfold EStateM.bind
  rw [hg']
  rfl

/-- The code in front of a statement, its own code and the code behind it. -/
structure Splits (body : List Stmt) (k : Nat) (s : Stmt) (p : Progress) (f : Fragment)
    (before own behind : Fragment) (p₁ p₂ : Progress) : Prop where
  front : stmts .modules Place.top (body.take k) p = .ok before p₁
  here : stmt .modules Place.top s p₁ = .ok own p₂
  next : stmts .modules Place.top (body.take (k + 1)) p = .ok (before ++ own.discard) p₂
  whole : f = before ++ (own.discard ++ behind)

theorem stmts_split (h : stmts .modules Place.top body p = .ok f p') (hs : body[k]? = some s) :
    ∃ before own behind p₁ p₂, Splits body k s p f before own behind p₁ p₂ := by
  induction body generalizing k p f with
  | nil => cases hs
  | cons s₀ rest ih =>
    obtain ⟨g, p₀, g', hg, hg', rfl⟩ := stmts_cons h
    cases k with
    | zero =>
      cases hs
      refine ⟨.empty, g, g', p, p₀, ?_, hg, ?_, (Fragment.empty_append _).symm⟩
      · rw [List.take_zero, stmts]
        rfl
      · have hone := stmts_cons_ok hg (show stmts .modules Place.top [] p₀ = .ok .empty p₀ by
          rw [stmts]; rfl)
        rw [Fragment.append_empty] at hone
        rw [Fragment.empty_append]
        exact hone
    | succ k =>
      obtain ⟨before, own, behind, p₁, p₂, hsplit⟩ := ih hg' hs
      refine ⟨g.discard ++ before, own, behind, p₁, p₂, ?_, hsplit.here, ?_, ?_⟩
      · exact stmts_cons_ok hg hsplit.front
      · rw [Fragment.append_assoc]
        exact stmts_cons_ok hg hsplit.next
      · rw [hsplit.whole, Fragment.append_assoc]

/-!
# Layouts
-/

theorem takes_section (h : stmt .modules Place.top s p = .ok f p') (hsize : f.length ≤ Slot.limit) :
    f.discard.Takes .top .top none :=
  (takes_stmt s h hsize Place.admits_top _ (Layout.gains_push _) (Or.inl rfl)).discard

/-- There is one choice of layouts for a whole list of statements, and between any two of them the
layout is that of the beginning. -/
theorem takes_sections (h : stmts .modules Place.top body p = .ok f p') (hsize : f.length ≤ Slot.limit) :
    ∃ ty, f.FitsAt ty f.length 0 none ∧ ∀ k g p₁, k ≤ body.length →
      stmts .modules Place.top (body.take k) p = .ok g p₁ → ty g.length = .top := by
  induction body generalizing p f with
  | nil =>
    rw [stmts] at h
    obtain ⟨rfl, -⟩ := pure_ok h
    refine ⟨fun _ => .top, .empty, fun _ _ _ _ _ => rfl⟩
  | cons s rest ih =>
    obtain ⟨g, p₀, g', hg, hg', rfl⟩ := stmts_cons h
    rw [Fragment.length_append] at hsize
    have hlen : g.discard.length = g.length + 1 := Fragment.length_emit _ _
    obtain ⟨ty, hstart, hstop, hfits⟩ := takes_section hg (by omega)
    obtain ⟨ty', hfits', htop⟩ := ih hg' (by omega)
    have hfirst : ty' 0 = .top := htop 0 .empty p₀ (Nat.zero_le _) (by
      rw [List.take_zero, stmts]
      rfl)
    have hseam : ty g.discard.length = ty' 0 := hstop.trans hfirst.symm
    refine ⟨glue g.discard.length ty ty', ?_, ?_⟩
    · rw [Fragment.length_append]
      refine .append (hfits.embed ?_ (by omega)) (hfits'.embed ?_ (by omega))
      · intro j hj
        rw [Nat.zero_add]
        exact glue_left hseam hj
      · intro j hj
        rw [Nat.zero_add]
        exact glue_right _ _ _ j
    · intro k g₁ p₁ hk hg₁
      cases k with
      | zero =>
        rw [List.take_zero, stmts] at hg₁
        obtain ⟨rfl, -⟩ := pure_ok hg₁
        exact (glue_left hseam (Nat.zero_le _)).trans hstart
      | succ k =>
        obtain ⟨g₂, p₂, g₃, hg₂, hg₃, rfl⟩ := stmts_cons hg₁
        rw [hg] at hg₂
        cases hg₂
        rw [Fragment.length_append, glue_right]
        exact htop k g₃ p₁ (Nat.le_of_succ_le_succ hk) hg₃

/-!
# Exports
-/

/-- The operations that put a name's value into the dict of exports. -/
def exportOps (name : Text) : List Op :=
  [.getVar name, .getVar Key.exports, .push (.text name), .assign .nearest, .pop]

/-- The operations that open the dict of exports. -/
def openingOps : List Op :=
  [.push (.number (Number.ofNat 0)), .buildDict, .push .empty, .push (.text Key.exports),
    .assign .inner, .pop]

/-- The operations of an export; the first one opens the dict. -/
def exportAllOps (first : Bool) (names : List Text) : List Op :=
  (if first then openingOps else []) ++ names.flatMap exportOps ++ [.push .null, .pop]

theorem code_exportCode (span : Span) (first : Bool) (names : List Text) :
    (exportCode span first names).code =
      (if first then (assignStmt span Key.exports (Fragment.dict span 0 Fragment.empty) .inner).code
        else []) ++ names.flatMap fun name =>
          (Fragment.assign span (Fragment.var span name)
            (some ((Fragment.var span Key.exports).emit [.string name])) .nearest).discard.code := by
  have hfold : ∀ (acc : Fragment) (k : Text → Fragment),
      (names.foldl (fun acc name => acc ++ k name) acc).code =
        acc.code ++ names.flatMap fun name => (k name).code := by
    intro acc k
    induction names generalizing acc with
    | nil => exact (List.append_nil _).symm
    | cons name rest ih =>
      rw [List.foldl_cons, ih, Fragment.code_append, List.flatMap_cons, List.append_assoc]
  unfold exportCode
  rw [hfold]
  cases first <;> rfl

/-- The code of an export is read as its operations. -/
theorem reads_export (span : Span) (first : Bool) (names : List Text) :
    List.Forall₂ Instruction.Reads (linked span "Export" (exportCode span first names)).discard.code
      (exportAllOps first names) := by
  have hzero : (Instruction.count 0).Reads (.push (.number (Number.ofNat 0))) :=
    Instruction.stands_count 0 (by decide)
  show List.Forall₂ _ ((linked span "Export" (exportCode span first names)).code ++ [Instruction.bare .pop]) _
  unfold linked exportAllOps
  rw [Fragment.mark_code]
  show List.Forall₂ _
    (((exportCode span first names).code ++ [Instruction.bare .pushNull]) ++ [Instruction.bare .pop]) _
  rw [code_exportCode, List.append_assoc]
  refine List.rel_append (List.rel_append ?_ ?_) (.cons rfl (.cons rfl .nil))
  · cases first with
    | false => exact .nil
    | true => exact .cons hzero (.cons rfl (.cons rfl (.cons rfl (.cons rfl (.cons rfl .nil)))))
  · refine List.rel_flatMap (R := Eq) (List.forall₂_refl names) ?_
    rintro name _ rfl
    exact .cons rfl (.cons rfl (.cons rfl (.cons rfl (.cons rfl .nil))))

/-- Whether exports are open after some statements shows in them. -/
theorem exporting_stmts (h : stmts .modules place body p = .ok f p')
    (hplain : ∀ s ∈ body, s.plainTop = true) :
    p'.exporting = (p.exporting || body.any Stmt.isExport) := by
  induction body generalizing p f with
  | nil =>
    rw [stmts] at h
    obtain ⟨-, rfl⟩ := pure_ok h
    exact (Bool.or_false _).symm
  | cons s rest ih =>
    obtain ⟨g, p₀, g', hg, hg', rfl⟩ := stmts_cons h
    have hs := hplain s List.mem_cons_self
    have hone : p₀.exporting = (p.exporting || s.isExport) := by
      cases s with
      | exports span names =>
        rw [stmt] at hg
        cases hg
        exact (Bool.or_true _).symm
      | _ =>
        rw [(gives_stmt .modules place _ hs p g p₀ hg).2]
        exact (Bool.or_false _).symm
    rw [ih hg' fun s hs => hplain s (List.mem_cons_of_mem _ hs), hone, List.any_cons, Bool.or_assoc]

/-!
# Sections
-/

/-- What is known of the sections of a program and its layouts. -/
structure Sections (body : List Stmt) (ops : Array Op) (ty : Nat → Layout) : Prop where
  first : start body 0 = 0
  last : start body body.length = ops.size
  grows : ∀ k < body.length, start body k < start body (k + 1)
  top : ∀ k ≤ body.length, ty (start body k) = .top
  closed : ∀ (k i : Nat) op, k < body.length → start body k ≤ i → i < start body (k + 1) →
    ops[i]? = some op →
    ∃ t : Nat, (t : Int) = i + 1 + op.reach ∧ start body k ≤ t ∧ t ≤ start body (k + 1)
  tame : ∀ (k i : Nat) s op, body[k]? = some s → s.isExport = false → start body k ≤ i →
    i < start body (k + 1) → ops[i]? = some op → op.Tame ∨ Op.BindsAt ops i
  spelled : ∀ (k : Nat) span names, body[k]? = some (.exports span names) →
    Op.Spelled ops (start body k) (exportAllOps (!(body.take k).any Stmt.isExport) names) ∧
      start body (k + 1) =
        start body k + (exportAllOps (!(body.take k).any Stmt.isExport) names).length

theorem Splits.start {before own behind : Fragment} {p₁ p₂ : Progress}
    (h : Splits body k s ⟨#[], false⟩ f before own behind p₁ p₂) :
    Compiler.start body k = before.length ∧
      Compiler.start body (k + 1) = before.length + own.discard.length :=
  ⟨start_eq h.front, (start_eq h.next).trans (Fragment.length_append _ _)⟩

/-- An instruction of a section, by its place in the section. -/
theorem Splits.inside {before own behind : Fragment} {p₁ p₂ : Progress} {i : Nat}
    (h : Splits body k s ⟨#[], false⟩ f before own behind p₁ p₂) (hlow : Compiler.start body k ≤ i)
    (hhigh : i < Compiler.start body (k + 1)) :
    ∃ j, i = before.length + j ∧ j < own.discard.length ∧
      ∀ n ins, own.discard.code[n]? = some ins → f.code[before.length + n]? = some ins := by
  obtain ⟨hstart, hstop⟩ := h.start
  refine ⟨i - before.length, by omega, by omega, fun n ins hn => ?_⟩
  show f.code[before.code.length + n]? = some ins
  rw [h.whole, Fragment.code_append, List.getElem?_append_right (Nat.le_add_right _ _),
    Nat.add_sub_cancel_left, Fragment.code_append,
    List.getElem?_append_left (List.getElem?_eq_some_iff.mp hn).1]
  exact hn

end

/-- The layouts of a compiled program, with those between its statements. -/
theorem compile_sections {body : List Stmt} {c : Compiled}
    (h : (compile .modules false body).result = .ok c) (hsize : c.program.size ≤ Slot.limit)
    (hplain : ∀ s ∈ body, s.plainTop = true) :
    ∃ (ops : Array Op) (ty : Nat → Layout), Op.ofProgram c.program = ⟨ops, none⟩ ∧
      ops.size = c.program.size ∧ Op.Fit ops ty ∧ Sections body ops ty := by
  obtain ⟨f, p, hf, rfl⟩ := compile_ok h
  obtain ⟨ty, hfits, htop⟩ := takes_sections hf hsize
  have hwhole : start body body.length = f.length := start_eq (p := p) (by rwa [List.take_length])
  have hempty : stmts .modules Place.top (body.take 0) ⟨#[], false⟩ = .ok .empty ⟨#[], false⟩ := by
    rw [List.take_zero, stmts]
    rfl
  have hnone : ∀ e, e ∉ f.exits := fun e he => by cases (hfits.exits e he).2
  obtain ⟨ops, hops, hlen, hfit⟩ :=
    @Op.fit_of_fits ⟨f.code.toArray, f.debug⟩ ty (htop 0 _ _ (Nat.zero_le _) hempty)
      (htop body.length f p (Nat.le_refl _) (by rwa [List.take_length])) hsize fun i ins hins => by
        have hfit := hfits.flows i ins (by simpa using hins) fun e he => absurd he (hnone e)
        rwa [Nat.zero_add] at hfit
  obtain ⟨-, -, hdecoded⟩ := Op.decodeAll_reads hops
  have hreads : ∀ (i : Nat) ins, f.code[i]? = some ins → ∃ op, ops[i]? = some op ∧ ins.Reads op := by
    intro i ins hins
    have := hdecoded i ins hins
    rwa [Array.size_empty, Nat.zero_add] at this
  have hlength : f.length = ops.size := hlen.symm
  refine ⟨ops, ty, hops, hlen, hfit, start_eq hempty, hwhole.trans hlength, ?_, ?_, ?_, ?_, ?_⟩
  · intro k hk
    obtain ⟨before, own, behind, p₁, p₂, hsplit⟩ := stmts_split hf (List.getElem?_eq_getElem hk)
    rw [hsplit.start.1, hsplit.start.2]
    have hpos : own.discard.length = own.length + 1 := Fragment.length_emit _ _
    omega
  · intro k hk
    rcases Nat.lt_or_eq_of_le hk with hlt | rfl
    · obtain ⟨before, own, behind, p₁, p₂, hsplit⟩ := stmts_split hf (List.getElem?_eq_getElem hlt)
      rw [hsplit.start.1]
      exact htop k before p₁ hk hsplit.front
    · rw [hwhole]
      exact htop body.length f p (Nat.le_refl _) (by rwa [List.take_length])
  · intro k i op hk hlow hhigh hop
    obtain ⟨before, own, behind, p₁, p₂, hsplit⟩ := stmts_split hf (List.getElem?_eq_getElem hk)
    obtain ⟨j, rfl, hj, hcode⟩ := hsplit.inside hlow hhigh
    obtain ⟨hstart, hstop⟩ := hsplit.start
    have hwholeLength : f.length = before.length + (own.discard.length + behind.length) := by
      rw [hsplit.whole, Fragment.length_append, Fragment.length_append]
    have hemit : own.discard.length = own.length + 1 := Fragment.length_emit _ _
    have hlimit : f.length ≤ Slot.limit := hsize
    obtain ⟨op', hstands, t, ht, hle⟩ :=
      (takes_section hsplit.here (by omega)).enclosed j _ (List.getElem?_eq_getElem hj)
    obtain ⟨op'', hop'', hread⟩ := hreads _ _ (hcode j _ (List.getElem?_eq_getElem hj))
    obtain rfl : op = op'' := Option.some.inj (hop.symm.trans hop'')
    have hsame : op = op' := hread.eq_of_stands hstands (Op.fitsWord_of_natAbs (by omega))
    subst hsame
    exact ⟨before.length + t, by omega, by omega, by omega⟩
  · intro k i s op hs hexport hlow hhigh hop
    obtain ⟨before, own, behind, p₁, p₂, hsplit⟩ := stmts_split hf hs
    obtain ⟨j, rfl, hj, hcode⟩ := hsplit.inside hlow hhigh
    have htame : own.discard.Tame := by
      have hs := hplain s (List.mem_of_getElem? hs)
      have hs : s.plain = true := by
        cases s with
        | exports => cases hexport
        | _ => exact hs
      exact (gives_stmt .modules Place.top s hs p₁ own p₂ hsplit.here).1.discard
    have hat : ∀ {n ins op}, own.discard.code[n]? = some ins →
        (∀ op', ins.Reads op' → op' = op) → ops[before.length + n]? = some op := by
      intro n ins op hn hread
      obtain ⟨op', hop', hread'⟩ := hreads _ _ (hcode n ins hn)
      rw [hop', hread op' hread']
    obtain ⟨op', hop', hread⟩ := hreads _ _ (hcode j _ (List.getElem?_eq_getElem hj))
    obtain rfl : op = op' := Option.some.inj (hop.symm.trans hop')
    rcases htame.code j _ (List.getElem?_eq_getElem hj) with h | ⟨hmarker, name, scope, hname, htext, hassign⟩
    · exact Or.inl (h op hread)
    · refine Or.inr ⟨hat hmarker ?_, name, scope, hname, hat htext ?_, hat hassign ?_⟩
      · exact fun op' h => (Option.some.inj h).symm
      · exact fun op' h => (Option.some.inj h).symm
      · intro op' h
        cases scope <;> exact (Option.some.inj h).symm
  · intro k span names hs
    obtain ⟨before, own, behind, p₁, p₂, hsplit⟩ := stmts_split hf hs
    obtain ⟨hstart, hstop⟩ := hsplit.start
    have hexporting : p₁.exporting = (body.take k).any Stmt.isExport :=
      exporting_stmts hsplit.front fun s hs => hplain s (List.mem_of_mem_take hs)
    have hown : own = linked span "Export" (exportCode span (!p₁.exporting) names) := by
      have hhere := hsplit.here
      rw [stmt] at hhere
      cases hhere
      rfl
    have hreadsAll := reads_export span (!(body.take k).any Stmt.isExport) names
    rw [← hexporting, ← hown] at hreadsAll
    rw [hstop, hstart, ← hexporting]
    have hcode : f.code = before.code ++ (own.discard.code ++ behind.code) := by
      rw [hsplit.whole]
      rfl
    refine ⟨Op.spelled_of_code hops hcode hreadsAll, ?_⟩
    · rw [← hreadsAll.length_eq]
      rfl

/-!
# Positions in sections
-/

namespace Sections

variable {body : List Stmt} {ops : Array Op} {ty : Nat → Layout} {k j i : Nat}

theorem start_lt (h : Sections body ops ty) (hlt : k < j) (hj : j ≤ body.length) :
    start body k < start body j := by
  induction hlt with
  | refl => exact h.grows k hj
  | step _ ih => exact Nat.lt_trans (ih (Nat.le_of_succ_le hj)) (h.grows _ hj)

/-- A position lies in one section only. -/
theorem unique (h : Sections body ops ty) (hk : k < body.length) (hj : j < body.length)
    (hlow : start body k ≤ i) (hhigh : i < start body (k + 1)) (hlow' : start body j ≤ i)
    (hhigh' : i < start body (j + 1)) : k = j := by
  have hapart : ∀ {a b}, a < b → b < body.length → start body b ≤ i → ¬ i < start body (a + 1) := by
    intro a b hab hb hi hi'
    rcases Nat.lt_or_eq_of_le (show a + 1 ≤ b from hab) with hlt | rfl
    · exact Nat.not_lt_of_le hi (Nat.lt_trans hi' (h.start_lt hlt (Nat.le_of_lt hb)))
    · exact Nat.not_lt_of_le hi hi'
  rcases Nat.lt_trichotomy k j with hlt | heq | hgt
  · exact absurd hhigh (hapart hlt hj hlow')
  · exact heq
  · exact absurd hhigh' (hapart hgt hk hlow)

/-- Every position lies in a section. -/
theorem find (h : Sections body ops ty) (hi : i < ops.size) :
    ∃ k < body.length, start body k ≤ i ∧ i < start body (k + 1) := by
  have hbelow : ∀ n ≤ body.length, i < start body n →
      ∃ k < n, start body k ≤ i ∧ i < start body (k + 1) := by
    intro n
    induction n with
    | zero =>
      intro _ hlt
      rw [h.first] at hlt
      exact absurd hlt (Nat.not_lt_zero i)
    | succ n ih =>
      intro hn hlt
      rcases Nat.lt_or_ge i (start body n) with hbefore | hlow
      · obtain ⟨k, hk, hin⟩ := ih (Nat.le_of_succ_le hn) hbefore
        exact ⟨k, Nat.lt_succ_of_lt hk, hin⟩
      · exact ⟨n, Nat.lt_succ_self n, hlow, hlt⟩
  exact hbelow body.length (Nat.le_refl _) (h.last.symm ▸ hi)

end Sections

/-- The operations of exports go on with the next one, in the same activation. -/
theorem flow_exportAllOps {first : Bool} {names : List Text} {op : Op} {a : Layout} {o : Onward}
    (hop : op ∈ exportAllOps first names) (h : op.Flow a o) :
    ∃ b, o = .next b ∧ b.inCall = a.inCall ∧ b.live = a.live := by
  have hkind : (∃ v, op = .push v) ∨ op = .buildDict ∨ (∃ name, op = .getVar name) ∨
      (∃ scope, op = .assign scope) ∨ op = .pop := by
    unfold exportAllOps at hop
    rcases List.mem_append.mp hop with hop | hop
    · rcases List.mem_append.mp hop with hop | hop
      · split at hop
        · simp only [openingOps, List.mem_cons, List.not_mem_nil, or_false] at hop
          rcases hop with rfl | rfl | rfl | rfl | rfl | rfl <;> simp
        · exact absurd hop List.not_mem_nil
      · obtain ⟨name, -, hop⟩ := List.mem_flatMap.mp hop
        simp only [exportOps, List.mem_cons, List.not_mem_nil, or_false] at hop
        rcases hop with rfl | rfl | rfl | rfl | rfl <;> simp
    · simp only [List.mem_cons, List.not_mem_nil, or_false] at hop
      rcases hop with rfl | rfl <;> simp
  rcases hkind with ⟨v, rfl⟩ | rfl | ⟨name, rfl⟩ | ⟨scope, rfl⟩ | rfl <;> cases h <;>
    exact ⟨_, rfl, rfl, rfl⟩

/-- Code of exports is never part of a function. -/
theorem Sections.outside {body : List Stmt} {ops : Array Op} {ty : Nat → Layout} {k i : Nat} {span : Span}
    {names : List Text} (h : Sections body ops ty) (hfit : Op.Fit ops ty)
    (hs : body[k]? = some (.exports span names)) (hlow : start body k ≤ i)
    (hhigh : i < start body (k + 1)) : (ty i).inCall = false := by
  obtain ⟨hspelled, hlen⟩ := h.spelled k span names hs
  have hk : k < body.length := (List.getElem?_eq_some_iff.mp hs).1
  have hlive : ∀ n, n < (exportAllOps (!(body.take k).any Stmt.isExport) names).length →
      (ty (start body k + n)).inCall = false ∧ (ty (start body k + n)).live = true := by
    intro n
    induction n with
    | zero =>
      intro _
      rw [Nat.add_zero, h.top k (Nat.le_of_lt hk)]
      exact ⟨rfl, rfl⟩
    | succ n ih =>
      intro hn
      obtain ⟨hcall, hlive⟩ := ih (Nat.lt_of_succ_lt hn)
      have hop := List.getElem?_eq_getElem (Nat.lt_of_succ_lt hn)
      obtain ⟨o, hflow, hlands⟩ := hfit.flows _ _ (hspelled n _ hop) hlive
      obtain ⟨b, rfl, hcall', hlive'⟩ := flow_exportAllOps (List.mem_of_getElem? hop) hflow
      have hnext : ty (start body k + n + 1) = b := hlands
      rw [← Nat.add_assoc, hnext]
      exact ⟨hcall'.trans hcall, hlive'.trans hlive⟩
  have hin := (hlive (i - start body k) (by omega)).1
  rwa [Nat.add_sub_cancel' hlow] at hin

end Compiler
end ScriptEngine
