import ScriptEngine.Proofs.Execution.NativeFailures

/-!
# Call histories

A call history is read off the boundary frames. They name the calls in progress and, where a native has
called a closure, the native; one that fails itself is put in front. The calls in progress and the natives
that wait are the links of one chain, from the innermost to the root.
-/

namespace ScriptEngine

/-!
# The chain of a run
-/

/-- A call in progress, with its boundary frame and the place that it has reached, a native, or a type
that constructs an instance or converts a value. -/
inductive Link where
  | call (b : FrameId) (site : Option Span)
  | native (n : NativeInfo)
  | type

namespace Link

def frame? : Link → Option FrameId
  | call b _ => some b
  | _ => none

/-- What the link stands for on the stack of running natives: as there, a type has no name. -/
def entry? : Link → Option Text
  | call .. => none
  | native n => some n.name
  | type => some Text.empty

/-- The natives and types that wait up to the instruction by which the outermost of them was called, and
the work behind that. -/
def cut : List Pending → List Link × List Pending
  | .native n _ _ :: rest => (native n :: (cut rest).1, (cut rest).2)
  | .construct _ :: rest => (type :: (cut rest).1, (cut rest).2)
  | .convert :: rest => (type :: (cut rest).1, (cut rest).2)
  | .instruction :: rest => ([], rest)
  | .nested sn :: rest => ([], .nested sn :: rest)
  | [] => ([], [])

/-- The calls with what waits between them. Each call is given with whether a native or a type has made
it, which then waits around it. -/
def nest : List Pending → List (Link × Bool) → List Link
  | _, [] => []
  | pending, (link, nested) :: calls =>
    (cut pending).1 ++
      link :: nest (if nested then (cut pending).2.tail else (cut pending).2) calls

/-- The calls of boundary frames, the innermost first: it has reached a place, and the others have
reached the places that the records give. The root comes last and has no record. -/
def calls (span : Int → Option Span) : List FrameId → Option Span → List CallRecord →
    List (Link × Bool)
  | [], _, _ => []
  | b :: _, site, [] => [(call b site, false)]
  | b :: bs, site, record :: records =>
    (call b site, record.reentry) :: calls span bs (span record.callIp) records

end Link

/-- The chain of the state, from the innermost link to the root. -/
def State.chain (s : State) : List Link :=
  Link.nest s.pending (Link.calls s.machine.spanAt s.machine.activations (s.machine.spanAt s.machine.ip)
    s.machine.calls.toList.reverse)

/-- How a chain shows in a call history, given the link inside of it. Each call is listed with its name
and place. A native is listed if it has called a closure, and if nothing is inside of it, so that it has
failed itself; it is not listed if it has called a type. Nothing is said of a native that has called
another one. -/
inductive Store.Lists (s : Store) : Option Link → List Link → List TraceFrame → Prop
  | nil {inner : Option Link} : Lists s inner [] []
  | call {inner : Option Link} {b : FrameId} {fr : Frame} {site : Option Span} {chain : List Link}
    {trace : List TraceFrame} (hb : s.frame? b = some fr)
    (h : Lists s (some (.call b site)) chain trace) :
    Lists s inner (.call b site :: chain) (⟨Key.display fr.name, site⟩ :: trace)
  | failed {n : NativeInfo} {chain : List Link} {trace : List TraceFrame}
    (h : Lists s (some (.native n)) chain trace) :
    Lists s none (.native n :: chain) (⟨Key.display n.name, none⟩ :: trace)
  | calling {b : FrameId} {site : Option Span} {n : NativeInfo} {chain : List Link}
    {trace : List TraceFrame} (hn : n.name.isEmpty = false)
    (h : Lists s (some (.native n)) chain trace) :
    Lists s (some (.call b site)) (.native n :: chain) (⟨Key.display n.name, none⟩ :: trace)
  | unnamed {b : FrameId} {site : Option Span} {n : NativeInfo} {chain : List Link}
    {trace : List TraceFrame} (hn : n.name.isEmpty = true)
    (h : Lists s (some (.native n)) chain trace) :
    Lists s (some (.call b site)) (.native n :: chain) trace
  | converting {n : NativeInfo} {chain : List Link} {trace : List TraceFrame}
    (h : Lists s (some (.native n)) chain trace) : Lists s (some .type) (.native n :: chain) trace
  | relaying {n n' : NativeInfo} {chain : List Link} {trace trace' : List TraceFrame}
    (htrace : trace' = trace ∨ trace' = ⟨Key.display n.name, none⟩ :: trace)
    (h : Lists s (some (.native n)) chain trace) :
    Lists s (some (.native n')) (.native n :: chain) trace'
  | type {inner : Option Link} {chain : List Link} {trace : List TraceFrame}
    (h : Lists s (some .type) chain trace) : Lists s inner (.type :: chain) trace

/-!
# Chains and their histories
-/

section
variable {w : Watch} {s : Store} {span : Int → Option Span} {root b : FrameId} {q : Stance}
  {pending : List Pending} {site : Option Span} {records : List CallRecord} {record : CallRecord}
  {bs : List FrameId}

/-- What a call history says about calls. -/
def Store.histories (s : Store) (span : Int → Option Span) (bs : List FrameId) (site : Option Span)
    (records : List CallRecord) : List TraceFrame :=
  (List.zipWith s.history bs (site :: records.map fun record => span record.callIp)).flatten

theorem Store.histories_cons : s.histories span (b :: bs) site (record :: records) =
    s.history b site ++ s.histories span bs (span record.callIp) records := rfl

/-- What the boundary frame of a closure says about the native that has called it. -/
def TraceFrame.caller (native : Text) : List TraceFrame :=
  if native.isEmpty then [] else [⟨Key.display native, none⟩]

theorem TraceFrame.caller_empty : TraceFrame.caller Text.empty = [] := rfl

theorem Store.history_eq {fr : Frame} {name native : Text} {callSite : Option Span}
    {caller : Option FrameId} (hb : s.frame? b = some fr)
    (hkind : fr.kind = .boundary name callSite caller native) (site : Option Span) :
    s.history b site = ⟨Key.display fr.name, site⟩ :: TraceFrame.caller native := by
  have hnative : fr.native = native := by
    unfold Frame.native
    rw [hkind]
  unfold Store.history TraceFrame.caller
  rw [hb, ← hnative]

theorem Link.nest_active {calls : List (Link × Bool)} (h : Link.cut pending = ([], pending)) :
    Link.nest (.instruction :: pending) calls = Link.nest pending calls := by
  cases calls with
  | nil => rfl
  | cons call calls =>
    unfold Link.nest
    rw [h]
    rfl

theorem Link.nest_cons {work : Pending} {link : Link} {calls : List (Link × Bool)}
    (hwork : Link.cut (work :: pending) = (link :: (Link.cut pending).1, (Link.cut pending).2))
    (hcalls : calls ≠ []) : Link.nest (work :: pending) calls = link :: Link.nest pending calls := by
  cases calls with
  | nil => exact absurd rfl hcalls
  | cons call calls =>
    unfold Link.nest
    rw [hwork]
    rfl

theorem Link.calls_ne_nil {n : Nat} (h : bs.length = n + 1) :
    Link.calls span bs site records ≠ [] := by
  obtain ⟨b, bs, rfl⟩ := List.exists_cons_of_length_eq_add_one h
  cases records <;> exact List.cons_ne_nil _ _

/-- An activation waits for nothing but the nested run that it belongs to. -/
theorem Aligned.cut_active {g : Base} (hfloor : w.floor = none)
    (h : Aligned w s pending (.active g b)) : Link.cut pending = ([], pending) := by
  rcases h.unwind with rfl | ⟨tier, htier⟩ | ⟨q, sn, rest, rfl, -⟩
  · rfl
  · rw [hfloor] at htier
    cases htier
  · rfl

/-- The part of a chain from a level on shows in the history of its calls. Work that waits lies outside
of a native or a type, or of a closure that is called in its stance; then the closure tells of it. -/
def Tier.Listed (s : Store) (span : Int → Option Span) (root : FrameId) (pending : List Pending) :
    Tier → Prop
  | active g b => ∃ bs, Chain s span root b g.calls.toList.reverse g.captured.toList.reverse bs ∧
      ∀ inner site, s.Lists inner (Link.nest pending (Link.calls span bs site g.calls.toList.reverse))
        (s.histories span bs site g.calls.toList.reverse)
  | waiting q => ∃ f n b bs, q.frame = some f ∧ s.Above f n b ∧
      Chain s span root b q.calls.toList.reverse q.captured.toList.reverse bs ∧
      (∀ inner, inner = .type ∨ (∃ n, inner = .native n) →
        s.Lists (some inner) (Link.nest pending (Link.calls span bs (span q.ip) q.calls.toList.reverse))
          (s.histories span bs (span q.ip) q.calls.toList.reverse)) ∧
      ((∀ rest, pending ≠ .instruction :: rest) → ∀ b' site,
        s.Lists (some (.call b' site))
          (Link.nest pending (Link.calls span bs (span q.ip) q.calls.toList.reverse))
          (TraceFrame.caller q.caller ++ s.histories span bs (span q.ip) q.calls.toList.reverse))

theorem Stance.base_calls (q : Stance) (around : Option FrameId) (depth : Nat) (reentry : Bool) :
    (q.base around depth reentry).calls.toList.reverse =
      ⟨q.ip, depth, reentry⟩ :: q.calls.toList.reverse := by
  simp [Stance.base]

theorem Stance.base_captured (q : Stance) (around : Option FrameId) (depth : Nat) (reentry : Bool) :
    (q.base around depth reentry).captured.toList.reverse =
      around :: q.captured.toList.reverse := by
  simp [Stance.base]

namespace Tier.Listed

variable {g : Base} {around : Option FrameId} {depth : Nat} {b' : FrameId}

theorem outermost {fr : Frame} {name : Text} (hb : s.frame? root = some fr)
    (hkind : fr.kind = .boundary name none none Text.empty) :
    Tier.Listed s span root [] (.active ⟨#[], #[], #[]⟩ root) := by
  refine ⟨[root], .root hb hkind, fun inner site => ?_⟩
  have hhistory : s.histories span [root] site [] = [⟨Key.display fr.name, site⟩] := by
    unfold Store.histories
    simp [Store.history_eq hb hkind, TraceFrame.caller_empty]
  show s.Lists inner [.call root site] (s.histories span [root] site [])
  rw [hhistory]
  exact .call hb .nil

/-- A closure that is called by an instruction tells of no native. -/
theorem called (h : Tier.Listed s span root pending (.active g b))
    (hcut : Link.cut pending = ([], pending)) (hq : q.In s g b)
    (hb : s.CalledFrom (span q.ip) Text.empty q around b') :
    Tier.Listed s span root pending (.active (q.base around depth false) b') := by
  obtain ⟨bs, hchain, hlists⟩ := h
  obtain ⟨f, n, hf, habove⟩ := hq.frame
  obtain ⟨fr, name, hfr, hkind, houter, hlt⟩ := hb
  rw [← hq.calls, ← hq.captured] at hchain
  rw [← hq.calls] at hlists
  refine ⟨b' :: bs, ?_, fun inner site => ?_⟩
  · rw [q.base_calls, q.base_captured]
    rw [hf] at hkind
    exact .call hfr hkind houter habove (hlt f hf) hchain
  · rw [q.base_calls, Store.histories_cons, Store.history_eq hfr hkind, TraceFrame.caller_empty]
    unfold Link.calls Link.nest
    rw [hcut]
    exact .call hfr (hlists _ _)

/-- A closure that is called by a native tells of it. -/
theorem nested (h : Tier.Listed s span root pending (.waiting q)) (sn : Snapshot)
    (hother : ∀ rest, pending ≠ .instruction :: rest)
    (hb : s.CalledFrom (span q.ip) q.caller q around b') :
    Tier.Listed s span root (.nested sn :: pending) (.active (q.base around depth true) b') := by
  obtain ⟨f, n, b, bs, hf, habove, hchain, -, hlists⟩ := h
  obtain ⟨fr, name, hfr, hkind, houter, hlt⟩ := hb
  refine ⟨b' :: bs, ?_, fun inner site => ?_⟩
  · rw [q.base_calls, q.base_captured]
    rw [hf] at hkind
    exact .call hfr hkind houter habove (hlt f hf) hchain
  · rw [q.base_calls, Store.histories_cons, Store.history_eq hfr hkind]
    exact .call hfr (hlists hother b' site)

theorem instruction (h : Tier.Listed s span root pending (.active g b))
    (hcut : Link.cut pending = ([], pending)) (hq : q.In s g b) :
    Tier.Listed s span root (.instruction :: pending) (.waiting q) := by
  obtain ⟨bs, hchain, hlists⟩ := h
  obtain ⟨f, n, hf, habove⟩ := hq.frame
  rw [← hq.calls, ← hq.captured] at hchain
  rw [← hq.calls] at hlists
  refine ⟨f, n, b, bs, hf, habove, hchain, fun inner _ => ?_, fun hother => absurd rfl (hother _)⟩
  rw [Link.nest_active hcut]
  exact hlists _ _

/-- A type does not show, and neither does a native that has called it. -/
theorem type {work : Pending} (h : Tier.Listed s span root pending (.waiting q))
    (hwork : Link.cut (work :: pending) = (.type :: (Link.cut pending).1, (Link.cut pending).2)) :
    Tier.Listed s span root (work :: pending) (.waiting (q.within Text.empty)) := by
  obtain ⟨f, n, b, bs, hf, habove, hchain, hlists, -⟩ := h
  have hcalls : Link.calls span bs (span q.ip) q.calls.toList.reverse ≠ [] :=
    Link.calls_ne_nil hchain.lengths.2
  have hnest := Link.nest_cons hwork hcalls
  have hinner := hlists .type (.inl rfl)
  have hcaller : TraceFrame.caller (q.within Text.empty).caller = [] := by
    simp [Stance.caller, Stance.within, TraceFrame.caller_empty]
  refine ⟨f, n, b, bs, hf, habove, hchain, fun _ _ => hnest ▸ .type hinner, fun _ _ _ => ?_⟩
  rw [hcaller]
  exact hnest ▸ .type hinner

/-- A native shows if it calls a closure. -/
theorem native (h : Tier.Listed s span root pending (.waiting q)) (n : NativeInfo) (sn : Snapshot)
    (resume : Except Fault Value → World → Action) :
    Tier.Listed s span root (.native n sn resume :: pending) (.waiting (q.within n.name)) := by
  obtain ⟨f, k, b, bs, hf, habove, hchain, hlists, -⟩ := h
  have hcalls : Link.calls span bs (span q.ip) q.calls.toList.reverse ≠ [] :=
    Link.calls_ne_nil hchain.lengths.2
  have hnest : Link.nest (.native n sn resume :: pending) _ = _ := Link.nest_cons rfl hcalls
  have hinner := hlists (.native n) (.inr ⟨n, rfl⟩)
  refine ⟨f, k, b, bs, hf, habove, hchain, ?_, fun _ b' site => ?_⟩
  · rintro _ (rfl | ⟨n', rfl⟩)
    · exact hnest ▸ .converting hinner
    · exact hnest ▸ .relaying (.inl rfl) hinner
  · have hcaller : (q.within n.name).caller = n.name := by simp [Stance.caller, Stance.within]
    rw [hcaller]
    show s.Lists _ (Link.nest _ (Link.calls span bs (span q.ip) q.calls.toList.reverse)) _
    rw [hnest]
    unfold TraceFrame.caller
    cases hname : n.name.isEmpty with
    | true => exact .unnamed hname hinner
    | false => exact .calling hname hinner

end Tier.Listed

/-- The levels of a run show in the histories of their calls, provided that no instruction waits for a
closure. -/
theorem Aligned.listed (hfloor : w.floor = none) (hroot : w.root = some root) {tier : Tier}
    (h : Aligned w s pending tier) :
    (∀ above sn rest, pending ≠ above ++ .nested sn :: .instruction :: rest) →
      tier.Listed s w.span root pending := by
  induction h with
  | floor h =>
    rw [hfloor] at h
    cases h
  | root _ hroot' hb hkind =>
    rw [hroot] at hroot'
    cases hroot'
    exact fun _ => .outermost hb hkind
  | called h hq _ hb _ _ ih => exact fun hdirect => (ih hdirect).called (h.cut_active hfloor) hq hb
  | @nested _ _ _ sn _ _ _ _ hb _ _ ih =>
    exact fun hdirect => (ih fun above sn' rest heq =>
      hdirect (.nested sn :: above) sn' rest (congrArg _ heq)).nested sn
        (fun rest heq => hdirect [] sn rest (congrArg _ heq)) hb
  | instruction h hq _ ih =>
    exact fun hdirect => (ih fun above sn rest heq =>
      hdirect (.instruction :: above) sn rest (congrArg _ heq)).instruction (h.cut_active hfloor) hq
  | @construct _ _ i _ ih =>
    exact fun hdirect => (ih fun above sn rest heq =>
      hdirect (.construct i :: above) sn rest (congrArg _ heq)).type rfl
  | convert _ ih =>
    exact fun hdirect => (ih fun above sn rest heq =>
      hdirect (.convert :: above) sn rest (congrArg _ heq)).type rfl
  | @native _ _ n sn resume _ _ _ _ ih =>
    exact fun hdirect => (ih fun above sn' rest heq =>
      hdirect (.native n sn resume :: above) sn' rest (congrArg _ heq)).native n sn resume

/-!
# What a chain holds
-/

/-- No call is among what waits for one. -/
theorem Link.cut_frames (pending : List Pending) : (cut pending).1.filterMap frame? = [] := by
  induction pending with
  | nil => rfl
  | cons work rest ih => cases work <;> first | rfl | exact ih

theorem Link.nest_frames {calls : List (Link × Bool)} :
    (nest pending calls).filterMap frame? = calls.filterMap (·.1.frame?) := by
  induction calls generalizing pending with
  | nil => rfl
  | cons call calls ih =>
    unfold nest
    rw [List.filterMap_append, cut_frames, List.nil_append, List.filterMap_cons, List.filterMap_cons,
      ih]

theorem Link.nest_getLast? {calls : List (Link × Bool)} :
    (nest pending calls).getLast? = calls.getLast?.map (·.1) := by
  induction calls generalizing pending with
  | nil => rfl
  | cons call calls ih =>
    unfold nest
    rw [List.getLast?_append_cons, List.getLast?_cons, List.getLast?_cons, ih]
    cases calls.getLast? <;> rfl

theorem Chain.calls_frames {arounds : List (Option FrameId)}
    (h : Chain s span root b records arounds bs) (site : Option Span) :
    (Link.calls span bs site records).filterMap (·.1.frame?) = bs := by
  induction h generalizing site with
  | root => rfl
  | call _ _ _ _ _ _ ih => exact congrArg _ (ih _)

theorem Chain.calls_getLast? {arounds : List (Option FrameId)}
    (h : Chain s span root b records arounds bs) (site : Option Span) :
    ((Link.calls span bs site records).getLast?.map (·.1)).bind Link.frame? = some root := by
  induction h generalizing site with
  | root => rfl
  | call _ _ _ _ _ h ih =>
    unfold Link.calls
    rw [List.getLast?_cons_of_ne_nil (Link.calls_ne_nil h.lengths.2)]
    exact ih _

/-- Everything that waits is a link. -/
theorem Aligned.nest_entries (hfloor : w.floor = none) {tier : Tier} (h : Aligned w s pending tier) :
    ∀ {bs : List FrameId} {site : Option Span}, bs.length = tier.calls.size + 1 →
      (Link.nest pending (Link.calls span bs site tier.calls.toList.reverse)).filterMap Link.entry? =
        pending.filterMap Pending.entry? := by
  induction h with
  | floor h =>
    rw [hfloor] at h
    cases h
  | root =>
    intro bs site hbs
    obtain ⟨b, rfl⟩ := List.length_eq_one_iff.mp hbs
    rfl
  | @called pending g _ _ q around depth h hq _ _ _ _ ih =>
    intro bs site hbs
    have hsize : bs.length = q.calls.size + 1 + 1 := hbs.trans (congrArg (· + 1) (Array.size_push _))
    obtain ⟨b, bs, rfl⟩ := List.exists_cons_of_length_eq_add_one hsize
    show (Link.nest pending (Link.calls span (b :: bs) site
      (q.base around depth false).calls.toList.reverse)).filterMap Link.entry? = _
    rw [q.base_calls]
    unfold Link.calls Link.nest
    rw [h.cut_active hfloor]
    rw [hq.calls] at hsize ⊢
    exact ih (Nat.succ.inj hsize)
  | @nested pending _ q sn around depth h _ _ _ _ ih =>
    intro bs site hbs
    have hsize : bs.length = q.calls.size + 1 + 1 := hbs.trans (congrArg (· + 1) (Array.size_push _))
    obtain ⟨b, bs, rfl⟩ := List.exists_cons_of_length_eq_add_one hsize
    show (Link.nest (.nested sn :: pending) (Link.calls span (b :: bs) site
      (q.base around depth true).calls.toList.reverse)).filterMap Link.entry? = _
    rw [q.base_calls]
    exact ih (Nat.succ.inj hsize)
  | @instruction pending g _ q h hq _ ih =>
    intro bs site hbs
    show (Link.nest _ (Link.calls span bs site q.calls.toList.reverse)).filterMap Link.entry? = _
    have hbs : bs.length = q.calls.size + 1 := hbs
    rw [Link.nest_active (h.cut_active hfloor)]
    rw [hq.calls] at hbs ⊢
    exact ih hbs
  | construct _ ih =>
    intro bs site hbs
    rw [Link.nest_cons rfl (Link.calls_ne_nil hbs)]
    exact congrArg _ (ih hbs)
  | convert _ ih =>
    intro bs site hbs
    rw [Link.nest_cons rfl (Link.calls_ne_nil hbs)]
    exact congrArg _ (ih hbs)
  | native _ _ _ _ ih =>
    intro bs site hbs
    rw [Link.nest_cons rfl (Link.calls_ne_nil hbs)]
    exact congrArg _ (ih hbs)

/-- An activation and work that waits are not told of the same pending work. -/
theorem Aligned.not_waiting (hfloor : w.floor = none) {s' : Store} {g : Base}
    (h : Aligned w s pending (.active g b)) (hwaits : Aligned w s' pending (.waiting q)) : False := by
  rcases h.unwind with rfl | ⟨tier, htier⟩ | ⟨_, sn, rest, rfl, -⟩
  · exact hwaits.pending_ne_nil hfloor rfl
  · rw [hfloor] at htier
    cases htier
  · cases hwaits with
    | floor htier =>
      rw [hfloor] at htier
      cases htier

end

/-!
# Where faults are located
-/

section
variable {w : Watch} {m m' : Machine} {p : Program} {s t : State} {root : FrameId}
  {worker : Option NativeInfo} {f : Fault} {inner : Option Link}

/-- Where the engine is when it, or else the native, has located a fault. -/
inductive Watch.Stands (w : Watch) (t : State) : Option NativeInfo → Prop
  | active (h : w.Active t.pending t.machine) : Stands w t none
  | native {n : NativeInfo} (hm : w.Keeps t.machine)
    (hs : Aligned w t.machine.world.store t.pending (.waiting t.machine.stance)) :
    Stands w t (some n)

/-- An outcome goes to the work that waits for it. -/
theorem InStep.waiting {pending : List Pending} {st : Store} {q : Stance} (hfloor : w.floor = none)
    (h : InStep w ⟨m, pending, .delivering (.error f)⟩) (hwaits : Aligned w st pending (.waiting q)) :
    w.Keeps m ∧ Aligned w m.world.store pending (.waiting m.stance) := by
  cases h with
  | settled hm hs => exact ⟨hm, hs⟩
  | broken _ hs => exact (hs.not_waiting hfloor hwaits).elim

/-- An outcome that makes the work on top fail: an instruction locates the fault, or a native does. -/
theorem Aligned.stands {pending : List Pending} {o : Except Fault Value} (hfloor : w.floor = none)
    (hm : w.Keeps m) (hs : Aligned w m.world.store pending (.waiting m.stance))
    (hwaits : ∀ n sn resume, .native n sn resume ∈ pending → Relaying resume)
    (hother : o ≠ .error f) (hnext : State.handOut m pending o = .next t) (ht : InStep w t)
    (hmode : t.mode = .delivering (.error f)) :
    w.Stands t (State.worker? ⟨m, pending, .delivering o⟩) := by
  obtain ⟨m', pending', _⟩ := t
  obtain rfl : _ = _ := hmode
  generalize htier : Tier.waiting m.stance = tier at hs
  cases hs with
  | floor h =>
    rw [hfloor] at h
    cases h
  | root => cases htier
  | called => cases htier
  | nested => cases htier
  | instruction h hq =>
    cases htier
    cases o with
    | ok v => cases hnext
    | error f₀ =>
      cases hnext
      exact .active ⟨hm, _, _, h, hq⟩
  | construct h =>
    cases o with
    | ok v => cases hnext
    | error f₀ =>
      cases hnext
      exact absurd rfl hother
  | convert h =>
    cases o with
    | ok v => cases hnext
    | error f₀ =>
      cases hnext
      exact absurd rfl hother
  | @native rest q n sn resume h =>
    have hresume := hwaits n sn resume List.mem_cons_self
    have hrest : pending' = rest := by
      cases o with
      | ok v => exact (State.follow_fault (hresume.ok v m.world) hnext).1
      | error f₀ =>
        rw [State.handOut_error hresume.error] at hnext
        exact (State.failNative_fault hnext).1
    obtain ⟨hm', hs'⟩ := ht.waiting hfloor (hrest ▸ h)
    exact .native hm' hs'

theorem InStep.stands (hw : w.Sound) (hfloor : w.floor = none) (hs : InStep w s)
    (hlibrary : s.machine.library.Relays)
    (hwaits : ∀ n sn resume, .native n sn resume ∈ s.pending → Relaying resume)
    (hother : s.mode ≠ .delivering (.error f)) (hnext : s.advance = .next t)
    (hmode : t.mode = .delivering (.error f)) (hraised : ¬ f.Raised) : w.Stands t s.worker? := by
  have ht : InStep w t := State.Leads.inStep hw hfloor hs (.step .refl hnext)
  obtain ⟨m', pending', _⟩ := t
  obtain rfl : _ = _ := hmode
  cases hs with
  | running hm hs hq _ =>
    obtain ⟨rfl, hactive⟩ := Watch.Active.fault hw ⟨hm, _, _, hs, hq⟩ hnext
    exact .active hactive
  | invoking hm hs =>
    obtain ⟨rfl, n, -, hworker, -⟩ := (State.invoke_fault hlibrary hnext).resolve_left hraised
    rw [hworker]
    obtain ⟨hm', hs'⟩ := ht.waiting hfloor hs
    exact .native hm' hs'
  | settled hm hs =>
    exact hs.stands hfloor hm hwaits (fun ho => hother (congrArg _ ho)) hnext ht rfl
  | returned => cases hnext
  | ended => cases hnext
  | @broken m pending g b f₀ _ hs =>
    rcases hs.unwind with rfl | ⟨tier, h⟩ | ⟨q, sn, rest, rfl, -⟩
    · cases hnext
    · rw [hfloor] at h
      cases h
    · have hends : State.endNested m rest sn (.error f₀) = _ := hnext
      unfold State.endNested at hends
      dsimp only at hends
      split at hends
      · cases hends
        exact absurd rfl hother
      · cases hends

theorem Machine.Locates.stands (hlibrary : m.library.Relays) (h : m.Locates p worker t f) :
    (Watch.plain m p).Stands t worker := by
  have hsound : (Watch.plain m p).Sound := Watch.plain_sound hlibrary.callsOnly
  cases h with
  | handed _ hreached hfresh hnext hmode hlocated =>
    have hnot : f.isLocated ≠ false := ne_false_of_eq_true hlocated
    exact (hreached.plain hlibrary.callsOnly).stands hsound rfl
      (hreached.library hlibrary.callsOnly ▸ hlibrary)
      (fun _ _ _ => (hreached.waiting hlibrary).relaying) (fun h => hnot (hfresh f h)) hnext hmode
      fun h => hnot h.not_located
  | last _ hreached hpending hmode _ =>
    obtain ⟨machine, pending, mode⟩ := t
    obtain rfl : pending = [] := hpending
    obtain rfl : mode = _ := hmode
    cases hreached with
    | step hs hnext =>
      exact .active ((Machine.Reaches.plain hlibrary.callsOnly hs).active_of_fault hsound rfl hnext)
  | unread _ _ ht =>
    subst ht
    have hstart : InStep (Watch.plain m p) (m.start p) :=
      Machine.Reaches.plain hlibrary.callsOnly .refl
    cases hstart with
    | running hm hs hq =>
      exact .active ⟨hm.of_same rfl rfl rfl rfl rfl (.refl _), _, _, hs, hq.moved _⟩

/-- What a state tells of the calls and natives of its chain, given the link inside of it. -/
structure State.Tells (t : State) (inner : Option Link) : Prop where
  lists : t.machine.world.store.Lists inner t.chain (t.machine.traceAt t.machine.ip).toList
  frames : t.chain.filterMap Link.frame? = t.machine.activations
  entries : t.chain.filterMap Link.entry? = t.machine.natives.toList.reverse
  rooted : t.chain.getLast?.bind Link.frame? = t.machine.root

theorem State.tells_of_chain {f b : FrameId} {n : Nat} {bs : List FrameId} (hm : w.Keeps t.machine)
    (hroot : w.root = some root) (hf : t.machine.frame = some f)
    (habove : t.machine.world.store.Above f n b)
    (hchain : Chain t.machine.world.store w.span root b t.machine.calls.toList.reverse
      t.machine.captured.toList.reverse bs)
    (hlists : t.machine.world.store.Lists inner
      (Link.nest t.pending (Link.calls w.span bs (w.span t.machine.ip) t.machine.calls.toList.reverse))
      (t.machine.world.store.histories w.span bs (w.span t.machine.ip)
        t.machine.calls.toList.reverse))
    (hentries : (Link.nest t.pending
        (Link.calls w.span bs (w.span t.machine.ip) t.machine.calls.toList.reverse)).filterMap
          Link.entry? = t.machine.natives.toList.reverse) : t.Tells inner := by
  obtain ⟨hactivations, htrace⟩ := hchain.activations hf habove
  have hspan := hm.spanAt
  have hlinks : t.chain = Link.nest t.pending
      (Link.calls w.span bs (w.span t.machine.ip) t.machine.calls.toList.reverse) := by
    rw [hspan, ← hactivations]
    rfl
  refine ⟨?_, ?_, hlinks ▸ hentries, ?_⟩
  · rw [hlinks, htrace, ← hspan]
    exact hlists
  · rw [hlinks, Link.nest_frames, hchain.calls_frames, hactivations]
  · rw [hlinks, Link.nest_getLast?, hchain.calls_getLast?, hm.root, hroot]

theorem Watch.Active.tells (h : w.Active t.pending t.machine) (hfloor : w.floor = none)
    (hroot : w.root = some root)
    (hdirect : ∀ above sn rest, t.pending ≠ above ++ .nested sn :: .instruction :: rest) :
    t.Tells inner := by
  obtain ⟨hm, g, b, hs, hq⟩ := h
  obtain ⟨f, n, hf, habove⟩ := hq.frame
  obtain ⟨bs, hchain, hlists⟩ := hs.listed hfloor hroot hdirect
  have hcalls : t.machine.calls = g.calls := hq.calls
  have hcaptured : t.machine.captured = g.captured := hq.captured
  have hnatives : t.machine.natives = g.natives := hq.natives
  have hlength : bs.length = g.calls.size + 1 := by simpa using hchain.lengths.2
  rw [← hcalls, ← hcaptured] at hchain
  refine State.tells_of_chain hm hroot hf habove hchain ?_ ?_
  · rw [hcalls]
    exact hlists _ _
  · rw [hcalls, hnatives]
    exact (hs.nest_entries hfloor hlength).trans (hs.entries hfloor).symm

theorem Aligned.tells {n : NativeInfo} (hm : w.Keeps t.machine)
    (hs : Aligned w t.machine.world.store t.pending (.waiting t.machine.stance))
    (hfloor : w.floor = none) (hroot : w.root = some root)
    (hdirect : ∀ above sn rest, t.pending ≠ above ++ .nested sn :: .instruction :: rest) :
    t.Tells (some (.native n)) := by
  obtain ⟨f, k, b, bs, hf, habove, hchain, hlists, -⟩ := hs.listed hfloor hroot hdirect
  have hlength : bs.length = t.machine.stance.calls.size + 1 := by simpa using hchain.lengths.2
  exact State.tells_of_chain hm hroot hf habove hchain (hlists _ (.inr ⟨n, rfl⟩))
    ((hs.nest_entries hfloor hlength).trans (hs.entries hfloor).symm)

/-- What is told where a fault is located. -/
theorem Watch.Stands.tells (h : w.Stands t worker) (hfloor : w.floor = none) (hroot : w.root = some root)
    (hdirect : ∀ above sn rest, t.pending ≠ above ++ .nested sn :: .instruction :: rest) :
    t.Tells (worker.map Link.native) := by
  cases h with
  | active h => exact h.tells hfloor hroot hdirect
  | native hm hs => exact hs.tells hm hfloor hroot hdirect

theorem Machine.Locates.tells (hlibrary : m.library.Relays) (h : m.Locates p worker t f) :
    t.Tells (worker.map Link.native) := by
  refine (h.stands hlibrary).tells rfl rfl ?_
  cases h with
  | handed _ hs _ hnext => exact (Machine.Reaches.direct hlibrary (.step hs hnext)).nested
  | last _ ht => exact (ht.direct hlibrary).nested
  | unread _ _ ht =>
    subst ht
    exact fun above sn rest heq => by simp at heq

/-- A native that has failed heads the history. -/
theorem State.Tells.headed (h : t.Tells (worker.map Link.native)) :
    t.machine.world.store.Lists none (worker.toList.map Link.native ++ t.chain)
      ((worker.toList.map fun n => ⟨Key.display n.name, none⟩) ++
        (t.machine.traceAt t.machine.ip).toList) := by
  cases worker with
  | none => exact h.lists
  | some n => exact .failed h.lists

/-- The call history of an execution that fails is that of the chain at the place where the fault was
located, with the native that failed there at its head: it lists every call in progress and every native
that has called a closure, in their order, and ends with the root. The chain holds all calls in progress
and all that was on the stack of running natives. -/
theorem call_histories_list_chains {fuel : Nat} {problems : Array Problem} {trace : Trace}
    (hnatives : m.library.behaviours = Library.standard.behaviours) (hfaulty : m.EndsFaulty fuel p)
    (hfails : m.execute fuel p = some (.failed problems trace, m')) :
    (∃ worker t f, m.Locates p worker t f) ∧
      ∀ worker t f, m.Locates p worker t f →
        t.machine.world.store.Lists none (worker.toList.map Link.native ++ t.chain) trace.toList ∧
        t.chain.filterMap Link.frame? = t.machine.activations ∧
        t.chain.filterMap Link.entry? = t.machine.natives.toList.reverse ∧
        t.chain.getLast?.bind Link.frame? = t.machine.root := by
  have hlibrary := Library.relays_of_standard hnatives
  refine ⟨hfaulty.locates, fun worker t f hlocates => ?_⟩
  obtain ⟨f₀, hfresh, hf⟩ := hlocates.report hlibrary
  obtain ⟨failure, message, hreport⟩ := t.machine.report_eq worker hfresh
  rw [hreport] at hf
  have hfirst : f.problems = #[t.machine.problemAt t.machine.ip failure message] := by
    rw [hf]
    rfl
  obtain ⟨-, htrace⟩ := hlocates.ending hlibrary hfaulty hfails hfirst
  have htells := hlocates.tells hlibrary
  refine ⟨?_, htells.frames, htells.entries, htells.rooted⟩
  have hhistory : trace.toList = (worker.toList.map fun n => ⟨Key.display n.name, none⟩) ++
      (t.machine.traceAt t.machine.ip).toList := by
    rw [htrace, hf]
    exact Array.toList_append
  rw [hhistory]
  exact htells.headed

end

theorem call_histories_list_chains_nestedMaps :
    ∃ c problems trace m' worker t f,
      (Compiler.compile .absent false nestedMaps).result = .ok c ∧
      standardEngine.execute 100 c.program = some (.failed problems trace, m') ∧
      standardEngine.Locates c.program worker t f ∧ trace.size = 5 ∧
      t.machine.world.store.Lists none (worker.toList.map Link.native ++ t.chain) trace.toList ∧
      t.chain.filterMap Link.frame? = t.machine.activations ∧
      t.chain.filterMap Link.entry? = t.machine.natives.toList.reverse ∧
      t.chain.getLast?.bind Link.frame? = t.machine.root := by
  obtain ⟨c, problems, trace, m', hcompiled, hfaulty, hexecute, -, hfive⟩ := nestedMaps_fails
  obtain ⟨⟨worker, t, f, hlocates⟩, hall⟩ := call_histories_list_chains rfl hfaulty hexecute
  exact ⟨c, problems, trace, m', worker, t, f, hcompiled, hexecute, hlocates, hfive,
    hall worker t f hlocates⟩

/-!
# A constructor inside a native
-/

/-- The program `type T(a); func T.new(a) { return missing }; return [1].map(T)`. -/
def failingConstructor : List Stmt :=
  [.typeDef .zero "T" ["a"],
    .impl .zero "new" "T" [⟨"a", none⟩] (.mk .zero [.ret .zero (some (.var .zero "missing"))]),
    .ret .zero (some (.call .zero (.member .zero (.list .zero [.number .zero 1]) "map")
      [.var .zero "T"]))]

/-- Whether an instruction fails while the native is running. -/
def State.failsWithin (name : Text) (s : State) : Bool :=
  match s.mode, s.advance with
  | .running, .next ⟨m, _, .delivering (.error (.located ..))⟩ => m.natives.contains name
  | _, _ => false

/-- Whether an execution fails and its call history has no entry of the name. -/
def Ending.omits (name : Text) : Ending → Bool
  | .failed _ trace => trace.toList.all (·.name != name)
  | .value _ => false

/-- A constructor that fails was called by a native, which is not in the call history. -/
theorem constructor_hides_native :
    ∃ c problems trace m' t f, (Compiler.compile .absent false failingConstructor).result = .ok c ∧
      standardEngine.execute 100 c.program = some (.failed problems trace, m') ∧
      standardEngine.Locates c.program none t f ∧
      Key.join "map" "List" ∈ t.machine.natives ∧
      ∀ entry ∈ trace.toList, entry.name ≠ Key.display (Key.join "map" "List") := by
  obtain ⟨c, hcompiled, hread, hsteps, homits⟩ :
      ∃ c, (Compiler.compile .absent false failingConstructor).result = .ok c ∧
        (Op.ofProgram c.program).flaw.isNone = true ∧
        ((standardEngine.start c.program).steps 28).any
          (·.failsWithin (Key.join "map" "List")) = true ∧
        (standardEngine.execute 100 c.program).any
          (fun r => r.1.omits (Key.display (Key.join "map" "List"))) = true :=
    ⟨_, rfl, by decide +kernel, by decide +kernel, by decide +kernel⟩
  obtain ⟨⟨ending, m'⟩, hexecute, homits⟩ := (Option.any_eq_true _ _).mp homits
  obtain ⟨s, hs, hfails⟩ := (Option.any_eq_true _ _).mp hsteps
  unfold State.failsWithin at hfails
  split at hfails
  · rename_i m₁ pending failure message located history hmode hnext
    cases ending with
    | value v => cases homits
    | failed problems trace =>
      have hworker : s.worker? = none := by
        unfold State.worker?
        rw [hmode]
      have hfresh : ∀ f', s.mode = .delivering (.error f') → f'.isLocated = false := by
        intro f' hf'
        rw [hmode] at hf'
        cases hf'
      have hlocates := Machine.Locates.handed (Option.isNone_iff_eq_none.mp hread) (.of_steps hs) hfresh
        hnext rfl rfl
      rw [hworker] at hlocates
      exact ⟨c, problems, trace, m', _, _, hcompiled, hexecute, hlocates,
        Array.contains_iff_mem.mp hfails,
        fun entry hentry => bne_iff_ne.mp (List.all_eq_true.mp homits entry hentry)⟩
  · cases hfails

end ScriptEngine
