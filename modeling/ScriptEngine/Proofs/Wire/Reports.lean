import ScriptEngine.Proofs.Execution.Equality
import ScriptEngine.Proofs.Wire.Items
import ScriptEngine.Report.Wire

/-!
# Reports read back

A report is read back from its bytes as itself if its texts are valid UTF-8 and it has no more
problems and frames than a reader accepts; any other report is refused. So no two readable reports
have the same bytes.
-/

namespace ScriptEngine

/-!
# What a report can hold
-/

/-- The text is no longer than a length on the wire can say. -/
def Text.Sized (t : Text) : Prop :=
  t.size < 2 ^ 64

instance (t : Text) : Decidable t.Sized :=
  inferInstanceAs (Decidable (t.size < 2 ^ 64))

/-- The numbers of the place are machine words. -/
structure Span.Sized (s : Span) : Prop where
  file : s.file.Sized
  line : Number.fitsWord s.start.line = true
  column : Number.fitsWord s.start.column = true
  stopLine : Number.fitsWord s.stop.line = true
  stopColumn : Number.fitsWord s.stop.column = true

theorem Span.sized_zero : Span.zero.Sized :=
  ⟨by decide, by decide, by decide, by decide, by decide⟩

structure Problem.Sized (p : Problem) : Prop where
  code : p.code.Sized
  message : p.message.Sized
  hint : p.hint.Sized
  span : ∀ s, p.span = some s → s.Sized

structure TraceFrame.Sized (f : TraceFrame) : Prop where
  name : f.name.Sized
  span : ∀ s, f.span = some s → s.Sized

/-- Problems and calls with numbers and lengths that the machine has. -/
structure Report.ContentSized (problems : List Problem) (frames : List TraceFrame) : Prop where
  problemCount : problems.length < 2 ^ 64
  problem : ∀ p ∈ problems, p.Sized
  frameCount : frames.length < 2 ^ 64
  frame : ∀ f ∈ frames, f.Sized

/-- The report has an identifier of sixteen bytes, a stage of one byte, a digest of 32 bytes, and
numbers and lengths that the machine has. -/
structure Report.Sized (r : Report) : Prop where
  runId : r.runId.size = 16
  stage : r.stage.number < 256
  hash : r.hash.size = 32
  content : Report.ContentSized r.problems r.frames
  created : Number.fitsWord r.created = true

/-- The texts of a place that may be absent. -/
def Span.texts : Option Span → List Text
  | some s => [s.file]
  | none => []

def Problem.texts (p : Problem) : List Text :=
  p.code :: p.message :: p.hint :: Span.texts p.span

def TraceFrame.texts (f : TraceFrame) : List Text :=
  f.name :: Span.texts f.span

namespace Report

/-- All texts of a report. -/
def texts (r : Report) : List Text :=
  r.problems.flatMap Problem.texts ++ r.frames.flatMap TraceFrame.texts

/-- The texts are valid UTF-8, and there are not too many problems and frames. -/
def readable (r : Report) : Bool :=
  r.texts.all Text.isUtf8 &&
    (r.problems.length ≤ Cbor.maxElements && r.frames.length ≤ Cbor.maxElements)

open Cbor (Item)

/-!
# The items of reports are plain
-/

theorem fitsWord_iff (i : Int) : Number.fitsWord i = true ↔ -2 ^ 63 ≤ i ∧ i < 2 ^ 63 := by
  unfold Number.fitsWord
  rw [Bool.and_eq_true, decide_eq_true_iff, decide_eq_true_iff]
  exact Iff.rfl

theorem plain_string {room : Nat} {t : Text} (h : t.Sized) : (Item.string t).Plain room :=
  .text h

theorem plain_int {room : Nat} {i : Int} (h : Number.fitsWord i = true) : (Item.int i).Plain room := by
  obtain ⟨hleast, hgreatest⟩ := (fitsWord_iff i).mp h
  unfold Item.int
  split
  · apply Item.Plain.negative
    omega
  · apply Item.Plain.unsigned
    omega

/-- The entries of a map of fields. -/
def presentEntries (fields : List (Nat × Option Item)) : List (Item × Item) :=
  fields.filterMap fun f => f.2.map fun i => (.unsigned f.1, i)

theorem fieldMap_eq (fields : List (Nat × Option Item)) :
    fieldMap fields = .map (presentEntries fields) :=
  rfl

theorem length_presentEntries (fields : List (Nat × Option Item)) :
    (presentEntries fields).length ≤ fields.length :=
  List.length_filterMap_le _ _

theorem mem_presentEntries {fields : List (Nat × Option Item)} {e : Item × Item}
    (h : e ∈ presentEntries fields) : ∃ f ∈ fields, e.1 = .unsigned f.1 ∧ f.2 = some e.2 := by
  obtain ⟨f, hf, hfe⟩ := List.mem_filterMap.mp h
  obtain ⟨i, hi, rfl⟩ := Option.map_eq_some_iff.mp hfe
  exact ⟨f, hf, rfl, hi⟩

/-- A map of a few plain fields is plain. -/
theorem plain_fieldMap {room : Nat} {fields : List (Nat × Option Item)} (hcount : fields.length < 2 ^ 64)
    (hkeys : ∀ f ∈ fields, f.1 < 2 ^ 64) (hfields : ∀ f ∈ fields, ∀ i, f.2 = some i → i.Plain room) :
    (fieldMap fields).Plain (room + 1) := by
  rw [fieldMap_eq]
  apply Item.Plain.map
  · exact Nat.lt_of_le_of_lt (length_presentEntries fields) hcount
  · intro e he
    obtain ⟨f, hf, hkey, -⟩ := mem_presentEntries he
    rw [hkey]
    exact .unsigned (hkeys f hf)
  · intro e he
    obtain ⟨f, hf, -, hvalue⟩ := mem_presentEntries he
    exact hfields f hf e.2 hvalue

theorem plain_spanItem {room : Nat} {s : Span} (h : s.Sized) : (spanItem s).Plain (room + 1) := by
  apply plain_fieldMap
  · exact Nat.lt_trans (show 5 < 6 by decide) (by decide)
  · simp
  · simp only [List.forall_mem_cons, Option.some.injEq, forall_eq']
    exact ⟨plain_string h.file, plain_int h.line, plain_int h.column, plain_int h.stopLine,
      plain_int h.stopColumn, fun _ hf => absurd hf List.not_mem_nil⟩

theorem plain_placeItem {room : Nat} {s : Option Span} (h : ∀ s', s = some s' → s'.Sized) (i : Item)
    (hi : s.map spanItem = some i) : i.Plain (room + 1) := by
  obtain ⟨s', hs, rfl⟩ := Option.map_eq_some_iff.mp hi
  exact plain_spanItem (h s' hs)

theorem plain_problemItem {room : Nat} {p : Problem} (h : p.Sized) :
    (problemItem p).Plain (room + 2) := by
  apply plain_fieldMap
  · exact Nat.lt_trans (show 4 < 5 by decide) (by decide)
  · simp
  · simp only [List.forall_mem_cons, Option.some.injEq, forall_eq']
    exact ⟨plain_string h.code, plain_string h.message, plain_string h.hint, plain_placeItem h.span,
      fun _ hf => absurd hf List.not_mem_nil⟩

theorem plain_frameItem {room : Nat} {f : TraceFrame} (h : f.Sized) :
    (frameItem f).Plain (room + 2) := by
  apply plain_fieldMap
  · exact Nat.lt_trans (show 2 < 3 by decide) (by decide)
  · simp
  · simp only [List.forall_mem_cons, Option.some.injEq, forall_eq']
    exact ⟨plain_string h.name, plain_placeItem h.span, fun _ hf => absurd hf List.not_mem_nil⟩

theorem plain_toItem {r : Report} (h : r.Sized) : r.toItem.Plain Cbor.maxDepth := by
  apply @plain_fieldMap 31
  · exact Nat.lt_trans (show 6 < 7 by decide) (by decide)
  · simp
  · simp only [List.forall_mem_cons, Option.some.injEq, forall_eq']
    constructor
    · exact .bytes (h.runId ▸ by decide)
    constructor
    · exact .unsigned (Nat.lt_trans h.stage (by decide))
    constructor
    · exact .bytes (h.hash ▸ by decide)
    constructor
    · apply Item.Plain.array
      · rw [List.length_map]
        exact h.content.problemCount
      · intro i hi
        obtain ⟨p, hp, rfl⟩ := List.mem_map.mp hi
        exact plain_problemItem (h.content.problem p hp)
    constructor
    · intro i hi
      split at hi
      · cases hi
      · cases hi
        apply Item.Plain.array
        · rw [List.length_map]
          exact h.content.frameCount
        · intro i hi
          obtain ⟨f, hf, rfl⟩ := List.mem_map.mp hi
          exact plain_frameItem (h.content.frame f hf)
    constructor
    · exact plain_int h.created
    · exact fun _ hf => absurd hf List.not_mem_nil

/-!
# Counting elements
-/

theorem admitted_int (i : Int) : (Item.int i).admitted = true := by
  unfold Item.int
  split <;> rw [Item.admitted] <;> simp

theorem admitted_string (t : Text) : (Item.string t).admitted = true := by
  unfold Item.string
  rw [Item.admitted] <;> simp

theorem allAdmitted_map {α : Type} {f : α → Item} (hf : ∀ a, (f a).admitted = true) (l : List α) :
    Item.allAdmitted (l.map f) = true := by
  induction l with
  | nil => rw [List.map_nil, Item.allAdmitted]
  | cons a l ih => rw [List.map_cons, Item.allAdmitted, hf, ih, Bool.and_self]

theorem allAdmitted_presentEntries (fields : List (Nat × Option Item)) :
    Item.allEntriesAdmitted (presentEntries fields) = fields.all fun f => f.2.all Item.admitted := by
  induction fields with
  | nil =>
    show Item.allEntriesAdmitted [] = true
    rw [Item.allEntriesAdmitted]
  | cons f fields ih =>
    obtain ⟨n, i⟩ := f
    cases i with
    | none => exact ih
    | some i =>
      show Item.allEntriesAdmitted ((.unsigned n, i) :: presentEntries fields) = _
      rw [Item.allEntriesAdmitted, ih, Item.admitted]
      · rfl
      · simp
      · simp

/-- A map of a few fields is admitted if they are. -/
theorem admitted_fieldMap {fields : List (Nat × Option Item)}
    (hcount : fields.length ≤ Cbor.maxElements) :
    (fieldMap fields).admitted = fields.all fun f => f.2.all Item.admitted := by
  rw [fieldMap_eq, Item.admitted, allAdmitted_presentEntries, decide_eq_true, Bool.true_and]
  exact Nat.le_trans (length_presentEntries fields) hcount

theorem admitted_spanItem (s : Span) : (spanItem s).admitted = true := by
  unfold spanItem
  rw [admitted_fieldMap (Nat.le_trans (show 5 ≤ 6 by decide) (by decide))]
  simp [admitted_int, admitted_string]

theorem admitted_problemItem (p : Problem) : (problemItem p).admitted = true := by
  unfold problemItem
  rw [admitted_fieldMap (Nat.le_trans (show 4 ≤ 5 by decide) (by decide))]
  cases p.span <;> simp [admitted_spanItem, admitted_string]

theorem admitted_frameItem (f : TraceFrame) : (frameItem f).admitted = true := by
  unfold frameItem
  rw [admitted_fieldMap (Nat.le_trans (show 2 ≤ 3 by decide) (by decide))]
  cases f.span <;> simp [admitted_spanItem, admitted_string]

theorem admitted_array {α : Type} {f : α → Item} (hf : ∀ a, (f a).admitted = true) (l : List α) :
    (Item.array (l.map f)).admitted = decide (l.length ≤ Cbor.maxElements) := by
  rw [Item.admitted, allAdmitted_map hf, List.length_map, Bool.and_true]

theorem admitted_toItem (r : Report) :
    r.toItem.admitted =
      (r.problems.length ≤ Cbor.maxElements && r.frames.length ≤ Cbor.maxElements) := by
  unfold toItem
  dsimp only
  rw [admitted_fieldMap (Nat.le_trans (show 6 ≤ 7 by decide) (by decide))]
  cases hframes : r.frames with
  | nil => simp [admitted_int, Item.blob, Item.admitted, allAdmitted_map admitted_problemItem]
  | cons f frames =>
    have harray := admitted_array admitted_frameItem (f :: frames)
    rw [if_neg (by simp), List.all_cons, List.all_cons, List.all_cons, List.all_cons, List.all_cons,
      Option.all_some, Option.all_some, Option.all_some, Option.all_some, Option.all_some, harray,
      admitted_array admitted_problemItem]
    simp [admitted_int, Item.blob, Item.admitted]

/-!
# Reading fields
-/

/-- The fields that are present, under the keys they are read by. -/
def presentFields (fields : List (Nat × Option Item)) : Fields :=
  fields.filterMap fun f => f.2.map fun i => (.number f.1, i)

theorem readFields_fieldMap (fields : List (Nat × Option Item)) :
    readFields (fieldMap fields) = some (presentFields fields) := by
  rw [fieldMap_eq]
  unfold readFields
  dsimp only [untag]
  induction fields with
  | nil => rfl
  | cons f fields ih =>
    obtain ⟨n, i⟩ := f
    cases i with
    | none => exact ih
    | some i =>
      show List.mapM _ ((.unsigned n, i) :: presentEntries fields) = _
      rw [List.mapM_cons, ih]
      rfl

@[simp] theorem read_nil {α : Type} (n : Nat) (missing : α) (f : Item → Option α) :
    (presentFields []).read n missing f = some missing :=
  rfl

@[simp] theorem read_absent {α : Type} (m : Nat) (fields : List (Nat × Option Item)) (n : Nat)
    (missing : α) (f : Item → Option α) :
    (presentFields ((m, none) :: fields)).read n missing f =
      (presentFields fields).read n missing f :=
  rfl

@[simp] theorem read_present {α : Type} (m : Nat) (i : Item) (fields : List (Nat × Option Item))
    (n : Nat) (missing : α) (f : Item → Option α) :
    (presentFields ((m, some i) :: fields)).read n missing f =
      if m = n then f i else (presentFields fields).read n missing f := by
  have hnames : (FieldKey.number m).names n = decide (m = n) := by
    show decide ((m : Int) = (n : Int)) = decide (m = n)
    exact decide_eq_decide.mpr Int.ofNat_inj
  unfold presentFields Fields.read
  rw [List.filterMap_cons]
  dsimp only [Option.map_some]
  rw [List.find?_cons, hnames]
  by_cases hmn : m = n <;> simp [hmn]

@[simp] theorem readText_string (t : Text) :
    readText (.string t) = if t.isUtf8 then some t else none := by
  show (if [t].all Text.isUtf8 then some (Text.concat [t]) else none) = _
  rw [Text.concat_singleton, List.all_cons, List.all_nil, Bool.and_true]

theorem readInteger_int (i : Int) : readInteger (.int i) = some i := by
  unfold Item.int
  split
  · show some (-1 - ((-1 - i).toNat : Int)) = some i
    congr 1
    omega
  · show some ((i.toNat : Nat) : Int) = some i
    congr 1
    omega

theorem readWord_int {i : Int} (h : Number.fitsWord i = true) : readWord (.int i) = some i := by
  unfold readWord
  rw [readInteger_int]
  exact if_pos h

theorem readByte_unsigned {n : Nat} (h : n < 256) : readByte (.unsigned n) = some n := by
  show (if 0 ≤ (n : Int) && (n : Int) < 256 then some (n : Int).toNat else none) = some n
  simp
  omega

theorem fit_self {n : Nat} {t : Text} (h : t.size = n) : fit n t = t := by
  subst h
  have hbytes : t.bytes.extract 0 t.bytes.size ++ (List.replicate (t.size - t.size) 0).toByteArray =
      t.bytes := by
    rw [Nat.sub_self, List.replicate_zero, ByteArray.extract_zero_size]
    exact ByteArray.append_empty
  exact congrArg Text.mk hbytes

theorem readBytes_blob {n : Nat} {t : Text} (h : t.size = n) (exact : Bool) :
    readBytes n exact (.blob t) = some t := by
  have hwhole : byteString? (.bytes [t]) = some t := congrArg some (Text.concat_singleton t)
  unfold readBytes Item.blob
  dsimp only [untag]
  rw [hwhole]
  simp [h, fit_self h, isNull]

/-!
# Reports read back
-/

/-- What is read where some texts have to be valid. -/
def guarded {α : Type} (texts : List Text) (a : α) : Option α :=
  if texts.all Text.isUtf8 then some a else none

theorem readSpan_spanItem {s : Span} (h : s.Sized) :
    readSpan (spanItem s) = guarded [s.file] s := by
  unfold readSpan spanItem guarded
  rw [readFields_fieldMap]
  cases hfile : s.file.isUtf8 <;>
    simp [hfile, readWord_int h.line, readWord_int h.column, readWord_int h.stopLine,
      readWord_int h.stopColumn]

theorem isNull_spanItem (s : Span) : isNull (spanItem s) = false :=
  rfl

theorem readPlace_spanItem {s : Span} (h : s.Sized) :
    readPlace (spanItem s) = guarded [s.file] (some s) := by
  unfold readPlace
  rw [isNull_spanItem, readSpan_spanItem h]
  unfold guarded
  cases [s.file].all Text.isUtf8 <;> rfl

theorem readProblem_problemItem {p : Problem} (h : p.Sized) :
    readProblem (problemItem p) = guarded p.texts p := by
  obtain ⟨code, span, message, hint⟩ := p
  unfold readProblem problemItem guarded Problem.texts
  rw [readFields_fieldMap]
  cases span with
  | none =>
    cases hcode : code.isUtf8 <;> cases hmessage : message.isUtf8 <;> cases hhint : hint.isUtf8 <;>
      simp [Span.texts, hcode, hmessage, hhint]
  | some s =>
    cases hcode : code.isUtf8 <;> cases hmessage : message.isUtf8 <;> cases hhint : hint.isUtf8 <;>
      cases hfile : s.file.isUtf8 <;>
      simp [Span.texts, guarded, readPlace_spanItem (h.span s rfl), hcode, hmessage, hhint, hfile]

theorem readFrame_frameItem {f : TraceFrame} (h : f.Sized) :
    readFrame (frameItem f) = guarded f.texts f := by
  obtain ⟨name, span⟩ := f
  unfold readFrame frameItem guarded TraceFrame.texts
  rw [readFields_fieldMap]
  cases span with
  | none => cases hname : name.isUtf8 <;> simp [Span.texts, hname]
  | some s =>
    cases hname : name.isUtf8 <;> cases hfile : s.file.isUtf8 <;>
      simp [Span.texts, guarded, readPlace_spanItem (h.span s rfl), hname, hfile]

/-- A list is read back if each of its elements is. -/
theorem readList_array {α : Type} {f : Item → Option α} {item : α → Item} {texts : α → List Text}
    {l : List α} (h : ∀ a ∈ l, f (item a) = guarded (texts a) a) :
    readList f (.array (l.map item)) = guarded (l.flatMap texts) l := by
  show (l.map item).mapM f = _
  unfold guarded
  induction l with
  | nil => rfl
  | cons a l ih =>
    have ha := h a List.mem_cons_self
    have hl := ih fun b hb => h b (List.mem_cons_of_mem _ hb)
    unfold guarded at ha
    rw [List.map_cons, List.mapM_cons, ha, hl, List.flatMap_cons, List.all_append]
    cases (texts a).all Text.isUtf8 <;> cases (l.flatMap texts).all Text.isUtf8 <;> rfl

/-- A report is read back from its item if its texts are valid. -/
theorem ofItem?_toItem {r : Report} (h : r.Sized) : ofItem? r.toItem = guarded r.texts r := by
  have hproblems := readList_array fun p hp => readProblem_problemItem (h.content.problem p hp)
  have hframes := readList_array fun f hf => readFrame_frameItem (h.content.frame f hf)
  obtain ⟨runId, stage, hash, problems, frames, created⟩ := r
  unfold ofItem? toItem guarded texts
  rw [readFields_fieldMap]
  dsimp only at hproblems hframes ⊢
  cases hp : (problems.flatMap Problem.texts).all Text.isUtf8 <;>
    cases hf : (frames.flatMap TraceFrame.texts).all Text.isUtf8 <;>
    cases frames <;>
    simp [readBytes_blob h.runId, readByte_unsigned h.stage, readBytes_blob h.hash,
      readWord_int h.created, hproblems, hframes, guarded, hp, hf, -List.all_flatMap, -List.map_cons,
      -List.flatMap_cons] at hf ⊢

/-- A report is read back from its bytes as itself if it is readable, and refused otherwise. -/
theorem decode?_encode {r : Report} (h : r.Sized) :
    decode? (encode r) = if r.readable then some r else none := by
  unfold decode? encode readable
  rw [Text.toList_ofList, Cbor.decode_encode (plain_toItem h), admitted_toItem]
  have hread := ofItem?_toItem h
  unfold guarded at hread
  cases (decide (r.problems.length ≤ Cbor.maxElements) &&
    decide (r.frames.length ≤ Cbor.maxElements)) with
  | false =>
    rw [Bool.and_false]
    rfl
  | true =>
    rw [Bool.and_true]
    exact hread

end Report

/-!
# Reports of runs

The report of a run is read back if all of its texts are valid UTF-8 and it has no more frames than a
reader accepts, and refused otherwise. The texts of a program need not be valid, so a run can end with
a report that nobody can read.
-/

/-- The problems and calls of the ending have numbers and lengths that the machine has. -/
def Ending.Sized : Ending → Prop
  | .value _ => True
  | .failed problems trace => Report.ContentSized problems.toList trace.toList

/-- The texts that the report of an ending shows. -/
def Ending.texts : Ending → List Text
  | .value _ => []
  | .failed problems trace =>
    problems.toList.flatMap Problem.texts ++ trace.toList.flatMap TraceFrame.texts

/-- The texts are valid UTF-8, and there are not too many problems and calls. -/
def Ending.readable : Ending → Bool
  | .value _ => true
  | .failed problems trace =>
    (Ending.failed problems trace).texts.all Text.isUtf8 &&
      (problems.size ≤ Cbor.maxElements && trace.size ≤ Cbor.maxElements)

namespace Report

/-- A digest has four bytes for each of eight words. -/
theorem size_sha256 (t : Text) : (Digest.sha256 t).size = 32 :=
  Text.size_ofList _

theorem size_programHash (p : Option Program) : (programHash p).size = 32 := by
  cases p with
  | none => exact Text.size_ofList _
  | some p => exact size_sha256 p.listing

theorem ContentSized.empty : ContentSized [] [] where
  problemCount := Nat.two_pow_pos 64
  problem := fun _ h => absurd h List.not_mem_nil
  frameCount := Nat.two_pow_pos 64
  frame := fun _ h => absurd h List.not_mem_nil

theorem ContentSized.reverse {problems : List Problem} {frames : List TraceFrame}
    (h : ContentSized problems frames) : ContentSized problems frames.reverse where
  problemCount := h.problemCount
  problem := h.problem
  frameCount := by
    rw [List.length_reverse]
    exact h.frameCount
  frame := fun f hf => h.frame f (List.mem_reverse.mp hf)

variable {id : Text} {created : Int} {e : Ending}

theorem sized_ofEnding (hid : id.size = 16) (hcreated : Number.fitsWord created = true)
    (h : e.Sized) (p : Option Program) : (ofEnding id created p e).Sized := by
  cases e with
  | value v => exact ⟨hid, show 2 < 256 by decide, size_programHash p, ContentSized.empty, hcreated⟩
  | failed problems trace =>
    exact ⟨hid, show 2 < 256 by decide, size_programHash p, ContentSized.reverse h, hcreated⟩

/-- Turning the call history around changes neither its texts nor its length. -/
theorem readable_ofEnding (id : Text) (created : Int) (p : Option Program) (e : Ending) :
    (ofEnding id created p e).readable = e.readable := by
  cases e with
  | value v => rfl
  | failed problems trace =>
    have htexts : (trace.toList.reverse.flatMap TraceFrame.texts).all Text.isUtf8 =
        (trace.toList.flatMap TraceFrame.texts).all Text.isUtf8 := by
      rw [List.all_flatMap, List.all_reverse, ← List.all_flatMap]
    show ((problems.toList.flatMap _ ++ trace.toList.reverse.flatMap _).all _ &&
        (decide (problems.toList.length ≤ _) && decide (trace.toList.reverse.length ≤ _))) =
      ((problems.toList.flatMap _ ++ trace.toList.flatMap _).all _ && _)
    rw [List.all_append, List.all_append, htexts, List.length_reverse, Array.length_toList,
      Array.length_toList]

/-- The report of an ending is read back as itself if the ending is readable, and refused
otherwise. -/
theorem ending_round_trip (hid : id.size = 16) (hcreated : Number.fitsWord created = true)
    (hsized : e.Sized) (p : Option Program) :
    decode? (encode (ofEnding id created p e)) =
      if e.readable then some (ofEnding id created p e) else none := by
  rw [decode?_encode (sized_ofEnding hid hcreated hsized p), readable_ofEnding]

/-- The ending of a failed assertion in a call from an unnamed place. -/
def failedCall : Ending :=
  .failed #[⟨"RE0011", some .zero, "assertion failed: no", "here"⟩]
    #[⟨"assert", none⟩, ⟨"<main>", some .zero⟩]

theorem ending_round_trip_failedCall :
    decode? (encode (ofEnding (zeros 16) 5 none failedCall)) =
      some (ofEnding (zeros 16) 5 none failedCall) := by
  have hsized : failedCall.Sized :=
    { problemCount := by decide
      frameCount := by decide
      problem := by
        intro p hp
        obtain rfl := List.mem_singleton.mp hp
        exact ⟨by decide, by decide, by decide, fun s hs => Option.some.inj hs ▸ Span.sized_zero⟩
      frame := by
        intro f hf
        rcases List.mem_pair.mp hf with rfl | rfl
        · exact ⟨by decide, fun _ hs => by cases hs⟩
        · exact ⟨by decide, fun s hs => Option.some.inj hs ▸ Span.sized_zero⟩ }
  have hreadable : failedCall.readable = true := by decide
  have hback : decode? (encode (ofEnding (zeros 16) 5 none failedCall)) =
      if failedCall.readable then some (ofEnding (zeros 16) 5 none failedCall) else none :=
    ending_round_trip (by decide) (by decide) hsized none
  rwa [hreadable] at hback

/-!
# A report that nobody can read
-/

/-- The program `assert(false, "\xff")`. -/
def assertingByte : List Stmt :=
  [.expr .zero (.call .zero (.var .zero "assert")
    [.boolean .zero false, .text .zero (Text.ofList [0xff])])]

/-- The run ends with one problem in one call, and its report is refused. -/
theorem invalid_message_not_read_back :
    ∃ c e m, (Compiler.compile .absent false assertingByte).result = .ok c ∧
      standardEngine.execute 40 c.program = some (e, m) ∧
        decode? (encode (ofEnding (zeros 16) 0 (some c.program) e)) = none := by
  obtain ⟨c, hcompiled, hrun⟩ :
      ∃ c, (Compiler.compile .absent false assertingByte).result = .ok c ∧
        (standardEngine.execute 40 c.program).any (fun r =>
          (decode? (encode (ofEnding (zeros 16) 0 (some c.program) r.1))).isNone) = true :=
    ⟨_, rfl, by decide +kernel⟩
  obtain ⟨r, hr, hnone⟩ := (Option.any_eq_true _ _).mp hrun
  exact ⟨c, r.1, r.2, hcompiled, hr, Option.isNone_iff_eq_none.mp hnone⟩

end Report
end ScriptEngine
