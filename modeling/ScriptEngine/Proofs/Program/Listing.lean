import ScriptEngine.Proofs.Text.Quoting
import ScriptEngine.Program

/-!
# Listings tell programs apart

The listing of a program has one line an instruction. A line begins with the instruction's own text;
what may follow begins with two blanks, and nothing inside an instruction does: a name has no blanks,
and a quoted operand ends at its closing quote. So the line tells the instruction, whatever stands in
the operand or in the column of notes, and the listing tells the code. The notes end in one column.
-/

namespace ScriptEngine

/-!
## Names of opcodes
-/

namespace Operation

/-- The bytes of a name are capital letters and underscores. -/
theorem name_bytes (op : Operation) :
    ∀ b ∈ (Text.ofString op.name).toList, b ∉ [0x20, 0x0A, 0x28] := by
  apply Text.notMem_of_all
  cases op <;> decide

theorem ofName?_name (op : Operation) : ofName? (Text.ofString op.name) = some op := by
  cases op <;> decide

end Operation

namespace Opcode

/-- The name of a byte that is not assigned. -/
def unknownName (b : UInt8) : String :=
  "UNKNOWN(0x" ++ hexByte b ++ ")"

theorem toList_unknownName (b : UInt8) :
    (Text.ofString (unknownName b)).toList =
      (Text.ofString "UNKNOWN(0x").toList ++ (Text.ofString (hexByte b)).toList ++ [0x29] := by
  have happend (s t : String) :
      (Text.ofString (s ++ t)).toList = (Text.ofString s).toList ++ (Text.ofString t).toList := by
    rw [← Text.toList_append]
    exact congrArg (fun bytes => (Text.mk bytes).toList) String.toByteArray_append
  rw [unknownName, happend, happend]
  rfl

theorem hexByte_table :
    ∀ n < 256,
      Text.ofHex? (Text.ofString (hexByte (UInt8.ofNat n))) =
          some (Text.ofList [UInt8.ofNat n]) ∧
        (Text.ofString (hexByte (UInt8.ofNat n))).toList.all (· ∉ [0x20, 0x0A]) = true := by
  decide +kernel

/-- Two digits can be read back, and they are neither blank nor line end. -/
theorem hexByte_spec (b : UInt8) :
    Text.ofHex? (Text.ofString (hexByte b)) = some (Text.ofList [b]) ∧
      ∀ c ∈ (Text.ofString (hexByte b)).toList, c ∉ [0x20, 0x0A] := by
  have hb := hexByte_table b.toNat b.toNat_lt
  rw [UInt8.ofNat_toNat] at hb
  exact ⟨hb.1, Text.notMem_of_all hb.2⟩

theorem unknownName_inj {a b : UInt8}
    (h : (Text.ofString (unknownName a)).toList = (Text.ofString (unknownName b)).toList) :
    a = b := by
  rw [toList_unknownName, toList_unknownName] at h
  have hdigits := List.append_cancel_left (List.append_cancel_right h)
  have hread := (hexByte_spec a).1
  rw [Text.toList_inj hdigits, (hexByte_spec b).1] at hread
  have hlist := congrArg Text.toList (Option.some.inj hread)
  rw [Text.toList_ofList, Text.toList_ofList] at hlist
  exact (List.cons.inj hlist).1.symm

/-- No name has a blank or a line end. -/
theorem name_bytes (op : Opcode) : ∀ b ∈ (Text.ofString op.name).toList, b ∉ [0x20, 0x0A] := by
  unfold name
  cases op.operation? with
  | some o =>
    intro b hb hmem
    exact o.name_bytes b hb (List.mem_append_left [0x28] hmem)
  | none =>
    intro b hb
    have hb : b ∈ (Text.ofString (unknownName op.byte)).toList := hb
    rw [toList_unknownName] at hb
    have hfront : ∀ b ∈ (Text.ofString "UNKNOWN(0x").toList, b ∉ [0x20, 0x0A] :=
      Text.notMem_of_all (by decide)
    rcases List.mem_append.mp hb with hb | hb
    · rcases List.mem_append.mp hb with hb | hb
      · exact hfront b hb
      · exact (hexByte_spec op.byte).2 b hb
    · obtain rfl := List.mem_singleton.mp hb
      decide

/-- The name of an operation has no bracket, the name of any other byte has one. -/
theorem name_ne_unknownName (o : Operation) (b : UInt8) :
    (Text.ofString o.name).toList ≠ (Text.ofString (unknownName b)).toList := by
  intro h
  have hmem : 0x28 ∈ (Text.ofString o.name).toList := by
    rw [h, toList_unknownName]
    exact List.mem_append_left _ (List.mem_append_left _ (by decide))
  exact o.name_bytes _ hmem (by decide)

theorem byte_of_operation? {op : Opcode} {o : Operation} (h : op.operation? = some o) :
    o.byte = op.byte := by
  have hfound := List.find?_some (p := fun o : Operation => o.byte == op.byte) h
  exact beq_iff_eq.mp hfound

/-- Opcodes have different names, assigned or not. -/
theorem name_inj {a b : Opcode}
    (h : (Text.ofString a.name).toList = (Text.ofString b.name).toList) : a = b := by
  unfold name at h
  cases ha : a.operation? with
  | some o =>
    cases hb : b.operation? with
    | some o' =>
      rw [ha, hb] at h
      have hname := o.ofName?_name
      rw [Text.toList_inj h, o'.ofName?_name] at hname
      obtain rfl := Option.some.inj hname
      have hbyte := (byte_of_operation? ha).symm.trans (byte_of_operation? hb)
      cases a
      cases b
      exact congrArg mk hbyte
    | none =>
      rw [ha, hb] at h
      exact absurd h (name_ne_unknownName o b.byte)
  | none =>
    cases hb : b.operation? with
    | some o' =>
      rw [ha, hb] at h
      exact absurd h.symm (name_ne_unknownName o' a.byte)
    | none =>
      rw [ha, hb] at h
      have hbyte := unknownName_inj h
      cases a
      cases b
      exact congrArg mk hbyte

end Opcode

/-!
## Texts of instructions
-/

/-- A part without `x` in front of nothing, or of something that begins with `x`, ends there. -/
theorem append_inj_of_notMem {α : Type} [DecidableEq α] {x : α} {a a' b b' : List α}
    (ha : x ∉ a) (ha' : x ∉ a') (hb : b = [] ∨ b.head? = some x) (hb' : b' = [] ∨ b'.head? = some x)
    (h : a ++ b = a' ++ b') : a = a' ∧ b = b' := by
  have hcut {a b : List α} (ha : x ∉ a) (hb : b = [] ∨ b.head? = some x) :
      (a ++ b).takeWhile (· != x) = a := by
    have hall : ∀ y ∈ a, (y != x) = true := by
      intro y hy
      rw [bne_iff_ne]
      rintro rfl
      exact ha hy
    have hnone : b.takeWhile (· != x) = [] := by
      cases b with
      | nil => rfl
      | cons y rest =>
        rcases hb with hb | hb
        · cases hb
        · obtain rfl := Option.some.inj hb
          exact List.takeWhile_cons_of_neg (by rw [bne_self_eq_false]; exact Bool.false_ne_true)
    rw [List.takeWhile_append_of_pos hall, hnone, List.append_nil]
  have haa : a = a' := by
    rw [← hcut ha hb, h, hcut ha' hb']
  subst haa
  exact ⟨rfl, List.append_cancel_left h⟩

namespace Instruction

/-- What a listing may put behind an instruction: nothing, or something behind two blanks. -/
def Behind (r : List UInt8) : Prop :=
  r = [] ∨ ∃ rest, r = 0x20 :: 0x20 :: rest

/-- What stands behind the name of the opcode. -/
def operandBytes : Option Text → List UInt8
  | none => []
  | some operand => 0x20 :: operand.quoted.toList

theorem toList_text (i : Instruction) :
    i.text.toList = (Text.ofString i.op.name).toList ++ operandBytes i.operand := by
  obtain ⟨op, operand⟩ := i
  cases operand with
  | none => exact (List.append_nil _).symm
  | some operand =>
    show (Text.ofString op.name ++ Text.ofString " " ++ operand.quoted).toList = _
    rw [Text.toList_append, Text.toList_append, List.append_assoc]
    rfl

theorem newline_notMem_text (i : Instruction) : 0x0A ∉ i.text.toList := by
  rw [toList_text]
  intro h
  rcases List.mem_append.mp h with h | h
  · exact i.op.name_bytes _ h (by decide)
  · cases hoperand : i.operand with
    | none =>
      rw [hoperand] at h
      cases h
    | some operand =>
      rw [hoperand] at h
      rcases List.mem_cons.mp h with h | h
      · exact absurd h (by decide)
      · exact operand.newline_notMem_quoted h

/-- A quoted operand does not begin with a blank. -/
theorem quoted_append_ne (operand : Text) (r rest : List UInt8) :
    operand.quoted.toList ++ r ≠ 0x20 :: rest := by
  intro h
  rw [Text.toList_quoted, List.cons_append] at h
  exact absurd (List.cons.inj h).1 (by decide)

theorem operandBytes_head (operand : Option Text) {r : List UInt8} (hr : Behind r) :
    operandBytes operand ++ r = [] ∨ (operandBytes operand ++ r).head? = some 0x20 := by
  cases operand with
  | none =>
    rcases hr with rfl | ⟨rest, rfl⟩
    · exact .inl rfl
    · exact .inr rfl
  | some operand => exact .inr rfl

theorem operandBytes_inj {operand operand' : Option Text} {r r' : List UInt8} (hr : Behind r)
    (hr' : Behind r') (h : operandBytes operand ++ r = operandBytes operand' ++ r') :
    operand = operand' := by
  have hbare {s : List UInt8} (hs : Behind s) (t : Text) (u : List UInt8)
      (heq : s = 0x20 :: (t.quoted.toList ++ u)) : False := by
    rcases hs with rfl | ⟨rest, rfl⟩
    · cases heq
    · exact quoted_append_ne t u rest (List.cons.inj heq).2.symm
  cases operand with
  | none =>
    cases operand' with
    | none => rfl
    | some t => exact (hbare hr t r' h).elim
  | some s =>
    cases operand' with
    | none => exact (hbare hr' s r h.symm).elim
    | some t => exact congrArg some (Text.quoted_append_inj (List.cons.inj h).2).1

/-- The text of an instruction tells it, whatever a listing puts behind. -/
theorem text_append_inj {i k : Instruction} {r r' : List UInt8} (hr : Behind r) (hr' : Behind r')
    (h : i.text.toList ++ r = k.text.toList ++ r') : i = k := by
  rw [toList_text, toList_text, List.append_assoc, List.append_assoc] at h
  have hname {op : Opcode} : 0x20 ∉ (Text.ofString op.name).toList := fun hmem =>
    op.name_bytes _ hmem (by decide)
  obtain ⟨hop, hbehind⟩ := append_inj_of_notMem hname hname (operandBytes_head i.operand hr)
    (operandBytes_head k.operand hr') h
  have hoperand := operandBytes_inj hr hr' hbehind
  have hop := Opcode.name_inj hop
  cases i
  cases k
  exact congr (congrArg mk hop) hoperand

end Instruction

/-!
## Lines
-/

namespace Program

/-- The byte that ends a line. -/
def newline : UInt8 := 0x0A

theorem le_widest {t : Text} {texts : List Text} (h : t ∈ texts) : t.size ≤ widest texts := by
  have hfrom (texts : List Text) (w : Nat) :
      w ≤ texts.foldl (fun w t => max w t.size) w ∧
        ∀ t ∈ texts, t.size ≤ texts.foldl (fun w t => max w t.size) w := by
    induction texts generalizing w with
    | nil => exact ⟨Nat.le_refl w, nofun⟩
    | cons u rest ih =>
      obtain ⟨hw, hrest⟩ := ih (max w u.size)
      refine ⟨Nat.le_trans (Nat.le_max_left ..) hw, fun t ht => ?_⟩
      rcases List.mem_cons.mp ht with rfl | ht
      · exact Nat.le_trans (Nat.le_max_right ..) hw
      · exact hrest t ht
  exact (hfrom texts 0).2 t h

variable {p q : Program}

/-- The length of the longest instruction. -/
def width (p : Program) : Nat :=
  widest (p.code.toList.map Instruction.text)

/-- The note behind an instruction. -/
abbrev note (p : Program) (n : Nat) : Text :=
  p.annotation n

/-- The length of the longest note. -/
def noteWidth (p : Program) : Nat :=
  widest ((List.range p.size).map p.note)

/-- How many blanks stand between an instruction and its note. -/
def padding (p : Program) (i : Instruction) (note : Text) : Int :=
  p.width - i.text.size + 2 + (p.noteWidth - note.size)

/-- What stands behind an instruction on its line. -/
def behind (p : Program) (i : Instruction) (note : Text) : List UInt8 :=
  if note.isEmpty then []
  else List.replicate (p.padding i note).toNat 0x20 ++ note.toList

/-- The lines of the listing without their ends. -/
def lines (p : Program) : List (List UInt8) :=
  List.zipWith (fun i note => i.text.toList ++ p.behind i note) p.code.toList
    ((List.range p.size).map p.note)

theorem length_lines (p : Program) : p.lines.length = p.code.size := by
  rw [lines, List.length_zipWith, List.length_map, List.length_range, Array.length_toList]
  exact Nat.min_self _

theorem getElem_lines {n : Nat} (hn : n < p.code.size) (h : n < p.lines.length) :
    p.lines[n] = p.code[n].text.toList ++ p.behind p.code[n] (p.note n) := by
  simp only [lines, List.getElem_zipWith, List.getElem_map, List.getElem_range,
    Array.getElem_toList]

/-- The widths are those of the widest, so there is room for the blanks. -/
theorem two_le_padding {n : Nat} (hn : n < p.code.size) :
    2 ≤ p.padding p.code[n] (p.note n) := by
  have hline : (p.code[n]).text.size ≤ p.width :=
    le_widest (List.mem_map_of_mem (Array.getElem_mem_toList hn))
  have hnote : (p.note n).size ≤ p.noteWidth :=
    le_widest (List.mem_map_of_mem (List.mem_range.mpr hn))
  unfold padding
  omega

theorem toList_blanks (n : Nat) : (Text.blanks n).toList = List.replicate n 0x20 := by
  rw [Text.blanks, Text.toList_replicate]
  exact List.flatten_replicate_singleton

/-- A line of the listing, with its end. -/
theorem toList_listingLine {n : Nat} (hn : n < p.code.size) :
    (listingLine p.width p.noteWidth (p.code[n]).text (p.note n)).toList =
      (p.code[n]).text.toList ++ p.behind p.code[n] (p.note n) ++ [newline] := by
  have hline : (p.code[n]).text.size ≤ p.width :=
    le_widest (List.mem_map_of_mem (Array.getElem_mem_toList hn))
  have hnote : (p.note n).size ≤ p.noteWidth :=
    le_widest (List.mem_map_of_mem (List.mem_range.mpr hn))
  have hpadding : (p.padding p.code[n] (p.note n)).toNat =
      p.width - (p.code[n]).text.size + 2 + (p.noteWidth - (p.note n).size) := by
    unfold padding
    omega
  unfold listingLine behind
  split
  next h =>
    rw [List.append_nil, Text.toList_append]
    rfl
  next h =>
    rw [Text.toList_append, Text.toList_append, Text.toList_append, toList_blanks, hpadding,
      ← List.append_assoc]
    rfl

/-- The listing is its lines, each with an end. -/
theorem toList_listing (p : Program) : p.listing.toList = p.lines.flatMap (· ++ [newline]) := by
  have hlines : (List.zipWith (listingLine p.width p.noteWidth)
      (p.code.toList.map Instruction.text) ((List.range p.size).map p.note)).map Text.toList =
        p.lines.map (· ++ [newline]) := by
    apply List.ext_getElem
    · simp only [lines, List.length_map, List.length_zipWith]
    · intro n hn hn'
      have hsize : n < p.code.size := by
        rw [List.length_map, length_lines] at hn'
        exact hn'
      rw [List.getElem_map, List.getElem_map, List.getElem_zipWith, getElem_lines hsize]
      simp only [List.getElem_map, List.getElem_range, Array.getElem_toList]
      exact toList_listingLine hsize
  show (Text.concat _).toList = _
  rw [Text.toList_concat, List.flatMap_def, List.flatMap_def]
  exact congrArg List.flatten hlines

/-!
## Reading a listing
-/

/-- The kinds of the nodes stand on one line each. -/
def KindsInLine (p : Program) : Prop :=
  ∀ e ∈ p.debug, newline ∉ e.kind.toList

theorem newline_notMem_note (h : p.KindsInLine) (n : Nat) :
    newline ∉ (p.note n).toList := by
  intro hmem
  rcases Text.mem_toList_join hmem with hsep | ⟨part, hpart, hmem⟩
  · exact absurd hsep (by decide)
  obtain ⟨e, he, rfl⟩ := List.mem_map.mp hpart
  have he : e ∈ p.debug := (List.mem_filter.mp (List.mem_mergeSort.mp he)).1
  rw [Text.toList_append] at hmem
  rcases List.mem_append.mp hmem with hplus | hkind
  · exact absurd hplus (by decide)
  · exact h e he hkind

theorem newline_notMem_behind (h : p.KindsInLine) (i : Instruction) (n : Nat) :
    newline ∉ p.behind i (p.note n) := by
  unfold behind
  split
  · exact List.not_mem_nil
  · intro hmem
    rcases List.mem_append.mp hmem with hblank | hnote
    · exact absurd (List.eq_of_mem_replicate hblank) (by decide)
    · exact newline_notMem_note h n hnote

theorem newline_notMem_lines (h : p.KindsInLine) : ∀ line ∈ p.lines, newline ∉ line := by
  intro line hline hmem
  obtain ⟨n, hn, rfl⟩ := List.getElem_of_mem hline
  rw [getElem_lines (length_lines p ▸ hn)] at hmem
  rcases List.mem_append.mp hmem with htext | hbehind
  · exact Instruction.newline_notMem_text _ htext
  · exact newline_notMem_behind h _ n hbehind

/-- Lines that end with `x` and do not hold it are found again by splitting at it. -/
theorem splitOn_ended {x : UInt8} {lines : List (List UInt8)} (h : ∀ line ∈ lines, x ∉ line) :
    (lines.flatMap (· ++ [x])).splitOn x = lines ++ [[]] := by
  induction lines with
  | nil => rfl
  | cons line rest ih =>
    have hline : ∀ b ∈ line, (b == x) = false := by
      intro b hb
      rw [beq_eq_false_iff_ne]
      rintro rfl
      exact h line List.mem_cons_self hb
    have hrest := ih fun l hl => h l (List.mem_cons_of_mem _ hl)
    rw [List.flatMap_cons, List.append_assoc, List.splitOn_eq_splitOnP, List.singleton_append,
      List.splitOnP_append_cons_of_forall_mem hline x (beq_self_eq_true x),
      ← List.splitOn_eq_splitOnP, hrest, List.cons_append]

theorem splitOn_listing (h : p.KindsInLine) :
    p.listing.toList.splitOn newline = p.lines ++ [[]] := by
  rw [toList_listing, splitOn_ended (newline_notMem_lines h)]

/-- What stands behind an instruction can be told from its operand. -/
theorem behind_spec {n : Nat} (hn : n < p.code.size) :
    Instruction.Behind (p.behind p.code[n] (p.note n)) := by
  unfold behind
  split
  · exact .inl rfl
  · have hpadding := two_le_padding hn
    obtain ⟨k, hk⟩ : ∃ k, (p.padding p.code[n] (p.note n)).toNat = k + 2 :=
      ⟨(p.padding p.code[n] (p.note n)).toNat - 2, by omega⟩
    rw [hk]
    exact .inr ⟨_, rfl⟩

/-- The lines tell the instructions. -/
theorem code_eq_of_lines_eq (h : p.lines = q.lines) : p.code = q.code := by
  have hsize : p.code.size = q.code.size := by
    have hlength := congrArg List.length h
    rwa [length_lines, length_lines] at hlength
  apply Array.ext hsize
  intro n hp hq
  have hline : p.lines[n]? = q.lines[n]? := congrArg (·[n]?) h
  have hlp : n < p.lines.length := (length_lines p).symm ▸ hp
  have hlq : n < q.lines.length := (length_lines q).symm ▸ hq
  rw [List.getElem?_eq_getElem hlp, List.getElem?_eq_getElem hlq, getElem_lines hp,
    getElem_lines hq] at hline
  exact Instruction.text_append_inj (behind_spec hp) (behind_spec hq) (Option.some.inj hline)

/-- A listing in columns: one line an instruction, in which the instruction's text stands alone or is
followed by blanks, as many as the widths say, and the note; all lines with notes are of one length. -/
structure InColumns (p : Program) : Prop where
  lines : p.listing.toList.splitOn newline = p.lines ++ [[]]
  count : p.lines.length = p.code.size
  padding : ∀ n (hn : n < p.code.size), 0 ≤ p.padding p.code[n] (p.note n)
  bare : ∀ n (hn : n < p.code.size), (p.note n).isEmpty = true →
    p.lines[n]? = some (p.code[n]).text.toList
  annotated : ∀ n (hn : n < p.code.size), (p.note n).isEmpty = false →
    ∃ blanks : Nat, (blanks : Int) = p.padding p.code[n] (p.note n) ∧
      p.lines[n]? = some ((p.code[n]).text.toList ++
        (List.replicate blanks 0x20 ++ (p.note n).toList))
  column : ∃ length, ∀ n line, p.lines[n]? = some line → (p.note n).isEmpty = false →
    line.length = length

theorem inColumns (h : p.KindsInLine) : p.InColumns where
  lines := splitOn_listing h
  count := length_lines p
  padding n hn := Int.le_trans (by decide) (two_le_padding hn)
  bare n hn hnote := by
    rw [List.getElem?_eq_getElem ((length_lines p).symm ▸ hn), getElem_lines hn, behind,
      if_pos hnote, List.append_nil]
  annotated n hn hnote := by
    have hpadding := two_le_padding hn
    refine ⟨(p.padding p.code[n] (p.note n)).toNat, by omega, ?_⟩
    rw [List.getElem?_eq_getElem ((length_lines p).symm ▸ hn), getElem_lines hn, behind,
      if_neg (by rw [hnote]; exact Bool.false_ne_true)]
  column := by
    refine ⟨p.width + 2 + p.noteWidth, fun n line hline hnote => ?_⟩
    obtain ⟨hn, rfl⟩ := List.getElem?_eq_some_iff.mp hline
    have hn : n < p.code.size := length_lines p ▸ hn
    have hpadding := two_le_padding hn
    rw [getElem_lines hn, behind, if_neg (by rw [hnote]; exact Bool.false_ne_true),
      List.length_append, List.length_append, List.length_replicate, Text.length_toList,
      Text.length_toList]
    unfold Program.padding at hpadding ⊢
    omega

/-- Programs with the same listing have the same code, and listings are in columns. -/
theorem listing_determines_code (hp : p.KindsInLine) (hq : q.KindsInLine) :
    (p.listing = q.listing → p.code = q.code) ∧ p.InColumns := by
  refine ⟨fun h => ?_, inColumns hp⟩
  have hlines := splitOn_listing hp
  rw [h, splitOn_listing hq] at hlines
  exact code_eq_of_lines_eq (List.append_cancel_right hlines.symm)

/-- Operands that look like a line end with a note behind it, and an unassigned opcode with bytes that
are no text. -/
def imitating : Array Instruction :=
  #[.string "a\"\n  + Kind", ⟨⟨0xFF⟩, some (Text.ofList [0xFF, 0x22])⟩, .bare .pop]

/-- One node of a length at the beginning, whose kind reads like two. -/
def noted (length : Int) : Program :=
  ⟨imitating, [⟨length, length, .zero, "Outer + Inner"⟩]⟩

theorem note_noted (n : Nat) : (noted 1).note n = (noted 3).note n := by
  have hstart (length : Int) :
      (noted length).startingAt n =
        if 0 < length ∧ n = 0 then [⟨length, length, .zero, "Outer + Inner"⟩] else [] := by
    have hzero : Number.wrapWord (length - length) = 0 := by
      rw [Int.sub_self]
      rfl
    simp only [startingAt, noted, DebugEntry.start, hzero, List.filter_cons, List.filter_nil,
      Bool.and_eq_true, decide_eq_true_eq, beq_iff_eq]
    by_cases h : 0 < length ∧ n = 0
    · rw [if_pos h, if_pos ⟨h.1, by omega⟩, List.mergeSort_singleton]
    · rw [if_neg h, if_neg fun h' => h ⟨h'.1, by omega⟩, List.mergeSort_nil]
  unfold note annotation
  rw [hstart, hstart]
  by_cases hn : n = 0
  · rw [if_pos ⟨by decide, hn⟩, if_pos ⟨by decide, hn⟩]
    rfl
  · rw [if_neg fun h => hn h.2, if_neg fun h => hn h.2]

theorem listing_determines_code_noted :
    (noted 1).listing = (noted 3).listing ∧ (noted 1).code = (noted 3).code ∧
      (noted 1).InColumns := by
  have hnoted (length : Int) : (noted length).KindsInLine := by
    intro e he
    obtain rfl := List.mem_singleton.mp he
    show newline ∉ (Text.ofString "Outer + Inner").toList
    decide
  have hlisting : (noted 1).listing = (noted 3).listing := by
    unfold listing
    rw [show Program.annotation (noted 1) = Program.annotation (noted 3) from funext note_noted]
    rfl
  obtain ⟨hcode, hcolumns⟩ := listing_determines_code (hnoted 1) (hnoted 3)
  exact ⟨hlisting, hcode hlisting, hcolumns⟩

end Program
end ScriptEngine
